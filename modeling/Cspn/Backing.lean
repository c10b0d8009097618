import Cspn.Disconnect
import Cspn.MnChain

/-!
The coins behind the masternodes. A masternode is listed as long as its collateral of 1337 coins is unspent. The
masternode of a spent collateral is looked up in the parent's list, where one that the same block registers is not
found. In a chain where no block spends a collateral that it registers, every listed masternode is backed.
-/
namespace Cspn.Backing
open Primitives Coins Coins.CCoinsView Index MnList MnBuild MnChange List Option Overwrite Growth Disconnect
  MnManager.CDeterministicMNManager
open MnChain Validation Env ProviderTx Connect BlockCheck

def Pays (txs : List CTransaction) (o : COutPoint) (out : CTxOut) : Prop :=
  ∃ tx ∈ txs, ∃ n, o = tx.outpoint n ∧ tx.vout[n]? = some out

variable {o : COutPoint}
  {txs all : List CTransaction} {tx : CTransaction} {ext : Externals} {block : CBlock} {pindexPrev : CBlockIndex}
  {blocks : List CBlock}

theorem Pays.unique {out other : CTxOut} (ids : DistinctIds txs)
    (pays : Pays txs o out) (also : Pays txs o other) : out = other := by
  obtain ⟨tx, member, n, rfl, found⟩ := pays
  obtain ⟨tx', member', n', same, found'⟩ := also
  simp only [CTransaction.outpoint, COutPoint.mk.injEq] at same
  obtain ⟨hash, rfl⟩ := same
  have outputs := congrArg CTransaction.vout (ids tx member tx' member' hash)
  change tx.vout = tx'.vout at outputs
  rw [outputs, found'] at found
  exact (some.inj found).symm

def Made (txs : List CTransaction) (view : CCoinsView) : Prop :=
  ∀ {o coin}, view.coins o = some coin → Pays txs o coin.out

theorem Made.update {view after : CCoinsView} {nHeight : Nat}
    {vprevout : List Coin} (made : Made txs view) (member : tx ∈ txs)
    (updates : Updates view tx nHeight vprevout after) : Made txs after := by
  intro o coin found
  rcases updates.coins_cases found with new | ⟨before, -⟩
  · obtain ⟨n, out, output, -, same⟩ := mem_newCoins.mp new
    cases same
    exact ⟨tx, member, n, rfl, output⟩
  · exact made before

section
variable {i : Nat} {tally final : Tally} (connected : connectTxs ext block pindexPrev i txs tally = .ok final)
include connected

theorem connectTxs_made (inside : txs ⊆ all) (made : Made all tally.view) : Made all final.view := by
  refine connectTxs_induction (motive := fun _ txs tally => txs ⊆ all → Made all tally.view → Made all final.view)
    connected (fun _ _ made => made) ?_ inside made
  intro i tx rest tally after step ih inside made
  obtain ⟨member, inside⟩ := cons_subset.mp inside
  obtain ⟨vprevout, updated, -⟩ := step.updated
  exact ih inside (made.update member (updateCoins_updates updated))

theorem connectTxs_unspent (unspent : ∀ tx ∈ txs, o ∉ spentBy tx) (source : (tally.view.coins o).isSome ∨
      ∃ tx ∈ txs, ∃ n out, o = tx.outpoint n ∧ tx.vout[n]? = some out ∧ isUnspendable out.scriptPubKey = false) :
    (final.view.coins o).isSome := by
  refine connectTxs_induction (motive := fun _ txs tally => (∀ tx ∈ txs, o ∉ spentBy tx) →
    ((tally.view.coins o).isSome ∨ ∃ tx ∈ txs, ∃ n out, o = tx.outpoint n ∧ tx.vout[n]? = some out ∧
      isUnspendable out.scriptPubKey = false) → (final.view.coins o).isSome) connected ?_ ?_ unspent source
  · rintro _ - (present | ⟨tx, none, -⟩)
    · exact present
    · cases none
  · intro i tx rest tally after step ih unspent source
    obtain ⟨here, later⟩ := forall_mem_cons.mp unspent
    obtain ⟨vprevout, updated, -⟩ := step.updated
    have updates := updateCoins_updates updated
    apply ih later
    rcases source with present | ⟨creator, member, n, out, rfl, output, spendable⟩
    · exact .inl (updates.isSome_of_unspent present here)
    rcases mem_cons.mp member with rfl | member
    · exact .inl (by rw [updates.coins_new output spendable]; rfl)
    · exact .inr ⟨creator, member, n, out, rfl, output, spendable⟩

end

def KeepsCollaterals (block : CBlock) : Prop :=
  ∀ tx ∈ block.vtx.tail, ∀ ptx, Carries [tx] TRANSACTION_PROVIDER_REGISTER (.proRegTx ptx) →
    ∀ spender ∈ block.vtx.tail, ∀ txin ∈ spender.vin, txin.prevout ≠ (registeredMN tx ptx 0 0).collateralOutpoint

section
variable {env : BuildEnv} {prevout : COutPoint} {oldList confirmed processed list after : CDeterministicMNList}
  {p : Uint256} {dmn : CDeterministicMN}

theorem spendCollateral_collateral {nHeight : Int} (indexed : Indexed env.hashing list)
    (spent : spendCollateral env oldList nHeight list prevout = some after) (found : after.mnMap[p]? = some dmn) :
    ∃ before, list.mnMap[p]? = some before ∧ before.collateralOutpoint = dmn.collateralOutpoint := by
  unfold spendCollateral at spent
  split at spent
  · cases spent; exact ⟨dmn, found, rfl⟩
  next holder looked =>
    split at spent
    · cases spent; exact ⟨dmn, found, rfl⟩
    split at spent
    · obtain ⟨-, gone, -, shape⟩ := indexed.removeMN spent
      rw [shape] at found
      exact ⟨dmn, (erase_cases found).2, rfl⟩
    · obtain ⟨listed, -⟩ := indexed.getUniquePropertyMN_eq_some.mp looked
      have owner : (revokedState nHeight REASON_NOT_SPECIFIED holder.pdmnState).keyIDOwner ≠ 0 :=
        (keeps_reset nHeight holder.pdmnState).owner ▸ (indexed.nonNull listed).2
      obtain ⟨-, old, listed', shape⟩ := indexed.updateMN spent owner
      rw [shape] at found
      rcases insert_cases found with ⟨rfl, rfl⟩ | ⟨-, present⟩
      · exact ⟨old, listed', rfl⟩
      · exact ⟨dmn, present, rfl⟩

section
variable (keeps : KeepsCollaterals block) (indexed : Indexed env.hashing oldList)
  (confirms : Confirms env pindexPrev oldList confirmed)
include keeps indexed confirms

theorem spendCollateral_removes (built : Built env.hashing confirmed (pindexPrev.nHeight + 1) block.vtx.tail list)
    (found : list.mnMap[p]? = some dmn) {spender : CTransaction} (inBlock : spender ∈ block.vtx.tail) {txin : CTxIn}
    (input : txin ∈ spender.vin) (collateral : txin.prevout = dmn.collateralOutpoint)
    (spent : spendCollateral env oldList (pindexPrev.nHeight + 1) list txin.prevout = some after) :
    after.mnMap[p]? = none := by
  rcases built.collateral confirms found with ⟨old, listed, same⟩ | ⟨tx, member, ptx, carried, same⟩
  · have looked := built.indexed.getMNByCollateral_of_listed found
    have lookedOld := indexed.getMNByCollateral_of_listed listed
    rw [same] at lookedOld
    rw [spendCollateral, collateral, looked] at spent
    simp only [ne_eq, not_true_eq_false, ↓reduceIte, lookedOld] at spent
    obtain ⟨-, gone, -, shape⟩ := built.indexed.removeMN spent
    rw [shape, indexed.keyed listed]
    simp
  · exact absurd (collateral.trans same.symm) (keeps tx member ptx carried spender inBlock txin input)

theorem spendCollaterals_removes (built : Built env.hashing confirmed (pindexPrev.nHeight + 1) block.vtx.tail processed)
    (spent : (block.vtx.tail.flatMap fun tx => tx.vin.map CTxIn.prevout).foldlM
      (spendCollateral env oldList (pindexPrev.nHeight + 1)) processed = some after)
    (found : after.mnMap[p]? = some dmn) :
    dmn.collateralOutpoint ∉ block.vtx.tail.flatMap fun tx => tx.vin.map CTxIn.prevout := by
  -- a masternode whose collateral is an input is still to be met by the loop
  let P (rest : List COutPoint) (list : CDeterministicMNList) : Prop :=
    Built env.hashing confirmed (pindexPrev.nHeight + 1) block.vtx.tail list ∧
      (rest ⊆ block.vtx.tail.flatMap fun tx => tx.vin.map CTxIn.prevout) ∧
      ∀ (p : Uint256) dmn, list.mnMap[p]? = some dmn →
        dmn.collateralOutpoint ∈ (block.vtx.tail.flatMap fun tx => tx.vin.map CTxIn.prevout) →
          dmn.collateralOutpoint ∈ rest
  have final : P [] after := by
    refine Folds.foldlM_some_rest (P := P) ?_ ⟨built, fun _ member => member, fun _ _ _ input => input⟩ spent
    rintro prevout rest x y ⟨built, inside, pending⟩ step
    obtain ⟨here, inside⟩ := cons_subset.mp inside
    refine ⟨Built.stable.spendCollateral built step, inside, ?_⟩
    intro q dmn present input
    obtain ⟨before, listed, same⟩ := spendCollateral_collateral built.indexed step present
    rcases mem_cons.mp (pending q before listed (same ▸ input)) with spentNow | later
    · obtain ⟨spender, inBlock, isInput⟩ := mem_flatMap.mp here
      obtain ⟨txin, member, rfl⟩ := mem_map.mp isInput
      rw [spendCollateral_removes keeps indexed confirms built listed inBlock member spentNow.symm step] at present
      cases present
    · exact same ▸ later
  intro input
  exact absurd (final.2.2 p dmn found input) (by simp)

end

end

/-! ### Chains -/

structure NodeTip where
  pindex : CBlockIndex
  view : CCoinsView
  list : CDeterministicMNList

inductive NodeStep (params : Params) (h : Hashing) : NodeTip → CBlock → NodeTip → Prop where
  | connect {env : ProviderEnv} {ext : Externals} {front : Option (Wallet env.hash160)} {g : Globals} {block : CBlock}
      {pindexPrev : CBlockIndex} {fields : IndexFields} {view : CCoinsView} {list newList : CDeterministicMNList}
      {c : Connection} (hashing : ext.hashing = h) (active : g.chainActive.tip = some pindexPrev)
      (coins : g.pcoinsTip.coins = view.coins) (stored : g.getListForBlock pindexPrev = list)
      (connected : connectBlock params (withProviders env ext front) g block pindexPrev fields view false = .ok c)
      (built : buildNewListFromBlock (buildEnv params ext g) block pindexPrev list = .ok newList) :
      NodeStep params h ⟨pindexPrev, view, list⟩ block
        ⟨.next pindexPrev c.fields, c.view, { newList with blockHash := block.hash }⟩

inductive IsNodeChain (params : Params) (h : Hashing) : List CBlock → NodeTip → Prop where
  | genesis (fields : IndexFields) (hash : fields.phashBlock = params.hashGenesisBlock) :
      IsNodeChain params h [] ⟨.genesis fields, empty fields.phashBlock, emptyList (.genesis fields)⟩
  | connect {blocks : List CBlock} {tip next : NodeTip} {block : CBlock} (chain : IsNodeChain params h blocks tip)
      (step : NodeStep params h tip block next) : IsNodeChain params h (block :: blocks) next

/-- The collateral of the masternode is an unspent output of 1337 coins. -/
def Backed (view : CCoinsView) (dmn : CDeterministicMN) : Prop :=
  ∃ coin, view.coins dmn.collateralOutpoint = some coin ∧ coin.out.nValue = 1337 * COIN

variable {tip : NodeTip}

section
variable {params : Params} {h : Hashing} {next : NodeTip}

theorem IsNodeChain.isMnChain (chain : IsNodeChain params h blocks tip) : IsMnChain params h blocks ⟨tip.pindex, tip.list⟩ := by
  induction chain with
  | genesis fields hash => exact .genesis fields
  | connect _ step ih =>
    obtain ⟨hashing, active, coins, stored, connected, built⟩ := step
    obtain ⟨hash, -, special⟩ := connectBlock_facts connected
    exact .connect ih (.connect hashing stored (fun tx member => (special.each tx member).1) built hash)

theorem NodeStep.backed (step : NodeStep params h tip block next) (indexed : Indexed h tip.list)
    (keeps : KeepsCollaterals block) (ids : DistinctIds all) (inside : block.vtx ⊆ all)
    (made : Made all tip.view) (backed : ∀ dmn ∈ tip.list.forEachMN false, Backed tip.view dmn) :
    Made all next.view ∧ ∀ dmn ∈ next.list.forEachMN false, Backed next.view dmn := by
  cases step with
  | @connect env ext front g _ pindexPrev fields view list newList c hashing active coins stored connected built =>
    subst hashing
    obtain ⟨-, -, special⟩ := connectBlock_facts connected
    obtain ⟨stake, tally, -, -, connects, rfl⟩ := connectBlock_ok connected
    have madeAfter : Made all tally.view := connectTxs_made connects.txs inside made
    refine ⟨madeAfter, ?_⟩
    intro dmn member
    obtain ⟨p, listed⟩ := mem_forEachMN.mp member
    obtain ⟨confirmed, decreased, processed, spent, phases⟩ := buildNewListFromBlock_phases built
    obtain ⟨indexedConfirmed, height, confirms⟩ := confirmMNs_eq indexed phases.confirm
    obtain ⟨middle, last⟩ := phases.built indexedConfirmed height
    obtain ⟨-, pays⟩ := payMN_spec last.indexed phases.pay
    rw [pays] at listed
    obtain ⟨dmn, found, rfl⟩ := map_eq_some_iff.mp listed
    have same : (paidDmn list (pindexPrev.nHeight + 1) dmn).collateralOutpoint = dmn.collateralOutpoint := by
      unfold paidDmn
      split <;> rfl
    obtain ⟨coinbase, rest, ok⟩ := beforeTxs_checkBlock connects.before
    have untouched := spendCollaterals_removes keeps indexed confirms middle phases.spend found
    have unspent : ∀ tx ∈ block.vtx, dmn.collateralOutpoint ∉ spentBy tx := by
      rw [ok.vtx] at untouched ⊢
      refine forall_mem_cons.mpr ⟨by simp [spentBy, ok.isCoinBase], ?_⟩
      intro tx inRest input
      rw [spentBy, if_neg (by simp [ok.others tx inRest])] at input
      exact untouched (mem_flatMap.mpr ⟨tx, inRest, input⟩)
    -- whatever coin is left at the outpoint, it is the output that the transactions of the chain have there
    have settle : ∀ out, Pays all dmn.collateralOutpoint out → out.nValue = 1337 * COIN →
        (tally.view.coins dmn.collateralOutpoint).isSome → Backed tally.view (paidDmn list (pindexPrev.nHeight + 1) dmn) := by
      intro out paid value present
      obtain ⟨coin, left⟩ := isSome_iff_exists.mp present
      exact ⟨coin, by rw [same]; exact left, by rw [(madeAfter left).unique ids paid]; exact value⟩
    have before : ∀ coin, view.coins dmn.collateralOutpoint = some coin → coin.out.nValue = 1337 * COIN →
        Backed tally.view (paidDmn list (pindexPrev.nHeight + 1) dmn) := by
      intro coin present value
      exact settle coin.out (made present) value
        (connectTxs_unspent connects.txs unspent (.inl (isSome_iff_exists.mpr ⟨coin, present⟩)))
    rcases last.collateral confirms found with ⟨old, listedOld, sameOld⟩ | ⟨tx, inTail, ptx, carried, sameNew⟩
    · obtain ⟨coin, present, value⟩ := backed old (mem_forEachMN.mpr ⟨p, listedOld⟩)
      exact before coin (sameOld ▸ present) value
    have inBlock := mem_of_mem_tail inTail
    obtain ⟨_, single, version, type, payload⟩ := carried
    cases mem_singleton.mp single
    have passed := checkSpecialTx_provider version (by rw [type]; decide) (special.each tx inBlock).1
    rw [checkProviderTx, if_pos type] at passed
    obtain ⟨-, ptx', collateral, payload', -, registered, -⟩ := checkProRegTx_eq_ok.mp passed
    rw [payload] at payload'
    cases payload'
    have source := findCollateral_ok registered
    split at source
    next outside =>
      obtain ⟨coin, present, value⟩ := source
      simp only [registeredMN, outside, ↓reduceIte] at sameNew
      rw [sameNew] at present
      exact before coin (coins ▸ present) value
    next internal =>
      obtain ⟨out, output, value, spendable⟩ := source
      have here := sameNew.symm
      simp only [registeredMN, not_not.mp internal, ↓reduceIte] at here
      exact settle out ⟨tx, inside inBlock, _, here, output⟩ value
        (connectTxs_unspent connects.txs unspent (.inr ⟨tx, inBlock, _, out, here, output, spendable⟩))

theorem IsNodeChain.backed (chain : IsNodeChain params h blocks tip) (ids : DistinctIds all)
    (inside : ∀ block ∈ blocks, block.vtx ⊆ all) (keeps : ∀ block ∈ blocks, KeepsCollaterals block) :
    Made all tip.view ∧ ∀ dmn ∈ tip.list.forEachMN false, Backed tip.view dmn := by
  induction chain with
  | genesis fields hash =>
    refine ⟨fun found => (by cases found), ?_⟩
    intro dmn member
    obtain ⟨p, listed⟩ := mem_forEachMN.mp member
    simp [emptyList] at listed
  | connect chain step ih =>
    obtain ⟨here, below⟩ := forall_mem_cons.mp inside
    obtain ⟨keepsHere, keepsBelow⟩ := forall_mem_cons.mp keeps
    obtain ⟨made, backed⟩ := ih below keepsBelow
    exact step.backed chain.isMnChain.indexed keepsHere ids here made backed

end

/-! ### A chain of the main network -/

def mainGenesis : CBlockIndex := .genesis { phashBlock := hashGenesis }

def mainStep (tip : NodeTip) (block : CBlock) : Result NodeTip :=
  let g := sampleGlobals tip.view ⟨tip.pindex, tip.list⟩
  (contextualCheckBlock sampleExt block tip.pindex).bind fun _ =>
  (connectBlock mainParams (withProviders sampleProviderEnv sampleExt (some (Wallet.empty _))) g block tip.pindex
    { phashBlock := block.hash, nStakeModifierChecksum := 1 } tip.view false).bind fun c =>
  (buildNewListFromBlock (buildEnv mainParams sampleExt g) block tip.pindex tip.list).bind fun newList =>
  .ok ⟨.next tip.pindex c.fields, c.view, { newList with blockHash := block.hash }⟩

def mainRun : List CBlock → Result NodeTip
  | [] => .ok ⟨mainGenesis, empty hashGenesis, emptyList mainGenesis⟩
  | block :: blocks => (mainRun blocks).bind fun tip => mainStep tip block

theorem mainRun_isNodeChain (run : mainRun blocks = .ok tip) : IsNodeChain mainParams pairHashing blocks tip := by
  induction blocks generalizing tip with
  | nil => cases run; exact .genesis _ rfl
  | cons block blocks ih =>
    obtain ⟨before, ran, step⟩ := bind_eq_ok.mp run
    obtain ⟨-, step⟩ := then_eq_ok.mp step
    obtain ⟨c, connected, step⟩ := bind_eq_ok.mp step
    obtain ⟨newList, built, step⟩ := bind_eq_ok.mp step
    cases step
    exact .connect (ih ran) (.connect rfl rfl rfl rfl connected built)

def fundingCoinbase (n : Nat) : CTransaction :=
  { plainCoinbase with vout := [⟨if n = 1 then 2000 * COIN else 0, payToKeyHash 5⟩], hash := 100 + n }

def fundingBlocks : List CBlock :=
  (range 10).reverse.map fun n => { vtx := [fundingCoinbase (n + 1)], hash := 200 + n }

def fundedRegistration : CTransaction := { insideRegistration with vin := [{ prevout := ⟨101, 0⟩ }] }

def collateralSpender : CTransaction :=
  { vin := [{ prevout := ⟨6, 0⟩ }], vout := [⟨1336 * COIN, payToKeyHash 3⟩], hash := 7 }

def registeringBlock (others : List CTransaction) : CBlock :=
  { vtx := fundingCoinbase 11 :: fundedRegistration :: others, hash := 211 }

/-- Where no block spends a collateral that it registers, every listed masternode is backed after every block. -/
theorem masternodes_backed {params : Params} {h : Hashing} {blocks : List CBlock} {tip : NodeTip}
    (chain : IsNodeChain params h blocks tip)
    (ids : DistinctIds (blocks.flatMap CBlock.vtx)) (keeps : ∀ block ∈ blocks, KeepsCollaterals block) :
    ∀ dmn ∈ tip.list.forEachMN false, Backed tip.view dmn :=
  (chain.backed ids (fun block member _ inside => mem_flatMap.mpr ⟨block, member, inside⟩) keeps).2

theorem masternodes_backed_funded :
    ∃ tip, mainRun (registeringBlock [] :: fundingBlocks) = .ok tip ∧ (tip.list.forEachMN false).length = 1 ∧
      ∀ dmn ∈ tip.list.forEachMN false, Backed tip.view dmn := by
  obtain ⟨tip, run, test⟩ := (okAnd_iff (mainRun (registeringBlock [] :: fundingBlocks)) fun tip =>
    decide ((tip.list.forEachMN false).length = 1)).mp (by decide +kernel)
  refine ⟨tip, run, of_decide_eq_true test, masternodes_backed (mainRun_isNodeChain run) ?_ ?_⟩
  · exact distinctIds_of_nodup (by decide +kernel)
  · refine forall_mem_cons.mpr ⟨?_, ?_⟩
    · rintro tx member ptx ⟨_, same, -, -, payload⟩ spender inBlock txin input
      cases mem_singleton.mp same
      cases mem_singleton.mp member
      cases mem_singleton.mp inBlock
      cases mem_singleton.mp input
      cases payload
      decide
    · intro block member
      obtain ⟨n, -, rfl⟩ := mem_map.mp member
      rintro tx ⟨⟩

/-- A block registers a masternode and spends its collateral. The masternode stays in the list. -/
theorem masternode_unbacked : ∃ tip, mainRun (registeringBlock [collateralSpender] :: fundingBlocks) = .ok tip ∧
      IsNodeChain mainParams pairHashing (registeringBlock [collateralSpender] :: fundingBlocks) tip ∧
      ∃ dmn ∈ tip.list.forEachMN false, tip.view.coins dmn.collateralOutpoint = none := by
  obtain ⟨tip, run, test⟩ := (okAnd_iff (mainRun (registeringBlock [collateralSpender] :: fundingBlocks)) fun tip =>
    decide (∃ dmn ∈ tip.list.forEachMN false, tip.view.coins dmn.collateralOutpoint = none)).mp (by decide +kernel)
  exact ⟨tip, run, mainRun_isNodeChain run, of_decide_eq_true test⟩

end Cspn.Backing
