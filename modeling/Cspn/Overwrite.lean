import Cspn.Growth

/-!
Outputs that replace unspent ones. `ConnectBlock` looks for them only from a certain height on. A transaction with
inputs cannot come back, since its inputs stay spent (`Scope`). One without inputs is told apart by the height in its
payload: a coinbase from version 2 on, and a commitment from the activation height on.
-/
namespace Cspn.Overwrite
open Primitives Index Coins Coins.CCoinsView Validation Env BlockCheck List
  SpecialTx Connect Chain Growth Journal

def blockJournal (nHeight : Nat) : CCoinsView → List CTransaction → List (Change COutPoint Coin)
  | _, [] => []
  | view, tx :: rest =>
    match view.updateCoins tx nHeight with
    | none => []
    | some (vprevout, after) => txChanges tx nHeight vprevout ++ blockJournal nHeight after rest

/-- Some output of the block is added while its outpoint is unspent. -/
def BlockOverwrites (link : Link) : Prop :=
  Overwrites link.view.coins (blockJournal link.nHeight link.view link.block.vtx)

instance (link : Link) : Decidable (BlockOverwrites link) :=
  inferInstanceAs (Decidable (Overwrites link.view.coins (blockJournal link.nHeight link.view link.block.vtx)))

/-- The part of a transaction that its id commits to. -/
def stripped (tx : CTransaction) : CTransaction :=
  { tx with vin := tx.vin.map fun txin => { txin with scriptWitness := [] } }

def DistinctIds (txs : List CTransaction) : Prop :=
  ∀ tx ∈ txs, ∀ other ∈ txs, tx.hash = other.hash → stripped tx = stripped other

variable {txs done rest : List CTransaction} {base : COutPoint → Option Coin} {view after : CCoinsView}
  {tx coinbase : CTransaction} {nHeight : Nat} {vprevout : List Coin} {params : Params} {ext : Externals} {g : Globals}
  {block : CBlock} {pindexPrev p : CBlockIndex} {links : List Link}

theorem distinctIds_of_nodup (nodup : (txs.map CTransaction.hash).Nodup) : DistinctIds txs := by
  intro tx member other also same
  rw [inj_on_of_nodup_map nodup member also same]

theorem isCoinBase_stripped (tx : CTransaction) : (stripped tx).isCoinBase = tx.isCoinBase := by
  unfold CTransaction.isCoinBase stripped
  cases tx.vin with
  | nil => rfl
  | cons txin rest => cases rest <;> rfl

theorem spentBy_stripped (tx : CTransaction) : spentBy (stripped tx) = spentBy tx := by
  rw [spentBy, spentBy, isCoinBase_stripped]
  simp [stripped, Function.comp_def]

def stamp (tx : CTransaction) : Option Int :=
  if tx.isCoinBase then (cbTxPayload tx).map CCbTx.nHeight
  else (commitmentPayload tx).map fun qcTx => (qcTx.nHeight : Int)

theorem stamp_stripped (tx : CTransaction) : stamp (stripped tx) = stamp tx := by
  rw [stamp, stamp, isCoinBase_stripped]
  rfl

/-! ### Inputs stay spent -/

/-- A view after the transactions `done` on the coins `base`: an unspent outpoint was there at the start or belongs to
    one of them, and so did every outpoint that they spend, which stays spent. -/
structure Scope (base : COutPoint → Option Coin) (done : List CTransaction) (view : CCoinsView) : Prop where
  known : ∀ {o coin}, view.coins o = some coin → base o ≠ none ∨ ∃ tx ∈ done, tx.hash = o.hash
  origin : ∀ tx ∈ done, ∀ o ∈ spentBy tx, base o ≠ none ∨ ∃ other ∈ done, other.hash = o.hash
  spent : ∀ tx ∈ done, ∀ o ∈ spentBy tx, view.coins o = none

namespace Scope

section
variable (scope : Scope base done view) (fresh : ∀ other ∈ done, other.hash ≠ tx.hash)
  (unknown : ∀ entry ∈ newCoins tx nHeight, base entry.1 = none)
include scope fresh unknown

theorem not_overwrites : ¬ Overwrites view.coins (txChanges tx nHeight vprevout) := by
  rw [txChanges, spends_eq, overwrites_append, applyAll_removals, not_or,
    overwrites_additions (newCoins_nodup tx nHeight)]
  refine ⟨not_overwrites_removals _ _, ?_⟩
  rintro ⟨entry, added, old, found⟩
  rw [without] at found
  split at found
  · cases found
  · rcases scope.known found with old | ⟨other, member, same⟩
    · exact old (unknown entry added)
    · obtain ⟨_, _, -, -, rfl⟩ := mem_newCoins.mp added
      exact fresh other member same

end

theorem step (scope : Scope base done view) (updates : Updates view tx nHeight vprevout after)
    (fresh : ∀ other ∈ done, other.hash ≠ tx.hash) (unknown : ∀ entry ∈ newCoins tx nHeight, base entry.1 = none) :
    Scope base (tx :: done) after := by
  have older : ∀ {o : COutPoint}, (∃ other ∈ done, other.hash = o.hash) → ∃ other ∈ tx :: done, other.hash = o.hash := by
    rintro o ⟨other, member, same⟩
    exact ⟨other, .tail _ member, same⟩
  -- What is spent so far does not come back with the outputs of a transaction that is new.
  have gone : ∀ {o : COutPoint}, (base o ≠ none ∨ ∃ other ∈ done, other.hash = o.hash) → (o ∈ spentBy tx ∨ view.coins o = none) →
      after.coins o = none := by
    intro o origin absent
    refine Option.eq_none_iff_forall_ne_some.mpr fun coin found => ?_
    rcases updates.coins_cases found with new | ⟨old, unspent⟩
    · rcases origin with inBase | ⟨other, member, same⟩
      · exact inBase (unknown _ new)
      · obtain ⟨_, _, -, -, is⟩ := mem_newCoins.mp new
        cases is
        exact fresh other member same
    · rcases absent with spends | absent
      · exact unspent spends
      · rw [absent] at old; cases old
  refine ⟨fun found => ?_, forall_mem_cons.mpr ⟨fun o spends => ?_, fun other member o spends => ?_⟩,
    forall_mem_cons.mpr ⟨fun o spends => ?_, fun other member o spends => ?_⟩⟩
  · rcases updates.coins_cases found with new | ⟨old, -⟩
    · obtain ⟨_, _, -, -, is⟩ := mem_newCoins.mp new
      cases is
      exact .inr ⟨tx, .head _, rfl⟩
    · exact (scope.known old).imp_right older
  · obtain ⟨coin, found⟩ := updates.spentBy_found spends
    exact (scope.known found).imp_right older
  · exact (scope.origin other member o spends).imp_right older
  · obtain ⟨coin, found⟩ := updates.spentBy_found spends
    exact gone (scope.known found) (.inl spends)
  · exact gone (scope.origin other member o spends) (.inr (scope.spent other member o spends))

theorem setBestBlock (scope : Scope base done view) (hashBlock : Uint256) :
    Scope base done (view.setBestBlock hashBlock) := { scope with }

theorem start (view : CCoinsView) : Scope view.coins [] view where
  known found := .inl (by rw [found]; exact Option.some_ne_none _)
  origin _ member := by cases member
  spent _ member := by cases member

end Scope

/-- The transactions `txs` can follow `done` on the coins `base`: equal ids mean equal inputs, those that spend
    nothing have ids of their own, and no output names an outpoint of `base`. -/
structure Separate (base : COutPoint → Option Coin) (nHeight : Nat) (done txs : List CTransaction) : Prop where
  same : ∀ tx ∈ txs, ∀ other, other ∈ done ∨ other ∈ txs → other.hash = tx.hash → spentBy other = spentBy tx
  rootless : ∀ tx ∈ txs, spentBy tx = [] → ∀ other ∈ done, other.hash ≠ tx.hash
  apart : txs.Pairwise fun first second => spentBy second = [] → first.hash ≠ second.hash
  unknown : ∀ tx ∈ txs, ∀ entry ∈ newCoins tx nHeight, base entry.1 = none

namespace Separate

variable (separate : Separate base nHeight done (tx :: rest))
include separate

theorem tail : Separate base nHeight (tx :: done) rest where
  same next later other member := by
    refine separate.same next (.tail _ later) other ?_
    rcases member with known | here
    · rcases mem_cons.mp known with rfl | old
      · exact .inr (.head _)
      · exact .inl old
    · exact .inr (.tail _ here)
  rootless next later free := forall_mem_cons.mpr
    ⟨(pairwise_cons.mp separate.apart).1 next later free,
      separate.rootless next (.tail _ later) free⟩
  apart := (pairwise_cons.mp separate.apart).2
  unknown next later := separate.unknown next (.tail _ later)

theorem fresh (scope : Scope base done view) (updates : Updates view tx nHeight vprevout after) :
    ∀ other ∈ done, other.hash ≠ tx.hash := by
  intro other member equal
  cases spends : spentBy tx with
  | nil => exact separate.rootless tx (.head _) spends other member equal
  | cons o more =>
    have here : o ∈ spentBy tx := by rw [spends]; exact .head _
    obtain ⟨coin, found⟩ := updates.spentBy_found here
    rw [← separate.same tx (.head _) other (.inl member) equal] at here
    rw [scope.spent other member o here] at found
    cases found

end Separate

theorem connectTxs_scope {i : Nat} {tally final : Tally}
    (connected : connectTxs ext block pindexPrev i txs tally = .ok final)
    (separate : Separate base (pindexPrev.nHeight + 1) done txs) (scope : Scope base done tally.view) :
    ¬ Overwrites tally.view.coins (blockJournal (pindexPrev.nHeight + 1) tally.view txs) ∧
      Scope base (txs.reverse ++ done) final.view := by
  revert done
  refine connectTxs_induction (motive := fun _ txs tally => ∀ {done},
    Separate base (pindexPrev.nHeight + 1) done txs → Scope base done tally.view →
      ¬ Overwrites tally.view.coins (blockJournal (pindexPrev.nHeight + 1) tally.view txs) ∧
        Scope base (txs.reverse ++ done) final.view) connected ?_ ?_
  · intro _ done _ scope
    exact ⟨id, scope⟩
  · intro i tx rest tally after step ih done separate scope
    obtain ⟨vprevout, updated, -⟩ := step.updated
    have updates := updateCoins_updates updated
    have fresh := separate.fresh scope updates
    have unknown := separate.unknown tx (.head _)
    obtain ⟨others, final⟩ := ih separate.tail (scope.step updates fresh unknown)
    refine ⟨?_, by simpa using final⟩
    simp only [blockJournal, updated, overwrites_append, ← updates.coins, not_or]
    exact ⟨scope.not_overwrites fresh unknown, others⟩

/-- Below the height of the explicit check the coinbase names its height, and below the activation of the
    commitments every transaction has inputs. -/
structure Distinguishable (params : Params) (link : Link) : Prop where
  coinbase : link.nHeight < BIP34_IMPLIES_BIP30_LIMIT → ∀ tx ∈ link.block.vtx, tx.isCoinBase = true → 2 ≤ tx.nVersion
  inputs : link.nHeight < params.nLLMQActivationHeight → ∀ tx ∈ link.block.vtx, tx.vin ≠ []

theorem vin_of_rootless (free : spentBy tx = []) (ordinary : tx.isCoinBase = false) : tx.vin = [] := by
  rw [spentBy, if_neg (by simp [ordinary])] at free
  exact map_eq_nil_iff.mp free

section
variable (ok : BlockOk block coinbase rest)
include ok

section
variable (special : SpecialOk params ext g block pindexPrev) (told : Distinguishable params ⟨block, pindexPrev, view⟩)
include special told

theorem stamp_of_rootless (low : pindexPrev.nHeight + 1 < BIP34_IMPLIES_BIP30_LIMIT) (member : tx ∈ block.vtx)
    (free : spentBy tx = []) : stamp tx = some ((pindexPrev.nHeight + 1 : Nat) : Int) := by
  have txOk := ok.txs tx member
  unfold stamp
  split
  next isCoinBase =>
    have version := told.coinbase low tx member isCoinBase
    obtain ⟨cbTx, parsed, height⟩ := checkSpecialTx_coinbase (special.each tx member).1 version
      (txOk.coinbaseType isCoinBase version)
    rw [parsed, Option.map_some, height]
    rfl
  next ordinary =>
    have vin := vin_of_rootless free (by simpa using ordinary)
    have active : params.nLLMQActivationHeight ≤ pindexPrev.nHeight + 1 := by
      by_contra early
      exact told.inputs (Nat.lt_of_not_le early) tx member vin
    have type : tx.nType = TRANSACTION_QUORUM_COMMITMENT := by
      by_contra other
      exact txOk.inputs other vin
    obtain ⟨qcs, found⟩ := special.commitments active
    obtain ⟨payload, parsed, -⟩ := (foldlM_addCommitment_ok (getCommitmentsFromBlock_ok found)).1 tx member type
    obtain ⟨qcTx, parsed, height, -⟩ :=
      checkSpecialTx_commitment (special.each tx member).1 (version_of_commitmentPayload parsed) type
    rw [parsed, Option.map_some, height]

theorem apart_of_connected (ids : DistinctIds block.vtx) :
    block.vtx.Pairwise fun first second => spentBy second = [] → first.hash ≠ second.hash := by
  have inBlock : ∀ {tx}, tx ∈ rest → tx ∈ block.vtx := fun later => ok.vtx ▸ .tail _ later
  have typed : ∀ {tx}, tx ∈ rest → tx.vin = [] → tx.nType = TRANSACTION_QUORUM_COMMITMENT := by
    intro tx later vin
    by_contra other
    exact (ok.txs tx (inBlock later)).inputs other vin
  have first : coinbase ∈ block.vtx := ok.vtx ▸ .head _
  have commitments : rest.Pairwise fun first second => spentBy second = [] → first.hash ≠ second.hash := by
    by_cases active : params.nLLMQActivationHeight ≤ pindexPrev.nHeight + 1
    · obtain ⟨qcs, found⟩ := special.commitments active
      have pairs := (foldlM_addCommitment_ok (getCommitmentsFromBlock_ok found)).2
      rw [ok.vtx] at pairs
      refine (pairwise_cons.mp pairs).2.imp_of_mem fun {one two} inOne inTwo differ free equal => ?_
      have shape := ids one (inBlock inOne) two (inBlock inTwo) equal
      have vin := vin_of_rootless free (ok.others two inTwo)
      have vinOne : one.vin = [] := by
        refine vin_of_rootless ?_ (ok.others one inOne)
        rw [← spentBy_stripped, shape, spentBy_stripped, free]
      have payload : commitmentPayload (stripped one) = commitmentPayload (stripped two) := by rw [shape]
      exact differ (typed inOne vinOne) (typed inTwo vin) payload
    · refine pairwise_of_forall_mem_list fun one _ two inTwo free => ?_
      exact absurd (vin_of_rootless free (ok.others two inTwo)) (told.inputs (Nat.lt_of_not_le active) two (inBlock inTwo))
  rw [ok.vtx]
  refine pairwise_cons.mpr ⟨fun second later _ equal => ?_, commitments⟩
  have shape := ids coinbase first second (inBlock later) equal
  have kind := congrArg CTransaction.isCoinBase shape
  rw [isCoinBase_stripped, isCoinBase_stripped, ok.isCoinBase, ok.others second later] at kind
  cases kind

end

end

/-! ### Chains -/

def txsOf (links : List Link) : List CTransaction := links.flatMap fun link => link.block.vtx.reverse

@[simp] theorem txsOf_cons (link : Link) (links : List Link) :
    txsOf (link :: links) = link.block.vtx.reverse ++ txsOf links := rfl

/-- Below the height of the explicit check all ids of a chain have been different so far. -/
structure AllDistinct (p : CBlockIndex) (view : CCoinsView) (links : List Link) : Prop where
  scope : Scope (fun _ => none) (txsOf links) view
  stamps : ∀ tx ∈ txsOf links, spentBy tx = [] → ∃ k ≤ p.nHeight, stamp tx = some (k : Int)

section
variable {fields : IndexFields} {c : Connection}
  (ok : BlockOk block coinbase rest) (special : SpecialOk params ext g block pindexPrev)
  (told : Distinguishable params ⟨block, pindexPrev, view⟩)

include ok special told in
theorem separate_below (distinct : AllDistinct pindexPrev view links)
    (low : pindexPrev.nHeight + 1 < BIP34_IMPLIES_BIP30_LIMIT)
    (ids : DistinctIds (txsOf (⟨block, pindexPrev, view⟩ :: links))) :
    Separate (fun _ => none) (pindexPrev.nHeight + 1) (txsOf links) block.vtx := by
  have here : ∀ {tx}, tx ∈ block.vtx → tx ∈ txsOf (⟨block, pindexPrev, view⟩ :: links) :=
    fun member => mem_append_left _ (mem_reverse.mpr member)
  have before : ∀ {tx}, tx ∈ txsOf links → tx ∈ txsOf (⟨block, pindexPrev, view⟩ :: links) :=
    fun member => mem_append_right _ member
  refine ⟨fun tx member other known equal => ?_, fun tx member free other old equal => ?_,
    apart_of_connected ok special told fun tx member other also => ids tx (here member) other (here also),
    fun _ _ _ _ => rfl⟩
  · have shape := ids other (known.elim before here) tx (here member) equal
    rw [← spentBy_stripped, shape, spentBy_stripped]
  · have shape := ids other (before old) tx (here member) equal
    have otherFree : spentBy other = [] := by rw [← spentBy_stripped, shape, spentBy_stripped, free]
    obtain ⟨k, le, stamped⟩ := distinct.stamps other old otherFree
    have own := stamp_of_rootless ok special told low member free
    rw [← stamp_stripped, shape, stamp_stripped, own] at stamped
    simp only [Option.some.injEq] at stamped
    omega

include ok special told in
theorem separate_above (unspent : bip30Ok block view = true) (ids : DistinctIds block.vtx) :
    Separate view.coins (pindexPrev.nHeight + 1) [] block.vtx := by
  refine ⟨fun tx member other known equal => ?_, fun _ _ _ _ old => (by cases old),
    apart_of_connected ok special told ids, fun tx member entry added => ?_⟩
  · have inBlock : other ∈ block.vtx := known.elim (fun old => by cases old) id
    rw [← spentBy_stripped, ids other inBlock tx member equal, spentBy_stripped]
  · obtain ⟨n, out, found, -, rfl⟩ := mem_newCoins.mp added
    simp only [bip30Ok, all_eq_true, mem_range, Bool.not_eq_true', haveCoin] at unspent
    have absent := unspent tx member n (List.getElem?_eq_some_iff.mp found).1
    simpa using absent

theorem connect_step (connected : connectBlock params ext g block pindexPrev fields view false = .ok c)
    (told : Distinguishable params ⟨block, pindexPrev, view⟩)
    (ids : DistinctIds (txsOf (⟨block, pindexPrev, view⟩ :: links)))
    (distinct : pindexPrev.nHeight < BIP34_IMPLIES_BIP30_LIMIT → AllDistinct pindexPrev view links) :
    ¬ BlockOverwrites ⟨block, pindexPrev, view⟩ ∧ (pindexPrev.nHeight + 1 < BIP34_IMPLIES_BIP30_LIMIT →
        AllDistinct (.next pindexPrev c.fields) c.view (⟨block, pindexPrev, view⟩ :: links)) := by
  obtain ⟨stake, tally, -, -, connects, rfl⟩ := connectBlock_ok connected
  obtain ⟨coinbase, rest, ok⟩ := beforeTxs_checkBlock connects.before
  have special := processSpecialTxsInBlock_ok (then_eq_ok.mp (then_eq_ok.mp connects.after).2).2
  by_cases low : pindexPrev.nHeight + 1 < BIP34_IMPLIES_BIP30_LIMIT
  · have before := distinct (by omega)
    have separate := separate_below ok special told before low ids
    obtain ⟨none, scope⟩ := connectTxs_scope connects.txs separate before.scope
    refine ⟨none, fun _ => ⟨scope.setBestBlock block.hash, fun tx member free => ?_⟩⟩
    rw [txsOf_cons, mem_append, mem_reverse] at member
    rcases member with new | old
    · exact ⟨_, Nat.le_refl _, stamp_of_rootless ok special told low new free⟩
    · obtain ⟨k, le, stamped⟩ := before.stamps tx old free
      exact ⟨k, Nat.le_succ_of_le le, stamped⟩
  · have inBlock : DistinctIds block.vtx := fun tx member other also =>
      ids tx (mem_append_left _ (mem_reverse.mpr member)) other
        (mem_append_left _ (mem_reverse.mpr also))
    have unspent := beforeTxs_bip30 connects.before (Nat.le_of_not_lt low)
    have separate := separate_above ok special told unspent inBlock
    exact ⟨(connectTxs_scope connects.txs separate (Scope.start view)).1, fun less => absurd less low⟩

end

/-- While the explicit check is off, the induction also carries that all ids so far differ. -/
theorem chain_distinct (chain : IsChain params p view links)
    (ids : DistinctIds (txsOf links)) (told : ∀ link ∈ links, Distinguishable params link) :
    (∀ link ∈ links, ¬ BlockOverwrites link) ∧
      (p.nHeight < BIP34_IMPLIES_BIP30_LIMIT → AllDistinct p view links) := by
  induction chain with
  | genesis fields hash supply =>
    exact ⟨by simp, fun _ => ⟨⟨fun found => (by cases found), by simp [txsOf], by simp [txsOf]⟩, by simp [txsOf]⟩⟩
  | @connect ext g block pindexPrev fields view links c chain tip coins connected ih =>
    obtain ⟨here, others⟩ := forall_mem_cons.mp told
    have earlier : DistinctIds (txsOf links) := fun tx member other also =>
      ids tx (mem_append_right _ member) other (mem_append_right _ also)
    obtain ⟨none, distinct⟩ := ih earlier others
    obtain ⟨now, next⟩ := connect_step connected here ids distinct
    exact ⟨forall_mem_cons.mpr ⟨now, none⟩, next⟩

theorem distinguishable_plan (plan : Plan) {link : Link} {k : Nat} (block : link.block = plan.blockAt (k + 1))
    (prev : link.pindexPrev = plan.indexAt k) : Distinguishable mainParams link where
  coinbase _ tx member _ := by
    rw [block] at member
    rcases plan.hash_blockAt member with ⟨rfl, -⟩ | ⟨rfl, -⟩ | ⟨llmq, -, rfl, -⟩ <;> exact Int.le_refl 2
  inputs low tx member := by
    rw [Link.nHeight, prev, Plan.nHeight_indexAt] at low
    rw [block, Plan.blockAt] at member
    rcases mem_cons.mp member with rfl | later
    · simp [Plan.coinbaseAt]
    · rcases plan.mem_tail_blockAt later with ⟨rfl, -⟩ | ⟨llmq, due, rfl⟩
      · simp [Plan.coinstakeAt]
      · exact absurd (Plan.mem_dueAt.mp due).1 (Nat.not_le.mpr low)

theorem distinctIds_plan (plan : Plan)
    (each : ∀ link ∈ links, ∃ k, link.block = plan.blockAt (k + 1)) : DistinctIds (txsOf links) := by
  have inPlan : ∀ tx ∈ txsOf links, ∃ k, tx ∈ (plan.blockAt k).vtx := by
    intro tx member
    obtain ⟨link, inChain, inBlock⟩ := mem_flatMap.mp member
    obtain ⟨k, block⟩ := each link inChain
    exact ⟨k + 1, block ▸ mem_reverse.mp inBlock⟩
  intro tx member other also equal
  obtain ⟨j, inTx⟩ := inPlan tx member
  obtain ⟨k, inOther⟩ := inPlan other also
  rw [plan.eq_of_hash inTx inOther equal]

theorem chain_distinct_plan (plan : Plan) (chain : IsChain mainParams p view links)
    (each : ∀ link ∈ links, ∃ k, link.block = plan.blockAt (k + 1) ∧ link.pindexPrev = plan.indexAt k) :
    (∀ link ∈ links, ¬ BlockOverwrites link) ∧
      (p.nHeight < BIP34_IMPLIES_BIP30_LIMIT → AllDistinct p view links) := by
  refine chain_distinct chain (distinctIds_plan plan fun link member => ?_) fun link member => ?_
  · obtain ⟨k, block, -⟩ := each link member
    exact ⟨k, block⟩
  · obtain ⟨k, block, prev⟩ := each link member
    exact distinguishable_plan plan block prev

/-- No output of a chain replaces an unspent one, where payloads tell apart the transactions that spend nothing. -/
theorem not_blockOverwrites {p : CBlockIndex} {view : CCoinsView} {links : List Link}
    (chain : IsChain params p view links) (ids : DistinctIds (txsOf links))
    (told : ∀ link ∈ links, Distinguishable params link) : ∀ link ∈ links, ¬ BlockOverwrites link :=
  (chain_distinct chain ids told).1

theorem not_blockOverwrites_idle :
    ∃ view links, IsChain mainParams (idle.indexAt 1501) view links ∧ ∀ link ∈ links, ¬ BlockOverwrites link := by
  obtain ⟨view, links, chain, -, -, each⟩ := idle.exists_chain 1501
  refine ⟨view, links, chain, not_blockOverwrites chain (distinctIds_plan idle fun link member => ?_) ?_⟩
  · obtain ⟨k, block, -⟩ := each link member
    exact ⟨k, block⟩
  · intro link member
    obtain ⟨k, block, prev, -⟩ := each link member
    exact distinguishable_plan idle block prev

/-! ### A coinbase that comes twice -/

def llmq5_60 : LLMQParams := ⟨100, 24, 10, 18⟩

/-- The regression test network. The source leaves the hash of its genesis block open and its three stake limits
    unset; no block below reads them. -/
def regtestParams : Params where
  fRegtest := true
  hashGenesisBlock := 1
  nLastPoWBlock := 1000
  nStakeEnforcement := 0
  nMinStakeHistory := 0
  nMinStakeAmount := 0
  nStakeMinAge := 60
  nStakeMaxAge := 600
  nModifierInterval := 60
  nBudgetPaymentsStartBlock := 1000
  nSuperblockStartBlock := 1500
  nSuperblockCycle := 10
  nMasternodeMinimumConfirmations := 1
  nLLMQActivationHeight := 500
  llmqs := [llmq5_60, llmq50_60]

/-- A version 1 coinbase: no payload, so nothing in it names a height. -/
def plainCoinbase : CTransaction where
  vin := [{ prevout := COutPoint.null, scriptSig := [OP_TRUE] }]
  vout := [⟨50 * COIN, [OP_TRUE]⟩]
  nVersion := 1
  nType := TRANSACTION_COINBASE
  hash := 9

def plainBlock (n : Nat) : CBlock := { hashPrevBlock := n, vtx := [plainCoinbase], hash := n + 1 }

def plainFields (n : Nat) : IndexFields := { phashBlock := n + 1, nStakeModifierChecksum := 1 }

def plainGenesis : CBlockIndex := .genesis { phashBlock := 1 }

def plainMap : BlockMap where
  find _ := none
  keyed found := by cases found
  closed found := by cases found

def plainGlobals (tip : CBlockIndex) (pcoinsTip : CCoinsView) : Globals where
  mapBlockIndex := plainMap
  chainActive := ⟨some tip⟩
  pcoinsTip
  m_pos_index := []
  getTransaction _ := none
  hashBestSpecial := some tip.getBlockHash
  getListForBlock _ := {}
  hasMinedCommitment _ _ := false
  calcCbTxMerkleRootQuorums _ _ := some 0

def connectPlain (n : Nat) (tip : CBlockIndex) (view : CCoinsView) : Result Connection :=
  connectBlock regtestParams (permissive 0) (plainGlobals tip view) (plainBlock n) tip (plainFields n) view false

theorem blockOverwrites_repeated_coinbase :
    ∃ p view links, IsChain regtestParams p view links ∧ DistinctIds (txsOf links) ∧
      (∀ link ∈ links, contextualCheckBlock (permissive 0) link.block link.pindexPrev = .ok ()) ∧
      ∃ link ∈ links, BlockOverwrites link := by
  obtain ⟨first, connected, rest⟩ := (okAnd_iff (connectPlain 1 plainGenesis (empty 1)) fun first =>
      okAnd (contextualCheckBlock (permissive 0) (plainBlock 1) plainGenesis) (fun _ => true) &&
      okAnd (contextualCheckBlock (permissive 0) (plainBlock 2) (.next plainGenesis first.fields)) (fun _ => true) &&
      okAnd (connectPlain 2 (.next plainGenesis first.fields) first.view) fun _ =>
        decide (BlockOverwrites ⟨plainBlock 2, .next plainGenesis first.fields, first.view⟩)).mp (by decide +kernel)
  simp only [Bool.and_eq_true, okAnd_iff, and_true] at rest
  obtain ⟨⟨⟨_, checked⟩, ⟨_, checkedAgain⟩⟩, second, connectedAgain, overwrites⟩ := rest
  have chain := IsChain.connect (.connect (.genesis { phashBlock := 1 } rfl rfl) rfl rfl connected) rfl rfl connectedAgain
  refine ⟨_, _, _, chain, ?_, ?_, ⟨_, .head _, of_decide_eq_true overwrites⟩⟩
  · -- Both blocks hold the same transaction.
    intro tx member other also _
    simp only [txsOf, flatMap_cons, flatMap_nil, plainBlock, reverse_singleton, append_nil,
      cons_append, nil_append, mem_cons, not_mem_nil, or_false, or_self] at member also
    rw [member, also]
  · intro link member
    simp only [mem_cons, not_mem_nil, or_false] at member
    rcases member with rfl | rfl
    · exact checkedAgain
    · exact checked

end Cspn.Overwrite
