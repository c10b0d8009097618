import Cspn.Connect

/-!
What a block creates: the values of its outputs less the values of the coins it
spends. The three sums of `ConnectBlock` add up to it. The value check looks at the
coinbase of a work block and at the coinstake of a stake block.
-/
namespace Cspn.Conservation
open Primitives Index Coins Coins.CCoinsView Validation Env TxCheck BlockCheck List
  Payments Connect

/-- The coins that transactions spend, as `UpdateCoins` moves them out of the evolving view. -/
def spentCoins (nHeight : Nat) : CCoinsView → List CTransaction → List Coin
  | _, [] => []
  | view, tx :: rest =>
    match view.updateCoins tx nHeight with
    | none => []
    | some (vprevout, after) => vprevout ++ spentCoins nHeight after rest

def coinTotal (coins : List Coin) : Int := (coins.map fun coin => coin.out.nValue).sum

def netIssuance (nHeight : Nat) (view : CCoinsView) (txs : List CTransaction) : Int :=
  (txs.map CTransaction.valueOut).sum - coinTotal (spentCoins nHeight view txs)

/-- What the transactions that are neither coinbase nor coinstake leave over. -/
def feesOf (nHeight : Nat) : CCoinsView → List CTransaction → Int
  | _, [] => 0
  | view, tx :: rest =>
    (if tx.isCoinBase || tx.isCoinStake then 0 else view.getValueIn tx - tx.valueOut) +
      match view.updateCoins tx nHeight with
      | none => 0
      | some (_, after) => feesOf nHeight after rest

variable {view : CCoinsView} {tx : CTransaction}

section
variable {after : CCoinsView} {nHeight : Nat} {vprevout : List Coin} (updated : view.updateCoins tx nHeight = some (vprevout, after))
include updated

theorem coinTotal_vprevout : coinTotal vprevout = view.getValueIn tx := by
  have undo := (updateCoins_updates updated).undo
  unfold getValueIn coinTotal
  split at undo
  next coinbase => rw [if_pos coinbase, map_eq_nil_iff.mp undo]; rfl
  next ordinary =>
    rw [if_neg ordinary]
    have values := congrArg (map fun coin => (coin.getD coinEmpty).out.nValue) undo
    simp only [map_map, Function.comp_def, Option.getD_some] at values
    rw [values]
    rfl

theorem netIssuance_cons (rest : List CTransaction) :
    netIssuance nHeight view (tx :: rest) = tx.valueOut - view.getValueIn tx + netIssuance nHeight after rest := by
  have spent := coinTotal_vprevout updated
  simp only [netIssuance, spentCoins, updated, coinTotal, map_cons, sum_cons, map_append,
    sum_append] at spent ⊢
  omega

end

variable {after : Tally} {i : Nat} {coinbase : CTransaction}

section
variable {params : Params} {ext : Externals} {g : Globals} {block : CBlock} {pindexPrev : CBlockIndex} {tally : Tally}

variable {txs : List CTransaction}

section
variable {final : Tally} (connected : connectTxs ext block pindexPrev i txs tally = .ok final)
include connected

theorem connectTxs_net : final.nValueOut - final.nValueIn - final.nFees =
      tally.nValueOut - tally.nValueIn - tally.nFees + netIssuance (pindexPrev.nHeight + 1) tally.view txs := by
  refine connectTxs_induction (motive := fun _ txs tally => final.nValueOut - final.nValueIn - final.nFees =
    tally.nValueOut - tally.nValueIn - tally.nFees + netIssuance (pindexPrev.nHeight + 1) tally.view txs) connected ?_ ?_
  · intro _
    simp [netIssuance, spentCoins, coinTotal]
  · intro i tx rest tally after step ih
    obtain ⟨vprevout, updated, -⟩ := step.updated
    have fees := step.fees
    rw [step.nValueOut, step.nValueIn] at ih
    rw [netIssuance_cons updated]
    by_cases coinbase : tx.isCoinBase = true
    · have stake := tx.isCoinStake_of_isCoinBase coinbase
      rw [if_pos coinbase] at fees
      simp only [coinbase, stake, getValueIn, fees, Bool.or_true, ↓reduceIte, Bool.false_eq_true] at ih ⊢
      omega
    · rw [if_neg coinbase] at fees
      obtain ⟨txfee, inputs, total, -⟩ := fees
      have fee := inputs.fee
      by_cases stake : tx.isCoinStake = true
      · simp only [stake, ↓reduceIte] at fee
        simp only [stake, total, fee, Bool.true_or, ↓reduceIte] at ih ⊢
        omega
      · simp only [stake] at fee
        simp only [stake, coinbase, total, fee, getValueIn, Bool.or_self, ↓reduceIte, Bool.false_eq_true] at ih ⊢
        omega

theorem connectTxs_fees : final.nFees = tally.nFees + feesOf (pindexPrev.nHeight + 1) tally.view txs := by
  refine connectTxs_induction (motive := fun _ txs tally =>
    final.nFees = tally.nFees + feesOf (pindexPrev.nHeight + 1) tally.view txs) connected ?_ ?_
  · intro _
    simp [feesOf]
  · intro i tx rest tally after step ih
    obtain ⟨vprevout, updated, -⟩ := step.updated
    have fees := step.fees
    simp only [feesOf, updated]
    rw [ih]
    by_cases coinbase : tx.isCoinBase = true
    · rw [if_pos coinbase] at fees
      simp [coinbase, fees]
    · rw [if_neg coinbase] at fees
      obtain ⟨txfee, inputs, total, -⟩ := fees
      have fee := inputs.fee
      rw [total, fee]
      by_cases stake : tx.isCoinStake = true
      · simp [stake]
      · simp only [stake, coinbase, getValueIn, Bool.or_self, ↓reduceIte, Bool.false_eq_true]
        omega

theorem connectTxs_mint (ordinary : ∀ tx ∈ txs, tx.isCoinBase = false ∧ tx.isCoinStake = false) :
    final.nValueOut = tally.nValueOut ∧ final.nValueIn = tally.nValueIn := by
  revert ordinary
  refine connectTxs_induction (motive := fun _ txs tally =>
    (∀ tx ∈ txs, tx.isCoinBase = false ∧ tx.isCoinStake = false) →
      final.nValueOut = tally.nValueOut ∧ final.nValueIn = tally.nValueIn) connected ?_ ?_
  · exact fun _ _ => ⟨rfl, rfl⟩
  · intro i tx rest tally after step ih ordinary
    obtain ⟨kind, others⟩ := forall_mem_cons.mp ordinary
    obtain ⟨out, inn⟩ := ih others
    rw [out, inn, step.nValueOut, step.nValueIn]
    simp [kind]

end

def coinbaseValue (block : CBlock) : Int := (block.vtx.head?.map CTransaction.valueOut).getD 0

/-- What the coinstake of a stake block pays beyond its inputs. -/
def stakeReward (view : CCoinsView) (block : CBlock) : Int :=
  if block.isProofOfStake then
    ((rewardTx block).map fun coinstake => coinstake.valueOut - view.getValueIn coinstake).getD 0
  else 0

theorem getValueIn_congr {first second : CCoinsView}
    (same : ∀ txin ∈ tx.vin, first.coins txin.prevout = second.coins txin.prevout) :
    first.getValueIn tx = second.getValueIn tx := by
  unfold getValueIn
  split
  · rfl
  · congr 1
    refine map_congr_left fun txin member => ?_
    rw [accessCoin, accessCoin, same txin member]

theorem coins_after_coinbase
    (step : TxStep pindexPrev 0 tally coinbase after) (isCoinBase : coinbase.isCoinBase = true) {outpoint : COutPoint}
    (ripe : mature (after.view.accessCoin outpoint) (pindexPrev.nHeight + 1) = true) :
    after.view.coins outpoint = tally.view.coins outpoint := by
  obtain ⟨vprevout, updated, -⟩ := step.updated
  have updates := updateCoins_updates updated
  have undo := updates.undo
  rw [if_pos isCoinBase, map_eq_nil_iff] at undo
  have coins := updates.coins
  simp only [undo, txChanges, spends, zip_nil_right, map_nil, nil_append] at coins
  rw [coins]
  apply Journal.applyAll_additions_other
  intro inside
  obtain ⟨entry, added, rfl⟩ := mem_map.mp inside
  obtain ⟨n, out, -, -, rfl⟩ := mem_newCoins.mp added
  have found := Journal.applyAll_additions_mem (m := tally.view.coins) (newCoins_nodup _ _) added
  rw [← coins] at found
  rw [accessCoin_of_coins found] at ripe
  simp [mature, coinOf, isCoinBase, COINBASE_MATURITY] at ripe

theorem BlockOk.ordinary {rest : List CTransaction} (ok : BlockOk block coinbase rest)
    (work : block.isProofOfStake = false) : ∀ tx ∈ rest, tx.isCoinBase = false ∧ tx.isCoinStake = false := by
  intro tx member
  refine ⟨ok.others tx member, ?_⟩
  cases rest with
  | nil => cases member
  | cons second others =>
    rcases mem_cons.mp member with rfl | later
    · simpa [CBlock.isProofOfStake, ok.vtx] using work
    · exact ok.stakes tx later

variable {fJustCheck : Bool}

def issuanceBound (params : Params) (chainActive : CChain) (nHeight : Nat) : Int :=
  getBlockSubsidy params chainActive nHeight false + getPaymentsLimit params chainActive nHeight

variable (connects : Connects params ext g block pindexPrev view fJustCheck tally)
include connects

theorem connects_mint : tally.nValueOut - tally.nValueIn = coinbaseValue block + stakeReward view block := by
  obtain ⟨coinbase, rest, ok⟩ := beforeTxs_checkBlock connects.before
  have txs := connects.txs
  rw [ok.vtx] at txs
  obtain ⟨first, head, later⟩ := connectTxs_cons.mp txs
  have step := connectTx_ok head
  have isCoinBase := ok.isCoinBase
  have notStake := coinbase.isCoinStake_of_isCoinBase isCoinBase
  have firstOut : first.nValueOut = coinbase.valueOut := by simp [step.nValueOut, isCoinBase]
  have firstIn : first.nValueIn = 0 := by simp [step.nValueIn, notStake]
  have value : coinbaseValue block = coinbase.valueOut := by simp [coinbaseValue, ok.vtx]
  by_cases stake : block.isProofOfStake = true
  · obtain ⟨coinstake, others, rfl, isStake⟩ := ok.isProofOfStake.mp stake
    obtain ⟨second, head, later⟩ := connectTxs_cons.mp later
    have stakeStep := connectTx_ok head
    obtain ⟨out, inn⟩ := connectTxs_mint later fun tx member =>
      ⟨ok.others tx (.tail _ member), ok.stakes tx member⟩
    have spends : first.view.getValueIn coinstake = view.getValueIn coinstake := by
      have fees := stakeStep.fees
      rw [if_neg (by simp [ok.others coinstake (.head _)])] at fees
      obtain ⟨txfee, inputs, -⟩ := fees
      exact getValueIn_congr fun txin member => coins_after_coinbase step isCoinBase (inputs.ripe txin member)
    have pays : rewardTx block = some coinstake := by simp [rewardTx, stake, ok.vtx]
    rw [out, inn, stakeStep.nValueOut, stakeStep.nValueIn, value, stakeReward, if_pos stake, pays, spends, firstOut,
      firstIn]
    simp [isStake]
    omega
  · obtain ⟨out, inn⟩ := connectTxs_mint later (BlockOk.ordinary ok (by simpa using stake))
    rw [out, inn, value, stakeReward, if_neg stake, firstOut, firstIn]
    omega

/-- A connected block creates its coinbase and its stake reward, less the fees. -/
theorem connects_net : netIssuance (pindexPrev.nHeight + 1) view block.vtx =
      coinbaseValue block + stakeReward view block - feesOf (pindexPrev.nHeight + 1) view block.vtx := by
  have mint := connects_mint connects
  have net := connectTxs_net connects.txs
  have fees := connectTxs_fees connects.txs
  dsimp only at net fees
  omega

theorem connects_workBlock (work : block.isProofOfWork = true) :
    coinbaseValue block ≤ feesOf (pindexPrev.nHeight + 1) view block.vtx +
      getBlockSubsidy params g.chainActive (pindexPrev.nHeight + 1) false := by
  obtain ⟨coinbase, rest, ok⟩ := beforeTxs_checkBlock connects.before
  have fees := connectTxs_fees connects.txs
  have within := (checks_cons.mp (then_eq_ok.mp connects.after).1).1
  simp only [coinbaseWithin, work, ok.vtx, head?_cons, Option.any_some, Bool.not_true, Bool.false_or,
    decide_eq_true_eq, fees, Int.zero_add] at within
  simpa [coinbaseValue, ok.vtx] using within

theorem connects_stakeBlock (stake : block.isProofOfStake = true) (tip : g.pcoinsTip.coins = view.coins) :
    stakeReward view block ≤ feesOf (pindexPrev.nHeight + 1) view block.vtx +
      issuanceBound params g.chainActive (pindexPrev.nHeight + 1) := by
  obtain ⟨coinbase, rest, ok⟩ := beforeTxs_checkBlock connects.before
  obtain ⟨coinstake, others, rfl, -⟩ := ok.isProofOfStake.mp stake
  have pays : rewardTx block = some coinstake := by simp [rewardTx, stake, ok.vtx]
  have fees := connectTxs_fees connects.txs
  have valid := (checks_cons.mp (checks_cons.mp (checks_cons.mp
    (checks_cons.mp (then_eq_ok.mp connects.after).1).2).2).2).1
  have le := isBlockValueValid_le pays valid
  have same : g.pcoinsTip.getValueIn coinstake = view.getValueIn coinstake := getValueIn_congr fun _ _ => by rw [tip]
  rw [if_pos stake, same, fees] at le
  rw [stakeReward, if_pos stake, pays, issuanceBound]
  simp only [Option.map_some, Option.getD_some] at le ⊢
  omega

end

end Cspn.Conservation
