import Cspn.Growth
import Cspn.Ledger

/-!
The money supply. A work block creates at most the subsidy; in a stake block the value check looks at the coinstake
alone. The recorded supply is what the blocks have created, as long as that fits 64 bits. Where no block creates more
than the subsidy, only the tail emission passes the cap.
-/
namespace Cspn.Supply
open Primitives Index Coins Coins.CCoinsView Env TxCheck List Int
  Payments Stake Connect Conservation Chain Growth Journal Ledger

variable {params : Params} {ext : Externals} {g : Globals} {block : CBlock} {pindexPrev : CBlockIndex}
  {tx : CTransaction} {vprevout : List Coin} {total x : Int} {links : List Link}

/-- A block connected on the tip creates no more than the bound exactly when it is a work block, or its coinbase and
    stake reward together stay within fees and bound. The stake reward alone always does. -/
theorem connectBlock_netIssuance_le_iff {fields : IndexFields} {view : CCoinsView} {c : Connection}
    (connected : connectBlock params ext g block pindexPrev fields view false = .ok c)
    (tip : g.pcoinsTip.coins = view.coins) : (netIssuance (pindexPrev.nHeight + 1) view block.vtx ≤
        issuanceBound params g.chainActive (pindexPrev.nHeight + 1) ↔
      block.isProofOfWork = true ∨ coinbaseValue block + stakeReward view block ≤
        feesOf (pindexPrev.nHeight + 1) view block.vtx + issuanceBound params g.chainActive (pindexPrev.nHeight + 1)) ∧
    (block.isProofOfStake = true → stakeReward view block ≤
      feesOf (pindexPrev.nHeight + 1) view block.vtx + issuanceBound params g.chainActive (pindexPrev.nHeight + 1)) := by
  obtain ⟨stake, tally, -, -, connects, -⟩ := connectBlock_ok connected
  have net := connects_net connects
  have stakeFits := fun isStake => connects_stakeBlock connects isStake tip
  refine ⟨⟨fun within => .inr (by omega), ?_⟩, stakeFits⟩
  rintro (work | fits)
  · have coinbase := connects_workBlock connects work
    have limit := getPaymentsLimit_nonneg params g.chainActive (pindexPrev.nHeight + 1)
    have none : stakeReward view block = 0 := by
      rw [stakeReward, if_neg (by simpa [CBlock.isProofOfWork] using work)]
    simp only [issuanceBound] at coinbase ⊢
    omega
  · omega

open Plan

/-- The first stake block of a plan that creates nothing. -/
theorem connectBlock_netIssuance_le_idle :
    ∃ view c, connectBlock mainParams (permissive (60 * (1500 + 1))) (idle.globalsAt 1500 view) (idle.blockAt (1500 + 1))
        (idle.indexAt 1500) (idle.acceptedAt (1500 + 1)) view false = .ok c ∧
      (idle.blockAt (1500 + 1)).isProofOfStake = true ∧
      netIssuance ((idle.indexAt 1500).nHeight + 1) view (idle.blockAt (1500 + 1)).vtx ≤
        issuanceBound mainParams (idle.globalsAt 1500 view).chainActive ((idle.indexAt 1500).nHeight + 1) := by
  obtain ⟨view, _, _, ready, -⟩ := idle.exists_chain 1500
  obtain ⟨c, connected, -, -, net⟩ := idle.connectBlock_blockAt ready false
  have bound := (connectBlock_netIssuance_le_iff connected rfl).1
  refine ⟨view, c, connected, by rw [isProofOfStake_blockAt]; rfl, bound.mpr (.inr ?_)⟩
  obtain ⟨stake, tally, -, -, connects, -⟩ := connectBlock_ok connected
  have sum := connects_net connects
  have nothing : idle.created (1500 + 1) = 0 := by decide
  have none : issuanceBound mainParams (idle.globalsAt 1500 view).chainActive ((idle.indexAt 1500).nHeight + 1) = 0 := by
    rw [nHeight_indexAt]
    rfl
  rw [none]
  rw [nHeight_indexAt, net, nothing] at sum
  rw [nHeight_indexAt]
  omega

/-- The first stake block of a plan with `MAX_MONEY` in the second output of its coinbase is connected, at a height
    with neither subsidy nor superblock. -/
theorem connectBlock_netIssuance_exceeds :
    ∃ ext g block pindexPrev fields view links c, IsChain mainParams pindexPrev view links ∧
      g.chainActive.tip = some pindexPrev ∧ g.pcoinsTip.coins = view.coins ∧
      connectBlock mainParams ext g block pindexPrev fields view false = .ok c ∧
      issuanceBound mainParams g.chainActive (pindexPrev.nHeight + 1) = 0 ∧
      netIssuance (pindexPrev.nHeight + 1) view block.vtx = MAX_MONEY := by
  obtain ⟨view, links, chain, ready, -⟩ := inflating.exists_chain 1500
  obtain ⟨c, connected, -, -, net⟩ := inflating.connectBlock_blockAt ready false
  refine ⟨_, _, _, _, _, view, links, c, chain, rfl, rfl, connected, ?_, ?_⟩
  · rw [nHeight_indexAt]
    rfl
  · rw [nHeight_indexAt, net]
    decide

def coinValue (coin : Coin) : Int := coin.out.nValue

theorem balance_spends (length : vprevout.length ≤ tx.vin.length) :
    balance coinValue (spends tx vprevout) = -coinTotal vprevout := by
  unfold spends
  generalize tx.vin = vin at length
  induction vin generalizing vprevout with
  | nil => rw [length_eq_zero_iff.mp (Nat.le_zero.mp length)]; rfl
  | cons txin rest ih =>
    cases vprevout with
    | nil => rfl
    | cons coin later =>
      have tail := ih (Nat.le_of_succ_le_succ length)
      simp only [zip_cons_cons, map_cons, balance, tail, coinTotal, sum_cons, coinValue]
      omega

theorem totalWeight_newCoinsFrom_le (tx : CTransaction) (nHeight i : Nat) {outs : List CTxOut}
    (nonneg : ∀ out ∈ outs, 0 ≤ out.nValue) :
    totalWeight coinValue (newCoinsFrom tx nHeight i outs) ≤ (outs.map CTxOut.nValue).sum := by
  induction outs generalizing i with
  | nil => exact le_refl _
  | cons out rest ih =>
    obtain ⟨here, others⟩ := forall_mem_cons.mp nonneg
    have tail := ih (i + 1) others
    rw [newCoinsFrom, map_cons, sum_cons]
    split
    · omega
    · simp only [totalWeight_cons, coinValue, coinOf] at tail ⊢
      omega

variable {view : CCoinsView}

theorem holds_updateCoins {after : CCoinsView} {nHeight : Nat}
    (holds : Holds coinValue view.coins total) (ok : TxOk tx)
    (updated : view.updateCoins tx nHeight = some (vprevout, after)) :
    Holds coinValue after.coins (total + (tx.valueOut - view.getValueIn tx)) := by
  have updates := updateCoins_updates updated
  have nonneg : ∀ out ∈ tx.vout, 0 ≤ out.nValue := fun out member => ((moneyRange_iff _).mp (ok.values out member)).1
  have length : vprevout.length ≤ tx.vin.length := by
    have undo := congrArg length updates.undo
    split at undo <;> simp only [length_map, length_nil] at undo <;> omega
  have moved := holds.applyAll updates.fits fun {key value} added => by
    simp only [txChanges, spends, additions, mem_append, mem_map, reduceCtorEq, and_false, exists_false,
      false_or, Change.add.injEq] at added
    obtain ⟨entry, member, rfl, rfl⟩ := added
    obtain ⟨n, out, found, -, rfl⟩ := mem_newCoins.mp member
    exact nonneg out (mem_of_getElem? found)
  rw [← updates.coins] at moved
  refine moved.mono ?_
  have new := totalWeight_newCoinsFrom_le tx nHeight 0 nonneg
  have spent := coinTotal_vprevout updated
  rw [txChanges, balance_append, balance_spends length, balance_additions]
  simp only [newCoins, CTransaction.valueOut] at new ⊢
  omega

section

theorem connectTxs_holds {i : Nat} {txs : List CTransaction} {tally final : Tally}
    (connected : connectTxs ext block pindexPrev i txs tally = .ok final) (ok : ∀ tx ∈ txs, TxOk tx)
    (holds : Holds coinValue tally.view.coins total) :
    Holds coinValue final.view.coins (total + netIssuance (pindexPrev.nHeight + 1) tally.view txs) := by
  revert total
  revert ok
  refine connectTxs_induction (motive := fun _ txs tally => (∀ tx ∈ txs, TxOk tx) → ∀ {total},
    Holds coinValue tally.view.coins total →
      Holds coinValue final.view.coins (total + netIssuance (pindexPrev.nHeight + 1) tally.view txs)) connected ?_ ?_
  · intro _ _ total holds
    simpa [netIssuance, spentCoins, coinTotal] using holds
  · intro i tx rest tally after step ih ok total holds
    obtain ⟨here, others⟩ := forall_mem_cons.mp ok
    obtain ⟨vprevout, updated, -⟩ := step.updated
    have next := ih others (holds_updateCoins holds here updated)
    rwa [netIssuance_cons updated, ← add_assoc]

variable {p : CBlockIndex}

theorem wrap64_of_range (low : -2 ^ 63 ≤ x) (high : x < 2 ^ 63) : wrap64 x = x := by
  rw [wrap64, bmod_eq_of_le] <;> omega

theorem wrap64_lt (x : Int) : wrap64 x < 2 ^ 63 := by
  have := bmod_lt (x := x) (m := 2 ^ 64) (by decide)
  unfold wrap64
  omega

theorem connectBlock_nMoneySupply {fields : IndexFields} {c : Connection}
    (connected : connectBlock params ext g block pindexPrev fields view false = .ok c) :
    c.fields.nMoneySupply = wrap64 (pindexPrev.fields.nMoneySupply +
      netIssuance (pindexPrev.nHeight + 1) view block.vtx) := by
  obtain ⟨stake, tally, -, -, connects, rfl⟩ := connectBlock_ok connected
  have net := connectTxs_net connects.txs
  dsimp only at net ⊢
  congr 1
  omega

section
variable (chain : IsChain params p view links)
include chain

theorem chain_holds : Holds coinValue view.coins (issuedBy links) := by
  induction chain with
  | genesis fields hash supply => exact Holds.empty
  | @connect ext g block pindexPrev fields view links c chain tip coins connected ih =>
    obtain ⟨stake, tally, -, -, connects, rfl⟩ := connectBlock_ok connected
    obtain ⟨coinbase, rest, ok⟩ := beforeTxs_checkBlock connects.before
    have next := connectTxs_holds connects.txs ok.txs ih
    rwa [add_comm] at next

theorem issuedBy_nonneg : 0 ≤ issuedBy links := (chain_holds chain).total_nonneg

theorem nMoneySupply_eq_wrap : p.fields.nMoneySupply = wrap64 (issuedBy links) := by
  induction chain with
  | genesis fields hash supply => exact supply
  | connect chain tip coins connected ih =>
    rw [CBlockIndex.fields_next, connectBlock_nMoneySupply connected, ih, wrap64_add_wrap64, add_comm]
    rfl

end

/-- The recorded supply is what the blocks have created, exactly as long as that fits 64 bits. -/
theorem nMoneySupply_eq_issuedBy_iff {p : CBlockIndex} {view : CCoinsView} {links : List Link}
    (chain : IsChain params p view links) : p.fields.nMoneySupply = issuedBy links ↔ issuedBy links < 2 ^ 63 := by
  have nonneg := issuedBy_nonneg chain
  rw [nMoneySupply_eq_wrap chain]
  constructor
  · intro same
    rw [← same]
    exact wrap64_lt _
  · exact wrap64_of_range (by omega)

theorem nMoneySupply_eq_issuedBy_idle : ∃ view links, IsChain mainParams (idle.indexAt 1501) view links ∧
      (idle.indexAt 1501).fields.nMoneySupply = issuedBy links := by
  obtain ⟨view, links, chain, -, sum, -⟩ := idle.exists_chain 1501
  refine ⟨view, links, chain, (nMoneySupply_eq_issuedBy_iff chain).mpr ?_⟩
  rw [sum, idle, issued_idlePlan]
  decide

/-- With `MAX_MONEY` in every stake block's coinbase the recorded supply leaves 64 bits after 6899 of them. -/
theorem nMoneySupply_ne_issuedBy :
    ∃ p view links, IsChain mainParams p view links ∧ p.nHeight = 8399 ∧ p.fields.nMoneySupply < 0 ∧
      0 < issuedBy links := by
  obtain ⟨view, links, chain, -, sum, -⟩ := inflating.exists_chain 8399
  have issued : inflating.issued 8399 = 3093000 * COIN + 6899 * MAX_MONEY := issued_idlePlan _ _ 8398
  refine ⟨_, view, links, chain, nHeight_indexAt _ _, ?_, ?_⟩
  · rw [nMoneySupply_indexAt, issued]
    decide
  · rw [sum, issued]
    decide

/-! ### The cap -/

/-- The block came after a parent at which the recorded supply had reached the cap. -/
def isTail (link : Link) : Bool := decide (MAX_MONEY ≤ link.pindexPrev.fields.nMoneySupply)

def WithinSubsidy (params : Params) (links : List Link) : Prop :=
  ∀ link ∈ links, link.created ≤ getBlockSubsidy params ⟨some link.pindexPrev⟩ link.nHeight false

theorem chain_length (chain : IsChain params p view links) : links.length = p.nHeight := by
  induction chain with
  | genesis => rfl
  | connect chain tip coins connected ih => rw [length_cons, ih, CBlockIndex.nHeight_next]

theorem wrap64_le (nonneg : 0 ≤ x) : wrap64 x ≤ x := by
  unfold wrap64
  rw [bmod_def]
  split <;> omega

theorem issuedBy_le_regtest (regtest : params.fRegtest = true) (within : WithinSubsidy params links) :
    issuedBy links ≤ 50 * COIN * links.length := by
  induction links with
  | nil => exact le_refl _
  | cons link rest ih =>
    obtain ⟨here, others⟩ := forall_mem_cons.mp within
    have tail := ih others
    rw [getBlockSubsidy, if_pos regtest] at here
    rw [issuedBy_cons, length_cons, natCast_add, mul_add]
    omega

theorem issuedBy_le_cap (mainnet : params.fRegtest = false)
    (chain : IsChain params p view links) (height : p.nHeight < 2 ^ 31) (within : WithinSubsidy params links) :
    issuedBy links ≤ MAX_MONEY + tailSubsidy * links.countP isTail := by
  induction chain with
  | genesis => decide
  | @connect ext g block pindexPrev fields view links c chain tip coins connected ih =>
    obtain ⟨here, others⟩ := forall_mem_cons.mp within
    rw [CBlockIndex.nHeight_next] at height
    have before := ih (by omega) others
    have nonneg := issuedBy_nonneg chain
    have few := countP_le_length (p := isTail) (l := links)
    rw [chain_length chain] at few
    have recorded : pindexPrev.fields.nMoneySupply = issuedBy links := by
      rw [nMoneySupply_eq_wrap chain]
      simp only [MAX_MONEY, COIN, tailSubsidy] at before
      exact wrap64_of_range (by omega) (by omega)
    rw [issuedBy_cons, countP_cons]
    by_cases first : pindexPrev.nHeight + 1 = 1
    · -- The first block pays the old supply on an empty chain.
      have none : links = [] := length_eq_zero_iff.mp (by rw [chain_length chain]; omega)
      have old : getBlockSubsidy params ⟨some pindexPrev⟩ (pindexPrev.nHeight + 1) false = 3093000 * COIN := by
        rw [getBlockSubsidy, mainnet, if_neg (by decide), if_pos first]
      have pays := le_trans here (le_of_eq old)
      subst none
      simp only [issuedBy_nil, countP_nil, MAX_MONEY, COIN, tailSubsidy] at pays ⊢
      split <;> omega
    · have bound := le_trans here (getBlockSubsidy_le mainnet first)
      have supply : tipSupply ⟨some pindexPrev⟩ = issuedBy links := recorded
      rw [supply] at bound
      simp only [isTail, recorded, decide_eq_true_eq]
      split at bound
      next reached => rw [if_pos reached]; simp only [tailSubsidy] at *; omega
      next => simp only [tailSubsidy]; split <;> omega

/-- Where no block creates more than the subsidy, the recorded supply passes the cap only by the tail emission of the
    blocks connected at or above it; on the regression test network only the height limits it. -/
theorem nMoneySupply_le_cap {p : CBlockIndex} {view : CCoinsView} {links : List Link}
    (chain : IsChain params p view links) (height : p.nHeight < 2 ^ 31) (within : WithinSubsidy params links) :
    p.fields.nMoneySupply ≤
      if params.fRegtest then 50 * COIN * p.nHeight else MAX_MONEY + tailSubsidy * links.countP isTail := by
  rw [nMoneySupply_eq_wrap chain]
  refine le_trans (wrap64_le (issuedBy_nonneg chain)) ?_
  split
  next regtest => rw [← chain_length chain]; exact issuedBy_le_regtest regtest within
  next mainnet => exact issuedBy_le_cap (by simpa using mainnet) chain height within

end

theorem withinSubsidy_plan (plan : Plan) (none : plan.extra = 0)
    (each : ∀ link ∈ links, ∃ k, link.block = plan.blockAt (k + 1) ∧ link.pindexPrev = plan.indexAt k ∧
      link.created = plan.created (k + 1)) : WithinSubsidy mainParams links := by
  intro link member
  obtain ⟨k, -, prev, created⟩ := each link member
  rw [created, Link.nHeight, prev, nHeight_indexAt, Plan.created, createdAt, none, ite_self, add_zero]
  exact plan.mint_le_subsidy k (empty 0)

theorem nMoneySupply_le_cap_full :
    ∃ view links, IsChain mainParams (fullPlan.indexAt 9000) view links ∧ WithinSubsidy mainParams links ∧
      (fullPlan.indexAt 9000).fields.nMoneySupply ≤ MAX_MONEY + tailSubsidy * links.countP isTail := by
  obtain ⟨view, links, chain, -, -, each⟩ := fullPlan.exists_chain 9000
  have within := withinSubsidy_plan fullPlan rfl each
  have bound := nMoneySupply_le_cap chain (by rw [nHeight_indexAt]; decide) within
  exact ⟨view, links, chain, within, bound⟩

/-- The tail emission lifts the recorded supply over the cap. -/
theorem nMoneySupply_exceeds_cap :
    ∃ p view links, IsChain mainParams p view links ∧ p.nHeight < 2 ^ 31 ∧ WithinSubsidy mainParams links ∧
      MAX_MONEY < p.fields.nMoneySupply := by
  have exceeds := fullSupply_exceeds
  have height : 9392463 + 1 < 2 ^ 31 := by decide
  generalize 9392463 + 1 = n at exceeds height
  obtain ⟨view, links, chain, -, -, each⟩ := fullPlan.exists_chain n
  have issued : fullPlan.issued n = fullSupply n := issuedAt_fullMint n
  refine ⟨_, view, links, chain, by rwa [nHeight_indexAt], withinSubsidy_plan fullPlan rfl each, ?_⟩
  rwa [nMoneySupply_indexAt, issued, wrap64_fullSupply height]

end Cspn.Supply
