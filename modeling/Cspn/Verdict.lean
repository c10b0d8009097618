import Cspn.Disconnect

/-!
What the verdict of `ConnectBlock` depends on beside the block, its index entry and the coin view. Most checks read
neither the active chain nor the coins at its tip (`LocalOk`); some do (`TipOk`). Two states in which these read the
same values give the same verdict (`SameReads`).
-/
namespace Cspn.Verdict
open Primitives Index Coins Coins.CCoinsView Validation Env MnList MnBuild BlockCheck List
  Payments SpecialTx Stake Connect Conservation Chain Growth Overwrite

def withTip (g : Globals) (chainActive : CChain) (pcoinsTip : CCoinsView) : Globals := { g with chainActive, pcoinsTip }

section
variable (params : Params) (ext : Externals) (g : Globals) (block : CBlock) (pindexPrev : CBlockIndex)
  (fields : IndexFields) (view : CCoinsView) (fJustCheck : Bool)

def Accepts : Prop := ∃ c, connectBlock params ext g block pindexPrev fields view fJustCheck = .ok c

/-- The checks that read neither the active chain nor the coins at its tip. -/
structure LocalOk : Prop where
  hash : fields.phashBlock = block.hash
  before : beforeTxs params ext g block pindexPrev view fJustCheck = .ok ()
  txs : ∃ tally, connectTxs ext block pindexPrev 0 block.vtx { view } = .ok tally ∧ tally.fChecksPass = true
  locks : instantSendOk ext block (pindexPrev.nHeight + 1) = true

/-- What the block may pay, its fees included. -/
def rewardOf (chainActive : CChain) : Int :=
  feesOf (pindexPrev.nHeight + 1) view block.vtx + getBlockSubsidy params chainActive (pindexPrev.nHeight + 1) false

/-- The entry has no stake modifier yet, so `ConnectBlock` makes the proof-of-stake checks. -/
def StakeUnchecked : Prop := fields.nStakeModifier = 0 ∧ fields.nStakeModifierChecksum = 0

/-- The checks that read the active chain or the coins at its tip. -/
structure TipOk : Prop where
  stake : StakeUnchecked fields → posContextualBlockChecks params ext g block pindexPrev ≠ none
  coinbase : coinbaseWithin block (rewardOf params block pindexPrev view g.chainActive) = true
  value : isBlockValueValid params ext g block (pindexPrev.nHeight + 1)
    (rewardOf params block pindexPrev view g.chainActive) = true
  payee : payeeCheck params ext g block (pindexPrev.nHeight + 1)
    (rewardOf params block pindexPrev view g.chainActive) = .ok ()
  special : processSpecialTxsInBlock params ext g block pindexPrev = .ok ()

end

variable {params : Params} {ext : Externals} {g : Globals} {block : CBlock} {pindexPrev : CBlockIndex}
  {fields : IndexFields} {view : CCoinsView} {tx : CTransaction}

section
variable {fJustCheck : Bool}

theorem stakeStage_isOk (fJustCheck : Bool) :
    (∃ stake, stakeStage params ext g block pindexPrev fields fJustCheck = .ok stake) ↔
      (StakeUnchecked fields → posContextualBlockChecks params ext g block pindexPrev ≠ none) := by
  unfold stakeStage StakeUnchecked
  by_cases unchecked : fields.nStakeModifier = 0 ∧ fields.nStakeModifierChecksum = 0
  · rw [if_pos unchecked]
    cases checked : posContextualBlockChecks params ext g block pindexPrev with
    | none => simp [unchecked]
    | some stake => cases fJustCheck <;> simp
  · rw [if_neg unchecked]
    simp [unchecked]

theorem afterTxs_ok_iff {tally : Tally} (txs : connectTxs ext block pindexPrev 0 block.vtx { view } = .ok tally) :
    afterTxs params ext g block pindexPrev tally = .ok () ↔
      (tally.fChecksPass = true ∧ instantSendOk ext block (pindexPrev.nHeight + 1) = true) ∧
        coinbaseWithin block (rewardOf params block pindexPrev view g.chainActive) = true ∧
        isBlockValueValid params ext g block (pindexPrev.nHeight + 1)
          (rewardOf params block pindexPrev view g.chainActive) = true ∧
        payeeCheck params ext g block (pindexPrev.nHeight + 1)
          (rewardOf params block pindexPrev view g.chainActive) = .ok () ∧
        processSpecialTxsInBlock params ext g block pindexPrev = .ok () := by
  have fees : tally.nFees = feesOf (pindexPrev.nHeight + 1) view block.vtx := by
    rw [connectTxs_fees txs, Int.zero_add]
  simp only [afterTxs, fees, then_eq_ok, checks_cons, checks_nil, rewardOf, and_true]
  constructor
  · rintro ⟨⟨coinbase, scripts, locks, value⟩, payee, special⟩
    exact ⟨⟨scripts, locks⟩, coinbase, value, payee, special⟩
  · rintro ⟨⟨scripts, locks⟩, coinbase, value, payee, special⟩
    exact ⟨⟨coinbase, scripts, locks, value⟩, payee, special⟩

theorem accepts_iff : Accepts params ext g block pindexPrev fields view fJustCheck ↔
      LocalOk params ext g block pindexPrev fields view fJustCheck ∧ TipOk params ext g block pindexPrev fields view := by
  constructor
  · rintro ⟨c, connected⟩
    obtain ⟨stake, tally, hash, staged, connects, -⟩ := connectBlock_ok connected
    obtain ⟨⟨scripts, locks⟩, coinbase, value, payee, special⟩ := (afterTxs_ok_iff connects.txs).mp connects.after
    exact ⟨⟨hash, connects.before, ⟨tally, connects.txs, scripts⟩, locks⟩,
      ⟨(stakeStage_isOk _).mp ⟨stake, staged⟩, coinbase, value, payee, special⟩⟩
  · rintro ⟨⟨hash, before, ⟨tally, txs, scripts⟩, locks⟩, tip⟩
    obtain ⟨stake, staged⟩ := (stakeStage_isOk fJustCheck).mpr tip.stake
    have after : afterTxs params ext { g with m_pos_index := stake.2 } block pindexPrev tally = .ok () :=
      (afterTxs_ok_iff txs).mpr ⟨⟨scripts, locks⟩, tip.coinbase, tip.value, tip.payee, tip.special⟩
    have checked : connectChecked params ext { g with m_pos_index := stake.2 } block pindexPrev stake.1 view fJustCheck =
        .ok _ := then_eq_ok.mpr ⟨before, bind_eq_ok.mpr ⟨tally, txs, then_eq_ok.mpr ⟨after, rfl⟩⟩⟩
    exact ⟨_, (if_neg (not_not.mpr hash)).trans (bind_eq_ok.mpr ⟨stake, staged, checked⟩)⟩

end

/-! ### What the checks read -/

/-- The two states answer alike to all that the checks ask of the active chain and of the coins at its tip. -/
structure SameReads (params : Params) (ext : Externals) (g g' : Globals) (block : CBlock) (pindexPrev : CBlockIndex)
    (fields : IndexFields) : Prop where
  kernel : StakeUnchecked fields → block.isProofOfStake = true →
    checkProofOfStake params ext g block pindexPrev = checkProofOfStake params ext g' block pindexPrev
  subsidy : getBlockSubsidy params g.chainActive (pindexPrev.nHeight + 1) false =
    getBlockSubsidy params g'.chainActive (pindexPrev.nHeight + 1) false
  limit : getPaymentsLimit params g.chainActive (pindexPrev.nHeight + 1) =
    getPaymentsLimit params g'.chainActive (pindexPrev.nHeight + 1)
  staked : block.isProofOfStake = true → ∀ coinstake, rewardTx block = some coinstake →
    g.pcoinsTip.getValueIn coinstake = g'.pcoinsTip.getValueIn coinstake
  payee : block.isProofOfStake = true → g.chainActive.get pindexPrev.nHeight = g'.chainActive.get pindexPrev.nHeight
  quorums : params.nLLMQActivationHeight ≤ pindexPrev.nHeight + 1 → ∀ llmq ∈ params.llmqs,
    getQuorumBlockHash llmq g.chainActive (pindexPrev.nHeight + 1) =
      getQuorumBlockHash llmq g'.chainActive (pindexPrev.nHeight + 1)
  providers : ∀ tx ∈ block.vtx, providerTypes.contains tx.nType = true →
    ext.checkProviderTx g.getUTXOCoin (g.getListForBlock pindexPrev) tx pindexPrev =
      ext.checkProviderTx g'.getUTXOCoin (g.getListForBlock pindexPrev) tx pindexPrev
  collaterals : ∀ tx ∈ block.vtx, ∀ proTx, tx.vExtraPayload = .proRegTx proTx → proTx.collateralOutpoint.hash ≠ 0 →
    g.getUTXOCoin proTx.collateralOutpoint = g'.getUTXOCoin proTx.collateralOutpoint

section
variable {chain chain' : CChain} {coins' : CCoinsView}

theorem posContextualBlockChecks_congr
    (same : SameReads params ext g (withTip g chain' coins') block pindexPrev fields)
    (unchecked : StakeUnchecked fields) : posContextualBlockChecks params ext g block pindexPrev =
      posContextualBlockChecks params ext (withTip g chain' coins') block pindexPrev := by
  unfold posContextualBlockChecks
  by_cases stake : block.isProofOfStake = true
  · rw [same.kernel unchecked stake]
    rfl
  · rw [if_neg stake, if_neg stake]
    rfl

theorem superblockIsValid_congr {nHeight : Nat}
    (limit : getPaymentsLimit params chain nHeight = getPaymentsLimit params chain' nHeight) (tx : CTransaction)
    (blockReward : Int) :
    superblockIsValid params ext chain tx nHeight blockReward = superblockIsValid params ext chain' tx nHeight blockReward := by
  unfold superblockIsValid
  rw [limit]

section
variable (same : SameReads params ext g (withTip g chain' coins') block pindexPrev fields)
include same

theorem isBlockValueValid_congr (blockReward : Int) :
    isBlockValueValid params ext g block (pindexPrev.nHeight + 1) blockReward =
      isBlockValueValid params ext (withTip g chain' coins') block (pindexPrev.nHeight + 1) blockReward := by
  unfold isBlockValueValid
  cases pays : rewardTx block with
  | none => rfl
  | some tx =>
    have staked : (if block.isProofOfStake = true then g.pcoinsTip.getValueIn tx else 0) =
        if block.isProofOfStake = true then (withTip g chain' coins').pcoinsTip.getValueIn tx else 0 := by
      split
      next stake => exact same.staked stake tx pays
      next => rfl
    simp only [Option.any_some]
    rw [same.limit, staked, superblockIsValid_congr same.limit]

theorem payeeCheck_congr (blockReward : Int) : payeeCheck params ext g block (pindexPrev.nHeight + 1) blockReward =
      payeeCheck params ext (withTip g chain' coins') block (pindexPrev.nHeight + 1) blockReward := by
  have limit : _ = getPaymentsLimit params chain' (pindexPrev.nHeight + 1) := same.limit
  unfold payeeCheck
  split
  next stake =>
    have payee : _ = chain'.get pindexPrev.nHeight := same.payee stake
    simp [isBlockPayeeValid, isTransactionValid, getBlockTxOuts, withTip, superblockIsValid_congr limit, payee]
  next => rfl

theorem quorumProcessBlock_congr : quorumProcessBlock params ext g block (pindexPrev.nHeight + 1) =
      quorumProcessBlock params ext (withTip g chain' coins') block (pindexPrev.nHeight + 1) := by
  unfold quorumProcessBlock
  split
  next => rfl
  next low =>
    have quorums := same.quorums (Nat.le_of_not_lt low)
    have expected : ∀ qcs, ∀ llmq ∈ params.llmqs,
        commitmentExpected qcs g (pindexPrev.nHeight + 1) llmq =
          commitmentExpected qcs (withTip g chain' coins') (pindexPrev.nHeight + 1) llmq := by
      intro qcs llmq member
      unfold commitmentExpected isCommitmentRequired
      rw [quorums llmq member]
      rfl
    have processed : processCommitment params ext g (pindexPrev.nHeight + 1) =
        processCommitment params ext (withTip g chain' coins') (pindexPrev.nHeight + 1) := by
      funext qc
      unfold processCommitment
      cases known : params.llmq qc.llmqType with
      | none => rfl
      | some llmq =>
        have member : llmq ∈ params.llmqs := mem_of_find?_eq_some known
        simp only [assertSome, Except.bind]
        rw [quorums llmq member]
        rfl
    simp [checkEach_congr (expected _), processed]

theorem registerMN_congr (member : tx ∈ block.vtx) {proTx : CProRegTx} (payload : tx.vExtraPayload = .proRegTx proTx)
    (nHeight : Int) (list : CDeterministicMNList) : registerMN (buildEnv params ext g) nHeight list tx proTx =
      registerMN (buildEnv params ext (withTip g chain' coins')) nHeight list tx proTx := by
  have found : externalCollateralOk (buildEnv params ext g) proTx
        (registeredMN tx proTx list.nTotalRegisteredCount nHeight).collateralOutpoint =
      externalCollateralOk (buildEnv params ext (withTip g chain' coins')) proTx
        (registeredMN tx proTx list.nTotalRegisteredCount nHeight).collateralOutpoint := by
    unfold externalCollateralOk
    by_cases own : proTx.collateralOutpoint.hash = 0
    · simp [own]
    · have coin := same.collaterals tx member proTx payload own
      simp only [registeredMN, own, ↓reduceIte, buildEnv]
      rw [coin]
  unfold registerMN
  dsimp only
  rw [found]
  rfl

theorem buildNewListFromBlock_congr (oldList : CDeterministicMNList) :
    buildNewListFromBlock (buildEnv params ext g) block pindexPrev oldList =
      buildNewListFromBlock (buildEnv params ext (withTip g chain' coins')) block pindexPrev oldList := by
  have processed : ∀ tx ∈ block.vtx.tail, ∀ list,
      processProTx (buildEnv params ext g) pindexPrev list tx =
        processProTx (buildEnv params ext (withTip g chain' coins')) pindexPrev list tx := by
    intro tx member list
    unfold processProTx
    cases payload : tx.vExtraPayload with
    | proRegTx proTx =>
      simp [registerMN_congr same (mem_of_mem_tail member) payload]
    | _ => rfl
  unfold buildNewListFromBlock
  simp only [Folds.foldlM_congr processed]
  rfl

theorem processSpecialTxsInBlock_congr : processSpecialTxsInBlock params ext g block pindexPrev =
      processSpecialTxsInBlock params ext (withTip g chain' coins') block pindexPrev := by
  have checked : ∀ tx ∈ block.vtx,
      ((checkSpecialTx params ext g pindexPrev tx).bind fun _ => processSpecialTx tx) =
        (checkSpecialTx params ext (withTip g chain' coins') pindexPrev tx).bind fun _ => processSpecialTx tx := by
    intro tx member
    unfold checkSpecialTx
    by_cases provider : providerTypes.contains tx.nType = true
    · rw [same.providers tx member provider]
      rfl
    · simp only [provider]
      rfl
  unfold processSpecialTxsInBlock
  dsimp only
  rw [checkEach_congr checked, quorumProcessBlock_congr same, buildNewListFromBlock_congr same]
  rfl

theorem tipOk_congr : TipOk params ext g block pindexPrev fields view ↔
      TipOk params ext (withTip g chain' coins') block pindexPrev fields view := by
  have reward : rewardOf params block pindexPrev view g.chainActive =
      rewardOf params block pindexPrev view (withTip g chain' coins').chainActive := by
    rw [rewardOf, rewardOf, same.subsidy]
  constructor
  · intro tip
    refine ⟨fun unchecked => ?_, reward ▸ tip.coinbase, ?_, ?_, ?_⟩
    · rw [← posContextualBlockChecks_congr same unchecked]; exact tip.stake unchecked
    · rw [← isBlockValueValid_congr same, ← reward]; exact tip.value
    · rw [← payeeCheck_congr same, ← reward]; exact tip.payee
    · rw [← processSpecialTxsInBlock_congr same]; exact tip.special
  · intro tip
    refine ⟨fun unchecked => ?_, reward ▸ tip.coinbase, ?_, ?_, ?_⟩
    · rw [posContextualBlockChecks_congr same unchecked]; exact tip.stake unchecked
    · rw [isBlockValueValid_congr same, reward]; exact tip.value
    · rw [payeeCheck_congr same, reward]; exact tip.payee
    · rw [processSpecialTxsInBlock_congr same]; exact tip.special

end

end

section
variable (params : Params) (ext : Externals) (g : Globals) (chain chain' : CChain) (coins coins' : CCoinsView)
  (block : CBlock) (pindexPrev : CBlockIndex) (fields : IndexFields) (view : CCoinsView) (fJustCheck : Bool)

def SameVerdict : Prop :=
  Accepts params ext (withTip g chain coins) block pindexPrev fields view fJustCheck ↔
    Accepts params ext (withTip g chain' coins') block pindexPrev fields view fJustCheck

end

open Plan

end Cspn.Verdict
