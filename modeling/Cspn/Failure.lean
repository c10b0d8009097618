import Cspn.ProviderTx
import Cspn.Verdict

/-!
How a failed `ConnectBlock` is reported. `ConnectTip` marks the block as failed and
`ActivateBestChainStep` goes on without it only when the state says that the block is
invalid. Every exit of `ConnectBlock` sets the state but one: the proof-of-stake
checks at its start.
-/
namespace Cspn.Failure
open Primitives Index Coins MnList MnBuild Validation Env TxCheck BlockCheck Option
  SpecialTx Stake Connect Growth Overwrite ProviderTx Verdict
open Avoids

/-- `WriteUndoDataForBlock`; `disk` is the message with which the node aborts, if any. -/
def writeUndoDataForBlock (disk : Option String) : Result Unit :=
  match disk with
  | none => .ok ()
  | some strMessage => .error (.error strMessage)

/-- `ConnectBlock` with the undo data it writes at the end. -/
def connectBlockToDisk (params : Params) (ext : Externals) (g : Globals) (block : CBlock) (pindexPrev : CBlockIndex)
    (fields : IndexFields) (view : CCoinsView) (fJustCheck : Bool) (disk : Option String) : Result Connection :=
  (connectBlock params ext g block pindexPrev fields view fJustCheck).bind fun c =>
  if fJustCheck then .ok c else (writeUndoDataForBlock disk).bind fun _ => .ok c

def isInvalid : Failure → Bool
  | .invalid _ _ => true
  | _ => false

/-- `ConnectTip` after a failed `ConnectBlock`: whether `InvalidBlockFound` marks the entry `BLOCK_FAILED_VALID`. -/
def connectTipMarks : Failure → Bool
  | .invalid reason _ => decide (reason ≠ .BLOCK_MUTATED)
  | _ => false

inductive StepReport where
  /-- True, with `fInvalidFound`. -/
  | invalidFound
  /-- False: a system error. -/
  | systemError

def activateBestChainStepReports (failure : Failure) : StepReport :=
  if isInvalid failure then .invalidFound else .systemError

/-- A failure on which the caller can act: a verdict on the block, or an error of the node itself. -/
def Classified (failure : Failure) : Prop :=
  (∃ reason text, failure = .invalid reason text ∧ (reason ≠ .BLOCK_MUTATED → connectTipMarks failure = true) ∧
    activateBestChainStepReports failure = .invalidFound) ∨ ∃ text, failure = .error text

theorem classified_iff {failure : Failure} (runs : failure ≠ .aborted) : Classified failure ↔ failure ≠ .unset := by
  cases failure with
  | invalid reason text =>
    simp [Classified, connectTipMarks, activateBestChainStepReports, isInvalid]
  | error text => simp [Classified]
  | unset => simp [Classified]
  | aborted => exact absurd rfl runs

/-! ### Exits that set the state -/

theorem checkEach_unset {α : Type} {check : α → Result Unit} {list : List α}
    (each : ∀ a ∈ list, Avoids .unset (check a)) : Avoids .unset (checkEach check list) := by
  induction list with
  | nil => exact .ok ()
  | cons a rest ih =>
    obtain ⟨first, others⟩ := List.forall_mem_cons.mp each
    exact first.bind fun _ _ => ih others

@[simp] theorem checkOutputs_unset (outs : List CTxOut) (nValueOut : Int) :
    Avoids .unset (checkOutputs nValueOut outs) := by
  induction outs generalizing nValueOut with
  | nil => exact .ok ()
  | cons out rest ih => simp [checkOutputs, ih]

variable (ext : Externals) (tx : CTransaction) (block : CBlock) (pindexPrev : CBlockIndex)

@[simp] theorem checkTransaction_unset : Avoids .unset (checkTransaction ext tx) := by
  simp [checkTransaction, checkInputShape]

theorem checkBlockAgain_unset (fJustCheck : Bool) : Avoids .unset (checkBlockAgain ext block fJustCheck) := by
  have inner : ∀ a b, Avoids .unset (checkBlock ext block a b) := fun a b => by simp [checkBlock, checkEach_unset]
  unfold checkBlockAgain
  split
  · simp
  · exact inner _ _

theorem beforeTxs_unset (params : Params) (ext : Externals) (g : Globals) (block : CBlock) (pindexPrev : CBlockIndex)
    (view : CCoinsView) (fJustCheck : Bool) : Avoids .unset (beforeTxs params ext g block pindexPrev view fJustCheck) := by
  refine (checkBlockAgain_unset ext block fJustCheck).bind fun _ _ => (checks_unset _ _).bind fun _ _ => ?_
  have best : ∀ hash, Avoids .unset (verifyBestBlock g hash) := by
    intro hash
    unfold verifyBestBlock
    split <;> simp
  simp [best]

@[simp] theorem sumInputs_unset (inputs : CCoinsView) (nSpendHeight : Nat) (vin : List CTxIn) (nValueIn : Int) :
    Avoids .unset (sumInputs inputs nSpendHeight nValueIn vin) := by
  induction vin generalizing nValueIn with
  | nil => exact .ok _
  | cons txin rest ih =>
    rw [sumInputs]
    split <;> simp [ih]

theorem checkTxInputs_unset (inputs : CCoinsView) (nSpendHeight : Nat) :
    Avoids .unset (checkTxInputs tx inputs nSpendHeight) := by
  simp [checkTxInputs]

theorem blockReason_unset {α : Type} {x : Result α} (sets : Avoids .unset x) : Avoids .unset (blockReason x) := by
  unfold blockReason
  split
  · simp
  · exact sets

theorem connectTx_unset (i : Nat) (tally : Tally)
    (tx : CTransaction) : Avoids .unset (connectTx ext block pindexPrev i tally tx) := by
  have checked : Avoids .unset (checkInputsOf ext pindexPrev tally tx) := by
    simp [checkInputsOf, blockReason_unset, checkTxInputs_unset]
  simp [connectTx, checked]

theorem connectTxs_unset (txs : List CTransaction) (i : Nat)
    (tally : Tally) : Avoids .unset (connectTxs ext block pindexPrev i txs tally) := by
  induction txs generalizing i tally with
  | nil => exact .ok _
  | cons tx rest ih => exact (connectTx_unset ext block pindexPrev i tally tx).bind fun after _ => ih (i + 1) after

/-! ### Special transactions -/

section
variable (env : ProviderEnv) (h : Hashing) (front : Option (Wallet env.hash160)) (getUTXOCoin : COutPoint → Option Coin)
  (mnList : CDeterministicMNList) (tx : CTransaction)

@[simp] theorem checkUnused_unset (v : UniqueProperty) (mayUse : CDeterministicMN → Bool) (text : String) :
    Avoids .unset (checkUnused h mnList v mayUse text) := by
  simp [checkUnused]

@[simp] theorem findCollateral_unset (ptx : CProRegTx) : Avoids .unset (findCollateral env front getUTXOCoin tx ptx) := by
  unfold findCollateral externalCollateral internalCollateral
  split
  · split
    · simp
    split
    · simp
    split <;> simp
  · split
    · simp
    split
    · simp
    split <;> simp

@[simp] theorem checkRegPayload_unset (ptx : CProRegTx) : Avoids .unset (checkRegPayload env ptx) := by
  refine (checks_unset _ _).bind fun _ _ => ?_
  split
  · simp
  · refine (checks_unset _ _).bind fun _ _ => bind ?_ fun _ _ => checks_unset _ _
    simp [checkService]

theorem checkProRegTx_unset : Avoids .unset (checkProRegTx env h front getUTXOCoin mnList tx) := by
  unfold checkProRegTx
  split
  · simp
  split
  · simp [checkRegCollateral, checkInputsHash]
  · simp

theorem checkProUpServTx_unset : Avoids .unset (checkProUpServTx env h mnList tx) := by
  unfold checkProUpServTx
  split
  · simp
  split
  · refine (checks_unset _ _).bind fun _ _ => bind (checks_unset _ _) fun _ _ => ?_
    split <;> simp [checkInputsHash]
  · simp

theorem checkProUpRegTx_unset : Avoids .unset (checkProUpRegTx env h getUTXOCoin mnList tx) := by
  unfold checkProUpRegTx
  split
  · simp
  split
  · refine (checks_unset _ _).bind fun _ _ => ?_
    split
    · simp
    split
    · simp
    refine (checks_unset _ _).bind fun _ _ => ?_
    split
    · simp
    split <;> simp [checkInputsHash]
  · simp

theorem checkProUpRevTx_unset : Avoids .unset (checkProUpRevTx env mnList tx) := by
  unfold checkProUpRevTx
  split
  · simp
  split
  · refine (checks_unset _ _).bind fun _ _ => ?_
    split <;> simp [checkInputsHash]
  · simp

end

section
variable (params : Params) (ext : Externals) (env : ProviderEnv) (front : Option (Wallet env.hash160)) (g : Globals)
  (block : CBlock) (pindexPrev : CBlockIndex)

@[simp] theorem verifyQuorum_unset (qc : CFinalCommitment) (pindexQuorum : CBlockIndex) (checkSigs : Bool) :
    Avoids .unset (verifyQuorum ext qc pindexQuorum checkSigs) := by
  simp [verifyQuorum]

theorem checkSpecialTx_unset (tx : CTransaction) :
    Avoids .unset (checkSpecialTx params (withProviders env ext front) g pindexPrev tx) := by
  have coinbase : Avoids .unset (checkCbTx tx pindexPrev) := by
    unfold checkCbTx
    split
    · exact .ok ()
    refine (checks_unset _ _).bind fun _ _ => ?_
    split <;> simp
  have commitment : Avoids .unset (checkLLMQCommitment params (withProviders env ext front) g.mapBlockIndex tx pindexPrev) := by
    unfold checkLLMQCommitment
    split
    · simp
    refine (checks_unset _ _).bind fun _ _ => ?_
    split <;> simp
  have provider : Avoids .unset ((withProviders env ext front).checkProviderTx g.getUTXOCoin
      (g.getListForBlock pindexPrev) tx pindexPrev) := by
    simp [withProviders, checkProviderTx, checkProRegTx_unset, checkProUpServTx_unset, checkProUpRegTx_unset,
      checkProUpRevTx_unset]
  simp [checkSpecialTx, coinbase, commitment, provider]

theorem quorumProcessBlock_unset (nHeight : Nat) : Avoids .unset (quorumProcessBlock params ext g block nHeight) := by
  unfold quorumProcessBlock
  split
  · exact .ok ()
  refine bind ?_ fun qcs _ => (checkEach_unset fun llmq _ => checks_unset _ _).bind fun _ _ =>
    checkEach_unset fun qc _ => by simp [processCommitment]
  refine (foldlM (P := fun _ => True) ?_ (fun _ _ _ _ _ _ => trivial) trivial).bind fun qcs _ => ?_
  · intro tx _ qcs _
    unfold addCommitment
    split
    · split <;> simp
    · exact .ok _
  · split <;> simp

end

section
variable (env : BuildEnv) (pindexPrev : CBlockIndex) (nHeight : Int) (newList : CDeterministicMNList)

@[simp] theorem registerMN_unset (tx : CTransaction) (proTx : CProRegTx) :
    Avoids .unset (registerMN env nHeight newList tx proTx) := by
  simp [registerMN]

@[simp] theorem updateServiceMN_unset (proTx : CProUpServTx) : Avoids .unset (updateServiceMN env nHeight newList proTx) := by
  have inner : Avoids .unset (updateServiceMN.update env nHeight newList proTx) := by
    unfold updateServiceMN.update
    split <;> simp
  simp [updateServiceMN, inner]

@[simp] theorem updateRegistrarMN_unset (proTx : CProUpRegTx) :
    Avoids .unset (updateRegistrarMN env nHeight newList proTx) := by
  unfold updateRegistrarMN
  split <;> simp

@[simp] theorem revokeMN_unset (proTx : CProUpRevTx) : Avoids .unset (revokeMN env nHeight newList proTx) := by
  unfold revokeMN
  split <;> simp

@[simp] theorem commitMN_unset (qc : CFinalCommitmentTxPayload) : Avoids .unset (commitMN env pindexPrev newList qc) := by
  unfold commitMN
  split
  · exact .ok _
  refine (assertSome_unset _).bind fun _ _ => ?_
  split <;> simp

theorem processProTx_unset (tx : CTransaction) : Avoids .unset (processProTx env pindexPrev newList tx) := by
  unfold processProTx
  split
  · exact .ok _
  iterate 5
    split
    · split <;> simp
  exact .ok _

theorem buildNewListFromBlock_unset (block : CBlock) (oldList : CDeterministicMNList) :
    Avoids .unset (buildNewListFromBlock env block pindexPrev oldList) :=
  (assertSome_unset _).bind fun _ _ => (assertSome_unset _).bind fun _ _ =>
    (foldlM (P := fun _ => True) (fun tx _ list _ => processProTx_unset env pindexPrev list tx)
      (fun _ _ _ _ _ _ => trivial) trivial).bind fun _ _ =>
    (assertSome_unset _).bind fun _ _ => assertSome_unset _

end

/-! ### ConnectBlock -/

section
variable (params : Params) (ext : Externals) (env : ProviderEnv) (front : Option (Wallet env.hash160)) (g : Globals)
  (block : CBlock) (pindexPrev : CBlockIndex)

theorem processSpecialTxsInBlock_unset :
    Avoids .unset (processSpecialTxsInBlock params (withProviders env ext front) g block pindexPrev) := by
  refine (checkEach_unset fun tx _ => (checkSpecialTx_unset params ext env front g pindexPrev tx).bind fun _ _ =>
    checks_unset _ _).bind fun _ _ => (quorumProcessBlock_unset params _ g block _).bind fun _ _ =>
    (buildNewListFromBlock_unset _ pindexPrev block _).bind fun newList _ => ?_
  split
  · unfold checkCbTxMerkleRoots
    split
    · simp
    split
    · exact .ok ()
    split <;> simp
  · exact .ok ()

/-- The hash that the kernel of the block proves; none for a block of work. -/
def proofHash : Option Uint256 :=
  if block.isProofOfStake then checkProofOfStake params ext g block pindexPrev else some 0

/-- The proof of stake is refused: its kernel does not hold, it was seen before, or the chain has no modifier for it.
    -/
def StakeRefused : Prop :=
  proofHash params ext g block pindexPrev = none ∨
    (params.nStakeEnforcement ≤ pindexPrev.nHeight + 1 ∧
      ∃ hash ∈ g.m_pos_index, proofHash params ext g block pindexPrev = some hash) ∨
    ext.computeNextStakeModifier pindexPrev block.nTime = none

theorem posContextualBlockChecks_eq_none :
    posContextualBlockChecks params ext g block pindexPrev = none ↔ StakeRefused params ext g block pindexPrev := by
  unfold posContextualBlockChecks StakeRefused
  rw [← proofHash]
  cases proved : proofHash params ext g block pindexPrev with
  | none => simp
  | some hash =>
    by_cases seen : params.nStakeEnforcement ≤ pindexPrev.nHeight + 1 ∧ hash ∈ g.m_pos_index
    · rw [bind_some, if_pos seen]
      simp [seen.1, seen.2]
    · rw [bind_some, if_neg seen, map_eq_none_iff]
      constructor
      · exact fun missing => .inr (.inr missing)
      · rintro (refused | ⟨enforced, _, member, same⟩ | missing)
        · cases refused
        · cases same; exact absurd ⟨enforced, member⟩ seen
        · exact missing

theorem stakeStage_unset_iff (fields : IndexFields) (fJustCheck : Bool) :
    stakeStage params ext g block pindexPrev fields fJustCheck = .error .unset ↔
      StakeUnchecked fields ∧ StakeRefused params ext g block pindexPrev := by
  rw [← posContextualBlockChecks_eq_none]
  unfold stakeStage StakeUnchecked
  by_cases unchecked : fields.nStakeModifier = 0 ∧ fields.nStakeModifierChecksum = 0
  · rw [if_pos unchecked]
    cases posContextualBlockChecks params ext g block pindexPrev with
    | none => simp [unchecked]
    | some stake => cases fJustCheck <;> simp
  · rw [if_neg unchecked]
    simp [unchecked]

theorem connectBlockToDisk_unset_iff (fields : IndexFields) (view : CCoinsView) (fJustCheck : Bool)
    (disk : Option String) :
    connectBlockToDisk params (withProviders env ext front) g block pindexPrev fields view fJustCheck disk = .error .unset ↔
      fields.phashBlock = block.hash ∧ StakeUnchecked fields ∧
        StakeRefused params (withProviders env ext front) g block pindexPrev := by
  rw [← stakeStage_unset_iff params _ g block pindexPrev fields fJustCheck]
  constructor
  · intro failed
    have connect : connectBlock params (withProviders env ext front) g block pindexPrev fields view fJustCheck =
        .error .unset := by
      by_contra sets
      refine bind sets (fun c _ => ?_) failed
      split
      · exact .ok c
      · refine bind ?_ fun _ _ => .ok c
        unfold writeUndoDataForBlock
        split <;> simp [Avoids]
    unfold connectBlock at connect
    split at connect
    · cases connect
    next hash =>
      refine ⟨not_not.mp hash, ?_⟩
      by_contra sets
      refine bind sets (fun _ _ => ?_) connect
      refine (beforeTxs_unset _ _ _ _ _ _ _).bind fun _ _ => (connectTxs_unset _ _ _ _ _ _).bind fun tally _ =>
        bind ?_ fun _ _ => .ok _
      refine (checks_unset _ _).bind fun _ _ => bind ?_ fun _ _ =>
        processSpecialTxsInBlock_unset params ext env front _ block pindexPrev
      simp [payeeCheck]
  · rintro ⟨hash, staged⟩
    rw [connectBlockToDisk, connectBlock, if_neg (not_not.mpr hash), staged]
    rfl

/-- Every failure of `ConnectBlock` is classified exactly when the stake checks at its start do not refuse the block.
    -/
theorem connectBlock_classified_iff (fields : IndexFields) (view : CCoinsView) (fJustCheck : Bool) (disk : Option String) :
    (∀ failure, connectBlockToDisk params (withProviders env ext front) g block pindexPrev fields view fJustCheck disk =
        .error failure → failure ≠ .aborted → Classified failure) ↔
      ¬(fields.phashBlock = block.hash ∧ StakeUnchecked fields ∧
        StakeRefused params (withProviders env ext front) g block pindexPrev) := by
  rw [← connectBlockToDisk_unset_iff params ext env front g block pindexPrev fields view fJustCheck disk]
  constructor
  · intro all silent
    exact (classified_iff (by simp)).mp (all .unset silent (by simp)) rfl
  · intro sets failure failed runs
    refine (classified_iff runs).mpr ?_
    rintro rfl
    exact sets failed

end

def baselessStake : CTransaction where
  vin := [{ prevout := ⟨77, 0⟩ }]
  vout := [⟨0, []⟩, ⟨1, [OP_TRUE]⟩]
  nType := TRANSACTION_STAKE
  hash := 78

def baselessBlock : CBlock := { hashPrevBlock := 1, nNonce := 1, vtx := [plainCoinbase, baselessStake], hash := 2 }

/-- A stake block without a kernel fails unclassified: it is not marked, and activation stops with a system error. -/
theorem connectBlock_unclassified :
    connectBlockToDisk regtestParams (withProviders sampleProviderEnv (permissive 0) none)
        (plainGlobals plainGenesis (CCoinsView.empty 1)) baselessBlock plainGenesis { phashBlock := 2 } (CCoinsView.empty 1)
        false none = .error .unset ∧
      ¬Classified .unset ∧ connectTipMarks .unset = false ∧ activateBestChainStepReports .unset = .systemError := by
  refine ⟨?_, (classified_iff (by simp)).not.mpr (by simp), rfl, rfl⟩
  rw [connectBlockToDisk_unset_iff]
  refine ⟨rfl, ⟨rfl, rfl⟩, .inl ?_⟩
  rfl

end Cspn.Failure
