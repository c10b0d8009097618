import Cspn.Payments

/-!
Special transactions in a block: the payload checks, the quorum commitments, the masternode list and the roots the
coinbase commits to, and what taking the block back has to find. Below the activation height the commitments of a
block are looked at only when it is disconnected.
-/
namespace Cspn.SpecialTx
open Primitives Index MnList MnBuild Validation Env List BlockCheck

/-! ### Payload checks -/

variable (llmq : LLMQParams) (params : Params) (ext : Externals) (g : Globals) (block : CBlock) (nHeight : Nat)
  (tx : CTransaction) (pindexPrev : CBlockIndex)

def cbTxPayload : Option CCbTx :=
  match tx.vExtraPayload with
  | .cbTx payload => some payload
  | _ => none

def commitmentPayload : Option CFinalCommitmentTxPayload :=
  match tx.vExtraPayload with
  | .quorumCommitment payload => some payload
  | _ => none

/-- `CCbTx::CURRENT_VERSION` and `CFinalCommitmentTxPayload::CURRENT_VERSION`. -/
def CBTX_CURRENT_VERSION : Nat := 2
def COMMITMENT_CURRENT_VERSION : Nat := 1

def checkCbTx : Result Unit :=
  if tx.nVersion < 2 then .ok ()
  else
    (checks .CONSENSUS
      [(decide (tx.nType = TRANSACTION_COINBASE), "bad-cbtx-type"), (tx.isCoinBase, "bad-cbtx-invalid")]).bind fun _ =>
    match cbTxPayload tx with
    | none => consensus "bad-cbtx-payload"
    | some cbTx =>
      checks .CONSENSUS
        [(decide (cbTx.nVersion ≠ 0 ∧ cbTx.nVersion ≤ CBTX_CURRENT_VERSION), "bad-cbtx-version"),
          (decide ((pindexPrev.nHeight : Int) + 1 = cbTx.nHeight), "bad-cbtx-height")]

def verifyQuorum (qc : CFinalCommitment) (pindexQuorum : CBlockIndex) (checkSigs : Bool) : Result Unit :=
  if qc.isNull then checks .CONSENSUS [(ext.verifyNull qc, "bad-qc-invalid-null")]
  else checks .CONSENSUS [(ext.verifyCommitment qc pindexQuorum checkSigs, "bad-qc-invalid")]

def checkLLMQCommitment (mapBlockIndex : BlockMap) (tx : CTransaction) (pindexPrev : CBlockIndex) : Result Unit :=
  match commitmentPayload tx with
  | none => consensus "bad-qc-payload"
  | some qcTx =>
    (checks .CONSENSUS
      [(decide (qcTx.nVersion ≠ 0 ∧ qcTx.nVersion ≤ COMMITMENT_CURRENT_VERSION), "bad-qc-version"),
        (decide (qcTx.nHeight = pindexPrev.nHeight + 1), "bad-qc-height")]).bind fun _ =>
    match mapBlockIndex.find qcTx.commitment.quorumHash with
    | none => consensus "bad-qc-quorum-hash"
    | some pindexQuorum =>
      (checks .CONSENSUS
        [(decide (pindexPrev.getAncestor pindexQuorum.nHeight = some pindexQuorum), "bad-qc-quorum-hash"),
          ((params.llmq qcTx.commitment.llmqType).isSome, "bad-qc-type")]).bind fun _ =>
      verifyQuorum ext qcTx.commitment pindexQuorum false

def providerTypes : List Int :=
  [TRANSACTION_PROVIDER_REGISTER, TRANSACTION_PROVIDER_UPDATE_SERVICE, TRANSACTION_PROVIDER_UPDATE_REGISTRAR,
    TRANSACTION_PROVIDER_UPDATE_REVOKE]

/-- Transactions that the special checks pass over. -/
def isPlain : Bool :=
  decide (tx.nVersion < 2 ∨ tx.nType = TRANSACTION_NORMAL ∨ tx.nType = TRANSACTION_STAKE)

def checkSpecialTx (tx : CTransaction) : Result Unit :=
  if isPlain tx then .ok ()
  else if tx.nType = TRANSACTION_COINBASE then checkCbTx tx pindexPrev
  else if providerTypes.contains tx.nType then
    ext.checkProviderTx g.getUTXOCoin (g.getListForBlock pindexPrev) tx pindexPrev
  else if tx.nType = TRANSACTION_QUORUM_COMMITMENT then checkLLMQCommitment params ext g.mapBlockIndex tx pindexPrev
  else consensus "bad-tx-type-check"

/-- `ProcessSpecialTx` and `UndoSpecialTx` know these types and do nothing for them. -/
def knownType : Bool :=
  isPlain tx || decide (tx.nType = TRANSACTION_COINBASE) || providerTypes.contains tx.nType ||
    decide (tx.nType = TRANSACTION_QUORUM_COMMITMENT)

def processSpecialTx : Result Unit := checks .CONSENSUS [(knownType tx, "bad-tx-type-proc")]

def undoSpecialTx : Bool := knownType tx

def addCommitment (qcs : List CFinalCommitment) (tx : CTransaction) : Result (List CFinalCommitment) :=
  if tx.nType = TRANSACTION_QUORUM_COMMITMENT then
    match commitmentPayload tx with
    | none => consensus "bad-tx-payload"
    | some qcTx =>
      if qcs.any fun qc => decide (qc.llmqType = qcTx.commitment.llmqType) then consensus "bad-qc-dup"
      else .ok (qcs ++ [qcTx.commitment])
  else .ok qcs

def getCommitmentsFromBlock : Result (List CFinalCommitment) :=
  (block.vtx.foldlM addCommitment []).bind fun qcs =>
    if nHeight < params.nLLMQActivationHeight ∧ qcs ≠ [] then consensus "bad-qc-premature" else .ok qcs

/-- `GetQuorumBlockHash`: the null hash where the active chain does not reach the first block of the session. -/
def getQuorumBlockHash (chainActive : CChain) (nHeight : Nat) : Uint256 :=
  ((chainActive.get (nHeight - nHeight % llmq.dkgInterval)).map CBlockIndex.getBlockHash).getD 0

def isMiningPhase : Bool :=
  decide (llmq.dkgMiningWindowStart ≤ nHeight % llmq.dkgInterval) &&
    decide (nHeight % llmq.dkgInterval ≤ llmq.dkgMiningWindowEnd)

def isCommitmentRequired : Bool :=
  let quorumHash := getQuorumBlockHash llmq g.chainActive nHeight
  (decide (quorumHash ≠ 0) && isMiningPhase llmq nHeight) &&
    !(decide (quorumHash ≠ 0) && g.hasMinedCommitment llmq.type quorumHash)

def commitmentExpected (qcs : List CFinalCommitment) (g : Globals) (nHeight : Nat) (llmq : LLMQParams) : Result Unit :=
  let hasCommitmentInNewBlock := qcs.any fun qc => decide (qc.llmqType = llmq.type)
  let required := isCommitmentRequired llmq g nHeight
  checks .CONSENSUS
    [(!(hasCommitmentInNewBlock && !required), "bad-qc-not-allowed"),
      (!(!hasCommitmentInNewBlock && required), "bad-qc-missing")]

def processCommitment (qc : CFinalCommitment) : Result Unit :=
  (assertSome (params.llmq qc.llmqType)).bind fun llmq =>
  let quorumHash := getQuorumBlockHash llmq g.chainActive nHeight
  (checks .CONSENSUS [(decide (quorumHash ≠ 0 ∧ quorumHash = qc.quorumHash), "bad-qc-block")]).bind fun _ =>
  if qc.isNull then checks .CONSENSUS [(ext.verifyNull qc, "bad-qc-invalid-null")]
  else
    (checks .CONSENSUS
      [(!g.hasMinedCommitment llmq.type quorumHash, "bad-qc-dup"),
        (isMiningPhase llmq nHeight, "bad-qc-height")]).bind fun _ =>
    (assertSome (g.mapBlockIndex.find qc.quorumHash)).bind fun pindexQuorum =>
    checks .CONSENSUS [(ext.verifyCommitment qc pindexQuorum true, "bad-qc-invalid")]

/-- `CQuorumBlockProcessor::ProcessBlock`; the commitments go in the order of their types. -/
def quorumProcessBlock : Result Unit :=
  if nHeight < params.nLLMQActivationHeight then .ok ()
  else
    (getCommitmentsFromBlock params block nHeight).bind fun qcs =>
    (checkEach (commitmentExpected qcs g nHeight) params.llmqs).bind fun _ =>
    checkEach (processCommitment params ext g nHeight) (qcs.insertionSort fun a b => a.llmqType ≤ b.llmqType)

def checkCbTxMerkleRoots (newList : CDeterministicMNList) : Result Unit :=
  match block.vtx.head? with
  | none => .error .aborted
  | some coinbase =>
    if coinbase.nType ≠ TRANSACTION_COINBASE then .ok ()
    else
      match cbTxPayload coinbase with
      | none => consensus "bad-cbtx-payload"
      | some cbTx =>
        checks .CONSENSUS
          [(decide (ext.merkleRootMNList newList = cbTx.merkleRootMNList), "bad-cbtx-mnmerkleroot"),
            (decide (g.calcCbTxMerkleRootQuorums block pindexPrev = some cbTx.merkleRootQuorums),
              "bad-cbtx-quorummerkleroot")]

/-- `ProcessSpecialTxsInBlock` on the parent `pindexPrev`, with the coinbase roots checked. -/
def processSpecialTxsInBlock : Result Unit :=
  let nHeight := pindexPrev.nHeight + 1
  (checkEach (fun tx => (checkSpecialTx params ext g pindexPrev tx).bind fun _ => processSpecialTx tx)
    block.vtx).bind fun _ =>
  (quorumProcessBlock params ext g block nHeight).bind fun _ =>
  (buildNewListFromBlock (buildEnv params ext g) block pindexPrev (g.getListForBlock pindexPrev)).bind fun newList =>
  if block.isProofOfStake then checkCbTxMerkleRoots ext g block pindexPrev newList else .ok ()

def undoSpecialTxsInBlock : Bool :=
  block.vtx.all undoSpecialTx && okAnd (getCommitmentsFromBlock params block nHeight) fun _ => true

variable {tx : CTransaction} {ext : Externals} {g : Globals} {qcs : List CFinalCommitment} {block : CBlock}

theorem version_of_commitmentPayload {qcTx : CFinalCommitmentTxPayload}
    (parsed : commitmentPayload tx = some qcTx) : 2 ≤ tx.nVersion := by
  have raw := tx.noPayload
  by_contra low
  rw [commitmentPayload, raw fun special => low special.1] at parsed
  cases parsed

variable {pindexPrev : CBlockIndex} {params : Params}

section
variable (passed : checkSpecialTx params ext g pindexPrev tx = .ok ())
include passed

theorem checkSpecialTx_coinbase (version : 2 ≤ tx.nVersion) (type : tx.nType = TRANSACTION_COINBASE) :
    ∃ cbTx, cbTxPayload tx = some cbTx ∧ cbTx.nHeight = (pindexPrev.nHeight : Int) + 1 := by
  have special : isPlain tx = false := by
    simp only [isPlain, type, decide_eq_false_iff_not, not_or]
    exact ⟨by omega, by decide, by decide⟩
  rw [checkSpecialTx, if_neg (by simp [special]), if_pos type, checkCbTx, if_neg (by omega)] at passed
  have payload := (then_eq_ok.mp passed).2
  cases parsed : cbTxPayload tx with
  | none => rw [parsed] at payload; cases payload
  | some cbTx =>
    rw [parsed] at payload
    simp only [checks_cons, decide_eq_true_eq] at payload
    exact ⟨cbTx, rfl, payload.2.1.symm⟩

theorem checkSpecialTx_commitment (version : 2 ≤ tx.nVersion) (type : tx.nType = TRANSACTION_QUORUM_COMMITMENT) :
    ∃ qcTx, commitmentPayload tx = some qcTx ∧ qcTx.nHeight = pindexPrev.nHeight + 1 ∧
      (params.llmq qcTx.commitment.llmqType).isSome ∧
      ∃ pindexQuorum, verifyQuorum ext qcTx.commitment pindexQuorum false = .ok () := by
  have special : isPlain tx = false := by
    simp only [isPlain, type, decide_eq_false_iff_not, not_or]
    exact ⟨by omega, by decide, by decide⟩
  rw [checkSpecialTx, if_neg (by simp [special]), type, if_neg (by decide), if_neg (by decide), if_pos rfl,
    checkLLMQCommitment] at passed
  split at passed
  · cases passed
  next qcTx parsed =>
    obtain ⟨height, passed⟩ := then_eq_ok.mp passed
    simp only [checks_cons, decide_eq_true_eq] at height
    split at passed
    · cases passed
    next pindexQuorum _ =>
      obtain ⟨known, verified⟩ := then_eq_ok.mp passed
      simp only [checks_cons, decide_eq_true_eq] at known
      exact ⟨qcTx, parsed, height.2.1, known.2.1, pindexQuorum, verified⟩

end

theorem foldlM_addCommitment_ok {txs : List CTransaction} {found : List CFinalCommitment}
    (folded : txs.foldlM addCommitment qcs = .ok found) :
    (∀ tx ∈ txs, tx.nType = TRANSACTION_QUORUM_COMMITMENT → ∃ qcTx, commitmentPayload tx = some qcTx ∧
      ∀ qc ∈ qcs, qc.llmqType ≠ qcTx.commitment.llmqType) ∧
    txs.Pairwise fun first second => first.nType = TRANSACTION_QUORUM_COMMITMENT →
      second.nType = TRANSACTION_QUORUM_COMMITMENT → commitmentPayload first ≠ commitmentPayload second := by
  induction txs generalizing qcs with
  | nil => simp
  | cons tx rest ih =>
    obtain ⟨after, first, tail⟩ := bind_eq_ok.mp folded
    obtain ⟨each, apart⟩ := ih tail
    unfold addCommitment at first
    split at first
    next type =>
      cases parsed : commitmentPayload tx with
      | none => rw [parsed] at first; cases first
      | some qcTx =>
        rw [parsed] at first
        dsimp only at first
        split at first
        · cases first
        next fresh =>
          cases first
          have differs : ∀ qc ∈ qcs, qc.llmqType ≠ qcTx.commitment.llmqType := by simpa using fresh
          refine ⟨forall_mem_cons.mpr ⟨fun _ => ⟨qcTx, parsed, differs⟩, fun other later otherType => ?_⟩,
            pairwise_cons.mpr ⟨fun other later _ otherType same => ?_, apart⟩⟩
          · obtain ⟨payload, found, unlike⟩ := each other later otherType
            exact ⟨payload, found, fun qc old => unlike qc (mem_append_left _ old)⟩
          · obtain ⟨payload, found, unlike⟩ := each other later otherType
            rw [parsed, found] at same
            cases same
            exact unlike _ (mem_append_right _ (.head _)) rfl
    next type =>
      cases first
      exact ⟨forall_mem_cons.mpr ⟨fun is => absurd is type, each⟩,
        pairwise_cons.mpr ⟨fun _ _ is => absurd is type, apart⟩⟩

structure SpecialOk (params : Params) (ext : Externals) (g : Globals) (block : CBlock) (pindexPrev : CBlockIndex) : Prop where
  each : ∀ tx ∈ block.vtx, checkSpecialTx params ext g pindexPrev tx = .ok () ∧ knownType tx = true
  commitments : params.nLLMQActivationHeight ≤ pindexPrev.nHeight + 1 →
    ∃ qcs, getCommitmentsFromBlock params block (pindexPrev.nHeight + 1) = .ok qcs

theorem processSpecialTxsInBlock_ok (passed : processSpecialTxsInBlock params ext g block pindexPrev = .ok ()) :
    SpecialOk params ext g block pindexPrev := by
  obtain ⟨each, rest⟩ := then_eq_ok.mp passed
  obtain ⟨quorums, -⟩ := then_eq_ok.mp rest
  refine ⟨fun tx member => ?_, fun active => ?_⟩
  · obtain ⟨checked, processed⟩ := then_eq_ok.mp (checkEach_ok.mp each tx member)
    exact ⟨checked, (checks_cons.mp processed).1⟩
  · rw [quorumProcessBlock, if_neg (by omega)] at quorums
    obtain ⟨qcs, found, -⟩ := bind_eq_ok.mp quorums
    exact ⟨qcs, found⟩

theorem getCommitmentsFromBlock_ok {nHeight : Nat}
    (found : getCommitmentsFromBlock params block nHeight = .ok qcs) : block.vtx.foldlM addCommitment [] = .ok qcs := by
  obtain ⟨all, folded, rest⟩ := bind_eq_ok.mp found
  split at rest
  · cases rest
  · cases rest; exact folded

end Cspn.SpecialTx
