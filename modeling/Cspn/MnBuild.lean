import Cspn.Coins
import Cspn.Index
import Cspn.MnList
import Cspn.Validation

/-!
The masternode list after a block: payment order, punishment, and `BuildNewListFromBlock`, which confirms, registers,
replaces, updates, revokes, bans and removes masternodes. `Evolves` is what a whole block can do to a list: a
masternode keeps its internal id, collateral and reward, or it carries an id that the block has handed out.
-/
namespace Cspn.MnBuild
open Primitives Coins Index MnState MnList Validation Option

def compareByLastPaidGetHeight (dmn : CDeterministicMN) : Int :=
  if dmn.pdmnState.nPoSeRevivedHeight ≠ -1 ∧ dmn.pdmnState.nPoSeRevivedHeight > dmn.pdmnState.nLastPaidHeight then
    dmn.pdmnState.nPoSeRevivedHeight
  else if dmn.pdmnState.nLastPaidHeight = 0 then dmn.pdmnState.nRegisteredHeight
  else dmn.pdmnState.nLastPaidHeight

def compareByLastPaid (a b : CDeterministicMN) : Bool :=
  let ah := compareByLastPaidGetHeight a
  let bh := compareByLastPaidGetHeight b
  if ah = bh then decide (a.proTxHash < b.proTxHash) else decide (ah < bh)

def getMNPayee (list : CDeterministicMNList) : Option CDeterministicMN :=
  (list.forEachMN true).foldl (fun best dmn =>
    match best with
    | none => some dmn
    | some other => if compareByLastPaid dmn other then some dmn else some other) none

def calcMaxPoSePenalty (list : CDeterministicMNList) : Int := max 100 (list.getAllMNsCount : Int)

def calcPenalty (list : CDeterministicMNList) (percent : Int) : Int := calcMaxPoSePenalty list * percent / 100

section
variable (h : Hashing)

def poSePunish (list : CDeterministicMNList) (proTxHash : Uint256) (penalty : Int) : Option CDeterministicMNList :=
  if penalty ≤ 0 then none
  else (list.getMN proTxHash).bind fun dmn =>
    let maxPenalty := calcMaxPoSePenalty list
    let nPoSePenalty := min maxPenalty (dmn.pdmnState.nPoSePenalty + penalty)
    let nPoSeBanHeight :=
      if nPoSePenalty ≥ maxPenalty ∧ dmn.pdmnState.nPoSeBanHeight = -1 then list.nHeight
      else dmn.pdmnState.nPoSeBanHeight
    list.updateMN h proTxHash
      { dmn.pdmnState with nPoSePenalty := nPoSePenalty, nPoSeBanHeight := nPoSeBanHeight }

def poSeDecrease (list : CDeterministicMNList) (proTxHash : Uint256) : Option CDeterministicMNList :=
  (list.getMN proTxHash).bind fun dmn =>
    if dmn.pdmnState.nPoSePenalty > 0 ∧ dmn.pdmnState.nPoSeBanHeight = -1 then
      list.updateMN h proTxHash { dmn.pdmnState with nPoSePenalty := dmn.pdmnState.nPoSePenalty - 1 }
    else none

/-- The candidates are collected before the first of them is changed. -/
def decreasePoSePenalties (list : CDeterministicMNList) : Option CDeterministicMNList :=
  let toDecrease := (list.forEachMN true).filter fun dmn =>
    decide (dmn.pdmnState.nPoSePenalty > 0 ∧ dmn.pdmnState.nPoSeBanHeight = -1)
  (toDecrease.map CDeterministicMN.proTxHash).foldlM (poSeDecrease h) list

/-- One quorum member; a commitment without a flag for it is read out of range. -/
def punishMember (qc : CFinalCommitment) (list : CDeterministicMNList) (member : CDeterministicMN × Nat) :
    Option CDeterministicMNList :=
  if list.hasMN member.1.proTxHash then
    match qc.validMembers[member.2]? with
    | none => none
    | some true => some list
    | some false => poSePunish h list member.1.proTxHash (calcPenalty list 66)
  else some list

def handleQuorumCommitment (qc : CFinalCommitment) (members : List CDeterministicMN) (list : CDeterministicMNList) :
    Option CDeterministicMNList :=
  members.zipIdx.foldlM (punishMember h qc) list

end

/-! ### The list after a block -/

/-- What the list of a block depends on besides the block and the parent's list. -/
structure BuildEnv where
  hashing : Hashing
  nMasternodeMinimumConfirmations : Int
  /-- `GetUTXOCoin`: the coin tip of the node. -/
  getUTXOCoin : COutPoint → Option Coin
  /-- `llmqs.at(type).dkgInterval`; `none` where the lookup throws. -/
  dkgInterval : Nat → Option Nat
  /-- `GetAllQuorumMembers`, from the list stored for the quorum's block. -/
  getAllQuorumMembers : Nat → CBlockIndex → List CDeterministicMN

variable {state : CDeterministicMNState} {dmn : CDeterministicMN} {tx : CTransaction} {pindexPrev : CBlockIndex}

section
variable (env : BuildEnv)

def confirmMN (pindexPrev : CBlockIndex) (newList : CDeterministicMNList) (dmn : CDeterministicMN) :
    Option CDeterministicMNList :=
  if dmn.pdmnState.confirmedHash ≠ 0 then some newList
  else if (pindexPrev.nHeight : Int) - dmn.pdmnState.nRegisteredHeight ≥ env.nMasternodeMinimumConfirmations then
    newList.updateMN env.hashing dmn.proTxHash
      { dmn.pdmnState with
        confirmedHash := pindexPrev.getBlockHash
        confirmedHashWithProRegTxHash := env.hashing.sha256 dmn.proTxHash pindexPrev.getBlockHash }
  else some newList

/-- The masternode a registration creates; its collateral may be an output of its own transaction. -/
def registeredMN (tx : CTransaction) (proTx : CProRegTx) (internalId : Nat) (nHeight : Int) : CDeterministicMN :=
  let state := CDeterministicMNState.ofProRegTx proTx
  { proTxHash := tx.hash
    internalId := internalId
    collateralOutpoint :=
      if proTx.collateralOutpoint.hash = 0 then ⟨tx.hash, proTx.collateralOutpoint.n⟩ else proTx.collateralOutpoint
    nOperatorReward := proTx.nOperatorReward
    pdmnState :=
      { state with
        nRegisteredHeight := nHeight
        -- without an address the masternode waits for a service update
        nPoSeBanHeight := if proTx.addr = {} then nHeight else state.nPoSeBanHeight } }

/-- The coin behind an external collateral has the collateral's value. -/
def externalCollateralOk (proTx : CProRegTx) (collateralOutpoint : COutPoint) : Bool :=
  decide (proTx.collateralOutpoint.hash = 0) ||
    match env.getUTXOCoin collateralOutpoint with
    | none => false
    | some coin => decide (coin.out.nValue = 1337 * COIN)

section
variable (nHeight : Int) (newList : CDeterministicMNList)

def registerMN (tx : CTransaction) (proTx : CProRegTx) : Result CDeterministicMNList :=
  let dmn := registeredMN tx proTx newList.nTotalRegisteredCount nHeight
  let newList := newList.countRegistration
  if !externalCollateralOk env proTx dmn.collateralOutpoint then consensus "bad-protx-collateral"
  else
    -- an external collateral that is registered again replaces the masternode it belonged to
    (assertSome (match newList.getMNByCollateral env.hashing dmn.collateralOutpoint with
      | some replacedDmn => newList.removeMN env.hashing replacedDmn.proTxHash
      | none => some newList)).bind fun newList =>
    if newList.hasUniqueProperty env.hashing (.service proTx.addr) then consensus "bad-protx-dup-addr"
    else if newList.hasUniqueProperty env.hashing (.keyID proTx.keyIDOwner) ||
        newList.hasUniqueProperty env.hashing (.blsKey proTx.pubKeyOperator) then consensus "bad-protx-dup-key"
    else assertSome (newList.addMN env.hashing dmn)

/-- The state after a service update; a banned masternode with all its keys is revived. -/
def servicedState (proTx : CProUpServTx) (state : CDeterministicMNState) : CDeterministicMNState :=
  let state := { state with addr := proTx.addr, scriptOperatorPayout := proTx.scriptOperatorPayout }
  if state.nPoSeBanHeight ≠ -1 ∧ state.pubKeyOperator.isSome ∧ state.keyIDVoting ≠ 0 ∧ state.keyIDOwner ≠ 0 then
    { state with nPoSePenalty := 0, nPoSeBanHeight := -1, nPoSeRevivedHeight := nHeight }
  else state

def updateServiceMN (proTx : CProUpServTx) : Result CDeterministicMNList :=
  if newList.hasUniqueProperty env.hashing (.service proTx.addr) then
    -- the owner of the address is dereferenced without a test
    (assertSome (newList.getUniquePropertyMN env.hashing (.service proTx.addr))).bind fun owner =>
    if owner.proTxHash ≠ proTx.proTxHash then consensus "bad-protx-dup-addr" else update
  else update
where
  update : Result CDeterministicMNList :=
    match newList.getMN proTx.proTxHash with
    | none => consensus "bad-protx-hash"
    | some dmn =>
      assertSome (newList.updateMN env.hashing proTx.proTxHash (servicedState nHeight proTx dmn.pdmnState))

/-- The state after a registrar update; a new operator key resets the operator and bans. -/
def registrarState (proTx : CProUpRegTx) (state : CDeterministicMNState) : CDeterministicMNState :=
  let state :=
    if state.pubKeyOperator ≠ proTx.pubKeyOperator then state.resetOperatorFields.banIfNotBanned nHeight else state
  { state with
    pubKeyOperator := proTx.pubKeyOperator
    keyIDVoting := proTx.keyIDVoting
    scriptPayout := proTx.scriptPayout }

def updateRegistrarMN (proTx : CProUpRegTx) : Result CDeterministicMNList :=
  match newList.getMN proTx.proTxHash with
  | none => consensus "bad-protx-hash"
  | some dmn =>
    assertSome (newList.updateMN env.hashing proTx.proTxHash (registrarState nHeight proTx dmn.pdmnState))

/-- The state after a revocation, also after a collateral created in the block is spent in it. -/
def revokedState (nReason : Nat) (state : CDeterministicMNState) : CDeterministicMNState :=
  { state.resetOperatorFields.banIfNotBanned nHeight with nRevocationReason := nReason }

def revokeMN (proTx : CProUpRevTx) : Result CDeterministicMNList :=
  match newList.getMN proTx.proTxHash with
  | none => consensus "bad-protx-hash"
  | some dmn =>
    assertSome (newList.updateMN env.hashing proTx.proTxHash (revokedState nHeight proTx.nReason dmn.pdmnState))

end

def commitMN (pindexPrev : CBlockIndex) (newList : CDeterministicMNList) (qc : CFinalCommitmentTxPayload) :
    Result CDeterministicMNList :=
  if qc.commitment.isNull then .ok newList
  else (assertSome (env.dkgInterval qc.commitment.llmqType)).bind fun dkgInterval =>
    match pindexPrev.getAncestor (qc.nHeight - qc.nHeight % dkgInterval) with
    | none => consensus "bad-qc-quorum-hash"
    | some quorumIndex =>
      if quorumIndex.getBlockHash ≠ qc.commitment.quorumHash then consensus "bad-qc-quorum-hash"
      else assertSome (handleQuorumCommitment env.hashing qc.commitment
        (env.getAllQuorumMembers qc.commitment.llmqType quorumIndex) newList)

/-- The body of the first loop over the transactions. A payload that does not parse runs into `assert(false)`. -/
def processProTx (pindexPrev : CBlockIndex) (newList : CDeterministicMNList) (tx : CTransaction) :
    Result CDeterministicMNList :=
  let nHeight : Int := pindexPrev.nHeight + 1
  if tx.nVersion ≠ 2 then .ok newList
  else if tx.nType = TRANSACTION_PROVIDER_REGISTER then
    match tx.vExtraPayload with
    | .proRegTx proTx => registerMN env nHeight newList tx proTx
    | _ => .error .aborted
  else if tx.nType = TRANSACTION_PROVIDER_UPDATE_SERVICE then
    match tx.vExtraPayload with
    | .proUpServTx proTx => updateServiceMN env nHeight newList proTx
    | _ => .error .aborted
  else if tx.nType = TRANSACTION_PROVIDER_UPDATE_REGISTRAR then
    match tx.vExtraPayload with
    | .proUpRegTx proTx => updateRegistrarMN env nHeight newList proTx
    | _ => .error .aborted
  else if tx.nType = TRANSACTION_PROVIDER_UPDATE_REVOKE then
    match tx.vExtraPayload with
    | .proUpRevTx proTx => revokeMN env nHeight newList proTx
    | _ => .error .aborted
  else if tx.nType = TRANSACTION_QUORUM_COMMITMENT then
    match tx.vExtraPayload with
    | .quorumCommitment qc => commitMN env pindexPrev newList qc
    | _ => .error .aborted
  else .ok newList

variable (oldList : CDeterministicMNList) (nHeight : Int) (newList : CDeterministicMNList)

def spendCollateral (prevout : COutPoint) : Option CDeterministicMNList :=
  match newList.getMNByCollateral env.hashing prevout with
  | none => some newList
  | some dmn =>
    if dmn.collateralOutpoint ≠ prevout then some newList
    else
      match oldList.getMNByCollateral env.hashing prevout with
      | some oldDmn => newList.removeMN env.hashing oldDmn.proTxHash
      | none => newList.updateMN env.hashing dmn.proTxHash (revokedState nHeight REASON_NOT_SPECIFIED dmn.pdmnState)

def payMN : Option CDeterministicMNList :=
  match getMNPayee oldList with
  | none => some newList
  | some payee =>
    match newList.getMN payee.proTxHash with
    | none => some newList
    | some dmn => newList.updateMN env.hashing payee.proTxHash { dmn.pdmnState with nLastPaidHeight := nHeight }

def buildNewListFromBlock (block : CBlock) (pindexPrev : CBlockIndex) (oldList : CDeterministicMNList) :
    Result CDeterministicMNList :=
  let nHeight : Int := pindexPrev.nHeight + 1
  let newList := { oldList with blockHash := 0, nHeight := nHeight }
  (assertSome ((oldList.forEachMN false).foldlM (confirmMN env pindexPrev) newList)).bind fun newList =>
  (assertSome (decreasePoSePenalties env.hashing newList)).bind fun newList =>
  -- both loops skip the coinbase
  (block.vtx.tail.foldlM (processProTx env pindexPrev) newList).bind fun newList =>
  (assertSome ((block.vtx.tail.flatMap fun tx => tx.vin.map CTxIn.prevout).foldlM
    (spendCollateral env oldList nHeight) newList)).bind fun newList =>
  assertSome (payMN env oldList nHeight newList)

/-! ### What a block can do to a list -/

def SameRegistration (a b : CDeterministicMN) : Prop :=
  a.internalId = b.internalId ∧ a.collateralOutpoint = b.collateralOutpoint ∧ a.nOperatorReward = b.nOperatorReward

structure Evolves (h : Hashing) (oldList newList : CDeterministicMNList) (issued : Nat) : Prop where
  consistent : Consistent h newList (oldList.nTotalRegisteredCount + issued)
  count : newList.nTotalRegisteredCount = oldList.nTotalRegisteredCount + issued
  height : newList.nHeight = oldList.nHeight
  kept : ∀ {p : Uint256} {dmn : CDeterministicMN}, newList.mnMap[p]? = some dmn →
    (∃ old : CDeterministicMN, oldList.mnMap[p]? = some old ∧ SameRegistration old dmn) ∨
      oldList.nTotalRegisteredCount ≤ dmn.internalId

/-- A registration as `BuildNewListFromBlock` recognises it. -/
def isRegistration (tx : CTransaction) : Bool :=
  decide (tx.nVersion = 2 ∧ tx.nType = TRANSACTION_PROVIDER_REGISTER)

def registrations (block : CBlock) : Nat := block.vtx.tail.countP isRegistration

/-- The counter moves on, a masternode with the same collateral goes and the new one comes. -/
theorem registerMN_spec {env : BuildEnv} {nHeight : Int} {list after : CDeterministicMNList} {proTx : CProRegTx}
    (registered : registerMN env nHeight list tx proTx = .ok after) : ∃ middle, (middle = list.countRegistration ∨
        ∃ p, list.countRegistration.removeMN env.hashing p = some middle) ∧
      middle.addMN env.hashing (registeredMN tx proTx list.nTotalRegisteredCount nHeight) = some after := by
  unfold registerMN at registered
  dsimp only at registered
  split at registered
  · cases registered
  obtain ⟨middle, replaced, registered⟩ := bind_eq_ok.mp registered
  rw [assertSome_eq_ok] at replaced
  split at registered
  · cases registered
  split at registered
  · cases registered
  refine ⟨middle, ?_, assertSome_eq_ok.mp registered⟩
  split at replaced
  next replacedDmn _ => exact .inr ⟨replacedDmn.proTxHash, replaced⟩
  next => exact .inl (some.inj replaced).symm

namespace Evolves
variable {h : Hashing} {oldList list after : CDeterministicMNList} {issued : Nat}

theorem start (consistent : Consistent h oldList oldList.nTotalRegisteredCount) : Evolves h oldList oldList 0 where
  consistent := consistent
  count := rfl
  height := rfl
  kept := fun found => .inl ⟨_, found, rfl, rfl, rfl⟩

variable {p : Uint256}

section
variable (evolves : Evolves h oldList list issued)
include evolves

theorem updateMN (owner : state.keyIDOwner ≠ 0) (updated : list.updateMN h p state = some after) :
    Evolves h oldList after issued := by
  obtain ⟨consistent, dmn, found, shape⟩ := evolves.consistent.updateMN updated owner
  refine ⟨consistent, by rw [shape]; exact evolves.count, by rw [shape]; exact evolves.height, ?_⟩
  rw [shape]
  -- only the state of the updated masternode is new
  exact forall_insert evolves.kept (@evolves.kept _ dmn found)

theorem removeMN (removed : list.removeMN h p = some after) : Evolves h oldList after issued := by
  obtain ⟨consistent, dmn, found, shape⟩ := evolves.consistent.removeMN removed
  refine ⟨consistent, by rw [shape]; exact evolves.count, by rw [shape]; exact evolves.height, ?_⟩
  intro q other present
  rw [shape] at present
  exact evolves.kept (erase_cases present).2

end

variable {env : BuildEnv} {nHeight : Int} {parent : CDeterministicMNList}

section
variable (evolves : Evolves env.hashing oldList list issued)
include evolves

theorem registerMN {proTx : CProRegTx} (registered : registerMN env nHeight list tx proTx = .ok after)
    (room : oldList.nTotalRegisteredCount + issued + 1 < 2 ^ 32) :
    Evolves env.hashing oldList after (issued + 1) := by
  obtain ⟨middle, replaced, added⟩ := registerMN_spec registered
  -- the replacement removes at most one masternode; the counter has moved on already
  have removed : Consistent env.hashing middle (oldList.nTotalRegisteredCount + issued) ∧
      middle.nTotalRegisteredCount = oldList.nTotalRegisteredCount + (issued + 1) ∧
      middle.nHeight = oldList.nHeight ∧
      ∀ {q : Uint256} {other : CDeterministicMN}, middle.mnMap[q]? = some other → list.mnMap[q]? = some other := by
    have counted : list.countRegistration.nTotalRegisteredCount = oldList.nTotalRegisteredCount + (issued + 1) := by
      have count := evolves.count
      simp only [CDeterministicMNList.countRegistration, count]
      omega
    have consistent : Consistent env.hashing list.countRegistration (oldList.nTotalRegisteredCount + issued) :=
      evolves.consistent.congr rfl rfl rfl
    obtain rfl | ⟨q, replaced⟩ := replaced
    · exact ⟨consistent, counted, evolves.height, fun present => present⟩
    · obtain ⟨consistent, gone, _, shape⟩ := consistent.removeMN replaced
      refine ⟨consistent, by rw [shape]; exact counted, by rw [shape]; exact evolves.height, ?_⟩
      intro q other present
      rw [shape] at present
      exact (erase_cases present).2
  obtain ⟨consistent, counted, height, subset⟩ := removed
  have id : (registeredMN tx proTx list.nTotalRegisteredCount nHeight).internalId =
      oldList.nTotalRegisteredCount + issued := evolves.count
  obtain ⟨consistent, absent, shape⟩ := consistent.addMN added
    (fun q other present => by rw [id]; exact Nat.ne_of_lt (evolves.consistent.fresh (subset present)))
    (oldList.nTotalRegisteredCount + (issued + 1)) (by rw [id]; omega) (by omega)
  refine ⟨consistent, by rw [shape]; exact counted, by rw [shape]; exact height, ?_⟩
  rw [shape]
  exact forall_insert (fun present => evolves.kept (subset present)) (.inr (by rw [id]; omega))

theorem payMN (paid : payMN env parent nHeight list = some after) : Evolves env.hashing oldList after issued := by
  unfold MnBuild.payMN at paid
  split at paid
  · cases paid; exact evolves
  split at paid
  · cases paid; exact evolves
  next dmn found => exact evolves.updateMN (by exact (evolves.consistent.nonNull found).2) paid

theorem confirmMN {bound : Nat} (consistent : Consistent env.hashing parent bound)
    (listed : dmn ∈ parent.forEachMN false) (confirmed : confirmMN env pindexPrev list dmn = some after) :
    Evolves env.hashing oldList after issued := by
  unfold MnBuild.confirmMN at confirmed
  split at confirmed
  · cases confirmed; exact evolves
  split at confirmed
  · obtain ⟨p, found⟩ := mem_forEachMN.mp listed
    refine evolves.updateMN ?_ confirmed
    exact (consistent.nonNull found).2
  · cases confirmed; exact evolves

end

end Evolves

end

end Cspn.MnBuild
