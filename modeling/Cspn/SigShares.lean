import Cspn.PendingShares
import Cspn.Folds

/-!
The signature share manager: the signing sessions that a node keeps for each peer, the handlers of their messages, and
the worker thread. A handler takes the lock several times, and other threads may come in between. When a task is due
is left to the run.
-/
namespace Cspn.SigShares
open Primitives PendingShares Function

/-- What ends the program or makes its behaviour undefined. -/
inductive Crash where
  | danglingPointer
  | nullQuorum
  | outOfRange
  | unknownType
  | assertion
deriving DecidableEq

abbrev NodeId := Int

def noSession : UInt32 := 0xffffffff

def readBit (bits : List Bool) (i : Nat) : Except Crash Bool :=
  match bits[i]? with
  | some bit => .ok bit
  | none => .error .outOfRange

structure CSigSharesInv where
  sessionId : UInt32 := noSession
  inv : List Bool := []

namespace CSigSharesInv
variable (inv : CSigSharesInv)

def init (size : Nat) : CSigSharesInv := { inv with inv := inv.inv.takeD size false }

/-- `Set`, which asserts that the member is inside, and the plain access `inv[quorumMember] = value`. -/
def set (quorumMember : Nat) (value : Bool) : Except Crash CSigSharesInv :=
  if quorumMember < inv.inv.length then .ok { inv with inv := inv.inv.set quorumMember value }
  else .error .outOfRange

def setAll (value : Bool) : CSigSharesInv := { inv with inv := inv.inv.map fun _ => value }

def merge (inv2 : CSigSharesInv) : Except Crash CSigSharesInv :=
  (List.range inv.inv.length).foldlM
    (fun inv i => do if ← readBit inv2.inv i then inv.set i true else pure inv) inv

def toString : String :=
  let members := (List.range inv.inv.length).filter fun i => inv.inv[i]?.getD false
  "(" ++ String.intercalate "," (members.map Nat.repr) ++ ")"

end CSigSharesInv

/-! ### Quorums and messages -/

structure LLMQParams where
  type : Nat
  size : Nat
  threshold : Nat
deriving DecidableEq

def llmq5_60 : LLMQParams := ⟨100, 5, 3⟩
def llmq50_60 : LLMQParams := ⟨1, 50, 30⟩
def llmq400_60 : LLMQParams := ⟨2, 400, 240⟩
def llmq400_85 : LLMQParams := ⟨3, 400, 340⟩

/-- The network with its quorum types and members, the node itself and the hash of a request, which is free of
collisions. -/
structure Setting where
  Sig : Type
  llmqs : List LLMQParams
  fromChainParams : ∀ params ∈ llmqs, params ∈ [llmq5_60, llmq50_60, llmq400_60, llmq400_85]
  getAllQuorumMembers : Nat → Uint256 → List Uint256
  fits : ∀ params ∈ llmqs, ∀ quorumHash, (getAllQuorumMembers params.type quorumHash).length ≤ params.size
  proTxHash : Uint256
  buildSignHash : Nat → Uint256 → Uint256 → Uint256 → Uint256
  collisionFree : ∀ {llmqType quorumHash id msgHash llmqType' quorumHash' id' msgHash'},
    buildSignHash llmqType quorumHash id msgHash = buildSignHash llmqType' quorumHash' id' msgHash' →
      llmqType = llmqType' ∧ quorumHash = quorumHash' ∧ id = id' ∧ msgHash = msgHash'

namespace Setting
variable (setting : Setting)

def params (llmqType : Nat) : Option LLMQParams := setting.llmqs.find? fun params => params.type = llmqType

def getSignHash (sigShare : CSigShare setting.Sig) : Uint256 :=
  setting.buildSignHash sigShare.llmqType sigShare.quorumHash sigShare.id sigShare.msgHash

def getKey (sigShare : CSigShare setting.Sig) : SigShareKey := (setting.getSignHash sigShare, sigShare.quorumMember)

/-- `VerifySigSharesInv`, which looks the type up without a check. -/
def verifySigSharesInv (llmqType : Nat) (inv : CSigSharesInv) : Except Crash Bool :=
  match setting.params llmqType with
  | none => .error .unknownType
  | some params => .ok (decide (inv.inv.length = params.size))

end Setting

variable (setting : Setting)

/-- A quorum with its mined commitment, of which the sizes were verified. -/
structure CQuorum where
  params : LLMQParams
  quorumHash : Uint256
  validMembers : List Bool
  hasQuorumVvec : Bool
  hasSkShare : Bool
  known : setting.params params.type = some params
  sized : validMembers.length = params.size

structure CSigSesAnn where
  sessionId : UInt32
  llmqType : Nat
  quorumHash : Uint256
  id : Uint256
  msgHash : Uint256

structure CBatchedSigShares where
  sessionId : UInt32
  sigShares : List (Nat × Option setting.Sig)

inductive Message where
  | sigSesAnn (ann : CSigSesAnn)
  | sigSharesInv (inv : CSigSharesInv)
  | getSigShares (inv : CSigSharesInv)
  | batchedSigShares (batch : CBatchedSigShares setting)

/-- What is answered while a part of the manager runs. `walk` is the order of iteration of a map by members. -/
structure World where
  getQuorum : Nat → Uint256 → Option (CQuorum setting)
  isQuorumActive : Nat → Uint256 → Bool
  hasRecoveredSigForSession : Uint256 → Bool
  hasRecoveredSigForId : Nat → Uint256 → Bool
  getMasternodeQuorumNodes : Nat → Uint256 → List NodeId
  mayRequest : SigShareKey → Bool
  sign : Uint256 → Option setting.Sig
  walk : List Nat
  getQuorum_eq : ∀ {llmqType quorumHash quorum}, getQuorum llmqType quorumHash = some quorum →
    quorum.params.type = llmqType ∧ quorum.quorumHash = quorumHash

/-! ### The sessions with one node -/

structure Session where
  recvSessionId : UInt32 := noSession
  sendSessionId : UInt32 := noSession
  llmqType : Nat := 0
  quorumHash : Uint256 := 0
  id : Uint256 := 0
  msgHash : Uint256 := 0
  signHash : Uint256 := 0
  quorum : Option (CQuorum setting) := none
  announced : CSigSharesInv := {}
  requested : CSigSharesInv := {}
  knows : CSigSharesInv := {}

structure SessionInfo where
  recvSessionId : UInt32
  llmqType : Nat
  quorumHash : Uint256
  id : Uint256
  msgHash : Uint256
  signHash : Uint256
  quorum : Option (CQuorum setting)

/-- A reference to a session: its key, the address that the element was given, and its value. -/
structure Ref where
  key : Uint256
  addr : Nat
  session : Session setting

/-- The sessions by sign hash, each at an address of its own, and pointers to some by the id that the node uses. -/
structure CSigSharesNodeState where
  sessions : Uint256 → Option (Nat × Session setting) := fun _ => none
  sessionByRecvId : UInt32 → Option (Uint256 × Nat) := fun _ => none
  nextAddr : Nat := 0
  nextSendSessionId : UInt32 := 1
  pendingIncomingSigShares : SigShareKey → Option (CSigShare setting.Sig) := fun _ => none
  banned : Bool := false

variable {setting}

/-- The text is made for the log, with room for 400 members. -/
def CBatchedSigShares.toInvString (batch : CBatchedSigShares setting) : Except Crash String := do
  let inv ← batch.sigShares.foldlM (fun inv s => inv.set s.1 true) (({} : CSigSharesInv).init 400)
  pure inv.toString

namespace CQuorum
variable (q : CQuorum setting)

def members : List Uint256 := setting.getAllQuorumMembers q.params.type q.quorumHash

def getMemberIndex (proTxHash : Uint256) : Option Nat := q.members.findIdx? (· == proTxHash)

def isValidMember (proTxHash : Uint256) : Except Crash Bool :=
  match q.getMemberIndex proTxHash with
  | some i => readBit q.validMembers i
  | none => pure false

end CQuorum

/-- `Add` and `emplace`, which do not replace an element. -/
def addTo {K V : Type} [DecidableEq K] (map : K → Option V) (k : K) (v : V) : K → Option V :=
  if (map k).isSome then map else update map k (some v)

def eraseAllFor {V : Type} (map : SigShareKey → Option V) (signHash : Uint256) : SigShareKey → Option V :=
  fun k => if k.1 = signHash then none else map k

def initSession (s : Session setting) (signHash : Uint256) (llmqType : Nat) (quorumHash id msgHash : Uint256) :
    Except Crash (Session setting) :=
  match setting.params llmqType with
  | none => .error .unknownType
  | some params => .ok
      { s with
        llmqType, quorumHash, id, msgHash, signHash
        announced := s.announced.init params.size
        requested := s.requested.init params.size
        knows := s.knows.init params.size }

namespace CSigSharesNodeState
variable (ns : CSigSharesNodeState setting)

def write (ref : Ref setting) (s : Session setting) : CSigSharesNodeState setting :=
  { ns with sessions := update ns.sessions ref.key (some (ref.addr, s)) }

/-- `GetOrCreateSessionFromAnn` and `GetOrCreateSessionFromShare`. -/
def getOrCreateSession (llmqType : Nat) (quorumHash id msgHash : Uint256) :
    Except Crash (CSigSharesNodeState setting × Ref setting) := do
  let signHash := setting.buildSignHash llmqType quorumHash id msgHash
  let (addr, s) := (ns.sessions signHash).getD (ns.nextAddr, {})
  let s ← if s.announced.inv.isEmpty then initSession s signHash llmqType quorumHash id msgHash else pure s
  let ref := ⟨signHash, addr, s⟩
  pure ({ ns.write ref s with nextAddr := ns.nextAddr + 1 }, ref)

def getSessionByRecvId (sessionId : UInt32) : Except Crash (Option (Ref setting)) :=
  match ns.sessionByRecvId sessionId with
  | none => .ok none
  | some (key, addr) =>
    match ns.sessions key with
    | some (at_, session) => if at_ = addr then .ok (some ⟨key, addr, session⟩) else .error .danglingPointer
    | none => .error .danglingPointer

def getSessionInfoByRecvId (sessionId : UInt32) : Except Crash (Option (SessionInfo setting)) := do
  match ← ns.getSessionByRecvId sessionId with
  | none => pure none
  | some ⟨_, _, s⟩ => pure (some ⟨sessionId, s.llmqType, s.quorumHash, s.id, s.msgHash, s.signHash, s.quorum⟩)

def removeSession (signHash : Uint256) : CSigSharesNodeState setting :=
  let ns :=
    match ns.sessions signHash with
    | some (_, session) =>
      { ns with
        sessionByRecvId := update ns.sessionByRecvId session.recvSessionId none
        sessions := update ns.sessions signHash none }
    | none => ns
  { ns with pendingIncomingSigShares := eraseAllFor ns.pendingIncomingSigShares signHash }

end CSigSharesNodeState

variable (setting)

/-- `verifying` are the shares that the worker has taken from the pending ones. -/
structure CSigSharesManager where
  sigShares : SigShareKey → Option (CSigShare setting.Sig) := fun _ => none
  nodeStates : NodeId → Option (CSigSharesNodeState setting) := fun _ => none
  verifying : List (CSigShare setting.Sig) := []

/-- What a message handler has still to do when it takes the lock again. -/
inductive Job where
  | mergeAnnounced (inv : CSigSharesInv)
  | mergeRequested (inv : CSigSharesInv)
  | rebuild (info : SessionInfo setting) (batch : CBatchedSigShares setting)
  | store (sigShares : List (CSigShare setting.Sig))

/-- How a part of a handler ends: the handler returns, or goes on with its next part. -/
inductive Reply where
  | done (keep : Bool)
  | next (job : Job setting)

/-- What the worker and other threads do under the lock. -/
inductive Task where
  | banNode (nodeId : NodeId)
  | takePending (nodeId : NodeId) (k : SigShareKey)
  | processSigShare (idx : Nat)
  | tryRecoverSig (quorum : CQuorum setting) (id msgHash : Uint256)
  | sign (quorum : CQuorum setting) (id msgHash : Uint256)
  | requestShares (nodeId : NodeId) (signHash : Uint256)
  | sendShares (nodeId : NodeId) (signHash : Uint256)
  | announceShare (nodeId : NodeId) (k : SigShareKey)
  | addSigSesAnnIfNeeded (nodeId : NodeId) (signHash : Uint256)
  | forceReAnnouncement (nodeId : NodeId) (signHash : Uint256)
  | removeSigSharesForSession (signHash : Uint256)
  | removeNode (nodeId : NodeId)

variable {setting}

namespace CSigSharesManager
variable (m : CSigSharesManager setting) (world : World setting) (nodeId : NodeId)

def node : CSigSharesNodeState setting := (m.nodeStates nodeId).getD {}

def setNode (ns : CSigSharesNodeState setting) : CSigSharesManager setting :=
  { m with nodeStates := update m.nodeStates nodeId (some ns) }

/-! ### Handlers of messages -/

/-- An announcement registers the session under the id that the node has chosen. -/
def processMessageSigSesAnn (ann : CSigSesAnn) : Except Crash (CSigSharesManager setting × Reply setting) :=
  if (setting.params ann.llmqType).isNone then pure (m, .done false)
  else if ann.sessionId = noSession ∨ ann.quorumHash = 0 ∨ ann.id = 0 ∨ ann.msgHash = 0 then pure (m, .done false)
  else
    match world.getQuorum ann.llmqType ann.quorumHash with
    | none => pure (m, .done true)
    | some quorum => do
      let (ns, ref) ← (m.node nodeId).getOrCreateSession ann.llmqType ann.quorumHash ann.id ann.msgHash
      let sessionByRecvId := update (update ns.sessionByRecvId ref.session.recvSessionId none) ann.sessionId none
      let ns := ns.write ref { ref.session with recvSessionId := ann.sessionId, quorum := some quorum }
      let ns := { ns with sessionByRecvId := addTo sessionByRecvId ann.sessionId (ref.key, ref.addr) }
      pure (m.setNode nodeId ns, .done true)

section
variable (inv : CSigSharesInv)

/-- The first part of the two handlers of bit sets, up to the second lock. -/
def receiveInv (wanted : SessionInfo setting → Except Crash Bool) (next : Job setting) :
    Except Crash (CSigSharesManager setting × Reply setting) := do
  let ns := m.node nodeId
  let m := m.setNode nodeId ns
  match ← ns.getSessionInfoByRecvId inv.sessionId with
  | none => pure (m, .done true)
  | some info =>
    if !(← setting.verifySigSharesInv info.llmqType inv) then pure (m, .done false)
    else if world.hasRecoveredSigForSession info.signHash then pure (m, .done true)
    else if ← wanted info then pure (m, .next next)
    else pure (m, .done true)

/-- The second part of these handlers: the session is looked up again and the bits are merged. -/
def mergeInv (merge : Session setting → Except Crash (Session setting)) :
    Except Crash (CSigSharesManager setting × Reply setting) := do
  let ns := m.node nodeId
  match ← ns.getSessionByRecvId inv.sessionId with
  | none => pure (m.setNode nodeId ns, .done true)
  | some ref =>
    let session ← merge ref.session
    pure (m.setNode nodeId (ns.write ref session), .done true)

def processMessageSigSharesInv :=
  m.receiveInv world nodeId inv
    (fun info =>
      match info.quorum with
      | none => .error .nullQuorum
      | some quorum => .ok quorum.hasQuorumVvec)
    (.mergeAnnounced inv)

def processMessageGetSigShares :=
  m.receiveInv world nodeId inv (fun _ => .ok true) (.mergeRequested inv)

def mergeAnnounced (session : Session setting) : Except Crash (Session setting) := do
  let announced ← session.announced.merge inv
  let knows ← session.knows.merge inv
  pure { session with announced, knows }

def mergeRequested (session : Session setting) : Except Crash (Session setting) := do
  let requested ← session.requested.merge inv
  let knows ← session.knows.merge inv
  pure { session with requested, knows }

end

/-- The loop over the shares of a batch; it stops at a member that is sent twice, out of bounds or not valid. -/
def preVerifyMembers (quorum : CQuorum setting) (dupMembers : List Nat) :
    List (Nat × Option setting.Sig) → Except Crash Bool
  | [] => pure true
  | (quorumMember, _) :: rest =>
    if quorumMember ∈ dupMembers then pure false
    else if quorum.members.length ≤ quorumMember then pure false
    else do
      if !(← readBit quorum.validMembers quorumMember) then pure false
      else preVerifyMembers quorum (quorumMember :: dupMembers) rest

variable (quorum : CQuorum setting) (session : SessionInfo setting) (batch : CBatchedSigShares setting)
  (signHash : Uint256)

/-- `none` when the batch may be processed, otherwise whether the node is to be banned. -/
def preVerifyBatchedSigShares : Except Crash (Option Bool) :=
  match session.quorum with
  | none => .error .nullQuorum
  | some quorum =>
    if !world.isQuorumActive session.llmqType quorum.quorumHash then pure (some false)
    else if !quorum.members.contains setting.proTxHash then pure (some false)
    else if !quorum.hasQuorumVvec then pure (some false)
    else do if ← preVerifyMembers quorum [] batch.sigShares then pure none else pure (some true)

def processMessageBatchedSigShares : Except Crash (CSigSharesManager setting × Reply setting) := do
  let ns := m.node nodeId
  let m := m.setNode nodeId ns
  match ← ns.getSessionInfoByRecvId batch.sessionId with
  | none => pure (m, .done true)
  | some info =>
    match ← preVerifyBatchedSigShares world info batch with
    | some ban => pure (m, .done (!ban))
    | none => pure (m, .next (.rebuild info batch))

def rebuildSigShare (s : Nat × Option setting.Sig) : CSigShare setting.Sig where
  llmqType := session.llmqType
  quorumHash := session.quorumHash
  quorumMember := s.1
  id := session.id
  msgHash := session.msgHash
  sigShare := s.2

/-- The second part: the shares that are not known yet are picked out. -/
def rebuildSigShares : Except Crash (CSigSharesManager setting × Reply setting) := do
  let m := m.setNode nodeId (m.node nodeId)
  let sigShares := (batch.sigShares.map (rebuildSigShare session)).filter fun s =>
    !(m.sigShares (setting.getKey s)).isSome && !world.hasRecoveredSigForId s.llmqType s.id
  let _ ← batch.toInvString
  if sigShares.isEmpty then pure (m, .done true) else pure (m, .next (.store sigShares))

def storeSigShares (sigShares : List (CSigShare setting.Sig)) : CSigSharesManager setting :=
  let ns := m.node nodeId
  m.setNode nodeId
    { ns with
      pendingIncomingSigShares :=
        sigShares.foldl (fun map s => addTo map (setting.getKey s) s) ns.pendingIncomingSigShares }

def processMessage : Message setting → Except Crash (CSigSharesManager setting × Reply setting)
  | .sigSesAnn ann => m.processMessageSigSesAnn world nodeId ann
  | .sigSharesInv inv => m.processMessageSigSharesInv world nodeId inv
  | .getSigShares inv => m.processMessageGetSigShares world nodeId inv
  | .batchedSigShares batch => m.processMessageBatchedSigShares world nodeId batch

def resume : Job setting → Except Crash (CSigSharesManager setting × Reply setting)
  | .mergeAnnounced inv => m.mergeInv nodeId inv (mergeAnnounced inv)
  | .mergeRequested inv => m.mergeInv nodeId inv (mergeRequested inv)
  | .rebuild info batch => m.rebuildSigShares world nodeId info batch
  | .store sigShares => pure (m.storeSigShares nodeId sigShares, .done true)

/-! ### The worker -/

/-- The own share is not announced but sent to the node directly. -/
def pushDirectly (sigShare : CSigShare setting.Sig) (quorum : CQuorum setting) (m : CSigSharesManager setting)
    (otherNodeId : NodeId) : Except Crash (CSigSharesManager setting) := do
  let (ns, ref) ← (m.node otherNodeId).getOrCreateSession sigShare.llmqType sigShare.quorumHash sigShare.id
    sigShare.msgHash
  let requested ← ref.session.requested.set sigShare.quorumMember true
  let knows ← ref.session.knows.set sigShare.quorumMember true
  pure (m.setNode otherNodeId (ns.write ref { ref.session with quorum := some quorum, requested, knows }))

def processSigShare (sigShare : CSigShare setting.Sig) (quorum : CQuorum setting) :
    Except Crash (CSigSharesManager setting) :=
  let quorumNodes :=
    if some sigShare.quorumMember = quorum.getMemberIndex setting.proTxHash then
      world.getMasternodeQuorumNodes sigShare.llmqType sigShare.quorumHash
    else []
  if world.hasRecoveredSigForId quorum.params.type sigShare.id then pure m
  else if (m.sigShares (setting.getKey sigShare)).isSome then pure m
  else
    quorumNodes.foldlM (pushDirectly sigShare quorum)
      { m with sigShares := addTo m.sigShares (setting.getKey sigShare) sigShare }

/-- The signatures and the ids of the members from which the signature is recovered, if there are enough. -/
def tryRecoverSig (id msgHash : Uint256) : Except Crash (Option (List (Option setting.Sig × Uint256))) :=
  if world.hasRecoveredSigForId quorum.params.type id then pure none
  else do
    let signHash := setting.buildSignHash quorum.params.type quorum.quorumHash id msgHash
    let sigShares := world.walk.filterMap fun i => m.sigShares (signHash, i)
    let forRecovery ← (sigShares.take quorum.params.threshold).mapM fun sigShare =>
      match quorum.members[sigShare.quorumMember]? with
      | none => .error .outOfRange
      | some proTxHash => .ok (sigShare.sigShare, proTxHash)
    pure (if forRecovery.length < quorum.params.threshold then none else some forRecovery)

def sign (id msgHash : Uint256) : Except Crash (CSigSharesManager setting) := do
  if !(← quorum.isValidMember setting.proTxHash) then pure m
  else if !quorum.hasSkShare then pure m
  else
    match quorum.getMemberIndex setting.proTxHash with
    | none => pure m
    | some memberIdx =>
      match world.sign (setting.buildSignHash quorum.params.type quorum.quorumHash id msgHash) with
      | none => pure m
      | some sig => m.processSigShare world ⟨quorum.params.type, quorum.quorumHash, memberIdx, id, msgHash, some sig⟩ quorum

/-- A loop of `CollectSigSharesToRequest` or `CollectSigSharesToSend` over the bits of a session; `clears` are those
it resets. -/
def clearBits (clears : Nat → Bool) (bits : CSigSharesInv) : Except Crash CSigSharesInv :=
  (List.range bits.inv.length).foldlM
    (fun bits i => do
      if !(← readBit bits.inv i) then pure bits
      else if clears i then bits.set i false
      else pure bits)
    bits

def editSession (edit : Session setting → Except Crash (Session setting)) :
    Except Crash (CSigSharesManager setting) :=
  match (m.node nodeId).sessions signHash with
  | none => pure m
  | some (addr, session) => do
    let after ← edit session
    pure (m.setNode nodeId ((m.node nodeId).write ⟨signHash, addr, session⟩ after))

/-- Announced shares are requested, or not needed any more. -/
def requestShares : Except Crash (CSigSharesManager setting) :=
  if (m.node nodeId).banned || world.hasRecoveredSigForSession signHash then pure m
  else m.editSession nodeId signHash fun session => do
    let announced ← clearBits (fun i => (m.sigShares (signHash, i)).isSome || world.mayRequest (signHash, i))
      session.announced
    pure { session with announced }

/-- Requested shares are sent; a bit is reset whether the share is there or not. -/
def sendShares : Except Crash (CSigSharesManager setting) :=
  if (m.node nodeId).banned || world.hasRecoveredSigForSession signHash then pure m
  else m.editSession nodeId signHash fun session => do
    let requested ← clearBits (fun _ => true) session.requested
    pure { session with requested }

def announceShare (k : SigShareKey) : Except Crash (CSigSharesManager setting) :=
  match m.sigShares k with
  | none => pure m
  | some sigShare =>
    if (m.node nodeId).banned then pure m
    else do
      let (ns, ref) ← (m.node nodeId).getOrCreateSession sigShare.llmqType sigShare.quorumHash sigShare.id sigShare.msgHash
      if ← readBit ref.session.knows.inv sigShare.quorumMember then pure (m.setNode nodeId ns)
      else
        let knows ← ref.session.knows.set sigShare.quorumMember true
        pure (m.setNode nodeId (ns.write ref { ref.session with knows }))

/-- A session gets an id of its own when it is first used in a message to the node. -/
def addSigSesAnnIfNeeded : Except Crash (CSigSharesManager setting) :=
  let ns := m.node nodeId
  match ns.sessions signHash with
  | none => .error .assertion
  | some (addr, session) =>
    if session.sendSessionId = noSession then
      let ns := ns.write ⟨signHash, addr, session⟩ { session with sendSessionId := ns.nextSendSessionId }
      pure (m.setNode nodeId { ns with nextSendSessionId := ns.nextSendSessionId + 1 })
    else pure m

def removeSigSharesForSession : CSigSharesManager setting :=
  { m with
    nodeStates := fun nodeId => (m.nodeStates nodeId).map fun ns => ns.removeSession signHash
    sigShares := eraseAllFor m.sigShares signHash }

def banNode : CSigSharesManager setting :=
  match m.nodeStates nodeId with
  | none => m
  | some ns => m.setNode nodeId { ns with banned := true }

/-- A round of `CollectPendingSigSharesToVerify`. -/
def takePending (k : SigShareKey) : CSigSharesManager setting :=
  let ns := m.node nodeId
  match ns.pendingIncomingSigShares k with
  | none => m
  | some sigShare =>
    let m := m.setNode nodeId
      { ns with pendingIncomingSigShares := update ns.pendingIncomingSigShares k none }
    if (m.sigShares k).isSome then m else { m with verifying := sigShare :: m.verifying }

def work : Task setting → Except Crash (CSigSharesManager setting)
  | .banNode nodeId => pure (m.banNode nodeId)
  | .takePending nodeId k => pure (m.takePending nodeId k)
  | .processSigShare idx =>
    match m.verifying[idx]? with
    | none => pure m
    | some sigShare =>
      match world.getQuorum sigShare.llmqType sigShare.quorumHash with
      | none => .error .assertion
      | some quorum => m.processSigShare world sigShare quorum
  | .tryRecoverSig quorum id msgHash => do
    let _ ← m.tryRecoverSig world quorum id msgHash
    pure m
  | .sign quorum id msgHash => m.sign world quorum id msgHash
  | .requestShares nodeId signHash => m.requestShares world nodeId signHash
  | .sendShares nodeId signHash => m.sendShares world nodeId signHash
  | .announceShare nodeId k => m.announceShare nodeId k
  | .addSigSesAnnIfNeeded nodeId signHash => m.addSigSesAnnIfNeeded nodeId signHash
  | .forceReAnnouncement nodeId signHash =>
    m.editSession nodeId signHash fun session =>
      pure { session with knows := session.knows.setAll false, sendSessionId := noSession }
  | .removeSigSharesForSession signHash => pure (m.removeSigSharesForSession signHash)
  | .removeNode nodeId => pure { m with nodeStates := update m.nodeStates nodeId none }

end CSigSharesManager

/-- The manager, and the message that the thread of the handlers is in the middle of. -/
structure State (setting : Setting) where
  manager : CSigSharesManager setting := {}
  job : Option (NodeId × Job setting) := none

inductive Event (setting : Setting) where
  /-- A part of a message is taken when the one before is done with. -/
  | message (nodeId : NodeId) (message : Message setting)
  | resume
  | work (task : Task setting)

/-- A handler that returns false gets the node banned, which is a task of its own. -/
def reply (nodeId : NodeId) (result : CSigSharesManager setting × Reply setting) : State setting :=
  match result with
  | (manager, .done _) => ⟨manager, none⟩
  | (manager, .next job) => ⟨manager, some (nodeId, job)⟩

def step (world : World setting) (s : State setting) : Event setting → Except Crash (State setting)
  | .message nodeId message =>
    if s.job.isSome then pure s else reply nodeId <$> s.manager.processMessage world nodeId message
  | .resume =>
    match s.job with
    | none => pure s
    | some (nodeId, job) => reply nodeId <$> s.manager.resume world nodeId job
  | .work task => (fun manager => { s with manager }) <$> s.manager.work world task

/-- A run of the manager: what happens, with the answers of the other parts of the program at that time. -/
def run (history : List (World setting × Event setting)) : Except Crash (State setting) :=
  history.foldlM (fun s entry => step entry.1 s entry.2) {}

end Cspn.SigShares
