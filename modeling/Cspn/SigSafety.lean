import Cspn.SigShares

/-!
The signing sessions of the share manager are safe along every run. In whatever order the threads take the lock, a
pointer for an id leads to a session with that id, an announced session has its quorum, and no handler reads behind
the end of a bit set. Every part of the manager either only adds sessions and bits (`Grows`), or removes sessions with
their pointers (`Shrinks`).
-/
namespace Cspn.SigSafety
open Primitives PendingShares Function
open Folds SigShares List CSigSharesManager Option CSigSharesNodeState
open Yields

variable {setting : Setting} {allowed : Crash → Prop} {i : Nat} {signHash : Uint256}

theorem readBit_yields {bits : List Bool} (inside : i < bits.length) :
    Yields allowed (fun _ => True) (readBit bits i) := by
  rw [readBit, getElem?_eq_getElem inside]
  trivial

@[simp] theorem length_init (inv : CSigSharesInv) (size : Nat) : (inv.init size).inv.length = size :=
  takeD_length _ _ _

variable {inv : CSigSharesInv}

theorem set_yields (inside : i < inv.inv.length) (value : Bool) :
    Yields allowed (fun after => after.inv.length = inv.inv.length) (inv.set i value) := by
  rw [CSigSharesInv.set, if_pos inside]
  exact length_set

theorem merge_yields {inv2 : CSigSharesInv} (enough : inv.inv.length ≤ inv2.inv.length) :
    Yields allowed (fun after => after.inv.length = inv.inv.length) (inv.merge inv2) := by
  refine foldlM (Q := fun after : CSigSharesInv => after.inv.length = inv.inv.length)
    (fun i inRange current same => ?_) rfl
  have inside := mem_range.mp inRange
  refine (readBit_yields (inside.trans_le enough)).bind fun bit _ => ?_
  cases bit with
  | false => exact same
  | true => exact (set_yields (same ▸ inside) true).imp fun after kept => kept.trans same

theorem clearBits_yields (clears : Nat → Bool) (bits : CSigSharesInv) :
    Yields allowed (fun after => after.inv.length = bits.inv.length) (clearBits clears bits) := by
  refine foldlM (Q := fun after : CSigSharesInv => after.inv.length = bits.inv.length)
    (fun i inRange current same => ?_) rfl
  have inside : i < current.inv.length := same ▸ mem_range.mp inRange
  refine (readBit_yields inside).bind fun bit _ => ?_
  split
  · exact same
  · split
    · exact (set_yields inside false).imp fun after kept => kept.trans same
    · exact same

variable {params : LLMQParams} {llmqType : Nat}

theorem params_spec (known : setting.params llmqType = some params) :
    params.type = llmqType ∧ params ∈ setting.llmqs ∧ 0 < params.size ∧ params.size ≤ 400 := by
  have member := mem_of_find?_eq_some known
  have sizes : ∀ params ∈ [llmq5_60, llmq50_60, llmq400_60, llmq400_85], 0 < params.size ∧ params.size ≤ 400 := by decide
  exact ⟨by simpa using find?_some known, member, sizes params (setting.fromChainParams params member)⟩

theorem members_length_le (known : setting.params llmqType = some params)
    (quorumHash : Uint256) : (setting.getAllQuorumMembers llmqType quorumHash).length ≤ params.size := by
  obtain ⟨rfl, member, -⟩ := params_spec known
  exact setting.fits params member quorumHash

theorem lt_validMembers (quorum : CQuorum setting) (inside : i < quorum.members.length) :
    i < quorum.validMembers.length := by
  rw [quorum.sized]
  exact inside.trans_le (members_length_le quorum.known _)

/-- The share is of a known type and its member is in the list of the quorum. -/
def ShareOk (sigShare : CSigShare setting.Sig) : Prop :=
  (setting.params sigShare.llmqType).isSome ∧
    sigShare.quorumMember < (setting.getAllQuorumMembers sigShare.llmqType sigShare.quorumHash).length

variable {sigShare : CSigShare setting.Sig}

theorem ShareOk.lt_size (ok : ShareOk sigShare)
    (known : setting.params sigShare.llmqType = some params) : sigShare.quorumMember < params.size :=
  ok.2.trans_le (members_length_le known _)

section
variable {K V : Type} [DecidableEq K] {map : K → Option V} {k other : K} {v w : V}

theorem of_addTo (found : addTo map k v other = some w) : map other = some w ∨ other = k ∧ w = v := by
  unfold addTo at found
  split at found
  · exact .inl found
  · rw [update_apply] at found
    split at found
    case isTrue same => exact .inr ⟨same, (some.inj found).symm⟩
    case isFalse => exact .inl found

theorem of_erase (found : update map k none other = some v) : other ≠ k ∧ map other = some v := by
  simpa [update_apply] using found

end

theorem of_eraseAllFor {map : SigShareKey → Option (CSigShare setting.Sig)} {k : SigShareKey}
    (found : eraseAllFor map signHash k = some sigShare) : map k = some sigShare := by
  unfold eraseAllFor at found
  split at found
  · cases found
  · exact found

def OfQuorum (s : Session setting) (quorum : CQuorum setting) : Prop :=
  quorum.params.type = s.llmqType ∧ quorum.quorumHash = s.quorumHash

structure SessionOk (signHash : Uint256) (s : Session setting) : Prop where
  hashed : setting.buildSignHash s.llmqType s.quorumHash s.id s.msgHash = signHash
  sized : ∃ params, setting.params s.llmqType = some params ∧ s.announced.inv.length = params.size ∧
    s.requested.inv.length = params.size ∧ s.knows.inv.length = params.size
  ofQuorum : ∀ quorum, s.quorum = some quorum → OfQuorum s quorum
  hasQuorum : s.recvSessionId ≠ noSession → s.quorum ≠ none

/-- The same session with other bits, another id for sending or a quorum in place of the null pointer. -/
structure Alike (s t : Session setting) : Prop where
  recvSessionId : t.recvSessionId = s.recvSessionId
  subject : (t.llmqType, t.quorumHash, t.id, t.msgHash) = (s.llmqType, s.quorumHash, s.id, s.msgHash)
  sizes : (t.announced.inv.length, t.requested.inv.length, t.knows.inv.length) =
    (s.announced.inv.length, s.requested.inv.length, s.knows.inv.length)
  quorum : t.quorum = s.quorum ∨ ∃ quorum, t.quorum = some quorum ∧ OfQuorum s quorum

variable {addr : Nat} {s t u : Session setting}

theorem Alike.refl (s : Session setting) : Alike s s := ⟨rfl, rfl, rfl, .inl rfl⟩

variable {quorum : CQuorum setting}

theorem Alike.ofQuorum (alike : Alike s t) : OfQuorum t quorum ↔ OfQuorum s quorum := by
  obtain ⟨type, hash, -⟩ : _ ∧ _ ∧ _ := by simpa using alike.subject
  rw [OfQuorum, OfQuorum, type, hash]

theorem Alike.trans (first : Alike s t) (second : Alike t u) : Alike s u where
  recvSessionId := second.recvSessionId.trans first.recvSessionId
  subject := second.subject.trans first.subject
  sizes := second.sizes.trans first.sizes
  quorum := by
    obtain same | ⟨quorum, given, ofQuorum⟩ := second.quorum
    · rw [same]
      exact first.quorum
    · exact .inr ⟨quorum, given, first.ofQuorum.mp ofQuorum⟩

theorem SessionOk.alike (ok : SessionOk signHash s) (alike : Alike s t) : SessionOk signHash t := by
  obtain ⟨type, hash, id, msgHash⟩ : _ ∧ _ ∧ _ ∧ _ := by simpa using alike.subject
  obtain ⟨announced, requested, knows⟩ : _ ∧ _ ∧ _ := by simpa using alike.sizes
  refine ⟨?_, ?_, fun quorum isQuorum => alike.ofQuorum.mpr ?_, fun registered => ?_⟩
  · rw [type, hash, id, msgHash]
    exact ok.hashed
  · rw [type, announced, requested, knows]
    exact ok.sized
  · obtain same | ⟨given, isGiven, rest⟩ := alike.quorum
    · exact ok.ofQuorum quorum (same ▸ isQuorum)
    · obtain rfl := some.inj (isGiven.symm.trans isQuorum)
      exact rest
  · obtain same | ⟨given, isGiven, -⟩ := alike.quorum
    · rw [same]
      exact ok.hasQuorum (alike.recvSessionId ▸ registered)
    · rw [isGiven]
      exact some_ne_none given

/-! ### The sessions with a node -/

structure NodeOk (ns : CSigSharesNodeState setting) : Prop where
  session : ∀ signHash addr s, ns.sessions signHash = some (addr, s) → SessionOk signHash s
  pointer : ∀ recvId signHash addr, ns.sessionByRecvId recvId = some (signHash, addr) → recvId ≠ noSession ∧
    ∃ s, ns.sessions signHash = some (addr, s) ∧ s.recvSessionId = recvId
  pending : ∀ k sigShare, ns.pendingIncomingSigShares k = some sigShare → ShareOk sigShare

/-- No session goes and no pointer changes; new sessions have no id yet. -/
structure NodeGrows (ns ns' : CSigSharesNodeState setting) : Prop where
  pointers : ns'.sessionByRecvId = ns.sessionByRecvId
  kept : ∀ signHash addr s, ns.sessions signHash = some (addr, s) →
    ∃ s', ns'.sessions signHash = some (addr, s') ∧ Alike s s'
  added : ∀ signHash addr s', ns.sessions signHash = none → ns'.sessions signHash = some (addr, s') →
    SessionOk signHash s' ∧ s'.recvSessionId = noSession
  pending : ∀ k sigShare, ns'.pendingIncomingSigShares k = some sigShare →
    ns.pendingIncomingSigShares k = some sigShare ∨ ShareOk sigShare

/-- Sessions go, with the pointers that have their ids. -/
structure NodeShrinks (ns ns' : CSigSharesNodeState setting) : Prop where
  session : ∀ signHash entry, ns'.sessions signHash = some entry → ns.sessions signHash = some entry
  pointer : ∀ recvId signHash addr, ns'.sessionByRecvId recvId = some (signHash, addr) →
    ns.sessionByRecvId recvId = some (signHash, addr) ∧
      ∀ s, ns.sessions signHash = some (addr, s) → s.recvSessionId = recvId → ns'.sessions signHash = some (addr, s)
  pending : ∀ k sigShare, ns'.pendingIncomingSigShares k = some sigShare →
    ns.pendingIncomingSigShares k = some sigShare

variable {ns ns' ns'' : CSigSharesNodeState setting}

theorem NodeGrows.of_same (sessions : ns'.sessions = ns.sessions) (pointers : ns'.sessionByRecvId = ns.sessionByRecvId)
    (pending : ∀ k sigShare, ns'.pendingIncomingSigShares k = some sigShare →
      ns.pendingIncomingSigShares k = some sigShare ∨ ShareOk sigShare) : NodeGrows ns ns' where
  pointers := pointers
  kept := fun signHash addr s found => ⟨s, sessions ▸ found, .refl s⟩
  added := by
    intro signHash addr s' absent found
    rw [sessions, absent] at found
    cases found
  pending := pending

theorem NodeGrows.refl (ns : CSigSharesNodeState setting) : NodeGrows ns ns := .of_same rfl rfl fun _ _ => .inl

theorem NodeGrows.trans (first : NodeGrows ns ns') (second : NodeGrows ns' ns'') : NodeGrows ns ns'' where
  pointers := second.pointers.trans first.pointers
  kept := by
    intro signHash addr s found
    obtain ⟨s', found', alike⟩ := first.kept signHash addr s found
    obtain ⟨s'', found'', alike'⟩ := second.kept signHash addr s' found'
    exact ⟨s'', found'', alike.trans alike'⟩
  added := by
    intro signHash addr s'' absent found
    cases middle : ns'.sessions signHash with
    | none => exact second.added signHash addr s'' middle found
    | some entry =>
      obtain ⟨ok, unregistered⟩ := first.added signHash _ _ absent middle
      obtain ⟨t, found', alike⟩ := second.kept signHash _ _ middle
      cases found.symm.trans found'
      exact ⟨ok.alike alike, alike.recvSessionId.trans unregistered⟩
  pending := fun k sigShare found => (second.pending k sigShare found).elim (first.pending k sigShare) .inr

theorem NodeGrows.origin (grows : NodeGrows ns ns') (found : ns'.sessions signHash = some (addr, t)) :
    (SessionOk signHash t ∧ t.recvSessionId = noSession) ∨ ∃ s, ns.sessions signHash = some (addr, s) ∧ Alike s t := by
  cases before : ns.sessions signHash with
  | none => exact .inl (grows.added signHash addr t before found)
  | some entry =>
    obtain ⟨t', found', alike⟩ := grows.kept signHash _ _ before
    cases found.symm.trans found'
    exact .inr ⟨entry.2, rfl, alike⟩

section
variable (written : ns'.sessions = update ns.sessions signHash (some (addr, t)))
  (pointers : ns'.sessionByRecvId = ns.sessionByRecvId)
  (pending : ns'.pendingIncomingSigShares = ns.pendingIncomingSigShares)
include written pointers pending

/-- A session is assigned: the one that was there, changed within its bit sets, or a new one. -/
theorem NodeGrows.write (fits : ∀ entry, ns.sessions signHash = some entry → entry.1 = addr ∧ Alike entry.2 t)
    (new : ns.sessions signHash = none → SessionOk signHash t ∧ t.recvSessionId = noSession) : NodeGrows ns ns' where
  pointers := pointers
  kept := by
    intro other at_ s found
    rw [written, update_apply]
    split
    case isTrue same =>
      obtain ⟨rfl, alike⟩ := fits (at_, s) (same ▸ found)
      exact ⟨t, rfl, alike⟩
    case isFalse => exact ⟨s, found, .refl s⟩
  added := by
    intro other at_ s' absent found
    rw [written, update_apply] at found
    split at found
    case isTrue same =>
      cases found
      exact same ▸ new (same ▸ absent)
    case isFalse => exact absurd (absent.symm.trans found) nofun
  pending := fun _ _ found => .inl (pending ▸ found)

theorem NodeGrows.edit (found : ns.sessions signHash = some (addr, s)) (alike : Alike s t) : NodeGrows ns ns' := by
  refine .write written pointers pending (fun entry isEntry => ?_) fun absent => absurd (absent.symm.trans found) nofun
  cases found.symm.trans isEntry
  exact ⟨rfl, alike⟩

end

section
variable (ok : NodeOk ns)
include ok

theorem NodeOk.grow (grows : NodeGrows ns ns') : NodeOk ns' where
  session := by
    intro signHash addr s' found
    obtain ⟨isOk, -⟩ | ⟨s, before, alike⟩ := grows.origin found
    · exact isOk
    · exact (ok.session signHash addr s before).alike alike
  pointer := by
    intro recvId signHash addr found
    rw [grows.pointers] at found
    obtain ⟨isId, s, before, rfl⟩ := ok.pointer recvId signHash addr found
    obtain ⟨s', after, alike⟩ := grows.kept signHash addr s before
    exact ⟨isId, s', after, alike.recvSessionId⟩
  pending := fun k sigShare found => (grows.pending k sigShare found).elim (ok.pending k sigShare) id

theorem NodeOk.shrink (shrinks : NodeShrinks ns ns') : NodeOk ns' where
  session := fun signHash addr s found => ok.session signHash addr s (shrinks.session signHash (addr, s) found)
  pointer := by
    intro recvId signHash addr found
    obtain ⟨before, keeps⟩ := shrinks.pointer recvId signHash addr found
    obtain ⟨isId, s, entry, isRecv⟩ := ok.pointer recvId signHash addr before
    exact ⟨isId, s, keeps s entry isRecv, isRecv⟩
  pending := fun k sigShare found => ok.pending k sigShare (shrinks.pending k sigShare found)

/-- A call that makes or finds a session returns it and its address; its bit sets have the size of the type. -/
theorem getOrCreateSession_yields {quorumHash id msgHash : Uint256} (known : (setting.params llmqType).isSome) :
    Yields allowed (fun (ns', ref) => NodeGrows ns ns' ∧ ns'.sessions ref.key = some (ref.addr, ref.session) ∧
        ref.key = setting.buildSignHash llmqType quorumHash id msgHash ∧
        ref.session.llmqType = llmqType ∧ ref.session.quorumHash = quorumHash)
      (ns.getOrCreateSession llmqType quorumHash id msgHash) := by
  obtain ⟨params, known⟩ := isSome_iff_exists.mp known
  cases found : ns.sessions (setting.buildSignHash llmqType quorumHash id msgHash) with
  | none =>
    simp only [getOrCreateSession, found, getD_none, isEmpty_nil, if_true, initSession,
      known]
    refine ⟨.write rfl rfl rfl (fun entry isEntry => ?_) fun _ => ?_, update_self _ _ _, rfl, rfl, rfl⟩
    · exact absurd (found.symm.trans isEntry) nofun
    · exact ⟨⟨rfl, ⟨params, known, length_init _ _, length_init _ _, length_init _ _⟩, nofun, absurd rfl⟩, rfl⟩
  | some entry =>
    obtain ⟨addr, s⟩ := entry
    have isOk := ok.session _ addr s found
    obtain ⟨params', known', announced, -⟩ := isOk.sized
    have same := setting.collisionFree isOk.hashed
    have notEmpty : s.announced.inv.isEmpty = false := by
      rw [isEmpty_eq_false_iff, ← length_pos_iff, announced]
      exact (params_spec known').2.2.1
    simp only [getOrCreateSession, found, getD_some, notEmpty, Bool.false_eq_true, if_false]
    exact ⟨.edit rfl rfl rfl found (.refl s), update_self _ _ _, rfl, same.1, same.2.1⟩

theorem getSessionByRecvId_yields (sessionId : UInt32) : Yields allowed
      (fun found => ∀ ref, found = some ref → ns.sessionByRecvId sessionId = some (ref.key, ref.addr) ∧
        ns.sessions ref.key = some (ref.addr, ref.session) ∧ ref.session.quorum ≠ none)
      (ns.getSessionByRecvId sessionId) := by
  unfold getSessionByRecvId
  cases isPointer : ns.sessionByRecvId sessionId with
  | none => exact nofun
  | some pointer =>
    obtain ⟨signHash, addr⟩ := pointer
    obtain ⟨isId, s, entry, isRecv⟩ := ok.pointer sessionId signHash addr isPointer
    simp only [entry, if_true]
    rintro ref ⟨⟩
    exact ⟨rfl, entry, (ok.session signHash addr s entry).hasQuorum (isRecv ▸ isId)⟩

theorem getSessionInfoByRecvId_yields (sessionId : UInt32) : Yields allowed
      (fun found => ∀ info, found = some info → ∃ signHash addr s,
        ns.sessionByRecvId sessionId = some (signHash, addr) ∧ ns.sessions signHash = some (addr, s) ∧
        info.llmqType = s.llmqType ∧ info.quorumHash = s.quorumHash ∧ info.quorum = s.quorum ∧ s.quorum ≠ none)
      (ns.getSessionInfoByRecvId sessionId) := by
  refine (getSessionByRecvId_yields ok sessionId).bind fun found spec => ?_
  cases found with
  | none => exact nofun
  | some ref =>
    obtain ⟨isPointer, entry, hasQuorum⟩ := spec ref rfl
    rintro info ⟨⟩
    exact ⟨_, _, _, isPointer, entry, rfl, rfl, rfl, hasQuorum⟩

end

theorem NodeShrinks.refl (ns : CSigSharesNodeState setting) : NodeShrinks ns ns :=
  ⟨fun _ _ => id, fun _ _ _ found => ⟨found, fun _ entry _ => entry⟩, fun _ _ => id⟩

theorem NodeShrinks.removeSession (ns : CSigSharesNodeState setting) (signHash : Uint256) :
    NodeShrinks ns (ns.removeSession signHash) := by
  unfold CSigSharesNodeState.removeSession
  cases found : ns.sessions signHash with
  | none => exact ⟨fun _ _ => id, fun _ _ _ found => ⟨found, fun _ entry _ => entry⟩, fun _ _ => of_eraseAllFor⟩
  | some removed =>
    refine ⟨fun _ _ isOther => (of_erase isOther).2, fun recvId other addr isPointer => ?_, fun _ _ => of_eraseAllFor⟩
    obtain ⟨apart, before⟩ := of_erase isPointer
    refine ⟨before, fun s entry isRecv => ?_⟩
    dsimp only
    rw [update_of_ne, entry]
    rintro rfl
    cases found.symm.trans entry
    exact apart isRecv.symm

/-! ### The manager -/

structure ManagerOk (m : CSigSharesManager setting) : Prop where
  node : ∀ nodeId, NodeOk (m.node nodeId)
  shares : ∀ k sigShare, m.sigShares k = some sigShare → k = setting.getKey sigShare ∧ ShareOk sigShare
  verifying : ∀ sigShare ∈ m.verifying, ShareOk sigShare

structure Grows (m m' : CSigSharesManager setting) : Prop where
  node : ∀ nodeId, NodeGrows (m.node nodeId) (m'.node nodeId)
  shares : ∀ k sigShare, m'.sigShares k = some sigShare →
    m.sigShares k = some sigShare ∨ k = setting.getKey sigShare ∧ ShareOk sigShare
  verifying : ∀ sigShare ∈ m'.verifying, sigShare ∈ m.verifying ∨ ShareOk sigShare

structure Shrinks (m m' : CSigSharesManager setting) : Prop where
  node : ∀ nodeId, NodeShrinks (m.node nodeId) (m'.node nodeId)
  shares : ∀ k sigShare, m'.sigShares k = some sigShare → m.sigShares k = some sigShare
  verifying : m'.verifying = m.verifying

variable {m m' m'' : CSigSharesManager setting} {world : World setting} {nodeId : NodeId}

theorem node_setNode (other : NodeId) : (m.setNode nodeId ns).node other = if other = nodeId then ns else m.node other := by
  simp only [node, setNode, update_apply]
  split <;> rfl

theorem Grows.refl (m : CSigSharesManager setting) : Grows m m :=
  ⟨fun _ => .refl _, fun _ _ => .inl, fun _ => .inl⟩

theorem Grows.trans (first : Grows m m') (second : Grows m' m'') : Grows m m'' where
  node := fun nodeId => (first.node nodeId).trans (second.node nodeId)
  shares := fun k sigShare found => (second.shares k sigShare found).elim (first.shares k sigShare) .inr
  verifying := fun sigShare member => (second.verifying sigShare member).elim (first.verifying sigShare) .inr

theorem Grows.setNode (grows : NodeGrows (m.node nodeId) ns) : Grows m (m.setNode nodeId ns) where
  node := by
    intro other
    rw [node_setNode]
    split
    case isTrue same => exact same ▸ grows
    case isFalse => exact .refl _
  shares := fun _ _ => .inl
  verifying := fun _ => .inl

theorem Grows.touch (m : CSigSharesManager setting) (nodeId : NodeId) : Grows m (m.setNode nodeId (m.node nodeId)) :=
  .setNode (.refl _)

theorem ManagerOk.grow (ok : ManagerOk m) (grows : Grows m m') : ManagerOk m' where
  node := fun nodeId => (ok.node nodeId).grow (grows.node nodeId)
  shares := fun k sigShare found => (grows.shares k sigShare found).elim (ok.shares k sigShare) id
  verifying := fun sigShare member => (grows.verifying sigShare member).elim (ok.verifying sigShare) id

theorem ManagerOk.shrink (ok : ManagerOk m) (shrinks : Shrinks m m') : ManagerOk m' where
  node := fun nodeId => (ok.node nodeId).shrink (shrinks.node nodeId)
  shares := fun k sigShare found => ok.shares k sigShare (shrinks.shares k sigShare found)
  verifying := shrinks.verifying ▸ ok.verifying

theorem node_of_some (found : m.nodeStates nodeId = some ns) : m.node nodeId = ns := by
  rw [node, found, getD_some]

/-! ### Message handlers -/

section
variable (m : CSigSharesManager setting) (nodeId : NodeId)

/-- If the id still has a session when the lock is taken again, the bit set has the size of its sets. -/
def Fits (inv : CSigSharesInv) : Prop :=
  ∀ signHash addr s, (m.node nodeId).sessionByRecvId inv.sessionId = some (signHash, addr) →
    (m.node nodeId).sessions signHash = some (addr, s) → s.announced.inv.length = inv.inv.length

def JobOk : Job setting → Prop
  | .mergeAnnounced inv | .mergeRequested inv => Fits m nodeId inv
  | .rebuild info batch => (setting.params info.llmqType).isSome ∧
      ∀ s ∈ batch.sigShares, s.1 < (setting.getAllQuorumMembers info.llmqType info.quorumHash).length
  | .store sigShares => ∀ sigShare ∈ sigShares, ShareOk sigShare

def ReplyOk : Reply setting → Prop
  | .done _ => True
  | .next job => JobOk m nodeId job

/-- What a part of a handler leaves, announcements apart. -/
def Handled (result : CSigSharesManager setting × Reply setting) : Prop :=
  Grows m result.1 ∧ ReplyOk result.1 nodeId result.2

end

variable {job : Job setting}

theorem preVerifyMembers_yields (quorum : CQuorum setting) (dupMembers : List Nat)
    (sigShares : List (Nat × Option setting.Sig)) :
    Yields allowed (fun pass => pass = true → ∀ s ∈ sigShares, s.1 < quorum.members.length)
      (preVerifyMembers quorum dupMembers sigShares) := by
  induction sigShares generalizing dupMembers with
  | nil => exact fun _ => by simp
  | cons first rest ih =>
    unfold preVerifyMembers
    split
    · exact nofun
    · split
      · exact nofun
      case isFalse inBounds =>
        have inside := Nat.lt_of_not_le inBounds
        refine (readBit_yields (lt_validMembers quorum inside)).bind fun isValid _ => ?_
        cases isValid with
        | false => exact nofun
        | true => exact (ih _).imp fun pass others passes => forall_mem_cons.mpr ⟨inside, others passes⟩

theorem preVerifyBatchedSigShares_yields {info : SessionInfo setting}
    (isQuorum : info.quorum = some quorum) (batch : CBatchedSigShares setting) :
    Yields allowed (fun refused => refused = none → ∀ s ∈ batch.sigShares, s.1 < quorum.members.length)
      (preVerifyBatchedSigShares world info batch) := by
  simp only [preVerifyBatchedSigShares, isQuorum]
  split
  · exact nofun
  · split
    · exact nofun
    · split
      · exact nofun
      · refine (preVerifyMembers_yields quorum [] batch.sigShares).bind fun pass inside => ?_
        cases pass with
        | false => exact nofun
        | true => exact fun _ => inside rfl

/-- An announcement that is not refused and whose quorum is found. -/
def Accepts (world : World setting) (ann : CSigSesAnn) : Prop :=
  (setting.params ann.llmqType).isSome ∧ ann.sessionId ≠ noSession ∧ ann.quorumHash ≠ 0 ∧ ann.id ≠ 0 ∧ ann.msgHash ≠ 0 ∧
    (world.getQuorum ann.llmqType ann.quorumHash).isSome

/-- The session of the announcement's sign hash has the announced id. -/
def Registered (m : CSigSharesManager setting) (nodeId : NodeId) (ann : CSigSesAnn) : Prop :=
  ∃ addr s, (m.node nodeId).sessions (setting.buildSignHash ann.llmqType ann.quorumHash ann.id ann.msgHash) =
      some (addr, s) ∧ s.recvSessionId = ann.sessionId

/-- A session that has an id keeps one as long as it is there. -/
def Kept (m m' : CSigSharesManager setting) : Prop :=
  ∀ nodeId signHash addr s addr' s', (m.node nodeId).sessions signHash = some (addr, s) → s.recvSessionId ≠ noSession →
    (m'.node nodeId).sessions signHash = some (addr', s') → s'.recvSessionId ≠ noSession

theorem Grows.toKept (grows : Grows m m') : Kept m m' := by
  intro nodeId signHash addr s addr' s' before registered after
  obtain ⟨t, found, alike⟩ := (grows.node nodeId).kept signHash addr s before
  cases after.symm.trans found
  exact alike.recvSessionId ▸ registered

theorem Shrinks.toKept (shrinks : Shrinks m m') : Kept m m' := by
  intro nodeId signHash addr s addr' s' before registered after
  cases before.symm.trans ((shrinks.node nodeId).session signHash _ after)
  exact registered

theorem NodeOk.register {sessionId : UInt32} (ok : NodeOk ns)
    (found : ns.sessions signHash = some (addr, s)) (isId : sessionId ≠ noSession) (ofQuorum : OfQuorum s quorum) :
    NodeOk { ns with
        sessions := update ns.sessions signHash (some (addr, { s with recvSessionId := sessionId, quorum := some quorum }))
        sessionByRecvId :=
          addTo (update (update ns.sessionByRecvId s.recvSessionId none) sessionId none) sessionId (signHash, addr) } where
  session := by
    intro other addr' s' isOther
    dsimp only at isOther
    rw [update_apply] at isOther
    split at isOther
    case isTrue same =>
      cases isOther
      have isOk := ok.session signHash addr s found
      refine ⟨same ▸ isOk.hashed, isOk.sized, fun given isGiven => ?_, fun _ => some_ne_none quorum⟩
      cases isGiven
      exact ofQuorum
    case isFalse => exact ok.session other addr' s' isOther
  pointer := by
    intro recvId other addr' isPointer
    dsimp only at isPointer ⊢
    obtain older | ⟨rfl, isNew⟩ := of_addTo isPointer
    · obtain ⟨apart, oldest⟩ := of_erase (of_erase older).2
      obtain ⟨isId', s', entry, isRecv⟩ := ok.pointer recvId other addr' oldest
      refine ⟨isId', s', ?_, isRecv⟩
      rw [update_of_ne, entry]
      rintro rfl
      cases found.symm.trans entry
      exact apart isRecv.symm
    · cases isNew
      exact ⟨isId, _, update_self _ _ _, rfl⟩
  pending := ok.pending

section
variable (ok : ManagerOk m)
include ok

/-- Of a bit set that is passed on the size was compared with the one of the session. -/
theorem receiveInv_yields (inv : CSigSharesInv) {wanted : SessionInfo setting → Except Crash Bool}
    (answers : ∀ info, info.quorum ≠ none → Yields allowed (fun _ => True) (wanted info))
    (isMerge : ∀ m, Fits m nodeId inv → JobOk m nodeId job) :
    Yields allowed (Handled m nodeId) (m.receiveInv world nodeId inv wanted job) := by
  refine (getSessionInfoByRecvId_yields (ok.node nodeId) inv.sessionId).bind fun found spec => ?_
  cases found with
  | none => exact ⟨.touch m nodeId, trivial⟩
  | some info =>
    obtain ⟨signHash, addr, s, isPointer, entry, sameType, -, sameQuorum, hasQuorum⟩ := spec info rfl
    obtain ⟨params, known, announced, -⟩ := ((ok.node nodeId).session signHash addr s entry).sized
    have verified : setting.verifySigSharesInv info.llmqType inv = .ok (decide (inv.inv.length = params.size)) := by
      rw [Setting.verifySigSharesInv, sameType, known]
    simp only [verified]
    by_cases sized : inv.inv.length = params.size
    · have fits : Fits (m.setNode nodeId (m.node nodeId)) nodeId inv := by
        intro signHash' addr' s' isPointer' entry'
        rw [node_setNode, if_pos rfl] at isPointer' entry'
        cases isPointer.symm.trans isPointer'
        cases entry.symm.trans entry'
        rw [announced, sized]
      simp only [sized, decide_true]
      split
      · exact ⟨.touch m nodeId, trivial⟩
      · refine (answers info (sameQuorum ▸ hasQuorum)).bind fun wants _ => ?_
        cases wants with
        | false => exact ⟨.touch m nodeId, trivial⟩
        | true => exact ⟨.touch m nodeId, isMerge _ fits⟩
    · simp only [sized, decide_false]
      exact ⟨.touch m nodeId, trivial⟩

theorem mergeInv_yields (inv : CSigSharesInv) (fits : Fits m nodeId inv)
    {merge : Session setting → Except Crash (Session setting)}
    (merges : ∀ s, s.announced.inv.length ≤ inv.inv.length → s.requested.inv.length ≤ inv.inv.length →
      s.knows.inv.length ≤ inv.inv.length → Yields allowed (Alike s) (merge s)) :
    Yields allowed (Handled m nodeId) (m.mergeInv nodeId inv merge) := by
  refine (getSessionByRecvId_yields (ok.node nodeId) inv.sessionId).bind fun found spec => ?_
  cases found with
  | none => exact ⟨.touch m nodeId, trivial⟩
  | some ref =>
    obtain ⟨isPointer, entry, -⟩ := spec ref rfl
    obtain ⟨params, -, announced, requested, knows⟩ := ((ok.node nodeId).session _ _ _ entry).sized
    have size := fits _ _ _ isPointer entry
    refine (merges ref.session size.le ?_ ?_).bind fun s' alike => ⟨.setNode (.edit rfl rfl rfl entry alike), trivial⟩
    · rw [requested, ← announced, size]
    · rw [knows, ← announced, size]

theorem processMessageBatchedSigShares_yields (batch : CBatchedSigShares setting) :
    Yields allowed (Handled m nodeId) (m.processMessageBatchedSigShares world nodeId batch) := by
  refine (getSessionInfoByRecvId_yields (ok.node nodeId) batch.sessionId).bind fun found spec => ?_
  cases found with
  | none => exact ⟨.touch m nodeId, trivial⟩
  | some info =>
    obtain ⟨signHash, addr, s, -, entry, sameType, sameHash, sameQuorum, hasQuorum⟩ := spec info rfl
    have isOk := (ok.node nodeId).session signHash addr s entry
    obtain ⟨params, known, -⟩ := isOk.sized
    obtain ⟨quorum, isQuorum⟩ := ne_none_iff_exists'.mp hasQuorum
    have ofQuorum := isOk.ofQuorum quorum isQuorum
    refine (preVerifyBatchedSigShares_yields (sameQuorum.trans isQuorum) batch).bind fun refused inside => ?_
    cases refused with
    | some ban => exact ⟨.touch m nodeId, trivial⟩
    | none =>
      refine ⟨.touch m nodeId, ?_, ?_⟩
      · rw [sameType, known]
        rfl
      · rw [sameType, sameHash, ← ofQuorum.1, ← ofQuorum.2]
        exact inside rfl

theorem resume_yields (jobOk : JobOk m nodeId job) :
    Yields allowed (Handled m nodeId) (m.resume world nodeId job) := by
  cases job with
  | mergeAnnounced inv =>
    refine mergeInv_yields ok inv jobOk fun s announced _ knows => ?_
    refine (merge_yields announced).bind fun _ sameAnnounced => (merge_yields knows).bind fun _ sameKnows => ?_
    exact ⟨rfl, rfl, Prod.ext sameAnnounced (Prod.ext rfl sameKnows), .inl rfl⟩
  | mergeRequested inv =>
    refine mergeInv_yields ok inv jobOk fun s _ requested knows => ?_
    refine (merge_yields requested).bind fun _ sameRequested => (merge_yields knows).bind fun _ sameKnows => ?_
    exact ⟨rfl, rfl, Prod.ext rfl (Prod.ext sameRequested sameKnows), .inl rfl⟩
  | rebuild info batch =>
    obtain ⟨isKnown, inside⟩ := jobOk
    obtain ⟨params, known⟩ := isSome_iff_exists.mp isKnown
    have small : ∀ s ∈ batch.sigShares, s.1 < 400 := fun s member =>
      ((inside s member).trans_le (members_length_le known _)).trans_le (params_spec known).2.2.2
    have written : Yields allowed (fun _ => True) batch.toInvString := by
      refine bind (P := fun inv => inv.inv.length = 400)
        (foldlM (fun s member inv size => ?_) (length_init _ _)) fun _ _ => trivial
      exact (set_yields (size ▸ small s member) true).imp fun after same => same.trans size
    refine written.bind fun _ _ => ?_
    split
    · exact ⟨.touch m nodeId, trivial⟩
    · refine ⟨.touch m nodeId, fun sigShare picked => ?_⟩
      obtain ⟨s, member, rfl⟩ := mem_map.mp (mem_of_mem_filter picked)
      exact ⟨isKnown, inside s member⟩
  | store sigShares =>
    refine ⟨.setNode (.of_same rfl rfl ?_), trivial⟩
    suffices ∀ map : SigShareKey → Option (CSigShare setting.Sig), ∀ k sigShare,
        sigShares.foldl (fun map s => addTo map (setting.getKey s) s) map k = some sigShare →
          map k = some sigShare ∨ ShareOk sigShare from this _
    induction sigShares with
    | nil => exact fun map k sigShare => .inl
    | cons first rest ih =>
      intro map k sigShare found
      obtain ⟨firstOk, others⟩ := forall_mem_cons.mp jobOk
      obtain before | isOk := ih others _ k sigShare found
      · obtain older | ⟨-, rfl⟩ := of_addTo before
        · exact .inl older
        · exact .inr firstOk
      · exact .inr isOk

theorem processMessageSigSesAnn_yields (ann : CSigSesAnn) : Yields allowed
      (fun (m', reply) => ManagerOk m' ∧ ReplyOk m' nodeId reply ∧ Kept m m' ∧
        (Accepts world ann → Registered m' nodeId ann)) (m.processMessageSigSesAnn world nodeId ann) := by
  have idle : Kept m m := (Grows.refl m).toKept
  unfold processMessageSigSesAnn
  split
  case isTrue unknown =>
    exact ⟨ok, trivial, idle, fun accepts => absurd accepts.1 (by simpa using unknown)⟩
  case isFalse isKnown =>
    split
    case isTrue malformed =>
      refine ⟨ok, trivial, idle, fun ⟨_, isId, hash, id, msgHash, _⟩ => absurd malformed ?_⟩
      simp [isId, hash, id, msgHash]
    case isFalse wellFormed =>
      cases found : world.getQuorum ann.llmqType ann.quorumHash with
      | none => exact ⟨ok, trivial, idle, fun ⟨_, _, _, _, _, isFound⟩ => by simp [found] at isFound⟩
      | some quorum =>
        obtain ⟨ofType, ofHash⟩ := world.getQuorum_eq found
        have known : (setting.params ann.llmqType).isSome = true := by
          cases isParams : setting.params ann.llmqType <;> simp_all
        refine (getOrCreateSession_yields (ok.node nodeId) known).bind
          fun (ns, ref) ⟨grows, entry, isKey, sameType, sameHash⟩ => ?_
        have isId : ann.sessionId ≠ noSession := fun isNone => wellFormed (.inl isNone)
        have registered := ((ok.node nodeId).grow grows).register entry isId
          ⟨ofType.trans sameType.symm, ofHash.trans sameHash.symm⟩
        refine ⟨⟨fun other => ?_, ok.shares, ok.verifying⟩, trivial, ?_, fun _ => ?_⟩
        · rw [node_setNode]
          split
          · exact registered
          · exact ok.node other
        · intro other signHash addr t addr' t' before isRegistered after
          rw [node_setNode] at after
          split at after
          case isTrue same =>
            subst same
            obtain ⟨u, found', alike⟩ := grows.kept signHash addr t before
            simp only [write, update_apply] at after
            split at after
            · cases after
              exact isId
            · cases found'.symm.trans after
              exact alike.recvSessionId ▸ isRegistered
          case isFalse =>
            cases before.symm.trans after
            exact isRegistered
        · rw [Registered, node_setNode, if_pos rfl, ← isKey]
          exact ⟨_, _, update_self _ _ _, rfl⟩

end

/-! ### The worker -/

section
variable (ok : ManagerOk m) (isShare : ShareOk sigShare) (ofType : quorum.params.type = sigShare.llmqType)
  (ofHash : quorum.quorumHash = sigShare.quorumHash)
include ok isShare ofType ofHash

theorem pushDirectly_yields : Yields allowed (Grows m) (pushDirectly sigShare quorum m nodeId) := by
  refine (getOrCreateSession_yields (ok.node nodeId) isShare.1).bind
    fun (ns, ref) ⟨grows, entry, _, sameType, sameHash⟩ => ?_
  obtain ⟨params, known, -, requested, knows⟩ := (((ok.node nodeId).grow grows).session _ _ _ entry).sized
  have inside : sigShare.quorumMember < params.size := isShare.lt_size (sameType ▸ known)
  refine (set_yields (requested ▸ inside) true).bind fun requested' sameRequested => ?_
  refine (set_yields (knows ▸ inside) true).bind fun knows' sameKnows => ?_
  refine .setNode (grows.trans (.edit rfl rfl rfl entry ⟨rfl, rfl, ?_, .inr ⟨quorum, rfl, ?_, ?_⟩⟩))
  · exact Prod.ext rfl (Prod.ext sameRequested sameKnows)
  · exact ofType.trans sameType.symm
  · exact ofHash.trans sameHash.symm

theorem processSigShare_yields : Yields allowed (Grows m) (m.processSigShare world sigShare quorum) := by
  unfold processSigShare
  dsimp only
  split
  · exact .refl m
  · split
    · exact .refl m
    · refine foldlM (Q := Grows m) (fun nodeId _ after grows => ?_) ⟨fun _ => .refl _, ?_, fun _ => .inl⟩
      · exact (pushDirectly_yields (ok.grow grows) isShare ofType ofHash).imp fun _ more => grows.trans more
      · intro k other found
        obtain older | ⟨rfl, rfl⟩ := of_addTo found
        · exact .inl older
        · exact .inr ⟨rfl, isShare⟩

end

theorem editSession_yields {edit : Session setting → Except Crash (Session setting)}
    (edits : ∀ s, Yields allowed (Alike s) (edit s)) : Yields allowed (Grows m) (m.editSession nodeId signHash edit) := by
  unfold editSession
  cases found : (m.node nodeId).sessions signHash with
  | none => exact .refl m
  | some entry => exact (edits entry.2).bind fun after alike => .setNode (.edit rfl rfl rfl found alike)

theorem Shrinks.removeSigSharesForSession (m : CSigSharesManager setting) (signHash : Uint256) :
    Shrinks m (m.removeSigSharesForSession signHash) where
  node := by
    intro nodeId
    simp only [CSigSharesManager.node, CSigSharesManager.removeSigSharesForSession]
    cases m.nodeStates nodeId with
    | none => exact .refl _
    | some ns => exact .removeSession ns signHash
  shares := fun _ _ => of_eraseAllFor
  verifying := rfl

theorem Shrinks.removeNode (m : CSigSharesManager setting) (nodeId : NodeId) :
    Shrinks m { m with nodeStates := update m.nodeStates nodeId none } where
  node := by
    intro other
    simp only [CSigSharesManager.node, update_apply]
    split
    · exact ⟨nofun, nofun, nofun⟩
    · exact .refl _
  shares := fun _ _ => id
  verifying := rfl

section
variable (ok : ManagerOk m)
include ok

theorem sign_yields (quorum : CQuorum setting) (id msgHash : Uint256) :
    Yields allowed (Grows m) (m.sign world quorum id msgHash) := by
  have inside : ∀ i, quorum.getMemberIndex setting.proTxHash = some i → i < quorum.members.length :=
    fun i found => (findIdx?_eq_some_iff_getElem.mp found).1
  have validity : Yields allowed (fun _ => True) (quorum.isValidMember setting.proTxHash) := by
    unfold CQuorum.isValidMember
    cases found : quorum.getMemberIndex setting.proTxHash with
    | none => trivial
    | some i => exact readBit_yields (lt_validMembers quorum (inside i found))
  refine validity.bind fun isValid _ => ?_
  split
  · exact .refl m
  · split
    · exact .refl m
    · cases found : quorum.getMemberIndex setting.proTxHash with
      | none => exact .refl m
      | some memberIdx =>
        dsimp only
        split
        · exact .refl m
        · refine processSigShare_yields ok ⟨?_, inside memberIdx found⟩ rfl rfl
          exact isSome_iff_exists.mpr ⟨_, quorum.known⟩

theorem announceShare_yields (k : SigShareKey) : Yields allowed (Grows m) (m.announceShare nodeId k) := by
  unfold announceShare
  cases found : m.sigShares k with
  | none => exact .refl m
  | some sigShare =>
    have isShare := (ok.shares k sigShare found).2
    dsimp only
    split
    · exact .refl m
    · refine (getOrCreateSession_yields (ok.node nodeId) isShare.1).bind
        fun (ns, ref) ⟨grows, entry, _, sameType, _⟩ => ?_
      obtain ⟨params, known, -, -, knows⟩ := (((ok.node nodeId).grow grows).session _ _ _ entry).sized
      have inside : sigShare.quorumMember < ref.session.knows.inv.length := knows ▸ isShare.lt_size (sameType ▸ known)
      refine (readBit_yields inside).bind fun knownBit _ => ?_
      split
      · exact .setNode grows
      · refine (set_yields inside true).bind fun knows' sameKnows => .setNode (grows.trans (.edit rfl rfl rfl entry ?_))
        exact ⟨rfl, rfl, Prod.ext rfl (Prod.ext rfl sameKnows), .inl rfl⟩

theorem takePending_grows (k : SigShareKey) : Grows m (m.takePending nodeId k) := by
  unfold takePending
  cases found : (m.node nodeId).pendingIncomingSigShares k with
  | none =>
    simp only [found]
    exact .refl m
  | some sigShare =>
    have taken : Grows m (m.setNode nodeId
        { m.node nodeId with
          pendingIncomingSigShares := update (m.node nodeId).pendingIncomingSigShares k none }) := by
      exact .setNode (.of_same rfl rfl fun other share isShare => .inl (of_erase isShare).2)
    simp only [found]
    split
    · exact taken
    · refine ⟨taken.node, taken.shares, fun share member => ?_⟩
      obtain rfl | older := mem_cons.mp member
      · exact .inr ((ok.node nodeId).pending k share found)
      · exact .inl older

theorem work_yields (task : Task setting) :
    Yields (· = .assertion) (fun m' => Grows m m' ∨ Shrinks m m') (m.work world task) := by
  have grown : ∀ {call : Except Crash (CSigSharesManager setting)}, Yields (· = .assertion) (Grows m) call →
      Yields (· = .assertion) (fun m' => Grows m m' ∨ Shrinks m m') call := fun yields => yields.imp fun _ => .inl
  cases task with
  | banNode nodeId =>
    refine grown ?_
    simp only [work, banNode]
    cases found : m.nodeStates nodeId with
    | none => exact .refl m
    | some ns => exact .setNode (node_of_some found ▸ .of_same rfl rfl fun _ _ => .inl)
  | takePending nodeId k => exact .inl (takePending_grows ok k)
  | processSigShare idx =>
    refine grown ?_
    simp only [work]
    split
    · exact .refl m
    case h_2 sigShare found =>
      split
      · rfl
      case h_2 quorum isQuorum =>
        obtain ⟨ofType, ofHash⟩ := world.getQuorum_eq isQuorum
        exact processSigShare_yields ok (ok.verifying sigShare (mem_of_getElem? found)) ofType ofHash
  | tryRecoverSig quorum id msgHash =>
    refine bind (P := fun _ => True) ?_ fun _ _ => .inl (.refl m)
    unfold tryRecoverSig
    split
    · trivial
    · refine bind (mapM (Q := fun _ => True) fun sigShare taken => ?_) fun _ _ => trivial
      obtain ⟨i, -, found⟩ := mem_filterMap.mp (mem_of_mem_take taken)
      obtain ⟨underKey, -, inside⟩ := ok.shares _ sigShare found
      have same := setting.collisionFree (congrArg Prod.fst underKey)
      have isMember : sigShare.quorumMember < quorum.members.length := by
        rw [CQuorum.members, same.1, same.2.1]
        exact inside
      rw [getElem?_eq_getElem isMember]
      trivial
  | sign quorum id msgHash => exact grown (sign_yields ok quorum id msgHash)
  | requestShares nodeId signHash =>
    refine grown ?_
    simp only [work, requestShares]
    split
    · exact .refl m
    · refine editSession_yields fun s => (clearBits_yields _ s.announced).bind fun after same => ?_
      exact ⟨rfl, rfl, Prod.ext same rfl, .inl rfl⟩
  | sendShares nodeId signHash =>
    refine grown ?_
    simp only [work, sendShares]
    split
    · exact .refl m
    · refine editSession_yields fun s => (clearBits_yields _ s.requested).bind fun after same => ?_
      exact ⟨rfl, rfl, Prod.ext rfl (Prod.ext same rfl), .inl rfl⟩
  | announceShare nodeId k => exact grown (announceShare_yields ok k)
  | addSigSesAnnIfNeeded nodeId signHash =>
    refine grown ?_
    simp only [work, addSigSesAnnIfNeeded]
    split
    · rfl
    case h_2 addr session found =>
      split
      · exact .setNode (.edit rfl rfl rfl found ⟨rfl, rfl, rfl, .inl rfl⟩)
      · exact .refl m
  | forceReAnnouncement nodeId signHash =>
    refine grown (editSession_yields fun s => ⟨rfl, rfl, ?_, .inl rfl⟩)
    exact Prod.ext rfl (Prod.ext rfl (length_map _))
  | removeSigSharesForSession signHash => exact .inr (.removeSigSharesForSession m signHash)
  | removeNode nodeId => exact .inr (.removeNode m nodeId)

end

/-! ### Runs -/

structure StateOk (s : State setting) : Prop where
  manager : ManagerOk s.manager
  job : ∀ nodeId job, s.job = some (nodeId, job) → JobOk s.manager nodeId job

theorem Fits.grow (fits : Fits m nodeId inv) (ok : ManagerOk m) (grows : Grows m m') : Fits m' nodeId inv := by
  intro signHash addr s isPointer entry
  obtain ⟨isId, s', entry', isRecv⟩ := ((ok.grow grows).node nodeId).pointer _ _ _ isPointer
  cases entry.symm.trans entry'
  obtain ⟨-, unregistered⟩ | ⟨t, before, alike⟩ := (grows.node nodeId).origin entry
  · exact absurd (isRecv.symm.trans unregistered) isId
  · rw [(grows.node nodeId).pointers] at isPointer
    exact (Prod.mk.inj alike.sizes).1.trans (fits signHash addr t isPointer before)

theorem Fits.shrink (fits : Fits m nodeId inv) (shrinks : Shrinks m m') : Fits m' nodeId inv :=
  fun signHash addr s isPointer entry =>
    fits signHash addr s ((shrinks.node nodeId).pointer _ _ _ isPointer).1 ((shrinks.node nodeId).session _ _ entry)

/-- A handler that waits for the lock can go on after what another thread has done. -/
theorem JobOk.change (jobOk : JobOk m nodeId job) (ok : ManagerOk m)
    (changes : Grows m m' ∨ Shrinks m m') : JobOk m' nodeId job := by
  have fits : ∀ inv, Fits m nodeId inv → Fits m' nodeId inv := fun inv isFit =>
    changes.elim (Fits.grow isFit ok) (Fits.shrink isFit)
  cases job with
  | mergeAnnounced inv => exact fits inv jobOk
  | mergeRequested inv => exact fits inv jobOk
  | rebuild info batch => exact jobOk
  | store sigShares => exact jobOk

variable {state : State setting}

/-- What an event does to a safe state, with the sessions that keep an id and the one that an announcement registers. -/
def Advances (world : World setting) (state : State setting) (event : Event setting) (after : State setting) : Prop :=
  StateOk after ∧ Kept state.manager after.manager ∧
    ∀ nodeId ann, event = .message nodeId (.sigSesAnn ann) → state.job = none → Accepts world ann →
      Registered after.manager nodeId ann

theorem stateOk_reply {reply : Reply setting} (ok : ManagerOk m) (replyOk : ReplyOk m nodeId reply) :
    StateOk (SigShares.reply nodeId (m, reply)) := by
  cases reply with
  | done keep => exact ⟨ok, nofun⟩
  | next job =>
    refine ⟨ok, ?_⟩
    rintro _ _ ⟨⟩
    exact replyOk

theorem manager_reply (result : CSigSharesManager setting × Reply setting) : (reply nodeId result).manager = result.1 := by
  obtain ⟨m, reply⟩ := result
  cases reply <;> rfl

theorem Handled.advances {reply : Reply setting} (handled : Handled state.manager nodeId (m, reply)) (ok : StateOk state)
    {event : Event setting} (other : ∀ nodeId ann, event ≠ .message nodeId (.sigSesAnn ann)) :
    Advances world state event (SigShares.reply nodeId (m, reply)) := by
  refine ⟨stateOk_reply (ok.manager.grow handled.1) handled.2, ?_, fun _ _ isAnn => absurd isAnn (other _ _)⟩
  rw [manager_reply]
  exact handled.1.toKept

theorem handler_yields (ok : StateOk state) {event : Event setting} (isHandler : ∀ task, event ≠ .work task) :
    Yields (fun _ => False) (Advances world state event) (step world state event) := by
  have handled : ∀ {nodeId} {call : Except Crash (CSigSharesManager setting × Reply setting)},
      Yields (fun _ => False) (Handled state.manager nodeId) call → (∀ nodeId ann, event ≠ .message nodeId (.sigSesAnn ann)) →
      Yields (fun _ => False) (Advances world state event) (reply nodeId <$> call) :=
    fun yields other => (yields.imp fun result isHandled => isHandled.advances ok other).map
  cases event with
  | work task => exact absurd rfl (isHandler task)
  | message nodeId message =>
    simp only [step]
    split
    case isTrue busy =>
      refine ⟨ok, (Grows.refl _).toKept, fun _ _ _ free => ?_⟩
      rw [free] at busy
      cases busy
    case isFalse =>
      cases message with
      | sigSesAnn ann =>
        refine ((processMessageSigSesAnn_yields ok.manager ann).imp
          fun (m', reply) ⟨isOk, replyOk, kept, registered⟩ => ⟨stateOk_reply isOk replyOk, ?_, ?_⟩).map
        · rw [manager_reply]
          exact kept
        · rintro _ _ ⟨⟩ -
          rw [manager_reply]
          exact registered
      | sigSharesInv inv =>
        refine handled (receiveInv_yields ok.manager inv (fun info hasQuorum => ?_) fun _ fits => fits) nofun
        obtain ⟨quorum, isQuorum⟩ := ne_none_iff_exists'.mp hasQuorum
        simp only [isQuorum]
        trivial
      | getSigShares inv =>
        exact handled (receiveInv_yields ok.manager inv (fun _ _ => trivial) fun _ fits => fits) nofun
      | batchedSigShares batch => exact handled (processMessageBatchedSigShares_yields ok.manager batch) nofun
  | resume =>
    simp only [step]
    split
    · exact ⟨ok, (Grows.refl _).toKept, nofun⟩
    case h_2 nodeId job isJob => exact handled (resume_yields ok.manager (ok.job nodeId job isJob)) nofun

theorem step_yields (ok : StateOk state) (event : Event setting) :
    Yields (· = .assertion) (Advances world state event) (step world state event) := by
  by_cases isWork : ∃ task, event = .work task
  · obtain ⟨task, rfl⟩ := isWork
    refine ((work_yields ok.manager task).imp fun m' changes => ⟨?_, ?_, nofun⟩).map
    · exact ⟨changes.elim ok.manager.grow ok.manager.shrink,
        fun nodeId job isJob => (ok.job nodeId job isJob).change ok.manager changes⟩
    · exact changes.elim Grows.toKept Shrinks.toKept
  · exact (handler_yields ok (not_exists.mp isWork)).mono (fun _ => id) fun _ => False.elim

/-- The state of a run: every run that is not stopped by an assertion of the worker is at such a state. -/
theorem run_yields (history : List (World setting × Event setting)) : Yields (· = .assertion) StateOk (run history) :=
  foldlM (fun entry _ _ ok => (step_yields ok entry.2).imp fun _ after => after.1)
    ⟨⟨fun _ => ⟨nofun, nofun, nofun⟩, nofun, nofun⟩, nofun⟩

/-- The sessions are safe: each pointer for an id leads to a live session with that id; a session has an id only with
a quorum, which every accepted announcement gives it for good; the bit sets have the size of the quorum; and the
message handlers do not crash. -/
structure Safe (state : State setting) : Prop where
  pointer : ∀ nodeId ns recvId signHash addr, state.manager.nodeStates nodeId = some ns →
    ns.sessionByRecvId recvId = some (signHash, addr) →
      ∃ session, ns.sessions signHash = some (addr, session) ∧ session.recvSessionId = recvId
  accepted : ∀ world nodeId ann after, state.job = none → Accepts world ann →
    step world state (.message nodeId (.sigSesAnn ann)) = .ok after → Registered after.manager nodeId ann
  kept : ∀ world event after, step world state event = .ok after → Kept state.manager after.manager
  quorum : ∀ nodeId ns signHash addr session, state.manager.nodeStates nodeId = some ns →
    ns.sessions signHash = some (addr, session) → session.recvSessionId ≠ noSession → session.quorum ≠ none
  sizes : ∀ nodeId ns signHash addr session, state.manager.nodeStates nodeId = some ns →
    ns.sessions signHash = some (addr, session) →
      ∃ params, setting.params session.llmqType = some params ∧ session.announced.inv.length = params.size ∧
        session.requested.inv.length = params.size ∧ session.knows.inv.length = params.size ∧
        ∀ quorum, session.quorum = some quorum → quorum.params = params
  handler : ∀ world event, (∀ task, event ≠ .work task) → ∃ after, step world state event = .ok after

theorem StateOk.safe (ok : StateOk state) : Safe state := by
  have nodeOk : ∀ nodeId ns, state.manager.nodeStates nodeId = some ns → NodeOk ns :=
    fun nodeId ns found => node_of_some found ▸ ok.manager.node nodeId
  have advances : ∀ (world : World setting) event after, step world state event = .ok after →
      Advances world state event after := by
    intro world event after stepped
    have yields : Yields _ _ (step world state event) := step_yields ok event
    rw [stepped] at yields
    exact yields
  refine ⟨?_, ?_, ?_, ?_, ?_, ?_⟩
  · intro nodeId ns recvId signHash addr isNode isPointer
    exact ((nodeOk nodeId ns isNode).pointer recvId signHash addr isPointer).2
  · intro world nodeId ann after free accepts stepped
    exact (advances world _ after stepped).2.2 nodeId ann rfl free accepts
  · intro world event after stepped
    exact (advances world event after stepped).2.1
  · intro nodeId ns signHash addr session isNode isSession
    exact ((nodeOk nodeId ns isNode).session signHash addr session isSession).hasQuorum
  · intro nodeId ns signHash addr session isNode isSession
    have isOk := (nodeOk nodeId ns isNode).session signHash addr session isSession
    obtain ⟨params, known, announced, requested, knows⟩ := isOk.sized
    refine ⟨params, known, announced, requested, knows, fun quorum isQuorum => ?_⟩
    have same := quorum.known
    rw [(isOk.ofQuorum quorum isQuorum).1, known] at same
    exact (some.inj same).symm
  · intro world event isHandler
    obtain ⟨after, stepped, -⟩ := (handler_yields ok isHandler).returns
    exact ⟨after, stepped⟩

/-- Along every run the sessions are safe, and nothing but an assertion of the worker thread can end it. -/
theorem run_safe (history : List (World setting × Event setting)) : Yields (· = .assertion) Safe (run history) :=
  (run_yields history).imp fun _ ok => ok.safe

/-- A network with quorums of five, whose requests are hashed by pairing. -/
def pairing : Setting where
  Sig := Nat
  llmqs := [llmq5_60]
  fromChainParams := by decide
  getAllQuorumMembers := fun _ _ => [11, 12, 13, 14, 15]
  fits := by simp [llmq5_60]
  proTxHash := 11
  buildSignHash := fun llmqType quorumHash id msgHash => Nat.pair llmqType (Nat.pair quorumHash (Nat.pair id msgHash))
  collisionFree := by simp [Nat.pair_eq_pair]

def onlyQuorum : CQuorum pairing := ⟨llmq5_60, 9, [true, true, true, true, true], true, true, rfl, rfl⟩

def quietWorld : World pairing where
  getQuorum := fun llmqType quorumHash => if llmqType = 100 ∧ quorumHash = 9 then some onlyQuorum else none
  isQuorumActive := fun _ _ => true
  hasRecoveredSigForSession := fun _ => false
  hasRecoveredSigForId := fun _ _ => false
  getMasternodeQuorumNodes := fun _ _ => []
  mayRequest := fun _ => true
  sign := fun _ => none
  walk := []
  getQuorum_eq := by
    intro llmqType quorumHash quorum found
    split at found
    case isTrue same =>
      cases found
      exact ⟨same.1.symm, same.2.symm⟩
    case isFalse => cases found

-- an announcement, a share of member 2 and the inventory of two members
example :
    (run ([.message 7 (.sigSesAnn ⟨1, 100, 9, 3, 4⟩), .message 7 (.batchedSigShares ⟨1, [(2, some (20 : Nat))]⟩),
        .resume, .resume, .message 7 (.sigSharesInv ⟨1, [true, false, true, false, false]⟩), .resume].map
        (quietWorld, ·))).map
      (fun s => ((s.manager.node 7).sessionByRecvId 1).map fun (signHash, addr) =>
        (addr, ((s.manager.node 7).sessions signHash).map fun entry => entry.2.knows.inv)) =
    .ok (some (0, some [true, false, true, false, false])) := by decide +kernel

end Cspn.SigSafety
