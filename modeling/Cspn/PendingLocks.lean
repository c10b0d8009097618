import Cspn.BatchVerifier
import Cspn.Folds
import Cspn.InstantSendDb

/-!
How pending InstantSend locks are verified. A first loop hands their signatures to a batch verifier, and a second
passes on every lock not found bad. The first leaves out locks with an invalid signature object and those of a peer
that is bad already; the second passes them on unverified.
-/
namespace Cspn.PendingLocks
open Primitives BatchVerifier List InstantSendDb
open CBLSBatchVerifier

structure CQuorum where
  quorumHash : Uint256
  quorumPublicKey : List UInt8
deriving DecidableEq

structure Message where
  msgHash : Uint256
  sig : List UInt8
  pubKey : List UInt8

structure CRecoveredSig where
  quorumHash : Uint256
  id : Uint256
  msgHash : Uint256
  sig : List UInt8

/-- What is asked of the BLS library, the hash functions and the signing manager. -/
structure Signing where
  scheme : Scheme Message
  isValid : List UInt8 → Bool
  getRequestId : List COutPoint → Uint256
  buildSignHash : Uint256 → Uint256 → Uint256 → Uint256
  selectionScore : Uint256 → Uint256 → Uint256
  getActiveQuorumSet : Int → List CQuorum
  hasRecoveredSig : Uint256 → Uint256 → Bool
  hasRecoveredSigForId : Uint256 → Bool

structure PendingLock where
  hash : Uint256
  nodeId : Int
  islock : CInstantSendLock
deriving DecidableEq

open PendingLock

/-- The map of pending locks, in the order in which it is iterated. -/
structure PendingMap where
  entries : List PendingLock
  distinct : (entries.map hash).Nodup

namespace Signing
variable (signing : Signing)

/-- The quorum with the least score; the first of several. -/
def selectQuorumForSigning (signHeight : Int) (selectionHash : Uint256) : Option CQuorum :=
  (signing.getActiveQuorumSet signHeight).argmin fun quorum => signing.selectionScore quorum.quorumHash selectionHash

def requestId (p : PendingLock) : Uint256 := signing.getRequestId p.islock.inputs

def message (quorum : CQuorum) (p : PendingLock) : Message :=
  ⟨signing.buildSignHash quorum.quorumHash (signing.requestId p) p.islock.txid, p.islock.sig, quorum.quorumPublicKey⟩

def known (p : PendingLock) : Bool := signing.hasRecoveredSig (signing.requestId p) p.islock.txid

def verifies (signHeight : Int) (p : PendingLock) : Bool :=
  (signing.selectQuorumForSigning signHeight (signing.requestId p)).any fun quorum =>
    signing.scheme.verifyInsecure (signing.message quorum p)

end Signing

/-- The verifier, the signatures to reconstruct, and which locks were handed to the verifier. -/
structure Gathering where
  batchVerifier : CBLSBatchVerifier Int Uint256 Message
  recSigs : List (Uint256 × CRecoveredSig)
  pushed : List Uint256

def Gathering.addBadSource (g : Gathering) (nodeId : Int) : Gathering :=
  { g with batchVerifier := { g.batchVerifier with badSources := g.batchVerifier.badSources.insert nodeId } }

/-- The signature goes to the verifier. If it turns out good it is passed on as a recovered signature. -/
def Gathering.push (signing : Signing) (g : Gathering) (p : PendingLock) (quorum : CQuorum) : Gathering where
  batchVerifier := g.batchVerifier.pushMessage signing.scheme p.nodeId p.hash (signing.message quorum p)
  recSigs :=
    if signing.hasRecoveredSigForId (signing.requestId p) then g.recSigs
    else g.recSigs ++ [(p.hash, ⟨quorum.quorumHash, signing.requestId p, p.islock.txid, p.islock.sig⟩)]
  pushed := g.pushed ++ [p.hash]

section
variable (signing : Signing) (signHeight : Int)

/-- One round of the first loop; `none` where no quorum is found and the function returns. -/
def gatherOne (g : Gathering) (p : PendingLock) : Option Gathering :=
  if p.nodeId ∈ g.batchVerifier.badSources then some g
  else if !signing.isValid p.islock.sig then some (g.addBadSource p.nodeId)
  else if signing.known p then some g
  else
    (signing.selectQuorumForSigning signHeight (signing.requestId p)).map fun quorum => g.push signing p quorum

def gather (pend : List PendingLock) : Option Gathering :=
  pend.foldlM (gatherOne signing signHeight) ⟨.new true 8, [], []⟩

/-- What a call does: the locks passed to `ProcessInstantSendLock`, its result, the peers reported, the signatures
    passed on, and the locks handed to the verifier. -/
structure Processed where
  passed : List PendingLock
  badISLocks : List Uint256
  misbehaving : List Int
  reconstructed : List CRecoveredSig
  checked : List Uint256

def processAt (pend : List PendingLock) (ban : Bool) : Processed :=
  match gather signing signHeight pend with
  | none => ⟨[], [], [], [], []⟩
  | some g =>
    let v := g.batchVerifier.verify signing.scheme
    let passed := pend.filter fun p => p.hash ∉ v.badMessages
    { passed
      badISLocks := (pend.filter fun p => p.hash ∈ v.badMessages).map hash
      misbehaving := if ban then v.badSources else []
      reconstructed := passed.filterMap fun p =>
        (g.recSigs.find? fun recSig => recSig.1 = p.hash).bind fun recSig =>
          if signing.hasRecoveredSigForId recSig.2.id then none else some recSig.2
      checked := g.pushed }

end

/-- `ProcessPendingInstantSendLocks`: the calls it makes, with their heights. -/
def processPendingInstantSendLocks (signing : Signing) (fInstantSendEnabled : Bool) (tipHeight : Int)
    (pend : List PendingLock) : List (Int × Processed) :=
  if pend.isEmpty || !fInstantSendEnabled then []
  else if signing.getActiveQuorumSet tipHeight ≠ signing.getActiveQuorumSet (tipHeight - 1) then
    let first := processAt signing tipHeight pend false
    if first.badISLocks.isEmpty then [(tipHeight, first)]
    else
      [(tipHeight, first),
        (tipHeight - 1, processAt signing (tipHeight - 1) (pend.filter fun p => p.hash ∈ first.badISLocks) true)]
  else [(tipHeight, processAt signing tipHeight pend true)]

/-- Every lock that a call passes on is known or was verified in it. -/
def OnlyVerified (signing : Signing) (signHeight : Int) (processed : Processed) : Prop :=
  ∀ p ∈ processed.passed,
    signing.known p = true ∨ (p.hash ∈ processed.checked ∧ signing.verifies signHeight p = true)

instance (signing : Signing) (signHeight : Int) (processed : Processed) :
    Decidable (OnlyVerified signing signHeight processed) :=
  inferInstanceAs (Decidable (∀ p ∈ processed.passed, _))

section
variable (signing : Signing) (signHeight : Int) (before : List PendingLock)

/-- The signature of the lock is an object, and so are those that its peer sent earlier. -/
def Clean (p : PendingLock) : Prop :=
  signing.isValid p.islock.sig = true ∧
    ∀ other ∈ before, other.nodeId = p.nodeId → signing.isValid other.islock.sig = true

def unknown (pend : List PendingLock) : List PendingLock := pend.filter fun p => !signing.known p

/-- The locks in batches of eight that are complete before the next lock. -/
def settled : List PendingLock :=
  (unknown signing before).take (8 * ((unknown signing before).length / 8))

/-- What lets the verifier see a lock that comes after others. -/
def Seen (p : PendingLock) : Prop :=
  Clean signing before p ∧
    ∀ other ∈ settled signing before, other.nodeId = p.nodeId → signing.verifies signHeight other = true

/-- With a quorum, every unknown lock is seen. Without one, an unknown lock that is reached ends the call, so there is
    one or none at all. -/
def AllSeen (pend : List PendingLock) : Prop :=
  if signing.getActiveQuorumSet signHeight = [] then
    (∀ p ∈ pend, signing.known p = true) ∨
      ∃ before p after, pend = before ++ p :: after ∧ signing.known p = false ∧ Clean signing before p
  else
    ∀ before p after, pend = before ++ p :: after → signing.known p = false → Seen signing signHeight before p

end

/-! ### The first loop -/

variable {source nodeId : Int} {Q : Prop} {after : Gathering} {rest : List PendingLock}

section
variable {signing : Signing} {signHeight : Int}

def unsettled (signing : Signing) (before : List PendingLock) : List PendingLock :=
  (unknown signing before).drop (8 * ((unknown signing before).length / 8))

def entryOf (signing : Signing) (signHeight : Int) (p : PendingLock) : Int × Uint256 × Message :=
  (p.nodeId, p.hash,
    ((signing.selectQuorumForSigning signHeight (signing.requestId p)).map fun quorum =>
      signing.message quorum p).getD ⟨0, [], []⟩)

@[simp] theorem entryOf_nodeId (p : PendingLock) : (entryOf signing signHeight p).1 = p.nodeId := rfl

@[simp] theorem entryOf_hash (p : PendingLock) : (entryOf signing signHeight p).2.1 = p.hash := rfl

theorem selectQuorumForSigning_eq_none {id : Uint256} :
    signing.selectQuorumForSigning signHeight id = none ↔ signing.getActiveQuorumSet signHeight = [] :=
  argmin_eq_none

theorem exists_quorum (quorums : signing.getActiveQuorumSet signHeight ≠ []) (id : Uint256) :
    ∃ quorum, signing.selectQuorumForSigning signHeight id = some quorum :=
  Option.ne_none_iff_exists'.mp (mt selectQuorumForSigning_eq_none.mp quorums)

theorem verifies_entryOf (quorums : signing.getActiveQuorumSet signHeight ≠ []) (p : PendingLock) :
    signing.scheme.verifyInsecure (entryOf signing signHeight p).2.2 = signing.verifies signHeight p := by
  obtain ⟨quorum, selected⟩ := exists_quorum quorums (signing.requestId p)
  simp [entryOf, Signing.verifies, selected]

variable (before : List PendingLock)

theorem unknown_append (p : PendingLock) : unknown signing (before ++ [p]) =
      if signing.known p then unknown signing before else unknown signing before ++ [p] := by
  cases known : signing.known p with
  | true => simp [unknown, known]
  | false => simp [unknown, known]

variable {p : PendingLock}

theorem settled_append_of_unknown (new : signing.known p = false) : if 8 ≤ (unsettled signing before).length + 1 then
      settled signing (before ++ [p]) = settled signing before ++ (unsettled signing before ++ [p]) ∧
        unsettled signing (before ++ [p]) = [] else settled signing (before ++ [p]) = settled signing before ∧
        unsettled signing (before ++ [p]) = unsettled signing before ++ [p] := by
  have all : settled signing before ++ unsettled signing before = unknown signing before := take_append_drop _ _
  have length : (unsettled signing before).length =
      (unknown signing before).length - 8 * ((unknown signing before).length / 8) := length_drop
  have later : unknown signing (before ++ [p]) = unknown signing before ++ [p] := by simp [unknown_append, new]
  have settledLater : settled signing (before ++ [p]) =
      (unknown signing before ++ [p]).take (8 * (((unknown signing before).length + 1) / 8)) := by
    rw [settled, later, length_append, length_singleton]
  have unsettledLater : unsettled signing (before ++ [p]) =
      (unknown signing before ++ [p]).drop (8 * (((unknown signing before).length + 1) / 8)) := by
    rw [unsettled, later, length_append, length_singleton]
  by_cases full : 8 ≤ (unsettled signing before).length + 1
  · have count : 8 * (((unknown signing before).length + 1) / 8) = (unknown signing before).length + 1 := by omega
    rw [if_pos full, settledLater, unsettledLater, count, ← append_assoc, all]
    exact ⟨take_of_length_le (by simp), drop_of_length_le (by simp)⟩
  · have count : 8 * (((unknown signing before).length + 1) / 8) = 8 * ((unknown signing before).length / 8) := by omega
    have bound : 8 * ((unknown signing before).length / 8) ≤ (unknown signing before).length := by omega
    rw [if_neg full, settledLater, unsettledLater, count]
    exact ⟨take_append_of_le_length bound, drop_append_of_le_length bound⟩

theorem mem_of_bad {sources : List Int} (bad : nodeId ∈ sources) :
    source ∈ sources ↔ source ∈ sources ∨ nodeId = source ∧ Q :=
  (or_iff_left_of_imp fun same => same.1 ▸ bad).symm

variable {g : Gathering}

theorem mem_addBadSource (reason : Q) : source ∈ (g.addBadSource nodeId).batchVerifier.badSources ↔
      source ∈ g.batchVerifier.badSources ∨ nodeId = source ∧ Q := by
  have added : source ∈ (g.addBadSource nodeId).batchVerifier.badSources ↔
      source = nodeId ∨ source ∈ g.batchVerifier.badSources := mem_insert_iff
  rw [added, or_comm, and_iff_left reason, @eq_comm _ source]

variable {before : List PendingLock}

theorem exists_mem_snoc {P : PendingLock → Prop} :
    (∃ other ∈ before ++ [p], P other) ↔ (∃ other ∈ before, P other) ∨ P p := by
  simp

/-- The state after some locks of which every unknown one was handed to the verifier. -/
structure Gathered (signing : Signing) (signHeight : Int) (before : List PendingLock) (g : Gathering) : Prop where
  perMessageFallback : g.batchVerifier.perMessageFallback = true
  subBatchSize : g.batchVerifier.subBatchSize = 8
  holds : g.batchVerifier.Holds ((unsettled signing before).map (entryOf signing signHeight))
  badSources : ∀ source, source ∈ g.batchVerifier.badSources ↔
    (∃ p ∈ before, p.nodeId = source ∧ signing.isValid p.islock.sig = false) ∨
      ∃ p ∈ settled signing before, p.nodeId = source ∧ signing.verifies signHeight p = false
  badMessages : ∀ hash, hash ∈ g.batchVerifier.badMessages ↔
    ∃ p ∈ settled signing before, p.hash = hash ∧ signing.verifies signHeight p = false
  pushed : g.pushed = (unknown signing before).map hash

theorem gathered_start : Gathered signing signHeight [] ⟨.new true 8, [], []⟩ where
  perMessageFallback := rfl
  subBatchSize := rfl
  holds := by simpa [unsettled, unknown] using holds_nil rfl rfl
  badSources := by simp [new, settled, unknown]
  badMessages := by simp [new, settled, unknown]
  pushed := rfl

section
variable (gathered : Gathered signing signHeight before g)
include gathered

theorem Gathered.seen_iff (p : PendingLock) : Seen signing signHeight before p ↔
      p.nodeId ∉ g.batchVerifier.badSources ∧ signing.isValid p.islock.sig = true := by
  rw [gathered.badSources, Seen, Clean]
  constructor
  · rintro ⟨⟨valid, earlier⟩, batches⟩
    refine ⟨?_, valid⟩
    rintro (⟨other, member, same, invalid⟩ | ⟨other, member, same, fails⟩)
    · simp [earlier other member same] at invalid
    · simp [batches other member same] at fails
  · rintro ⟨good, valid⟩
    refine ⟨⟨valid, fun other member same => ?_⟩, fun other member same => ?_⟩
    · by_contra invalid
      exact good (.inl ⟨other, member, same, by simpa using invalid⟩)
    · by_contra fails
      exact good (.inr ⟨other, member, same, by simpa using fails⟩)

theorem Gathered.known (known : signing.known p = true) :
    ∃ after, gatherOne signing signHeight g p = some after ∧ Gathered signing signHeight (before ++ [p]) after := by
  have sameSettled : settled signing (before ++ [p]) = settled signing before := by simp [settled, unknown_append, known]
  have sameUnsettled : unsettled signing (before ++ [p]) = unsettled signing before := by
    simp [unsettled, unknown_append, known]
  have pushed : g.pushed = (unknown signing (before ++ [p])).map hash := by
    simp [gathered.pushed, unknown_append, known]
  have badMessages := gathered.badMessages
  rw [← sameSettled] at badMessages
  by_cases bad : p.nodeId ∈ g.batchVerifier.badSources
  · refine ⟨g, by simp [gatherOne, bad], gathered.perMessageFallback, gathered.subBatchSize, sameUnsettled ▸ gathered.holds,
      fun source => ?_, badMessages, pushed⟩
    rw [sameSettled, exists_mem_snoc, or_right_comm, ← gathered.badSources]
    exact mem_of_bad bad
  · cases valid : signing.isValid p.islock.sig with
    | true =>
      refine ⟨g, by simp [gatherOne, valid, known], gathered.perMessageFallback, gathered.subBatchSize,
        sameUnsettled ▸ gathered.holds, fun source => ?_, badMessages, pushed⟩
      rw [sameSettled, gathered.badSources]
      simp [valid]
    | false =>
      refine ⟨g.addBadSource p.nodeId, by simp [gatherOne, bad, valid], gathered.perMessageFallback,
        gathered.subBatchSize, ?_, fun source => ?_, badMessages, pushed⟩
      · rw [sameUnsettled]
        exact { gathered.holds with }
      · rw [sameSettled, exists_mem_snoc, or_right_comm, ← gathered.badSources]
        exact mem_addBadSource valid

theorem Gathered.unknown (quorums : signing.getActiveQuorumSet signHeight ≠ [])
    (new : signing.known p = false) (seen : Seen signing signHeight before p)
    (fresh : ∀ other ∈ before, other.hash ≠ p.hash) :
    ∃ after, gatherOne signing signHeight g p = some after ∧ Gathered signing signHeight (before ++ [p]) after := by
  obtain ⟨good, valid⟩ := (gathered.seen_iff p).mp seen
  obtain ⟨quorum, selected⟩ := exists_quorum quorums (signing.requestId p)
  have entry : entryOf signing signHeight p = (p.nodeId, p.hash, signing.message quorum p) := by
    simp [entryOf, selected]
  have pushed : g.pushed ++ [p.hash] = (PendingLocks.unknown signing (before ++ [p])).map hash := by
    simp [gathered.pushed, unknown_append, new]
  have others : ∀ pushed ∈ (unsettled signing before).map (entryOf signing signHeight), pushed.2.1 ≠ p.hash := by
    intro pushed member
    obtain ⟨other, inside, rfl⟩ := mem_map.mp member
    exact fresh other (mem_filter.mp (mem_of_mem_drop inside)).1
  have push := gathered.holds.pushMessage gathered.perMessageFallback signing.scheme p.nodeId
    (signing.message quorum p) others
  have batches := settled_append_of_unknown before new
  have verify := verifies_entryOf quorums
  refine ⟨g.push signing p quorum, by simp [gatherOne, good, valid, new, selected], ?_⟩
  rw [gathered.subBatchSize, length_map, ← entry] at push
  have sources : ∀ source, (∃ other ∈ before ++ [p], other.nodeId = source ∧ signing.isValid other.islock.sig = false) ↔
      ∃ other ∈ before, other.nodeId = source ∧ signing.isValid other.islock.sig = false := by
    intro source
    simp [valid]
  by_cases full : 8 ≤ (unsettled signing before).length + 1
  · rw [if_pos full] at batches
    rw [if_pos ⟨by decide, full⟩] at push
    obtain ⟨verified, holds⟩ := push
    refine ⟨verified.perMessageFallback.trans gathered.perMessageFallback,
      verified.subBatchSize.trans gathered.subBatchSize, by rw [batches.2]; exact holds, fun source => ?_, fun hash => ?_,
      pushed⟩
    · refine (verified.badSources source).trans ?_
      rw [sources, batches.1, gathered.badSources, or_assoc]
      refine or_congr_right ?_
      simp [or_and_right, exists_or, verify]
    · refine (verified.badMessages hash).trans ?_
      rw [batches.1, gathered.badMessages]
      simp [or_and_right, exists_or, verify]
  · rw [if_neg full] at batches
    rw [if_neg fun both => full both.2] at push
    obtain ⟨verified, holds⟩ := push
    refine ⟨verified.perMessageFallback.trans gathered.perMessageFallback,
      verified.subBatchSize.trans gathered.subBatchSize, ?_, fun source => ?_, fun hash => ?_, pushed⟩
    · rw [batches.2, map_append]
      exact holds
    · refine (verified.badSources source).trans ?_
      rw [sources, batches.1, gathered.badSources]
      simp
    · refine (verified.badMessages hash).trans ?_
      rw [batches.1, gathered.badMessages]
      simp

end

structure Tracks (g : Gathering) : Prop where
  perMessageFallback : g.batchVerifier.perMessageFallback = true
  holds : ∃ log, g.batchVerifier.Holds log ∧ ∀ entry ∈ log, entry.2.1 ∈ g.pushed
  badMessages : ∀ hash ∈ g.batchVerifier.badMessages, hash ∈ g.pushed

theorem Gathered.tracks (gathered : Gathered signing signHeight before g) : Tracks g where
  perMessageFallback := gathered.perMessageFallback
  holds := by
    refine ⟨_, gathered.holds, fun entry member => ?_⟩
    obtain ⟨p, inside, rfl⟩ := mem_map.mp member
    rw [gathered.pushed]
    exact mem_map_of_mem (mem_of_mem_drop inside)
  badMessages := by
    intro hash member
    obtain ⟨p, inside, rfl, -⟩ := (gathered.badMessages hash).mp member
    rw [gathered.pushed]
    exact mem_map_of_mem (mem_of_mem_take inside)

section
variable (tracks : Tracks g)
include tracks

theorem Tracks.addBadSource (nodeId : Int) : Tracks (g.addBadSource nodeId) := by
  obtain ⟨log, holds, inside⟩ := tracks.holds
  exact { tracks with holds := ⟨log, { holds with }, inside⟩ }

theorem Tracks.push (quorum : CQuorum) (fresh : p.hash ∉ g.pushed) : Tracks (g.push signing p quorum) := by
  obtain ⟨log, holds, inside⟩ := tracks.holds
  have others : ∀ pushed ∈ log, pushed.2.1 ≠ p.hash := fun pushed member same => fresh (same ▸ inside pushed member)
  have push := holds.pushMessage tracks.perMessageFallback signing.scheme p.nodeId (signing.message quorum p) others
  have wider : ∀ entry ∈ log ++ [(p.nodeId, p.hash, signing.message quorum p)], entry.2.1 ∈ g.pushed ++ [p.hash] := by
    intro entry member
    rcases mem_append.mp member with old | last
    · exact mem_append_left _ (inside entry old)
    · rw [mem_singleton.mp last]
      exact mem_append_right _ (.head _)
  split at push
  · obtain ⟨verified, after⟩ := push
    refine ⟨verified.perMessageFallback.trans tracks.perMessageFallback, ⟨[], after, by simp⟩, fun hash member => ?_⟩
    rcases (verified.badMessages hash).mp member with old | ⟨entry, new, rfl, -⟩
    · exact mem_append_left _ (tracks.badMessages hash old)
    · exact wider entry new
  · obtain ⟨verified, after⟩ := push
    refine ⟨verified.perMessageFallback.trans tracks.perMessageFallback, ⟨_, after, wider⟩, fun hash member => ?_⟩
    refine mem_append_left _ (tracks.badMessages hash (((verified.badMessages hash).mp member).resolve_right ?_))
    simp

theorem Tracks.gatherOne (fresh : p.hash ∉ g.pushed) (step : gatherOne signing signHeight g p = some after) :
    Tracks after ∧ ∀ hash ∈ after.pushed, hash ∈ g.pushed ∨ hash = p.hash := by
  unfold PendingLocks.gatherOne at step
  split at step
  · cases step
    exact ⟨tracks, fun hash member => .inl member⟩
  · split at step
    · cases step
      exact ⟨tracks.addBadSource p.nodeId, fun hash member => .inl member⟩
    · split at step
      · cases step
        exact ⟨tracks, fun hash member => .inl member⟩
      · obtain ⟨quorum, -, rfl⟩ := Option.map_eq_some_iff.mp step
        refine ⟨tracks.push quorum fresh, fun hash member => ?_⟩
        simpa [Gathering.push] using member

theorem Tracks.gather (distinct : (rest.map PendingLock.hash).Nodup) (fresh : ∀ p ∈ rest, p.hash ∉ g.pushed)
    (steps : rest.foldlM (PendingLocks.gatherOne signing signHeight) g = some after) :
    Tracks after ∧ ∀ hash ∈ after.pushed, hash ∈ g.pushed ∨ hash ∈ rest.map PendingLock.hash := by
  induction rest generalizing g with
  | nil =>
    cases steps
    exact ⟨tracks, fun hash member => .inl member⟩
  | cons p rest ih =>
    obtain ⟨middle, first, later⟩ := Option.bind_eq_some_iff.mp steps
    obtain ⟨tracksMiddle, pushed⟩ := tracks.gatherOne (fresh p (.head _)) first
    simp only [map_cons, nodup_cons] at distinct
    have freshMiddle : ∀ other ∈ rest, other.hash ∉ middle.pushed := by
      intro other member inside
      rcases pushed other.hash inside with old | same
      · exact fresh other (.tail _ member) old
      · exact distinct.1 (same ▸ mem_map_of_mem member)
    obtain ⟨tracksAfter, pushedAfter⟩ := ih tracksMiddle distinct.2 freshMiddle later
    refine ⟨tracksAfter, fun hash member => ?_⟩
    rcases pushedAfter hash member with inMiddle | inRest
    · rcases pushed hash inMiddle with old | rfl
      · exact .inl old
      · exact .inr (mem_map_of_mem (.head _))
    · exact .inr (.tail _ inRest)

theorem Tracks.verify {hash : Uint256}
    (bad : hash ∈ (g.batchVerifier.verify signing.scheme).badMessages) : hash ∈ g.pushed := by
  obtain ⟨log, holds, inside⟩ := tracks.holds
  rcases ((holds.lists.verify tracks.perMessageFallback).badMessages hash).mp bad with old | ⟨entry, member, rfl, -⟩
  · exact tracks.badMessages hash old
  · exact inside entry member

end

theorem Gathered.skip
    (gathered : Gathered signing signHeight before g) (skipped : ¬ Seen signing signHeight before p) :
    ∃ after, gatherOne signing signHeight g p = some after ∧ Tracks after ∧ after.pushed = g.pushed := by
  rw [gathered.seen_iff] at skipped
  by_cases bad : p.nodeId ∈ g.batchVerifier.badSources
  · exact ⟨g, by simp [gatherOne, bad], gathered.tracks, rfl⟩
  · have invalid : signing.isValid p.islock.sig = false := by simpa [bad] using skipped
    exact ⟨g.addBadSource p.nodeId, by simp [gatherOne, bad, invalid],
      gathered.tracks.addBadSource p.nodeId, rfl⟩

/-! ### The whole call -/

/-- Every unknown lock that is not found bad was handed to the verifier and verifies. -/
def Sound (signing : Signing) (signHeight : Int) (pend : List PendingLock) (g : Gathering) : Prop :=
  ∀ p ∈ pend, signing.known p = false → p.hash ∉ (g.batchVerifier.verify signing.scheme).badMessages →
    p.hash ∈ g.pushed ∧ signing.verifies signHeight p = true

variable {pend : List PendingLock}

section
variable (gathered : Gathered signing signHeight pend g) (quorums : signing.getActiveQuorumSet signHeight ≠ [])
include gathered quorums

theorem Gathered.bad_iff (hash : Uint256) : hash ∈ (g.batchVerifier.verify signing.scheme).badMessages ↔
      ∃ p ∈ PendingLocks.unknown signing pend, p.hash = hash ∧ signing.verifies signHeight p = false := by
  have all : settled signing pend ++ unsettled signing pend = PendingLocks.unknown signing pend := take_append_drop _ _
  have verified : CBLSBatchVerifier.Verified signing.scheme _ _ _ := gathered.holds.lists.verify gathered.perMessageFallback
  rw [verified.badMessages, gathered.badMessages, ← all]
  simp [or_and_right, exists_or, verifies_entryOf quorums]

theorem Gathered.sound : Sound signing signHeight pend g := by
  intro p member new good
  have inside : p ∈ PendingLocks.unknown signing pend := mem_filter.mpr ⟨member, by simp [new]⟩
  refine ⟨gathered.pushed ▸ mem_map_of_mem inside, ?_⟩
  by_contra fails
  exact good ((gathered.bad_iff quorums p.hash).mpr ⟨p, inside, rfl, by simpa using fails⟩)

end

section
variable (quorums : signing.getActiveQuorumSet signHeight ≠ [])
include quorums

theorem gatherOne_isSome (g : Gathering) (p : PendingLock) :
    ∃ after, gatherOne signing signHeight g p = some after := by
  obtain ⟨quorum, selected⟩ := exists_quorum quorums (signing.requestId p)
  unfold gatherOne
  split
  · exact ⟨_, rfl⟩
  · split
    · exact ⟨_, rfl⟩
    · split
      · exact ⟨_, rfl⟩
      · exact ⟨_, by rw [selected]; rfl⟩

/-- The loop ends, and it skips no unknown lock exactly if each is seen. Otherwise a lock is not sound. -/
theorem gathered_loop (pend : PendingMap) :
    ∃ after, gather signing signHeight pend.entries = some after ∧ ((Gathered signing signHeight pend.entries after ∧
          ∀ earlier p later, pend.entries = earlier ++ p :: later → signing.known p = false →
            Seen signing signHeight earlier p) ∨ (¬ Sound signing signHeight pend.entries after ∧
          ∃ earlier p later, pend.entries = earlier ++ p :: later ∧ signing.known p = false ∧
            ¬ Seen signing signHeight earlier p)) := by
  have hashes : ∀ earlier p later, pend.entries = earlier ++ p :: later → (∀ other ∈ earlier, other.hash ≠ p.hash) ∧
      ((p :: later).map hash).Nodup ∧ ∀ other ∈ earlier, ∀ q ∈ later, other.hash ≠ q.hash := by
    intro earlier p later split
    have distinct := pend.distinct
    rw [split, map_append, nodup_append] at distinct
    obtain ⟨-, nodup, apart⟩ := distinct
    exact ⟨fun other member => apart _ (mem_map_of_mem member) _ (.head _), nodup,
      fun other member q inside => apart _ (mem_map_of_mem member) _ (.tail _ (mem_map_of_mem inside))⟩
  have step : ∀ done p later g, pend.entries = done ++ p :: later → Gathered signing signHeight done g →
      (signing.known p = false → Seen signing signHeight done p) →
        ∃ after, PendingLocks.gatherOne signing signHeight g p = some after ∧ Gathered signing signHeight (done ++ [p]) after := by
    intro done p later g split gathered seen
    cases known : signing.known p with
    | true => exact gathered.known known
    | false => exact gathered.unknown quorums known (seen known) (hashes done p later split).1
  rcases Folds.foldlM_or_stop step gathered_start with
    ⟨⟨after, ran, gathered⟩, seen⟩ | ⟨earlier, p, later, g, split, ran, gathered, unseen⟩
  · exact ⟨after, ran, .inl ⟨gathered, seen⟩⟩
  · obtain ⟨new, skipped⟩ := Classical.not_imp.mp unseen
    obtain ⟨middle, first, tracks, same⟩ := gathered.skip skipped
    obtain ⟨after, rest⟩ : ∃ after, later.foldlM (gatherOne signing signHeight) middle = some after :=
      (Folds.foldlM_isSome_rest (P := fun _ _ => True) (fun p _ g _ =>
        (gatherOne_isSome quorums g p).imp fun _ first => ⟨first, trivial⟩) trivial).imp fun _ => And.left
    refine ⟨after, ?_, .inr ⟨?_, earlier, p, later, split, new, skipped⟩⟩
    · rw [gather, split, foldlM_append, ran]
      exact Option.bind_eq_some_iff.mpr ⟨g, rfl, Option.bind_eq_some_iff.mpr ⟨middle, first, rest⟩⟩
    obtain ⟨fresh, nodup, apart⟩ := hashes earlier p later split
    rw [map_cons, nodup_cons] at nodup
    have inEarlier : ∀ hash ∈ middle.pushed, ∃ other ∈ earlier, other.hash = hash := by
      intro hash member
      rw [same, gathered.pushed] at member
      obtain ⟨other, inside, rfl⟩ := mem_map.mp member
      exact ⟨other, (mem_filter.mp inside).1, rfl⟩
    have freshLater : ∀ other ∈ later, other.hash ∉ middle.pushed := by
      intro other member inside
      obtain ⟨older, inside, clash⟩ := inEarlier _ inside
      exact apart older inside other member clash
    obtain ⟨tracksAfter, pushed⟩ := tracks.gather nodup.2 freshLater rest
    have outside : p.hash ∉ after.pushed := by
      intro inside
      rcases pushed p.hash inside with old | inLater
      · obtain ⟨older, inside, clash⟩ := inEarlier _ old
        exact fresh older inside clash
      · exact nodup.1 inLater
    intro sound
    exact outside (sound p (by simp [split]) new (fun bad => outside (tracksAfter.verify bad))).1

end

/-- Without a quorum nothing is handed to the verifier, and only invalid signature objects make a peer bad. -/
structure Idle (signing : Signing) (before : List PendingLock) (g : Gathering) : Prop where
  messages : g.batchVerifier.messages = []
  badMessages : g.batchVerifier.badMessages = []
  badSources : ∀ source, source ∈ g.batchVerifier.badSources ↔
    ∃ p ∈ before, p.nodeId = source ∧ signing.isValid p.islock.sig = false
  pushed : g.pushed = []

section
variable (idle : Idle signing before g)
include idle

theorem Idle.clean_iff (p : PendingLock) :
    Clean signing before p ↔ p.nodeId ∉ g.batchVerifier.badSources ∧ signing.isValid p.islock.sig = true := by
  rw [idle.badSources, Clean, and_comm]
  simp

theorem Idle.step (passed : ¬ (signing.known p = false ∧ Clean signing before p)) :
    ∃ after, gatherOne signing signHeight g p = some after ∧ Idle signing (before ++ [p]) after := by
  rw [idle.clean_iff] at passed
  by_cases bad : p.nodeId ∈ g.batchVerifier.badSources
  · refine ⟨g, by simp [gatherOne, bad], idle.messages, idle.badMessages, fun source => ?_, idle.pushed⟩
    rw [exists_mem_snoc, ← idle.badSources]
    exact mem_of_bad bad
  · cases valid : signing.isValid p.islock.sig with
    | true =>
      have known : signing.known p = true := by simpa [bad, valid] using passed
      refine ⟨g, by simp [gatherOne, valid, known], idle.messages, idle.badMessages, fun source => ?_,
        idle.pushed⟩
      rw [idle.badSources]
      simp [valid]
    | false =>
      refine ⟨g.addBadSource p.nodeId, by simp [gatherOne, bad, valid], idle.messages, idle.badMessages,
        fun source => ?_, idle.pushed⟩
      rw [exists_mem_snoc, ← idle.badSources]
      exact mem_addBadSource valid

end

theorem idle_loop (pend : List PendingLock) (none : signing.getActiveQuorumSet signHeight = []) :
    (gather signing signHeight pend = Option.none ∧
        ∃ earlier p later, pend = earlier ++ p :: later ∧ signing.known p = false ∧ Clean signing earlier p) ∨
      ((∃ after, gather signing signHeight pend = some after ∧ Idle signing pend after) ∧
        ∀ earlier p later, pend = earlier ++ p :: later → ¬ (signing.known p = false ∧ Clean signing earlier p)) := by
  have start : Idle signing [] ⟨.new true 8, [], []⟩ := ⟨rfl, rfl, by simp [new], rfl⟩
  rcases @Folds.foldlM_or_stop _ _ pend _ (gatherOne signing signHeight) _ _
      (fun _ _ _ _ _ idle passed => idle.step passed) start with
    all | ⟨earlier, p, later, g, rfl, ran, idle, stopped⟩
  · exact .inr all
  · have reached := not_not.mp stopped
    obtain ⟨good, valid⟩ := (idle.clean_iff p).mp reached.2
    have ends : gatherOne signing signHeight g p = Option.none := by
      simp [gatherOne, good, valid, reached.1, selectQuorumForSigning_eq_none.mpr none]
    refine .inl ⟨?_, earlier, p, later, rfl, reached⟩
    rw [gather, foldlM_append, ran]
    exact (congrArg (Option.bind · _) ends).trans rfl

theorem onlyVerified_iff_sound (ban : Bool) (gathered : gather signing signHeight pend = some g) :
    OnlyVerified signing signHeight (processAt signing signHeight pend ban) ↔ Sound signing signHeight pend g := by
  simp only [OnlyVerified, Sound, processAt, gathered, mem_filter, decide_eq_true_eq, and_imp]
  refine forall₂_congr fun p member => ?_
  cases signing.known p with
  | true => simp
  | false => simp

theorem onlyVerified_processAt_iff (pend : PendingMap) (ban : Bool) :
    OnlyVerified signing signHeight (processAt signing signHeight pend.entries ban) ↔
      AllSeen signing signHeight pend.entries := by
  by_cases none : signing.getActiveQuorumSet signHeight = []
  · rw [AllSeen, if_pos none]
    rcases idle_loop pend.entries none with ⟨ended, reached⟩ | ⟨⟨after, gathered, idle⟩, unreached⟩
    · have nothing : processAt signing signHeight pend.entries ban = ⟨[], [], [], [], []⟩ := by
        simp [processAt, ended]
      rw [nothing]
      exact iff_of_true (by simp [OnlyVerified]) (.inr reached)
    · rw [onlyVerified_iff_sound ban gathered]
      have unchanged : after.batchVerifier.verify signing.scheme = after.batchVerifier := by
        simp [verify, idle.messages, signing.scheme.exact]
      constructor
      · intro sound
        refine .inl fun p member => ?_
        by_contra new
        have checked := (sound p member (by simpa using new) (by simp [unchanged, idle.badMessages])).1
        simp [idle.pushed] at checked
      · rintro (known | ⟨earlier, p, later, split, new, clean⟩)
        · intro p member new
          simp [known p member] at new
        · exact absurd ⟨new, clean⟩ (unreached earlier p later split)
  · rw [AllSeen, if_neg none]
    obtain ⟨after, gathered, outcome⟩ := gathered_loop none pend
    rw [onlyVerified_iff_sound ban gathered]
    rcases outcome with ⟨all, seen⟩ | ⟨unsound, earlier, p, later, split, new, skipped⟩
    · exact iff_of_true (all.sound none) seen
    · exact iff_of_false unsound fun seen => skipped (seen earlier p later split new)

/-- The locks that the second call looks at after a change of the active quorums. -/
def failedAt (signing : Signing) (signHeight : Int) (pend : List PendingLock) : List PendingLock :=
  pend.filter fun p => !signing.known p && !signing.verifies signHeight p

def PendingMap.filter (pend : PendingMap) (keep : PendingLock → Bool) : PendingMap where
  entries := pend.entries.filter keep
  distinct := pend.distinct.sublist (filter_sublist.map hash)

theorem filter_badISLocks (pend : PendingMap) (ban : Bool) (quorums : signing.getActiveQuorumSet signHeight ≠ [])
    (allSeen : AllSeen signing signHeight pend.entries) :
    (pend.entries.filter fun p => p.hash ∈ (processAt signing signHeight pend.entries ban).badISLocks) =
      failedAt signing signHeight pend.entries := by
  rw [AllSeen, if_neg quorums] at allSeen
  obtain ⟨after, gathered, outcome⟩ := gathered_loop quorums pend
  have all : Gathered signing signHeight pend.entries after := by
    rcases outcome with ⟨all, -⟩ | ⟨-, earlier, p, later, split, new, skipped⟩
    · exact all
    · exact absurd (allSeen earlier p later split new) skipped
  refine filter_congr fun p member => ?_
  rw [Bool.eq_iff_iff, decide_eq_true_eq, Bool.and_eq_true, Bool.not_eq_true', Bool.not_eq_true']
  simp only [processAt, gathered, mem_map, mem_filter, decide_eq_true_eq, all.bad_iff quorums]
  constructor
  · rintro ⟨q, ⟨-, r, inside, sameHash, fails⟩, same⟩
    obtain ⟨inPend, new⟩ := mem_filter.mp inside
    rw [inj_on_of_nodup_map pend.distinct inPend member (sameHash.trans same)] at new fails
    exact ⟨by simpa using new, fails⟩
  · rintro ⟨new, fails⟩
    exact ⟨p, ⟨member, p, mem_filter.mpr ⟨member, by simp [new]⟩, rfl, fails⟩, rfl⟩

/-- For every set of pending locks, whatever their peers and signatures, only locks that are known or verified are
    passed on exactly if each other lock is seen by the verifier, in the first call and, after a change of the active
    quorums, in the second. -/
theorem onlyVerified_iff_allSeen (signing : Signing) (fInstantSendEnabled : Bool) (tipHeight : Int) (pend : PendingMap) :
    (∀ call ∈ processPendingInstantSendLocks signing fInstantSendEnabled tipHeight pend.entries,
        OnlyVerified signing call.1 call.2) ↔ (fInstantSendEnabled = true → AllSeen signing tipHeight pend.entries ∧
          (signing.getActiveQuorumSet tipHeight ≠ signing.getActiveQuorumSet (tipHeight - 1) →
            signing.getActiveQuorumSet tipHeight ≠ [] →
              AllSeen signing (tipHeight - 1) (failedAt signing tipHeight pend.entries))) := by
  have nothing : ∀ signHeight, AllSeen signing signHeight [] := by
    intro signHeight
    by_cases none : signing.getActiveQuorumSet signHeight = []
    · simp [AllSeen]
    · simp [AllSeen]
  cases fInstantSendEnabled with
  | false => simp [processPendingInstantSendLocks]
  | true =>
    rw [forall_prop_of_true rfl]
    by_cases empty : pend.entries = []
    · simp [processPendingInstantSendLocks, empty, nothing, failedAt]
    by_cases rotated : signing.getActiveQuorumSet tipHeight ≠ signing.getActiveQuorumSet (tipHeight - 1)
    · have calls : processPendingInstantSendLocks signing true tipHeight pend.entries =
          (tipHeight, processAt signing tipHeight pend.entries false) ::
            if (processAt signing tipHeight pend.entries false).badISLocks.isEmpty then []
            else [(tipHeight - 1, processAt signing (tipHeight - 1)
              (pend.entries.filter fun p => p.hash ∈ (processAt signing tipHeight pend.entries false).badISLocks) true)] := by
        have notEmpty : pend.entries.isEmpty = false := by simpa using empty
        rw [processPendingInstantSendLocks, notEmpty, if_neg (by simp), if_pos rotated]
        split
        next one => rw [if_pos one]
        next two => rw [if_neg two]
      rw [calls, forall_mem_cons, onlyVerified_processAt_iff pend false]
      refine and_congr_right fun allSeen => ?_
      rw [forall_prop_of_true rotated]
      by_cases none : signing.getActiveQuorumSet tipHeight = []
      · rcases idle_loop pend.entries none with ⟨ended, -⟩ | ⟨⟨after, gathered, idle⟩, -⟩
        · simp [processAt, ended, none]
        · have unchanged : after.batchVerifier.verify signing.scheme = after.batchVerifier := by
            simp [verify, idle.messages, signing.scheme.exact]
          simp [processAt, gathered, unchanged, idle.badMessages, none]
      · rw [forall_prop_of_true none, filter_badISLocks pend false none allSeen]
        by_cases one : (processAt signing tipHeight pend.entries false).badISLocks.isEmpty
        · have allGood : failedAt signing tipHeight pend.entries = [] := by
            rw [← filter_badISLocks pend false none allSeen, isEmpty_iff.mp one]
            simp
          simp [one, allGood, nothing]
        · rw [if_neg one, forall_mem_singleton]
          exact onlyVerified_processAt_iff (pend.filter _) true
    · have only : processPendingInstantSendLocks signing true tipHeight pend.entries =
          [(tipHeight, processAt signing tipHeight pend.entries true)] := by
        simp [processPendingInstantSendLocks, empty, rotated]
      rw [only]
      simpa [rotated] using onlyVerified_processAt_iff pend true

end

/-- One quorum, which signs with the byte 1. An empty signature is no signature object. -/
private def oneByte : Signing where
  scheme := ⟨fun message => message.sig == [1], fun messages => messages.all fun message => message.sig == [1],
    fun _ => rfl⟩
  isValid := fun sig => !sig.isEmpty
  getRequestId := fun inputs => 100 + inputs.length
  buildSignHash := fun quorumHash id msgHash => quorumHash + id + msgHash
  selectionScore := fun quorumHash id => quorumHash + id
  getActiveQuorumSet := fun _ => [⟨5, [9]⟩]
  hasRecoveredSig := fun _ _ => false
  hasRecoveredSigForId := fun _ => false

/-- A lock without a signature object is passed on. -/
theorem passed_without_signature : let p : PendingLock := ⟨1, 3, ⟨[⟨7, 0⟩], 8, []⟩⟩
    (processPendingInstantSendLocks oneByte true 50 [p]).map (fun call => (call.2.passed, call.2.checked)) =
        [([p], [])] ∧
      oneByte.known p = false ∧ oneByte.verifies 50 p = false ∧
      ¬ ∀ call ∈ processPendingInstantSendLocks oneByte true 50 [p], OnlyVerified oneByte call.1 call.2 := by
  decide +kernel

end Cspn.PendingLocks
