import Cspn.Primitives

/-!
The final commitments that a node keeps for its next blocks: `AddMinableCommitment`,
which the own DKG session and `UndoBlock` call, and the handler of QFCOMMITMENT messages.
-/
namespace Cspn.MinableCommitments
open Primitives List Option Function

abbrev QuorumKey := Nat × Uint256

def quorumKey (qc : CFinalCommitment) : QuorumKey := (qc.llmqType, qc.quorumHash)

def countSigners (qc : CFinalCommitment) : Nat := qc.signers.count true

structure Hashing where
  serializeHash : CFinalCommitment → Uint256
  collisionFree : Injective serializeHash

structure CQuorumBlockProcessor where
  minableCommitmentsByQuorum : QuorumKey → Option Uint256 := fun _ => none
  minableCommitments : Uint256 → Option CFinalCommitment := fun _ => none

/-- What the handler reads of the chain when a message arrives. -/
structure ChainState where
  /-- The DKG interval of each type of quorum. -/
  llmqs : Nat → Option Nat
  blockHeight : Uint256 → Option Nat
  inActiveChain : Uint256 → Bool
  /-- `Verify` against the members of the quorum. -/
  verify : CFinalCommitment → Bool

/-- The exception of `std::map::at`. -/
inductive OutOfRange where
  | outOfRange

section
variable (hashing : Hashing) (s : CQuorumBlockProcessor)

def addMinableCommitment (fqc : CFinalCommitment) : Except OutOfRange CQuorumBlockProcessor :=
  let commitmentHash := hashing.serializeHash fqc
  match s.minableCommitmentsByQuorum (quorumKey fqc) with
  | none => .ok
    { minableCommitmentsByQuorum := update s.minableCommitmentsByQuorum (quorumKey fqc) (some commitmentHash)
      -- `emplace` leaves an entry that is there
      minableCommitments := update s.minableCommitments commitmentHash
        ((s.minableCommitments commitmentHash).or (some fqc)) }
  | some known => match s.minableCommitments known with
    | none => .error .outOfRange
    | some oldFqc =>
      if countSigners fqc > countSigners oldFqc then .ok
        -- the reference is replaced first, so that the entry erased is the one of the new commitment
        { minableCommitmentsByQuorum := update s.minableCommitmentsByQuorum (quorumKey fqc) (some commitmentHash)
          minableCommitments :=
            update (update s.minableCommitments commitmentHash none) commitmentHash (some fqc) }
      else .ok s

/-- The checks before the local one, with the misbehaviour score of a failed one. -/
def checkCommitment (chain : ChainState) (qc : CFinalCommitment) : Except Nat Unit :=
  if qc.isNull then .error 100 else
  match chain.llmqs qc.llmqType with
  | none => .error 100
  | some dkgInterval => match chain.blockHeight qc.quorumHash with
    | none => .error 0
    | some nHeight =>
      if !chain.inActiveChain qc.quorumHash then .error 0
      else if nHeight - nHeight % dkgInterval ≠ nHeight then .error 100
      else .ok ()

/-- The local check of the source stops a commitment with at least the signers of the known one. -/
def knownStops (qc : CFinalCommitment) : Bool :=
  match (s.minableCommitmentsByQuorum (quorumKey qc)).bind s.minableCommitments with
  | some known => decide (countSigners known ≤ countSigners qc)
  | none => false

def processMessage (chain : ChainState) (s : CQuorumBlockProcessor) (qc : CFinalCommitment) :
    Except OutOfRange (CQuorumBlockProcessor × Nat) :=
  match checkCommitment chain qc with
  | .error score => .ok (s, score)
  | .ok () =>
    if knownStops s qc then .ok (s, 0)
    else if !chain.verify qc then .ok (s, 100)
    else return (← addMinableCommitment hashing s qc, 0)

inductive Event where
  | message (chain : ChainState) (qc : CFinalCommitment)
  | add (qc : CFinalCommitment)

def step : Event → Except OutOfRange CQuorumBlockProcessor
  | .message chain qc => Prod.fst <$> processMessage hashing chain s qc
  | .add qc => addMinableCommitment hashing s qc

def run (events : List Event) : Except OutOfRange CQuorumBlockProcessor := events.foldlM (step hashing) {}

end

/-- The message passes every check but the local one. -/
def Valid (chain : ChainState) (qc : CFinalCommitment) : Prop := checkCommitment chain qc = .ok () ∧ chain.verify qc = true

instance (chain : ChainState) (qc : CFinalCommitment) : Decidable (Valid chain qc) := inferInstanceAs (Decidable (_ ∧ _))

def Event.delivered : Event → Option CFinalCommitment
  | .message chain qc => if Valid chain qc then some qc else none
  | .add qc => some qc

/-- The reference of each quorum leads to a best commitment of those delivered, and everything stored is referenced. -/
structure KeepsBest (s : CQuorumBlockProcessor) (delivered : List CFinalCommitment) : Prop where
  known : ∀ qc ∈ delivered, (s.minableCommitmentsByQuorum (quorumKey qc)).isSome
  best : ∀ key hash, s.minableCommitmentsByQuorum key = some hash → ∃ qc ∈ delivered,
    s.minableCommitments hash = some qc ∧ quorumKey qc = key ∧
      ∀ other ∈ delivered, quorumKey other = key → countSigners other ≤ countSigners qc
  referenced : ∀ hash qc, s.minableCommitments hash = some qc → s.minableCommitmentsByQuorum (quorumKey qc) = some hash

/-- No commitment has more signers than the first one delivered for its quorum. -/
def FirstIsBest (delivered : List CFinalCommitment) : Prop :=
  ∀ first qc, delivered.find? (quorumKey · = quorumKey qc) = some first → qc ∈ delivered →
    countSigners qc ≤ countSigners first

structure Kept (hashing : Hashing) (s : CQuorumBlockProcessor) (delivered : List CFinalCommitment) : Prop where
  stored : ∀ hash qc, s.minableCommitments hash = some qc → hash = hashing.serializeHash qc ∧ qc ∈ delivered
  known : ∀ qc ∈ delivered, (s.minableCommitmentsByQuorum (quorumKey qc)).isSome
  resolves : ∀ key hash, s.minableCommitmentsByQuorum key = some hash →
    ∃ qc, s.minableCommitments hash = some qc ∧ quorumKey qc = key
  /-- The first commitment of a quorum stays, referenced or not. -/
  first : ∀ key first, delivered.find? (quorumKey · = key) = some first →
    s.minableCommitments (hashing.serializeHash first) = some first
  onlyFirst : FirstIsBest delivered → ∀ hash qc, s.minableCommitments hash = some qc →
    delivered.find? (quorumKey · = quorumKey qc) = some qc

variable {hashing : Hashing} {s : CQuorumBlockProcessor} {delivered : List CFinalCommitment} {fqc : CFinalCommitment}
  {key : QuorumKey} {qc : CFinalCommitment}

theorem find_append_of_some
    (found : delivered.find? (quorumKey · = key) = some qc) : (delivered ++ [fqc]).find? (quorumKey · = key) = some qc := by
  rw [find?_append, found, some_or]

theorem FirstIsBest.of_append (best : FirstIsBest (delivered ++ [fqc])) : FirstIsBest delivered :=
  fun first qc found member => best first qc (find_append_of_some found) (mem_append_left _ member)

variable {hash : Uint256}

theorem Kept.same (kept : Kept hashing s delivered)
    (known : s.minableCommitmentsByQuorum (quorumKey fqc) = some hash) : Kept hashing s (delivered ++ [fqc]) where
  stored h qc found := ⟨(kept.stored h qc found).1, mem_append_left _ (kept.stored h qc found).2⟩
  known qc member := by
    rcases mem_append.mp member with old | new
    · exact kept.known qc old
    · rw [mem_singleton.mp new, known]
      rfl
  resolves := kept.resolves
  first key first found := by
    cases before : delivered.find? (quorumKey · = key) with
    | some qc =>
      rw [find_append_of_some before] at found
      exact kept.first key first (before.trans found)
    | none =>
      rw [find?_append, before, none_or] at found
      obtain ⟨same, rfl⟩ : quorumKey fqc = key ∧ fqc = first := by simpa using found
      obtain ⟨qc, stored, here⟩ := kept.resolves _ _ known
      exact absurd (here.trans same) (by simpa using find?_eq_none.mp before qc (kept.stored _ qc stored).2)
  onlyFirst best h qc found := find_append_of_some (kept.onlyFirst best.of_append h qc found)

def put (hashing : Hashing) (s : CQuorumBlockProcessor) (fqc : CFinalCommitment) : CQuorumBlockProcessor where
  minableCommitmentsByQuorum :=
    update s.minableCommitmentsByQuorum (quorumKey fqc) (some (hashing.serializeHash fqc))
  minableCommitments := update s.minableCommitments (hashing.serializeHash fqc) (some fqc)

section
variable (kept : Kept hashing s delivered)
include kept

theorem Kept.stored_put : (put hashing s fqc).minableCommitments hash = some qc ↔
      (hash = hashing.serializeHash fqc ∧ qc = fqc) ∨ s.minableCommitments hash = some qc := by
  by_cases same : hash = hashing.serializeHash fqc
  · refine ⟨fun found => .inl ⟨same, by simpa [put, same, eq_comm] using found⟩, ?_⟩
    rintro (⟨-, rfl⟩ | found)
    · simp [put, same]
    · have equal := hashing.collisionFree ((kept.stored hash qc found).1.symm.trans same)
      simp [put, same, equal]
  · simp [put, same]

theorem Kept.store (onlyFirst : FirstIsBest (delivered ++ [fqc]) → delivered.find? (quorumKey · = quorumKey fqc) = none) :
    Kept hashing (put hashing s fqc) (delivered ++ [fqc]) := by
  constructor
  case stored =>
    intro hash qc found
    rcases kept.stored_put.mp found with ⟨rfl, rfl⟩ | old
    · exact ⟨rfl, by simp⟩
    · exact ⟨(kept.stored hash qc old).1, mem_append_left _ (kept.stored hash qc old).2⟩
  case known =>
    intro qc member
    by_cases same : quorumKey qc = quorumKey fqc
    · simp [put, same]
    · rcases mem_append.mp member with old | new
      · simpa [put, same] using kept.known qc old
      · exact absurd (congrArg quorumKey (mem_singleton.mp new)) same
  case resolves =>
    intro key hash found
    by_cases same : key = quorumKey fqc
    · obtain rfl : hashing.serializeHash fqc = hash := by simpa [put, same] using found
      exact ⟨fqc, by simp [put], same.symm⟩
    · obtain ⟨qc, stored, here⟩ := kept.resolves key hash (by simpa [put, same] using found)
      exact ⟨qc, kept.stored_put.mpr (.inr stored), here⟩
  case first =>
    intro key first found
    refine kept.stored_put.mpr ?_
    cases before : delivered.find? (quorumKey · = key) with
    | some qc =>
      obtain rfl := some.inj ((find_append_of_some before).symm.trans found)
      exact .inr (kept.first key qc before)
    | none =>
      rw [find?_append, before, none_or] at found
      obtain ⟨-, rfl⟩ : quorumKey fqc = key ∧ fqc = first := by simpa using found
      exact .inl ⟨rfl, rfl⟩
  case onlyFirst =>
    intro best hash qc found
    rcases kept.stored_put.mp found with ⟨-, rfl⟩ | old
    · simp [find?_append, onlyFirst best]
    · exact find_append_of_some (kept.onlyFirst best.of_append hash qc old)

theorem Kept.add (fqc : CFinalCommitment) :
    ∃ after, addMinableCommitment hashing s fqc = .ok after ∧ Kept hashing after (delivered ++ [fqc]) := by
  cases known : s.minableCommitmentsByQuorum (quorumKey fqc) with
  | none =>
    have fresh : ∀ qc ∈ delivered, quorumKey qc ≠ quorumKey fqc := by
      intro qc member same
      simpa [same, known] using kept.known qc member
    have unstored : s.minableCommitments (hashing.serializeHash fqc) = none := by
      by_contra found
      obtain ⟨qc, found⟩ := ne_none_iff_exists'.mp found
      obtain ⟨same, member⟩ := kept.stored _ qc found
      exact fresh qc member (congrArg quorumKey (hashing.collisionFree same.symm))
    refine ⟨put hashing s fqc, by simp [addMinableCommitment, known, unstored, put], kept.store fun _ => ?_⟩
    simpa using fresh
  | some hash =>
    obtain ⟨oldFqc, old, same⟩ := kept.resolves _ _ known
    by_cases more : countSigners fqc > countSigners oldFqc
    · refine ⟨put hashing s fqc, by simp [addMinableCommitment, known, old, more, put], kept.store fun best => ?_⟩
      -- The known one is the first of its quorum, and the new one has more signers.
      have first := kept.onlyFirst best.of_append hash oldFqc old
      rw [same] at first
      have bound := best oldFqc fqc (find_append_of_some first) (by simp)
      omega
    · exact ⟨s, by simp [addMinableCommitment, known, old, more], kept.same known⟩

theorem Kept.event (event : Event) :
    ∃ after, step hashing s event = .ok after ∧ Kept hashing after (delivered ++ event.delivered.toList) := by
  cases event with
  | add qc => exact kept.add qc
  | message chain qc =>
    by_cases valid : Valid chain qc
    · have delivers : (Event.message chain qc).delivered.toList = [qc] := by simp [Event.delivered, valid]
      rw [delivers]
      by_cases stops : knownStops s qc = true
      · refine ⟨s, by simp [step, processMessage, valid.1, stops], ?_⟩
        cases known : s.minableCommitmentsByQuorum (quorumKey qc) with
        | none => simp [knownStops, known] at stops
        | some hash => exact kept.same known
      · obtain ⟨after, added, keeps⟩ := kept.add qc
        exact ⟨after, by simp [step, processMessage, valid.1, valid.2, stops, added], keeps⟩
    · refine ⟨s, ?_, by simpa [Event.delivered, valid] using kept⟩
      cases checked : checkCommitment chain qc with
      | error score => simp [step, processMessage, checked]
      | ok =>
        have fails : chain.verify qc = false := by simpa [Valid, checked] using valid
        by_cases stops : knownStops s qc = true <;> simp [step, processMessage, checked, stops, fails]

theorem Kept.events (events : List Event) : ∃ after, events.foldlM (step hashing) s = .ok after ∧
      Kept hashing after (delivered ++ events.filterMap Event.delivered) := by
  induction events generalizing s delivered with
  | nil => exact ⟨s, rfl, by simpa using kept⟩
  | cons event rest ih =>
    obtain ⟨middle, stepped, keeps⟩ := kept.event event
    obtain ⟨after, ran, keeps_rest⟩ := ih keeps
    refine ⟨after, by rw [foldlM_cons, stepped]; exact ran, ?_⟩
    cases found : event.delivered <;> simpa [found] using keeps_rest

theorem Kept.keepsBest_iff : KeepsBest s delivered ↔ FirstIsBest delivered := by
  constructor
  · intro keeps first qc found member
    have same : quorumKey first = quorumKey qc := by simpa using find?_some found
    have stored := kept.first _ first found
    obtain ⟨best, -, resolved, -, bound⟩ := keeps.best _ _ (same ▸ keeps.referenced _ _ stored)
    obtain rfl := some.inj (stored.symm.trans resolved)
    exact bound qc member rfl
  · intro best
    refine ⟨kept.known, fun key hash known => ?_, fun hash qc stored => ?_⟩
    · obtain ⟨qc, stored, rfl⟩ := kept.resolves key hash known
      refine ⟨qc, (kept.stored hash qc stored).2, stored, rfl, fun other member same => ?_⟩
      exact best qc other (same ▸ kept.onlyFirst best hash qc stored) member
    · obtain ⟨known, found⟩ := isSome_iff_exists.mp (kept.known qc (kept.stored hash qc stored).2)
      obtain ⟨other, resolved, same⟩ := kept.resolves _ _ found
      have first := kept.onlyFirst best known other resolved
      rw [same, kept.onlyFirst best hash qc stored] at first
      cases first
      rw [found, (kept.stored _ _ resolved).1, (kept.stored _ _ stored).1]

end

/-- Every run returns, and keeps a best commitment of each quorum exactly while the first is a best one. -/
theorem run_keepsBest_iff (hashing : Hashing) (events : List Event) : ∃ s, run hashing events = .ok s ∧
      (KeepsBest s (events.filterMap Event.delivered) ↔ FirstIsBest (events.filterMap Event.delivered)) := by
  have start : Kept hashing {} [] := by constructor <;> simp
  obtain ⟨s, ran, kept⟩ := start.events events
  exact ⟨s, ran, by simpa using kept.keepsBest_iff⟩

def byFields : Hashing where
  serializeHash qc := Encodable.encode (qc.nVersion, qc.llmqType, qc.quorumHash, qc.signers, qc.validMembers,
    qc.quorumPublicKey, qc.quorumVvecHash, qc.quorumSig, qc.membersSig)
  collisionFree qc other same := by
    obtain ⟨⟩ := qc
    obtain ⟨⟩ := other
    simpa using Encodable.encode_injective same

def first : CFinalCommitment := { llmqType := 1, quorumHash := 7, signers := [true] }

def second : CFinalCommitment := { first with signers := [true, true] }

theorem run_not_keepsBest : ∃ s, run byFields [.add first, .add second] = .ok s ∧ ¬ KeepsBest s [first, second] := by
  have start : Kept byFields {} [] := by constructor <;> simp
  obtain ⟨s, ran, kept⟩ := start.events [.add first, .add second]
  refine ⟨s, ran, fun keeps => ?_⟩
  have best : FirstIsBest [first, second] := kept.keepsBest_iff.mp keeps
  exact absurd (best first second rfl (by simp)) (by decide)

end Cspn.MinableCommitments
