import Cspn.Primitives

/-!
The memo of `HasMinedCommitment`. A lookup that misses it asks the special database outside the lock, so it sees the
changes of an open transaction, and notes the answer in a second critical section. `ProcessCommitment` and `UndoBlock`
change the record in the open transaction and then erase the memo's entry.
-/
namespace Cspn.MinedMemo
open Primitives Function Option

abbrev Key := Nat × Uint256

/-- A call of `HasMinedCommitment` between two of its steps. -/
inductive Call where
  | idle
  | missed (cacheKey : Key)
  | answered (cacheKey : Key) (ret : Bool)
deriving DecidableEq

structure State where
  /-- Whether the committed database holds the record. -/
  committed : Key → Bool := fun _ => false
  /-- The changes of the open transaction, while a block is processed. -/
  transaction : Option (Key → Option Bool) := none
  /-- The record just changed, whose entry is not erased yet. -/
  changed : Option Key := none
  hasMinedCommitmentCache : Key → Option Bool := fun _ => none
  calls : Nat → Call := fun _ => .idle

namespace State

def pending (s : State) (key : Key) : Option Bool := s.transaction.bind (· key)

/-- `Exists` in the current transaction. -/
def exists_ (s : State) (key : Key) : Bool := (s.pending key).getD (s.committed key)

end State

/-- The critical sections and database calls. A block is processed by one thread at a time. -/
inductive Action where
  | lookup (thread : Nat) (cacheKey : Key)
  | ask (thread : Nat)
  | emplace (thread : Nat)
  | beginBlock
  /-- `ProcessCommitment` writes the record and `UndoBlock` erases it. -/
  | change (key : Key) (present : Bool)
  | eraseEntry
  | commit
  | rollback

/-- `none`: the action is not the next one of its thread. -/
def step (s : State) : Action → Option State
  | .lookup thread cacheKey =>
    if s.calls thread ≠ .idle then none
    else if (s.hasMinedCommitmentCache cacheKey).isSome then some s
    else some { s with calls := update s.calls thread (.missed cacheKey) }
  | .ask thread => match s.calls thread with
    | .missed key => some { s with calls := update s.calls thread (.answered key (s.exists_ key)) }
    | _ => none
  | .emplace thread => match s.calls thread with
    | .answered key ret => some { s with
        calls := update s.calls thread .idle
        hasMinedCommitmentCache :=
          update s.hasMinedCommitmentCache key ((s.hasMinedCommitmentCache key).or (some ret)) }
    | _ => none
  | .beginBlock => if s.transaction.isSome then none else some { s with transaction := some fun _ => none }
  | .change key present => match s.transaction, s.changed with
    | some changes, none => some { s with
        transaction := some (update changes key (some present)), changed := some key }
    | _, _ => none
  | .eraseEntry => match s.changed with
    | some key => some { s with
        changed := none, hasMinedCommitmentCache := update s.hasMinedCommitmentCache key none }
    | none => none
  | .commit =>
    if s.transaction.isSome ∧ s.changed = none then some { s with committed := s.exists_, transaction := none } else none
  | .rollback => if s.transaction.isSome then some { s with transaction := none, changed := none } else none

def run (actions : List Action) : Option State := actions.foldlM step {}

def State.Quiet (s : State) : Prop := s.transaction = none ∧ ∀ thread, s.calls thread = .idle

def State.Coherent (s : State) : Prop := ∀ key ret, s.hasMinedCommitmentCache key = some ret → ret = s.committed key

/-- A lookup meets no uncommitted change of its record, and no record is changed between its database call and its
note. -/
def Apart (s : State) : Action → Prop
  | .ask thread => ∀ key, s.calls thread = .missed key → s.pending key = none
  | .change key _ => ∀ thread ret, s.calls thread ≠ .answered key ret
  | _ => True

def ApartFrom (s : State) : List Action → Prop
  | [] => True
  | action :: rest => Apart s action ∧ ∀ after, step s action = some after → ApartFrom after rest

structure Inv (s : State) : Prop where
  cached : s.Coherent
  answered : ∀ thread key ret, s.calls thread = .answered key ret → ret = s.committed key ∧ s.pending key = none
  erased : ∀ key, s.pending key ≠ none → s.changed = some key ∨ s.hasMinedCommitmentCache key = none

variable {s after : State} {action : Action}

open State

theorem Inv.step (inv : Inv s) (apart : Apart s action) (stepped : step s action = some after) : Inv after := by
  cases action with
  | lookup thread cacheKey =>
    simp only [step] at stepped
    split_ifs at stepped
    · cases stepped
      exact inv
    · cases stepped
      refine { inv with answered := fun t key ret asked => ?_ }
      by_cases own : t = thread
      · simp [own] at asked
      · exact inv.answered t key ret (by simpa [own] using asked)
  | ask thread =>
    simp only [step] at stepped
    split at stepped
    case h_1 key missed =>
      cases stepped
      have clean := apart key missed
      refine { inv with answered := fun t other ret asked => ?_ }
      by_cases own : t = thread
      · obtain ⟨rfl, rfl⟩ : key = other ∧ s.exists_ key = ret := by simpa [own] using asked
        exact ⟨by simp [exists_, clean], clean⟩
      · exact inv.answered t other ret (by simpa [own] using asked)
    case h_2 => cases stepped
  | emplace thread =>
    simp only [step] at stepped
    split at stepped
    case h_1 key ret answered =>
      cases stepped
      obtain ⟨right, clean⟩ := inv.answered thread key ret answered
      refine ⟨fun other value found => ?_, fun t other value asked => ?_, fun other dirty => ?_⟩
      · by_cases same : other = key
        · subst same
          cases known : s.hasMinedCommitmentCache other with
          | none => simp_all
          | some old => exact inv.cached other value (by simp_all)
        · exact inv.cached other value (by simpa [same] using found)
      · by_cases own : t = thread
        · simp [own] at asked
        · exact inv.answered t other value (by simpa [own] using asked)
      · have apartKeys : other ≠ key := fun same => dirty (same ▸ clean)
        simpa [apartKeys] using inv.erased other dirty
    case h_2 => cases stepped
  | beginBlock =>
    simp only [step] at stepped
    split_ifs at stepped
    cases stepped
    refine ⟨inv.cached, fun t key ret asked => ⟨(inv.answered t key ret asked).1, rfl⟩, fun key dirty => absurd rfl dirty⟩
  | change key present =>
    simp only [step] at stepped
    split at stepped
    case h_1 changes opened clean =>
      cases stepped
      refine ⟨inv.cached, fun t other ret asked => ?_, fun other dirty => ?_⟩
      · have different : other ≠ key := fun same => apart t ret (same ▸ asked)
        obtain ⟨right, untouched⟩ := inv.answered t other ret asked
        rw [pending, opened] at untouched
        exact ⟨right, by simpa [pending, different] using untouched⟩
      · by_cases same : other = key
        · exact .inl (by rw [same])
        · refine .inr ((inv.erased other ?_).resolve_left (by simp [clean]))
          simpa [pending, same, opened] using dirty
    case h_2 => cases stepped
  | eraseEntry =>
    simp only [step] at stepped
    split at stepped
    case h_1 key changed =>
      cases stepped
      refine ⟨fun other ret found => ?_, inv.answered, fun other dirty => .inr ?_⟩
      · by_cases same : other = key
        · simp [same] at found
        · exact inv.cached other ret (by simpa [same] using found)
      · by_cases same : other = key
        · simp [same]
        · have erased := (inv.erased other dirty).resolve_left (by simp [changed, Ne.symm same])
          simpa [same] using erased
    case h_2 => cases stepped
  | commit =>
    simp only [step] at stepped
    split_ifs at stepped with ready
    cases stepped
    refine ⟨fun key ret found => ?_, fun t key ret asked => ?_, fun key dirty => absurd rfl dirty⟩
    · -- A record that the block changed has no entry by now.
      have clean : s.pending key = none := by
        by_contra dirty
        have erased := (inv.erased key dirty).resolve_left (by simp [ready.2])
        simp_all
      simpa [exists_, clean] using inv.cached key ret found
    · obtain ⟨right, clean⟩ := inv.answered t key ret asked
      exact ⟨by simpa [exists_, clean] using right, rfl⟩
  | rollback =>
    simp only [step] at stepped
    split_ifs at stepped
    cases stepped
    exact ⟨inv.cached, fun t key ret asked => ⟨(inv.answered t key ret asked).1, rfl⟩, fun key dirty => absurd rfl dirty⟩

theorem Inv.run {actions : List Action} (inv : Inv s) (apart : ApartFrom s actions)
    (ran : actions.foldlM MinedMemo.step s = some after) : Inv after := by
  induction actions generalizing s with
  | nil =>
    cases ran
    exact inv
  | cons action rest ih =>
    obtain ⟨middle, stepped, rest_ran⟩ := bind_eq_some_iff.mp ran
    exact ih (inv.step apart.1 stepped) (apart.2 middle stepped) rest_ran

/-- The memo agrees with the committed database at all times, if the lookups keep apart from the changes of their
records. -/
theorem memo_coherent (actions : List Action) (apart : ApartFrom {} actions) (ran : run actions = some s) :
    s.Coherent := by
  have start : Inv {} := by constructor <;> simp [State.Coherent, pending]
  exact (start.run apart ran).cached

def connectThenLookup : List Action :=
  [.beginBlock, .change (1, 7) true, .eraseEntry, .commit, .lookup 0 (1, 7), .ask 0, .emplace 0]

theorem memo_coherent_connectThenLookup : ∃ s, run connectThenLookup = some s ∧ s.Quiet ∧ s.Coherent := by
  refine ⟨_, rfl, ⟨rfl, fun thread => ?_⟩, memo_coherent connectThenLookup ?_ rfl⟩
  · by_cases own : thread = 0 <;> simp [own]
  · simp [connectThenLookup, ApartFrom, Apart, step, pending]

/-- A record is looked up while a block that is then rolled back has it. -/
def lookupInRolledBack : List Action :=
  [.beginBlock, .change (1, 7) true, .eraseEntry, .lookup 0 (1, 7), .ask 0, .emplace 0, .rollback]

theorem memo_stale : ∃ s, run lookupInRolledBack = some s ∧ s.Quiet ∧ ¬ s.Coherent := by
  refine ⟨_, rfl, ⟨rfl, fun thread => ?_⟩, fun coherent => ?_⟩
  · by_cases own : thread = 0 <;> simp [own]
  · exact absurd (coherent (1, 7) true rfl) (by decide)

end Cspn.MinedMemo
