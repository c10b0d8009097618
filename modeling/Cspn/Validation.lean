/-!
How a check ends when it does not succeed. `CValidationState` has three modes; a
function may also return false without touching the state, and an assertion or an
exception nobody catches ends the process.
-/
namespace Cspn.Validation

inductive ValidationInvalidReason where
  | NONE
  | CONSENSUS
  | RECENT_CONSENSUS_CHANGE
  | CACHED_INVALID
  | BLOCK_INVALID_HEADER
  | BLOCK_MUTATED
  | BLOCK_MISSING_PREV
  | BLOCK_INVALID_PREV
  | BLOCK_TIME_FUTURE
  | BLOCK_CHECKPOINT
  | TX_NOT_STANDARD
  | TX_MISSING_INPUTS
  | TX_PREMATURE_SPEND
  | TX_WITNESS_MUTATED
  | TX_CONFLICT
  | TX_MEMPOOL_POLICY
deriving DecidableEq

inductive Failure where
  /-- `state.Invalid` with its reason and reject string. -/
  | invalid (reason : ValidationInvalidReason) (strRejectReason : String)
  /-- `state.Error`: a run-time error, not a verdict on the object. -/
  | error (strRejectReason : String)
  /-- False returned, the state left as it was. -/
  | unset
  /-- An assertion failed or an exception was not caught. -/
  | aborted
deriving DecidableEq

abbrev Result := Except Failure

def consensus {α : Type} (strRejectReason : String) : Result α :=
  .error (.invalid .CONSENSUS strRejectReason)

/-- Conditions checked in order; the first that fails rejects with its string. -/
def checks (reason : ValidationInvalidReason) : List (Bool × String) → Result Unit
  | [] => .ok ()
  | (condition, strRejectReason) :: rest =>
    if condition then checks reason rest else .error (.invalid reason strRejectReason)

def assertSome {α : Type} : Option α → Result α
  | some a => .ok a
  | none => .error .aborted

@[simp] theorem assertSome_eq_ok {α : Type} {x : Option α} {a : α} : assertSome x = .ok a ↔ x = some a := by
  cases x <;> simp [assertSome]

variable {reason : ValidationInvalidReason}

@[simp] theorem checks_nil : checks reason [] = .ok () := rfl

variable {strRejectReason : String}

@[simp] theorem checks_cons {condition : Bool} {rest : List (Bool × String)} :
    checks reason ((condition, strRejectReason) :: rest) = .ok () ↔ condition = true ∧ checks reason rest = .ok () := by
  cases condition <;> simp [checks]

@[simp] theorem consensus_ne_ok {α : Type} {a : α} : (consensus strRejectReason : Result α) ≠ .ok a := by
  simp [consensus]

theorem bind_eq_ok {α β : Type} {x : Result α} {f : α → Result β} {b : β} :
    x.bind f = .ok b ↔ ∃ a, x = .ok a ∧ f a = .ok b := by
  cases x <;> simp [Except.bind]

theorem then_eq_ok {β : Type} {x : Result Unit} {f : Unit → Result β} {b : β} :
    x.bind f = .ok b ↔ x = .ok () ∧ f () = .ok b := by
  cases x <;> simp [Except.bind]

/-- A result that passes a test is a success whose value passes it. -/
def okAnd {α : Type} (x : Result α) (test : α → Bool) : Bool :=
  match x with
  | .ok a => test a
  | .error _ => false

theorem okAnd_iff {α : Type} (x : Result α) (test : α → Bool) :
    okAnd x test = true ↔ ∃ a, x = .ok a ∧ test a = true := by
  cases x <;> simp [okAnd]

/-! ### Failures that do not happen -/

def Avoids {α : Type} (failure : Failure) (x : Result α) : Prop := x ≠ .error failure

namespace Avoids
variable {α β : Type} {failure : Failure}

@[simp] theorem ok (a : α) : Avoids failure (.ok a : Result α) := by simp [Avoids]

@[simp] theorem error_iff {other : Failure} : Avoids failure (.error other : Result α) ↔ other ≠ failure := by
  simp [Avoids]

section
variable {x : Result α} {f : α → Result β} (first : Avoids failure x)
include first

theorem bind (rest : ∀ a, x = .ok a → Avoids failure (f a)) : Avoids failure (x.bind f) := by
  cases x with
  | ok a => exact rest a rfl
  | error other =>
    intro same
    exact first (by cases same; rfl)

@[simp] theorem bind_iff : Avoids failure (x.bind f) ↔ ∀ a, x = .ok a → Avoids failure (f a) :=
  ⟨fun avoids a same => by simpa [same, Except.bind] using avoids, bind first⟩

end

@[simp] theorem ite_iff {c : Prop} [Decidable c] {x y : Result α} :
    Avoids failure (if c then x else y) ↔ (c → Avoids failure x) ∧ (¬c → Avoids failure y) := by
  by_cases holds : c <;> simp [holds]

theorem checks {conditions : List (Bool × String)}
    (each : ∀ condition ∈ conditions, condition.1 = false → failure ≠ .invalid reason condition.2) :
    Avoids failure (checks reason conditions) := by
  induction conditions with
  | nil => exact ok ()
  | cons condition rest ih =>
    obtain ⟨first, others⟩ := List.forall_mem_cons.mp each
    rw [Validation.checks]
    split
    · exact ih others
    next fails => exact fun same => first (by simpa using fails) (Except.error.inj same).symm

theorem consensus (other : failure ≠ .invalid .CONSENSUS strRejectReason) :
    Avoids failure (consensus strRejectReason : Result α) := fun same => other (Except.error.inj same).symm

@[simp] theorem consensus_unset (strRejectReason : String) :
    Avoids .unset (Validation.consensus strRejectReason : Result α) := consensus (by simp)

@[simp] theorem checks_unset (reason : ValidationInvalidReason) (conditions : List (Bool × String)) :
    Avoids .unset (Validation.checks reason conditions) := checks (by simp)

@[simp] theorem assertSome_unset (x : Option α) : Avoids .unset (assertSome x) := by
  cases x <;> simp [Avoids, assertSome]

theorem assertSome {x : Option α} (some : ∃ a, x = .some a) : Avoids failure (assertSome x) := by
  obtain ⟨a, rfl⟩ := some
  exact ok a

theorem foldlM_split {xs : List α} {step : β → α → Result β} {P : List α → β → Prop} {b : β}
    (each : ∀ before a later, xs = before ++ a :: later → ∀ b, P before b →
      Avoids failure (step b a) ∧ ∀ b', step b a = .ok b' → P (before ++ [a]) b')
    (start : P [] b) : Avoids failure (xs.foldlM step b) := by
  have from_split : ∀ (rest before : List α) (b : β), xs = before ++ rest → P before b →
      Avoids failure (rest.foldlM step b) := by
    intro rest
    induction rest with
    | nil => intro before b _ _; exact ok b
    | cons a rest ih =>
      intro before b split holds
      obtain ⟨avoids, keeps⟩ := each before a rest split b holds
      exact bind avoids fun b' first => ih (before ++ [a]) b' (by simp [split]) (keeps b' first)
  exact from_split xs [] b rfl start

theorem foldlM {xs : List α} {step : β → α → Result β} {P : β → Prop} {b : β}
    (each : ∀ a ∈ xs, ∀ b, P b → Avoids failure (step b a))
    (keeps : ∀ a ∈ xs, ∀ b b', P b → step b a = .ok b' → P b') (start : P b) : Avoids failure (xs.foldlM step b) := by
  refine foldlM_split (P := fun _ => P) ?_ start
  rintro before a later rfl b holds
  have member : a ∈ before ++ a :: later := by simp
  exact ⟨each a member b holds, fun b' => keeps a member b b' holds⟩

end Avoids

end Cspn.Validation
