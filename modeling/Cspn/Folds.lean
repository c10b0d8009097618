import Mathlib

/-!
Invariants of loops that may stop. A loop over a list is a monadic fold; what every
step keeps holds after the whole loop.
-/
namespace Cspn.Folds
open List Option

theorem foldlM_fixed {m : Type → Type} [Monad m] [LawfulMonad m] {α β : Type} {step : β → α → m β} {xs : List α} {b : β}
    (fixed : ∀ a ∈ xs, step b a = pure b) : xs.foldlM step b = pure b := by
  induction xs with
  | nil => rfl
  | cons a rest ih =>
    obtain ⟨first, others⟩ := forall_mem_cons.mp fixed
    rw [foldlM_cons, first, pure_bind, ih others]

theorem foldlM_congr {m : Type → Type} [Monad m] [LawfulMonad m] {α β : Type} {step other : β → α → m β} {xs : List α}
    (same : ∀ a ∈ xs, ∀ b, step b a = other b a) (b : β) : xs.foldlM step b = xs.foldlM other b := by
  induction xs generalizing b with
  | nil => rfl
  | cons a rest ih =>
    obtain ⟨first, others⟩ := forall_mem_cons.mp same
    rw [foldlM_cons, foldlM_cons, first]
    exact bind_congr fun after => ih others after

theorem bind_eq_ok {ε A B : Type} {first : Except ε A} {second : A → Except ε B} {result : B} :
    (first >>= second) = .ok result ↔ ∃ a, first = .ok a ∧ second a = .ok result := by
  cases first <;> simp [bind, Except.bind]

theorem map_eq_ok {ε A B : Type} {call : Except ε A} {f : A → B} {result : B} :
    call.map f = .ok result ↔ ∃ a, call = .ok a ∧ f a = result := by
  cases call <;> simp [Except.map]

section
variable {α β ε : Type} {xs : List α} {P : β → Prop} {b b' : β} {step : β → α → Option β}

theorem foldlM_some (keeps : ∀ a ∈ xs, ∀ x y, P x → step x a = some y → P y)
    (start : P b) (folded : xs.foldlM step b = some b') : P b' := by
  induction xs generalizing b with
  | nil => cases folded; exact start
  | cons a rest ih =>
    obtain ⟨middle, first, tail⟩ := bind_eq_some_iff.mp folded
    exact ih (fun c member => keeps c (.tail _ member))
      (keeps a (.head _) b middle start first) tail

theorem foldlM_some_each {a : α} (folded : xs.foldlM step b = some b') (member : a ∈ xs) :
    ∃ x y, step x a = some y := by
  obtain ⟨before, after, rfl⟩ := append_of_mem member
  rw [foldlM_append] at folded
  obtain ⟨x, -, later⟩ := bind_eq_some_iff.mp folded
  obtain ⟨y, here, -⟩ := bind_eq_some_iff.mp later
  exact ⟨x, y, here⟩

theorem foldlM_ok {step : β → α → Except ε β} (keeps : ∀ a ∈ xs, ∀ x y, P x → step x a = .ok y → P y)
    (start : P b) (folded : xs.foldlM step b = .ok b') : P b' := by
  induction xs generalizing b with
  | nil => cases folded; exact start
  | cons a rest ih =>
    obtain ⟨middle, first, tail⟩ := bind_eq_ok.mp folded
    exact ih (fun c member => keeps c (.tail _ member))
      (keeps a (.head _) b middle start first) tail

theorem foldlM_error_iff {step : β → α → Except ε β} {e : ε} : xs.foldlM step b = .error e ↔
      ∃ before a after middle, xs = before ++ a :: after ∧ before.foldlM step b = .ok middle ∧ step middle a = .error e := by
  constructor
  · intro failed
    induction xs generalizing b with
    | nil => cases failed
    | cons a rest ih =>
      rw [foldlM_cons] at failed
      cases first : step b a with
      | error other =>
        rw [first] at failed
        cases failed
        exact ⟨[], a, rest, b, rfl, rfl, first⟩
      | ok next =>
        rw [first] at failed
        obtain ⟨before, c, after, middle, rfl, ran, stepFailed⟩ := ih failed
        refine ⟨a :: before, c, after, middle, rfl, ?_, stepFailed⟩
        rw [foldlM_cons, first]
        exact ran
  · rintro ⟨before, a, after, middle, rfl, ran, stepFailed⟩
    rw [foldlM_append, ran]
    change foldlM step middle (a :: after) = .error e
    rw [foldlM_cons, stepFailed]
    rfl

theorem foldlM_some_rest {P : List α → β → Prop}
    (keeps : ∀ a rest x y, P (a :: rest) x → step x a = some y → P rest y)
    (start : P xs b) (folded : xs.foldlM step b = some b') : P [] b' := by
  induction xs generalizing b with
  | nil => cases folded; exact start
  | cons a rest ih =>
    obtain ⟨middle, first, tail⟩ := bind_eq_some_iff.mp folded
    exact ih (keeps a rest b middle start first) tail

/-- A loop ends with the invariant, or comes to an element that does not meet its condition. -/
theorem foldlM_or_stop {P : List α → β → Prop} {Q : List α → α → Prop}
    (keeps : ∀ done a later x, xs = done ++ a :: later → P done x → Q done a → ∃ y, step x a = some y ∧ P (done ++ [a]) y)
    (start : P [] b) :
    ((∃ b', xs.foldlM step b = some b' ∧ P xs b') ∧ ∀ done a later, xs = done ++ a :: later → Q done a) ∨
      ∃ done a later x, xs = done ++ a :: later ∧ done.foldlM step b = some x ∧ P done x ∧ ¬ Q done a := by
  induction xs generalizing b P Q with
  | nil => exact .inl ⟨⟨b, rfl, start⟩, by simp⟩
  | cons a rest ih =>
    by_cases ok : Q [] a
    · obtain ⟨middle, first, holds⟩ := keeps [] a rest b rfl start ok
      rcases ih (P := fun done => P (a :: done)) (Q := fun done => Q (a :: done))
          (fun done c later x split => keeps (a :: done) c later x (by rw [split]; rfl)) holds with
        ⟨⟨after, tail, final⟩, all⟩ | ⟨done, c, later, x, rfl, tail, stopped⟩
      · refine .inl ⟨⟨after, bind_eq_some_iff.mpr ⟨middle, first, tail⟩, final⟩, fun done c later split => ?_⟩
        cases done with
        | nil => cases split; exact ok
        | cons head done => cases split; exact all done c later rfl
      · exact .inr ⟨a :: done, c, later, x, rfl, bind_eq_some_iff.mpr ⟨middle, first, tail⟩, stopped⟩
    · exact .inr ⟨[], a, rest, b, rfl, rfl, start, ok⟩

theorem foldlM_isSome_rest {P : List α → β → Prop}
    (keeps : ∀ a rest x, P (a :: rest) x → ∃ y, step x a = some y ∧ P rest y)
    (start : P xs b) : ∃ b', xs.foldlM step b = some b' ∧ P [] b' := by
  induction xs generalizing b with
  | nil => exact ⟨b, rfl, start⟩
  | cons a rest ih =>
    obtain ⟨middle, first, holds⟩ := keeps a rest b start
    obtain ⟨after, tail, final⟩ := ih holds
    exact ⟨after, by rw [foldlM_cons, first]; exact tail, final⟩

end

/-- What holds before any step holds along the whole run exactly if each step is one that keeps it. -/
theorem throughout_iff {α : Type} {P : List α → Prop} {Ok : List α → α → Prop} (start : P [])
    (step : ∀ done a, P done → (P (done ++ [a]) ↔ Ok done a)) (ops : List α) :
    (∀ done, done <+: ops → P done) ↔ ∀ done a, done ++ [a] <+: ops → Ok done a := by
  constructor
  · intro holds done a taken
    exact (step done a (holds done ((prefix_append done [a]).trans taken))).mp (holds _ taken)
  · intro ok done
    induction done using reverseRecOn with
    | nil => exact fun _ => start
    | append_singleton done a ih =>
      intro taken
      exact (step done a (ih ((prefix_append done [a]).trans taken))).mpr (ok done a taken)

/-- The call gives a result with the property, or stops with an error that is allowed. -/
def Yields {ε A : Type} (allowed : ε → Prop) (P : A → Prop) : Except ε A → Prop
  | .ok a => P a
  | .error e => allowed e

section
variable {ε A B : Type} {allowed : ε → Prop} {P : A → Prop} {Q : B → Prop} {call : Except ε A}

theorem Yields.bind {rest : A → Except ε B} (first : Yields allowed P call)
    (second : ∀ a, P a → Yields allowed Q (rest a)) : Yields allowed Q (call >>= rest) := by
  cases call with
  | error e => exact first
  | ok a => exact second a first

section
variable {P' : A → Prop} (yields : Yields allowed P call) (weaker : ∀ a, P a → P' a)
include yields weaker

theorem Yields.mono {allowed' : ε → Prop} (more : ∀ e, allowed e → allowed' e) : Yields allowed' P' call := by
  cases call with
  | error e => exact more e yields
  | ok a => exact weaker a yields

theorem Yields.imp : Yields allowed P' call :=
  yields.mono weaker fun _ holds => holds

end

theorem Yields.map {f : A → B} (yields : Yields allowed (fun a => Q (f a)) call) : Yields allowed Q (f <$> call) := by
  cases call with
  | error e => exact yields
  | ok a => exact yields

theorem Yields.result {a : A} (yields : Yields allowed P call) (done : call = .ok a) : P a := by
  rwa [done] at yields

theorem Yields.returns (yields : Yields (fun _ => False) P call) : ∃ a, call = .ok a ∧ P a := by
  cases call with
  | error e => exact yields.elim
  | ok a => exact ⟨a, rfl, yields⟩

theorem Yields.foldlM {step : B → A → Except ε B} {xs : List A} {b : B}
    (keeps : ∀ a ∈ xs, ∀ x, Q x → Yields allowed Q (step x a)) (start : Q b) :
    Yields allowed Q (xs.foldlM step b) := by
  induction xs generalizing b with
  | nil => exact start
  | cons a rest ih =>
    exact (keeps a (.head _) b start).bind fun middle holds =>
      ih (fun c member => keeps c (.tail _ member)) holds

theorem Yields.mapM {f : A → Except ε B} {xs : List A} (each : ∀ a ∈ xs, Yields allowed Q (f a)) :
    Yields allowed (fun bs => ∀ b ∈ bs, Q b) (xs.mapM f) := by
  induction xs with
  | nil => exact nofun
  | cons a rest ih =>
    rw [mapM_cons]
    obtain ⟨first, others⟩ := forall_mem_cons.mp each
    exact first.bind fun b holds => (ih others).bind fun bs all => forall_mem_cons.mpr ⟨holds, all⟩

end

end Cspn.Folds
