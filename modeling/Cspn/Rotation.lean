import Mathlib

/-!
Queues that serve whoever has waited longest, with ties broken by name. Serving the first sends it to the end, and
whoever joins or rejoins goes to the end too. As long as the first few stay where they are, they are served in their
order, and nobody who stays is overtaken twice.
-/
namespace Cspn.Rotation
open List Option
variable {α τ : Type} [LinearOrder α] [LinearOrder τ]

/-- Who waits, and since when. -/
abbrev Queue (α τ : Type) := α → Option τ

def Ahead (q : Queue α τ) (a b : α) : Prop := ∃ s t, q a = some s ∧ q b = some t ∧ toLex (s, a) < toLex (t, b)

structure First (q : Queue α τ) (a : α) : Prop where
  waits : (q a).isSome
  ahead : ∀ {b : α}, b ≠ a → (q b).isSome → Ahead q a b

/-- `a` is served at time `now`. Whoever waits afterwards either has kept its place or waits since then. -/
structure Serve (q : Queue α τ) (a : α) (now : τ) (after : Queue α τ) : Prop where
  past : ∀ {b : α} {t : τ}, q b = some t → t < now
  kept : ∀ {b : α} {t : τ}, after b = some t → b ≠ a ∧ q b = some t ∨ now ≤ t

structure Line (q : Queue α τ) (turns : List α) : Prop where
  sorted : turns.Pairwise (Ahead q)
  waits : ∀ {a : α}, a ∈ turns → (q a).isSome
  behind : ∀ {a b : α}, a ∈ turns → b ∉ turns → (q b).isSome → Ahead q a b

section
variable {q after : Queue α τ} {a b : α} {now : τ} {turns : List α}

theorem Ahead.asymm (ahead : Ahead q a b) : ¬Ahead q b a := by
  rintro ⟨t, s, atB, atA, reversed⟩
  obtain ⟨s', t', atA', atB', order⟩ := ahead
  cases atA.symm.trans atA'
  cases atB.symm.trans atB'
  exact lt_asymm order reversed

theorem Ahead.congr (ahead : Ahead q a b) (sameA : after a = q a) (sameB : after b = q b) : Ahead after a b := by
  obtain ⟨s, t, atA, atB, order⟩ := ahead
  exact ⟨s, t, sameA.trans atA, sameB.trans atB, order⟩

theorem ahead_of_lt {s t : τ} (atA : q a = some s) (atB : q b = some t) (later : s < t) : Ahead q a b :=
  ⟨s, t, atA, atB, Prod.Lex.toLex_lt_toLex.mpr (.inl later)⟩

theorem First.unique (first : First q a) (other : First q b) : a = b := by
  by_contra apart
  exact (first.ahead (Ne.symm apart) other.waits).asymm (other.ahead apart first.waits)

theorem Line.first (head : Line q (a :: turns)) : First q a where
  waits := head.waits (.head _)
  ahead := by
    intro b other waits
    by_cases inLine : b ∈ turns
    · exact rel_of_pairwise_cons head.sorted inLine
    · exact head.behind (.head _) (by simp [other, inLine]) waits

theorem Line.serve (head : Line q (a :: turns)) (served : Serve q a now after) (stay : ∀ p ∈ turns, after p = q p) :
    Line after turns where
  sorted := by
    refine (pairwise_cons.mp head.sorted).2.imp_of_mem ?_
    intro p r inP inR ahead
    exact ahead.congr (stay p inP) (stay r inR)
  waits := by
    intro p inP
    rw [stay p inP]
    exact head.waits (.tail _ inP)
  behind := by
    intro p b inP outside waits
    obtain ⟨t, atB⟩ := isSome_iff_exists.mp waits
    obtain ⟨s, atP⟩ := isSome_iff_exists.mp (head.waits (.tail _ inP))
    rcases served.kept atB with ⟨other, before⟩ | late
    · have notHead : b ∉ a :: turns := by simp [other, outside]
      have ahead := head.behind (.tail _ inP) notHead (by rw [before]; rfl)
      exact ahead.congr (stay p inP) (atB.trans before.symm)
    · exact ahead_of_lt ((stay p inP).trans atP) atB (lt_of_lt_of_le (served.past atP) late)

end

section
variable {q : ℕ → Queue α τ} {now : ℕ → τ} {turns : List α}

section
variable (head : Line (q 0) turns)
  (steps : ∀ i < turns.length, ∀ a, First (q i) a → Serve (q i) a (now i) (q (i + 1)) ∧ ∀ p ∈ turns, p ≠ a → q (i + 1) p = q i p)
include head steps

theorem Line.drop : ∀ i ≤ turns.length, Line (q i) (turns.drop i) := by
  intro i
  induction i with
  | zero => intro _; exact head
  | succ i ih =>
    intro le
    have here := ih (by omega)
    rw [drop_eq_getElem_cons (by omega)] at here
    obtain ⟨served, stay⟩ := steps i (by omega) _ here.first
    refine here.serve served ?_
    intro p inP
    refine stay p (mem_of_mem_drop inP) ?_
    -- the line has no repetitions
    rintro rfl
    have repeated := rel_of_pairwise_cons here.sorted inP
    exact repeated.asymm repeated

theorem Line.first_getElem {i : ℕ} (lt : i < turns.length) : First (q i) turns[i] := by
  have here := head.drop steps i (by omega)
  rw [drop_eq_getElem_cons lt] at here
  exact here.first

end

theorem served_between {a b : α} {i j : ℕ} {served : ℕ → α} (apart : b ≠ a) (order : i < j)
    (first : ∀ l, i ≤ l → l ≤ j → First (q l) (served l)) (waits : (q i b).isSome)
    (steps : ∀ l, i ≤ l → l < j → Serve (q l) (served l) (now l) (q (l + 1)) ∧ (b ≠ served l → q (l + 1) b = q l b))
    (start : served i = a) (stop : served j = a) : ∃ l, i < l ∧ l < j ∧ served l = b := by
  by_contra unserved
  -- after its first service `a` is behind `b`, and stays there
  have behind : ∀ l, i < l → l ≤ j → q l b = q i b ∧ ((q l a).isSome → Ahead (q l) b a) := by
    intro l above
    induction l, above using Nat.le_induction with
    | base =>
      intro _
      obtain ⟨serve, stay⟩ := steps i le_rfl order
      have same := stay (start ▸ apart)
      refine ⟨same, fun rejoined => ?_⟩
      obtain ⟨t, atA⟩ := isSome_iff_exists.mp rejoined
      obtain ⟨s, atB⟩ := isSome_iff_exists.mp waits
      rcases serve.kept atA with ⟨other, -⟩ | late
      · exact absurd start.symm other
      · exact ahead_of_lt (same.trans atB) atA (lt_of_lt_of_le (serve.past atB) late)
    | succ l above ih =>
      intro le
      obtain ⟨unmoved, order⟩ := ih (by omega)
      obtain ⟨serve, stay⟩ := steps l (by omega) (by omega)
      have same := stay fun here => unserved ⟨l, by omega, by omega, here.symm⟩
      refine ⟨same.trans unmoved, fun present => ?_⟩
      obtain ⟨t, atA⟩ := isSome_iff_exists.mp present
      obtain ⟨s, atB⟩ := isSome_iff_exists.mp waits
      rcases serve.kept atA with ⟨-, before⟩ | late
      · exact (order (by rw [before]; rfl)).congr same (atA.trans before.symm)
      · exact ahead_of_lt (same.trans (unmoved.trans atB)) atA (lt_of_lt_of_le (serve.past (unmoved.trans atB)) late)
  obtain ⟨unmoved, order'⟩ := behind j order le_rfl
  have chosen := stop ▸ first j order.le le_rfl
  have ahead := chosen.ahead apart (by rw [unmoved]; exact waits)
  exact ahead.asymm (order' chosen.waits)

end

end Cspn.Rotation
