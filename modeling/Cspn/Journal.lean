import Mathlib

/-!
A journal of additions to and removals from a map, and its reversal. Reverting a
journal undoes its changes from the last to the first; each step insists on finding
what the change left behind. It gives back the map exactly when no addition replaced
an entry (`revertAll_applyAll_iff`).
-/
namespace Cspn.Journal
open List Function Prod
universe u v

inductive Change (K : Type u) (V : Type v) where
  | add (key : K) (value : V)
  | drop (key : K) (value : V)

section
variable {K : Type u} {V : Type v} [DecidableEq K] (m : K → Option V)

def Change.apply : Change K V → K → Option V
  | .add key value => update m key (some value)
  | .drop key _ => update m key none

open Change

def applyAll (changes : List (Change K V)) : K → Option V := changes.foldl apply m

def Fits : (K → Option V) → List (Change K V) → Prop
  | _, [] => True
  | m, .add key value :: rest => Fits (apply m (.add key value)) rest
  | m, .drop key value :: rest => m key = some value ∧ Fits (apply m (.drop key value)) rest

def Overwrites : (K → Option V) → List (Change K V) → Prop
  | _, [] => False
  | m, .add key value :: rest => (∃ old, m key = some old) ∨ Overwrites (apply m (.add key value)) rest
  | m, .drop key value :: rest => Overwrites (apply m (.drop key value)) rest

instance decidableOverwrites (m : K → Option V) (changes : List (Change K V)) : Decidable (Overwrites m changes) :=
  match changes with
  | [] => isFalse id
  | .add key value :: rest =>
    have := decidableOverwrites (apply m (.add key value)) rest
    have : Decidable (∃ old, m key = some old) := decidable_of_iff _ Option.isSome_iff_exists
    inferInstanceAs (Decidable (_ ∨ _))
  | .drop key value :: rest => decidableOverwrites (apply m (.drop key value)) rest

@[simp] theorem applyAll_nil : applyAll m [] = m := rfl

@[simp] theorem applyAll_cons (change : Change K V) (rest : List (Change K V)) :
    applyAll m (change :: rest) = applyAll (apply m change) rest := rfl

theorem applyAll_append (first second : List (Change K V)) :
    applyAll m (first ++ second) = applyAll (applyAll m first) second := foldl_append

variable {m : K → Option V}

theorem fits_append {first second : List (Change K V)} :
    Fits m (first ++ second) ↔ Fits m first ∧ Fits (applyAll m first) second := by
  induction first generalizing m with
  | nil => simp [Fits]
  | cons change rest ih => cases change <;> simp [Fits, ih, and_assoc]

theorem overwrites_append {first second : List (Change K V)} :
    Overwrites m (first ++ second) ↔ Overwrites m first ∨ Overwrites (applyAll m first) second := by
  induction first generalizing m with
  | nil => simp [Overwrites]
  | cons change rest ih => cases change <;> simp [Overwrites, ih, or_assoc]

def additions (entries : List (K × V)) : List (Change K V) := entries.map fun entry => .add entry.1 entry.2

omit [DecidableEq K] in
@[simp] theorem additions_cons (entry : K × V) (rest : List (K × V)) :
    additions (entry :: rest) = .add entry.1 entry.2 :: additions rest := rfl

theorem fits_additions (m : K → Option V) (entries : List (K × V)) : Fits m (additions entries) := by
  induction entries generalizing m with
  | nil => trivial
  | cons entry rest ih => exact ih _

variable {entries : List (K × V)}

theorem applyAll_additions_other {key : K}
    (other : key ∉ entries.map fst) : applyAll m (additions entries) key = m key := by
  induction entries generalizing m with
  | nil => rfl
  | cons entry rest ih =>
    simp only [map_cons, mem_cons, not_or] at other
    rw [additions_cons, applyAll_cons, ih other.2, apply, update_of_ne other.1]

theorem applyAll_additions_mem (distinct : (entries.map fst).Nodup)
    {entry : K × V} (added : entry ∈ entries) : applyAll m (additions entries) entry.1 = some entry.2 := by
  induction entries generalizing m with
  | nil => cases added
  | cons first rest ih =>
    simp only [map_cons, nodup_cons] at distinct
    rcases mem_cons.mp added with rfl | later
    · rw [additions_cons, applyAll_cons, applyAll_additions_other distinct.1, apply, update_self]
    · exact ih distinct.2 later

theorem overwrites_additions (distinct : (entries.map fst).Nodup) :
    Overwrites m (additions entries) ↔ ∃ entry ∈ entries, ∃ old, m entry.1 = some old := by
  induction entries generalizing m with
  | nil => simp [additions, Overwrites]
  | cons first rest ih =>
    simp only [map_cons, nodup_cons] at distinct
    rw [additions_cons, Overwrites, ih distinct.2, exists_mem_cons_iff]
    -- The later keys are looked up after the first addition, which is at another key.
    refine or_congr_right (exists_congr fun entry => and_congr_right fun added => ?_)
    rw [apply, update_of_ne]
    exact fun same => distinct.1 (same ▸ mem_map_of_mem added)

section
variable (m : K → Option V)

def without (keys : List K) : K → Option V := fun key => if key ∈ keys then none else m key

@[simp] theorem without_nil : without m [] = m := by
  funext key
  simp [without]

theorem update_without (keys : List K) (key : K) : update (without m keys) key none = without m (key :: keys) := by
  funext other
  by_cases same : other = key
  · simp [same, without]
  · simp [same, without]

theorem without_cons (keys : List K) (key : K) : without m (key :: keys) = without (update m key none) keys := by
  funext other
  by_cases same : other = key
  · simp [same, without]
  · simp [same, without]

theorem applyAll_removals (entries : List (K × V)) :
    applyAll m (entries.map fun entry => .drop entry.1 entry.2) = without m (entries.map fst) := by
  induction entries generalizing m with
  | nil => simp
  | cons entry rest ih => rw [map_cons, applyAll_cons, ih, map_cons, without_cons]; rfl

theorem not_overwrites_removals (entries : List (K × V)) :
    ¬ Overwrites m (entries.map fun entry => .drop entry.1 entry.2) := by
  induction entries generalizing m with
  | nil => exact id
  | cons entry rest ih => exact ih _

end

end

section
variable {K : Type u} {V : Type v} [DecidableEq K] [DecidableEq V]

/-- `none` where the change is not the last thing that happened to its key. -/
def Change.revert (m : K → Option V) : Change K V → Option (K → Option V)
  | .add key value => if m key = some value then some (update m key none) else none
  | .drop key value => if m key = none then some (update m key (some value)) else none

def revertAll : List (Change K V) → (K → Option V) → Option (K → Option V)
  | [], m => some m
  | change :: rest, m => (revertAll rest m).bind fun earlier => change.revert earlier

theorem revertAll_append (first second : List (Change K V)) (m : K → Option V) :
    revertAll (first ++ second) m = (revertAll second m).bind (revertAll first) := by
  induction first with
  | nil => rw [nil_append]; cases revertAll second m <;> rfl
  | cons change rest ih => rw [cons_append, revertAll, ih, Option.bind_assoc]; rfl

variable {m : K → Option V} {before : K → Option V}

theorem revert_add_iff {key : K} {value : V} :
    Change.revert m (.add key value) = some before ↔ m key = some value ∧ before = update m key none := by
  unfold Change.revert
  split <;> simp_all [eq_comm]

theorem revert_drop_iff {key : K} {value : V} :
    Change.revert m (.drop key value) = some before ↔ m key = none ∧ before = update m key (some value) := by
  unfold Change.revert
  split <;> simp_all [eq_comm]

/-- Reverting a journal that replaced nothing gives back the map, and no other journal reverts to it. -/
theorem revertAll_applyAll_iff {changes : List (Change K V)} (fits : Fits m changes) :
    revertAll changes (applyAll m changes) = some m ↔ ¬ Overwrites m changes := by
  induction changes generalizing m with
  | nil => simp [revertAll, Overwrites]
  | cons change rest ih =>
    cases change with
    | add key value =>
      rw [applyAll_cons, revertAll, Option.bind_eq_some_iff, Overwrites, not_or, ← ih fits]
      constructor
      · rintro ⟨earlier, reverted, back⟩
        obtain ⟨found, same⟩ := revert_add_iff.mp back
        have restored : earlier = Change.apply m (.add key value) := by
          rw [same, Change.apply, update_idem, ← found, update_eq_self]
        refine ⟨?_, restored ▸ reverted⟩
        rintro ⟨old, present⟩
        rw [same, update_self] at present
        cases present
      · rintro ⟨fresh, reverted⟩
        refine ⟨_, reverted, revert_add_iff.mpr ⟨by simp [Change.apply], ?_⟩⟩
        rw [Change.apply, update_idem, eq_comm, update_eq_self_iff, eq_comm,
          Option.eq_none_iff_forall_ne_some]
        exact fun old present => fresh ⟨old, present⟩
    | drop key value =>
      obtain ⟨found, fits⟩ := fits
      rw [applyAll_cons, revertAll, Option.bind_eq_some_iff, Overwrites, ← ih fits]
      constructor
      · rintro ⟨earlier, reverted, back⟩
        obtain ⟨absent, same⟩ := revert_drop_iff.mp back
        have restored : earlier = Change.apply m (.drop key value) := by
          rw [same, Change.apply, update_idem, ← absent, update_eq_self]
        exact restored ▸ reverted
      · intro reverted
        refine ⟨_, reverted, revert_drop_iff.mpr ⟨by simp [Change.apply], ?_⟩⟩
        rw [Change.apply, update_idem, ← found, update_eq_self]

theorem revertAll_additions {entries : List (K × V)} (distinct : (entries.map fst).Nodup) :
    revertAll (additions entries) m = some before ↔ (∀ entry ∈ entries, m entry.1 = some entry.2) ∧
        before = without m (entries.map fst) := by
  induction entries generalizing before with
  | nil => simp [additions, revertAll, eq_comm]
  | cons first rest ih =>
    simp only [map_cons, nodup_cons] at distinct
    have here : without m (rest.map fst) first.1 = m first.1 := if_neg distinct.1
    simp only [additions_cons, revertAll, Option.bind_eq_some_iff, ih distinct.2, revert_add_iff, forall_mem_cons,
      map_cons, ← update_without]
    constructor
    · rintro ⟨earlier, ⟨found, rfl⟩, last, rfl⟩
      exact ⟨⟨here ▸ last, found⟩, rfl⟩
    · rintro ⟨⟨last, found⟩, rfl⟩
      exact ⟨_, ⟨found, rfl⟩, here.trans last, rfl⟩

theorem revertAll_additions_perm {first second : List (K × V)} (perm : first.Perm second)
    (distinct : (first.map fst).Nodup) : revertAll (additions first) m = revertAll (additions second) m := by
  have keys := perm.map fst
  have same : without m (first.map fst) = without m (second.map fst) := by
    funext key
    simp only [without, keys.mem_iff]
  refine Option.ext fun before => ?_
  rw [revertAll_additions distinct, revertAll_additions (keys.nodup_iff.mp distinct), same]
  simp [perm.mem_iff]

end

end Cspn.Journal
