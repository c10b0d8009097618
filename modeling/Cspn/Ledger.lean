import Cspn.Journal

/-!
The weight of a map with finitely many entries. A journal whose removals fit moves the
weight by its balance, or by less where an addition replaces an entry
(`Holds.applyAll`).
-/
namespace Cspn.Ledger
open Journal List Function
universe u v

section
variable {K : Type u} {V : Type v}

structure Lists (m : K → Option V) (entries : List (K × V)) : Prop where
  distinct : (entries.map Prod.fst).Nodup
  mem_iff : ∀ {entry : K × V}, entry ∈ entries ↔ m entry.1 = some entry.2

def totalWeight (weight : V → Int) (entries : List (K × V)) : Int := (entries.map fun entry => weight entry.2).sum

variable {weight : V → Int} {m : K → Option V} {entries : List (K × V)} {key : K} {value : V} {total : Int}

@[simp] theorem totalWeight_cons (key : K) (value : V) (rest : List (K × V)) :
    totalWeight weight ((key, value) :: rest) = weight value + totalWeight weight rest := rfl

theorem totalWeight_nonneg (nonneg : ∀ entry ∈ entries, 0 ≤ weight entry.2) : 0 ≤ totalWeight weight entries := by
  refine sum_nonneg fun w member => ?_
  obtain ⟨entry, inside, rfl⟩ := mem_map.mp member
  exact nonneg entry inside

/-- No entry has a negative weight, and together they weigh at most `total`. -/
structure Holds (weight : V → Int) (m : K → Option V) (total : Int) : Prop where
  nonneg : ∀ {key value}, m key = some value → 0 ≤ weight value
  listed : ∃ entries, Lists m entries ∧ totalWeight weight entries ≤ total

theorem Holds.empty : Holds weight (fun _ : K => none) 0 where
  nonneg found := by cases found
  listed := ⟨[], ⟨nodup_nil, by simp⟩, Int.le_refl 0⟩

theorem Holds.mono {more : Int} (holds : Holds weight m total) (le : total ≤ more) : Holds weight m more := by
  obtain ⟨entries, lists, within⟩ := holds.listed
  exact ⟨holds.nonneg, entries, lists, le_trans within le⟩

theorem Holds.total_nonneg (holds : Holds weight m total) : 0 ≤ total := by
  obtain ⟨entries, lists, within⟩ := holds.listed
  exact le_trans (totalWeight_nonneg fun entry member => holds.nonneg (lists.mem_iff.mp member)) within

variable [DecidableEq K]

theorem totalWeight_remove (distinct : (entries.map Prod.fst).Nodup) (found : (key, value) ∈ entries) :
    totalWeight weight (entries.filter fun entry => entry.1 ≠ key) = totalWeight weight entries - weight value := by
  induction entries with
  | nil => cases found
  | cons first rest ih =>
    simp only [map_cons, nodup_cons] at distinct
    rcases mem_cons.mp found with rfl | later
    · have kept : (rest.filter fun entry => entry.1 ≠ key) = rest := by
        refine filter_eq_self.mpr fun entry member => decide_eq_true fun same => distinct.1 ?_
        exact mem_map.mpr ⟨entry, member, same⟩
      rw [filter_cons_of_neg (by simp), kept, totalWeight_cons]
      omega
    · have other : first.1 ≠ key := fun same => distinct.1 (same ▸ mem_map_of_mem later)
      rw [filter_cons_of_pos (by simpa using other), totalWeight_cons, totalWeight_cons, ih distinct.2 later]
      omega

theorem Lists.remove (lists : Lists m entries) (key : K) :
    Lists (update m key none) (entries.filter fun entry => entry.1 ≠ key) where
  distinct := lists.distinct.sublist (filter_sublist.map _)
  mem_iff := by
    intro entry
    rw [mem_filter, lists.mem_iff]
    by_cases same : entry.1 = key
    · simp [same]
    · simp [same]

theorem Lists.insert (lists : Lists m entries) (key : K) (value : V) :
    Lists (update m key (some value)) ((key, value) :: entries.filter fun entry => entry.1 ≠ key) where
  distinct := by
    refine nodup_cons.mpr ⟨fun again => ?_, (lists.remove key).distinct⟩
    obtain ⟨entry, member, same⟩ := mem_map.mp again
    simp [same] at member
  mem_iff := by
    intro entry
    rw [mem_cons, mem_filter, lists.mem_iff]
    obtain ⟨k, v⟩ := entry
    by_cases same : k = key
    · subst same
      simp [eq_comm]
    · simp [same]

theorem Holds.drop (holds : Holds weight m total) (found : m key = some value) :
    Holds weight (update m key none) (total - weight value) := by
  obtain ⟨entries, lists, within⟩ := holds.listed
  refine ⟨fun {other left} present => ?_, _, lists.remove key, ?_⟩
  · by_cases same : other = key
    · simp [same] at present
    · rw [update_of_ne same] at present
      exact holds.nonneg present
  · rw [totalWeight_remove lists.distinct (lists.mem_iff.mpr found)]
    omega

theorem Holds.add (holds : Holds weight m total) (key : K) (nonneg : 0 ≤ weight value) :
    Holds weight (update m key (some value)) (total + weight value) := by
  obtain ⟨entries, lists, within⟩ := holds.listed
  refine ⟨fun {other left} present => ?_, _, lists.insert key value, ?_⟩
  · by_cases same : other = key
    · rw [same, update_self] at present
      exact Option.some.inj present ▸ nonneg
    · rw [update_of_ne same] at present
      exact holds.nonneg present
  · have less : totalWeight weight (entries.filter fun entry => entry.1 ≠ key) ≤ totalWeight weight entries := by
      refine (filter_sublist.map _).sum_le_sum fun w member => ?_
      obtain ⟨entry, inside, rfl⟩ := mem_map.mp member
      exact holds.nonneg (lists.mem_iff.mp inside)
    rw [totalWeight_cons]
    omega

def balance (weight : V → Int) : List (Change K V) → Int
  | [] => 0
  | .add _ value :: rest => weight value + balance weight rest
  | .drop _ value :: rest => balance weight rest - weight value

omit [DecidableEq K] in
theorem balance_append (first second : List (Change K V)) :
    balance weight (first ++ second) = balance weight first + balance weight second := by
  induction first with
  | nil => simp [balance]
  | cons change rest ih => cases change <;> simp only [cons_append, balance, ih] <;> omega

omit [DecidableEq K] in
theorem balance_additions (entries : List (K × V)) : balance weight (additions entries) = totalWeight weight entries := by
  induction entries with
  | nil => rfl
  | cons entry rest ih => rw [additions_cons, balance, totalWeight_cons, ih]

theorem Holds.applyAll {changes : List (Change K V)} (holds : Holds weight m total) (fits : Fits m changes)
    (nonneg : ∀ {key value}, Change.add key value ∈ changes → 0 ≤ weight value) :
    Holds weight (applyAll m changes) (total + balance weight changes) := by
  induction changes generalizing m total with
  | nil => simpa [balance] using holds
  | cons change rest ih =>
    have others : ∀ {key value}, Change.add key value ∈ rest → 0 ≤ weight value :=
      fun later => nonneg (.tail _ later)
    cases change with
    | add key value =>
      have added := ih (holds.add key (nonneg (.head _))) fits others
      rwa [Int.add_assoc] at added
    | drop key value =>
      have dropped := ih (holds.drop fits.1) fits.2 others
      exact dropped.mono (by simp only [balance]; omega)

end

end Cspn.Ledger
