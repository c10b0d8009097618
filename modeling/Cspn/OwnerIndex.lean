import Mathlib

/-!
An index that records, for every key, the one owner that holds it and how often. It is described by a holding function
`held`: an index reflects at most one holding function and is the only one that does, so facts about the index are
proved on `held`.
-/
namespace Cspn.OwnerIndex
open List Option
open Std (ExtTreeMap TransCmp LawfulEqCmp)

section
variable {K O : Type} {cmp : K → K → Ordering} [TransCmp cmp]

/-- The index says of every key who holds it, how often, and that nobody else does. -/
structure Reflects (index : ExtTreeMap K (O × Nat) cmp) (held : O → K → Nat) : Prop where
  sole : ∀ {a b key}, 0 < held a key → 0 < held b key → a = b
  entry : ∀ key owner count, index[key]? = some (owner, count) ↔ held owner key = count ∧ 0 < count

theorem reflects_empty : Reflects (∅ : ExtTreeMap K (O × Nat) cmp) (fun _ _ => 0) where
  sole := by simp
  entry := by
    intro key owner count
    simp only [ExtTreeMap.getElem?_empty, reduceCtorEq, false_iff, not_and]
    omega

theorem Reflects.none_iff {index : ExtTreeMap K (O × Nat) cmp} {held : O → K → Nat} (reflects : Reflects index held)
    (key : K) : index[key]? = none ↔ ∀ owner, held owner key = 0 := by
  constructor
  · intro absent owner
    by_contra holds
    have present := (reflects.entry key owner _).mpr ⟨rfl, Nat.pos_of_ne_zero holds⟩
    rw [absent] at present
    cases present
  · intro free
    cases found : index[key]? with
    | none => rfl
    | some entry =>
      obtain ⟨owner, count⟩ := entry
      have := (reflects.entry key owner count).mp found
      have := free owner
      omega

theorem Reflects.unique [LawfulEqCmp cmp] {first second : ExtTreeMap K (O × Nat) cmp} {held : O → K → Nat}
    (one : Reflects first held) (two : Reflects second held) : first = second := by
  apply ExtTreeMap.ext_getElem?
  intro key
  cases found : first[key]? with
  | none => exact ((two.none_iff key).mpr ((one.none_iff key).mp found)).symm
  | some entry => exact ((two.entry key entry.1 entry.2).mpr ((one.entry key entry.1 entry.2).mp found)).symm

variable [DecidableEq O]

/-- One more holding of `key` by `owner`; refused while another owner holds it. -/
def claim (index : ExtTreeMap K (O × Nat) cmp) (owner : O) (key : K) : Option (ExtTreeMap K (O × Nat) cmp) :=
  match index[key]? with
  | none => some (index.insert key (owner, 1))
  | some (holder, count) => if holder = owner then some (index.insert key (owner, count + 1)) else none

/-- One holding less; refused when `owner` does not hold `key`. -/
def release (index : ExtTreeMap K (O × Nat) cmp) (owner : O) (key : K) : Option (ExtTreeMap K (O × Nat) cmp) :=
  match index[key]? with
  | none => none
  | some (holder, count) =>
    if holder = owner then
      if count = 1 then some (index.erase key) else some (index.insert key (owner, count - 1))
    else none

variable {index after : ExtTreeMap K (O × Nat) cmp} {held : O → K → Nat}

theorem claim_isSome (reflects : Reflects index held) (owner : O) (key : K) :
    (claim index owner key).isSome ↔ ∀ a, a ≠ owner → held a key = 0 := by
  unfold claim
  cases found : index[key]? with
  | none =>
    have free := (reflects.none_iff key).mp found
    simp [free]
  | some entry =>
    obtain ⟨holder, count⟩ := entry
    obtain ⟨holds, positive⟩ := (reflects.entry key holder count).mp found
    by_cases same : holder = owner
    · simp only [same, ↓reduceIte, isSome_some, true_iff]
      intro a other
      by_contra more
      exact other (same ▸ reflects.sole (Nat.pos_of_ne_zero more) (holds ▸ positive))
    · simp only [same, ↓reduceIte, isSome_none, Bool.false_eq_true, false_iff]
      intro free
      have := free holder same
      omega

theorem release_isSome (reflects : Reflects index held) (owner : O) (key : K) :
    (release index owner key).isSome ↔ 0 < held owner key := by
  unfold release
  cases found : index[key]? with
  | none =>
    have free := (reflects.none_iff key).mp found owner
    simp [free]
  | some entry =>
    obtain ⟨holder, count⟩ := entry
    obtain ⟨holds, positive⟩ := (reflects.entry key holder count).mp found
    by_cases same : holder = owner
    · simp only [same, ↓reduceIte]
      split <;> simp [← same, holds, positive]
    · simp only [same, ↓reduceIte, isSome_none, Bool.false_eq_true, false_iff]
      exact fun other => same (reflects.sole (holds ▸ positive) other)

variable [DecidableEq K]

def more (held : O → K → Nat) (owner : O) (key : K) : O → K → Nat := fun a k =>
  if a = owner ∧ k = key then held a k + 1 else held a k

def less (held : O → K → Nat) (owner : O) (key : K) : O → K → Nat := fun a k =>
  if a = owner ∧ k = key then held a k - 1 else held a k

variable {owner : O} {key : K}

/-- What one owner holds of one key is changed, and nobody else holds the key. -/
theorem Reflects.set (reflects : Reflects index held) (others : ∀ a, a ≠ owner → held a key = 0) (n : Nat)
    (lookup : ∀ k, after[k]? = if k = key then (if n = 0 then none else some (owner, n)) else index[k]?)
    {held' : O → K → Nat} (holding : ∀ a k, held' a k = if a = owner ∧ k = key then n else held a k) :
    Reflects after held' := by
  constructor
  · intro a b k first second
    rw [holding] at first second
    by_cases here : k = key
    · grind
    · simp only [here, and_false, ↓reduceIte] at first second
      exact reflects.sole first second
  · intro k a count
    rw [lookup, holding]
    by_cases here : k = key
    · grind
    · simp only [here, and_false, ↓reduceIte]
      exact reflects.entry k a count

variable [LawfulEqCmp cmp]

theorem claim_reflects (reflects : Reflects index held) (claimed : claim index owner key = some after) :
    Reflects after (more held owner key) := by
  -- the new entry is the old count of `owner`, plus one
  have inserted : after = index.insert key (owner, held owner key + 1) := by
    unfold claim at claimed
    cases found : index[key]? with
    | none =>
      rw [found] at claimed
      rw [(reflects.none_iff key).mp found owner]
      exact (some.inj claimed).symm
    | some entry =>
      obtain ⟨holder, count⟩ := entry
      simp only [found] at claimed
      split at claimed
      next same =>
        subst same
        rw [((reflects.entry key holder count).mp found).1]
        exact (some.inj claimed).symm
      next => cases claimed
  refine reflects.set ((claim_isSome reflects owner key).mp (by rw [claimed]; rfl)) (held owner key + 1) (fun k => ?_) ?_
  · simp [inserted, ExtTreeMap.getElem?_insert, @eq_comm _ k]
  · grind [more]

theorem release_reflects (reflects : Reflects index held) (released : release index owner key = some after) :
    Reflects after (less held owner key) := by
  have holds := (release_isSome reflects owner key).mp (by rw [released]; rfl)
  have found := (reflects.entry key owner _).mpr ⟨rfl, holds⟩
  have others : ∀ a, a ≠ owner → held a key = 0 := fun a other => by
    by_contra more
    exact other (reflects.sole (Nat.pos_of_ne_zero more) holds)
  refine reflects.set others (held owner key - 1) (fun k => ?_) ?_
  · have last : held owner key - 1 = 0 ↔ held owner key = 1 := by omega
    simp only [release, found, ↓reduceIte] at released
    split at released
    all_goals
      next one =>
        cases released
        simp [ExtTreeMap.getElem?_erase, ExtTreeMap.getElem?_insert, @eq_comm _ k, last, one]
  · grind [less]

section
variable (held : O → K → Nat) (owner : O)

def moreAll (keys : List K) : O → K → Nat := fun a k =>
  if a = owner then held a k + keys.count k else held a k

def lessAll (keys : List K) : O → K → Nat := fun a k =>
  if a = owner then held a k - keys.count k else held a k

omit [LawfulEqCmp cmp] in
theorem moreAll_cons (key : K) (keys : List K) :
    moreAll held owner (key :: keys) = moreAll (more held owner key) owner keys := by
  funext a k
  simp only [moreAll, more, count_cons, beq_iff_eq]
  grind

omit [LawfulEqCmp cmp] in
theorem lessAll_cons (key : K) (keys : List K) :
    lessAll held owner (key :: keys) = lessAll (less held owner key) owner keys := by
  funext a k
  simp only [lessAll, less, count_cons, beq_iff_eq]
  grind

end

section
variable {keys : List K} (reflects : Reflects index held)
include reflects

theorem claimAll_reflects
    (claimed : keys.foldlM (claim · owner ·) index = some after) : Reflects after (moreAll held owner keys) := by
  induction keys generalizing index held with
  | nil =>
    cases claimed
    have same : moreAll held owner ([] : List K) = held := by funext a k; simp [moreAll]
    rwa [same]
  | cons key rest ih =>
    obtain ⟨middle, first, tail⟩ := bind_eq_some_iff.mp claimed
    rw [moreAll_cons]
    exact ih (claim_reflects reflects first) tail

theorem claimAll_isSome (free : ∀ key ∈ keys, ∀ a, a ≠ owner → held a key = 0) :
    ∃ after, keys.foldlM (claim · owner ·) index = some after := by
  induction keys generalizing index held with
  | nil => exact ⟨index, rfl⟩
  | cons key rest ih =>
    obtain ⟨middle, first⟩ := isSome_iff_exists.mp
      ((claim_isSome reflects owner key).mpr (free key (.head _)))
    have others : ∀ k ∈ rest, ∀ a, a ≠ owner → more held owner key a k = 0 := by
      intro k member a other
      simpa [more, other] using free k (.tail _ member) a other
    obtain ⟨after, tail⟩ := ih (claim_reflects reflects first) others
    exact ⟨after, by rw [foldlM_cons, first]; exact tail⟩

theorem releaseAll_reflects
    (released : keys.foldlM (release · owner ·) index = some after) : Reflects after (lessAll held owner keys) := by
  induction keys generalizing index held with
  | nil =>
    cases released
    have same : lessAll held owner ([] : List K) = held := by funext a k; simp [lessAll]
    rwa [same]
  | cons key rest ih =>
    obtain ⟨middle, first, tail⟩ := bind_eq_some_iff.mp released
    rw [lessAll_cons]
    exact ih (release_reflects reflects first) tail

theorem releaseAll_isSome (enough : ∀ key, keys.count key ≤ held owner key) :
    ∃ after, keys.foldlM (release · owner ·) index = some after := by
  induction keys generalizing index held with
  | nil => exact ⟨index, rfl⟩
  | cons key rest ih =>
    have here := enough key
    rw [count_cons_self] at here
    obtain ⟨middle, first⟩ := isSome_iff_exists.mp ((release_isSome reflects owner key).mpr (by omega))
    have left : ∀ k, rest.count k ≤ less held owner key owner k := by
      intro k
      have := enough k
      simp only [less, true_and]
      grind
    obtain ⟨after, tail⟩ := ih (release_reflects reflects first) left
    exact ⟨after, by rw [foldlM_cons, first]; exact tail⟩

end

end

end Cspn.OwnerIndex
