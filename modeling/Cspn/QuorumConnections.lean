import Mathlib

/-!
The connections between the members of a quorum. A member connects to those that are a power of two ahead on the ring.
In a quorum of one or two members the loop comes to the member itself and goes on with the same gap for ever.
-/
namespace Cspn.QuorumConnections

/-- The loop of the `i`th of `n` members, who are given by their places; `none` where the fuel is too little. -/
def connect (n i : Nat) : Nat → Nat → Nat → Nat → Finset Nat → Option (Finset Nat)
  | 0, _, _, _, _ => none
  | fuel + 1, gap, gap_max, k, result =>
    if gap_max >>> 1 ≠ 0 ∨ k ≤ 1 then
      let idx := (i + gap) % n
      if idx = i then connect n i fuel gap (gap_max >>> 1) k result
      else connect n i fuel (gap <<< 1) (gap_max >>> 1) (k + 1) (insert idx result)
    else some result

def getQuorumConnections (n fuel i : Nat) : Option (Finset Nat) := connect n i fuel 1 (n - 1) 0 ∅

variable {n i fuel gap gap_max k : Nat} {result : Finset Nat}

theorem connect_stuck (same : (i + gap) % n = i) (early : k ≤ 1) : connect n i fuel gap 0 k result = none := by
  induction fuel with
  | zero => rfl
  | succ fuel ih => simp [connect, early, same, ih]

theorem never_ends (some : 0 < n) (short : n < 3) : getQuorumConnections n fuel 0 = none := by
  obtain rfl | rfl : n = 1 ∨ n = 2 := by omega
  · exact connect_stuck rfl (by simp)
  · cases fuel with
    | zero => rfl
    | succ fuel => exact connect_stuck rfl le_rfl

/-- Each round keeps the gap below the size, so it never comes to the member itself. -/
theorem connect_spec (three : 3 ≤ n) (inside : i < n) (small : gap * gap_max < n) (positive : 0 < gap)
    (first : k ≤ 1 → gap = k + 1) (enough : gap_max + (2 - k) < fuel) (others : ∀ j ∈ result, j < n ∧ j ≠ i) :
    ∃ all, connect n i fuel gap gap_max k result = some all ∧ result ⊆ all ∧ (∀ j ∈ all, j < n ∧ j ≠ i) ∧
      (k = 0 → (i + 1) % n ∈ all) := by
  induction fuel generalizing gap gap_max k result with
  | zero => omega
  | succ fuel ih =>
    rw [connect, Nat.shiftRight_one]
    by_cases goes : gap_max / 2 ≠ 0 ∨ k ≤ 1
    · have below : gap < n := by
        rcases goes with large | early
        · nlinarith [Nat.div_mul_le_self gap_max 2, Nat.pos_of_ne_zero large]
        · have := first early
          omega
      have apart : (i + gap) % n ≠ i := by
        by_cases wraps : i + gap < n
        · rw [Nat.mod_eq_of_lt wraps]
          omega
        · rw [Nat.mod_eq_sub_mod (by omega), Nat.mod_eq_of_lt (by omega)]
          omega
      have next : ∀ j ∈ insert ((i + gap) % n) result, j < n ∧ j ≠ i := by
        simpa [apart, Nat.mod_lt _ (by omega : 0 < n)] using others
      obtain ⟨all, ends, kept, sound, -⟩ := @ih (gap <<< 1) (gap_max / 2) (k + 1) _
        (by rw [Nat.shiftLeft_eq]; nlinarith [Nat.div_mul_le_self gap_max 2]) (by rw [Nat.shiftLeft_eq]; omega)
        (by rw [Nat.shiftLeft_eq]; omega) (by omega) next
      refine ⟨all, by rw [if_pos goes, if_neg apart, ends], fun j old => kept (by simp [old]), sound, ?_⟩
      rintro rfl
      exact kept (by simp [first (by omega)])
    · exact ⟨result, if_neg goes, subset_rfl, others, by omega⟩

def Connects (n i j : Nat) : Prop := i < n ∧ ∃ fuel result, getQuorumConnections n fuel i = some result ∧ j ∈ result

/-- The computation ends for every member with other members, and the undirected graph of all is connected. -/
def WellConnected (n : Nat) : Prop :=
  (∀ i < n, ∃ fuel result, getQuorumConnections n fuel i = some result ∧ ∀ j ∈ result, j < n ∧ j ≠ i) ∧
    ∀ i < n, ∀ j < n, Relation.EqvGen (Connects n) i j

theorem wellConnected_iff (n : Nat) : WellConnected (n + 1) ↔ 3 ≤ n + 1 := by
  constructor
  · rintro ⟨ends, -⟩
    by_contra short
    obtain ⟨fuel, result, ended, -⟩ := ends 0 n.succ_pos
    cases (never_ends n.succ_pos (by omega)).symm.trans ended
  · intro three
    have spec (i : Nat) (inside : i < n + 1) := @connect_spec (n + 1) i _ 1 n 0 ∅ three inside (by omega)
      Nat.one_pos (fun _ => rfl) (Nat.lt_succ_self _) (by simp)
    refine ⟨fun i inside => ?_, ?_⟩
    · obtain ⟨all, ends, -, sound, -⟩ := spec i inside
      exact ⟨_, all, ends, sound⟩
    · have ring : ∀ i < n + 1, Relation.EqvGen (Connects (n + 1)) 0 i := by
        intro i inside
        induction i with
        | zero => exact .refl 0
        | succ i ih =>
          obtain ⟨all, ends, -, -, next⟩ := spec i (by omega)
          rw [Nat.mod_eq_of_lt inside] at next
          exact (ih (by omega)).trans _ _ _ (.rel _ _ ⟨by omega, _, all, ends, next rfl⟩)
      exact fun i insideI j insideJ => ((ring i insideI).symm).trans _ _ _ (ring j insideJ)

theorem not_wellConnected_two : ¬ WellConnected 2 := by
  rintro ⟨ends, -⟩
  obtain ⟨fuel, result, ended, -⟩ := ends 0 (by decide)
  cases (never_ends (by decide) (by decide)).symm.trans ended

end Cspn.QuorumConnections
