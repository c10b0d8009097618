import Cspn.Folds

/-!
A pool of tasks that worker threads run in any order. Running a task changes the state and may queue more tasks; a
schedule says which queued task is run next, and new tasks come to the front. What every task keeps holds under every
schedule, and if every task leaves less work than it takes, every long schedule empties the pool.
-/
namespace Cspn.Pool
open List

variable {σ τ ε : Type}

/-- A task of the pool and the others. -/
def pick (pool : List τ) (i : Nat) : Option (τ × List τ) :=
  pool[i % pool.length]?.map fun task => (task, pool.eraseIdx (i % pool.length))

variable (exec : σ → τ → Except ε (σ × List τ))

def step (config : σ × List τ) (i : Nat) : Except ε (σ × List τ) :=
  match pick config.2 i with
  | none => .ok config
  | some (task, rest) => do
    let (state, queued) ← exec config.1 task
    .ok (state, queued ++ rest)

def run (config : σ × List τ) (schedule : List Nat) : Except ε (σ × List τ) :=
  schedule.foldlM (step exec) config

theorem pick_eq_none {pool : List τ} {i : Nat} (none : pick pool i = none) : pool = [] := by
  rw [pick, Option.map_eq_none_iff, getElem?_eq_none_iff] at none
  by_contra some
  exact absurd (Nat.mod_lt i (length_pos_iff.mpr some)) (Nat.not_lt.mpr none)

theorem pick_perm {pool rest : List τ} {i : Nat} {task : τ} (picked : pick pool i = some (task, rest)) :
    pool.Perm (task :: rest) := by
  obtain ⟨found, isTask, same⟩ := Option.map_eq_some_iff.mp picked
  obtain ⟨rfl, rfl⟩ := Prod.mk.inj same
  obtain ⟨inside, rfl⟩ := List.getElem?_eq_some_iff.mp isTask
  exact (getElem_cons_eraseIdx_perm inside).symm

theorem run_nil (state : σ) (schedule : List Nat) : run exec (state, []) schedule = .ok (state, []) :=
  Folds.foldlM_fixed fun _ _ => rfl

section
variable {exec : σ → τ → Except ε (σ × List τ)} {P : σ → List τ → Prop}
  (perm : ∀ {state pool pool'}, Perm pool pool' → P state pool → P state pool')
include perm

theorem run_keeps
    (keeps : ∀ {state task rest after queued}, P state (task :: rest) → exec state task = .ok (after, queued) →
      P after (queued ++ rest)) {config final : σ × List τ} {schedule : List Nat} (start : P config.1 config.2)
    (ran : run exec config schedule = .ok final) : P final.1 final.2 := by
  refine Folds.foldlM_ok (P := fun config => P config.1 config.2) ?_ start ran
  intro i _ before after holds stepped
  rw [step] at stepped
  cases picked : pick before.2 i with
  | none =>
    rw [picked] at stepped
    cases stepped
    exact holds
  | some choice =>
    rw [picked] at stepped
    obtain ⟨⟨state, queued⟩, executed, result⟩ := Folds.bind_eq_ok.mp stepped
    cases result
    exact keeps (perm (pick_perm picked) holds) executed

theorem run_completes (weight : τ → Nat)
    (progress : ∀ {state task rest}, P state (task :: rest) → ∃ after queued, exec state task = .ok (after, queued) ∧
      P after (queued ++ rest) ∧ (queued.map weight).sum < weight task)
    {config : σ × List τ} {schedule : List Nat} (start : P config.1 config.2)
    (enough : (config.2.map weight).sum ≤ schedule.length) :
    ∃ final, run exec config schedule = .ok (final, []) ∧ P final [] := by
  induction schedule generalizing config with
  | nil =>
    obtain ⟨state, pool⟩ := config
    cases pool with
    | nil => exact ⟨state, rfl, start⟩
    | cons task rest =>
      obtain ⟨_, _, _, _, less⟩ := progress start
      simp only [map_cons, sum_cons, length_nil] at enough
      omega
  | cons i schedule ih =>
    cases picked : pick config.2 i with
    | none =>
      have same : step exec config i = .ok config := by rw [step, picked]
      rw [run, foldlM_cons, same]
      refine ih start ?_
      rw [pick_eq_none picked]
      exact Nat.zero_le _
    | some choice =>
      obtain ⟨task, rest⟩ := choice
      obtain ⟨after, queued, executed, holds, less⟩ := progress (perm (pick_perm picked) start)
      have stepped : step exec config i = .ok (after, queued ++ rest) := by
        rw [step, picked]
        simp only [executed]
        rfl
      rw [run, foldlM_cons, stepped]
      refine @ih (after, queued ++ rest) holds ?_
      have before := ((pick_perm picked).map weight).sum_eq
      simp only [map_cons, sum_cons, length_cons, map_append, sum_append] at before enough ⊢
      omega

end

end Cspn.Pool
