import Mathlib

/-!
A search with a stack of nodes and a set of nodes that have been on it. A function with a state finds the edges out of a
node. While the state keeps an invariant under which the edges are those of a fixed graph, the search ends once every
node of a finite set has been on the stack, with all edges out of the reachable nodes.
-/
namespace Cspn.Worklist
open List

variable {α β σ : Type} [DecidableEq α]

/-- The target of an edge goes on the stack unless it has been there. -/
def pushNew (target : β → α) (acc : List α × List α) (edge : β) : List α × List α :=
  if target edge ∈ acc.2 then acc else (target edge :: acc.1, target edge :: acc.2)

/-- The search, with the state of `expand` and the edges met so far; `none` where the fuel ends first. -/
def search (expand : σ → α → σ × List β) (target : β → α) :
    Nat → σ → List α → List α → List β → Option (σ × List β)
  | _, s, [], _, out => some (s, out)
  | 0, _, _ :: _, _, _ => none
  | fuel + 1, s, x :: stack, added, out =>
    let pushed := (expand s x).2.foldl (pushNew target) (stack, added)
    search expand target fuel (expand s x).1 pushed.1 pushed.2 (out ++ (expand s x).2)

def Reach (children : α → List β) (target : β → α) : α → α → Prop :=
  Relation.ReflTransGen fun a b => ∃ edge ∈ children a, target edge = b

structure Pushed (target : β → α) (edges : List β) (stack added stack' added' : List α) : Prop where
  stack_mono : ∀ x ∈ stack, x ∈ stack'
  added_mono : ∀ x ∈ added, x ∈ added'
  targets : ∀ edge ∈ edges, target edge ∈ added'
  stack_new : ∀ x ∈ stack', x ∈ stack ∨ ∃ edge ∈ edges, target edge = x
  added_new : ∀ x ∈ added', x ∈ added ∨ x ∈ stack'
  room : ∀ nodes : Finset α, (∀ edge ∈ edges, target edge ∈ nodes) →
    (nodes \ added'.toFinset).card + stack'.length ≤ (nodes \ added.toFinset).card + stack.length

variable {added : List α}

theorem room_push {nodes : Finset α} {x : α} (inside : x ∈ nodes) (fresh : x ∉ added) :
    (nodes \ (x :: added).toFinset).card + 1 = (nodes \ added.toFinset).card := by
  have member : x ∈ nodes \ added.toFinset := by simp [inside, fresh]
  rw [toFinset_cons, Finset.sdiff_insert, Finset.card_erase_add_one member]

theorem pushed_foldl (target : β → α) (edges : List β) (stack added : List α) :
    Pushed target edges stack added (edges.foldl (pushNew target) (stack, added)).1
      (edges.foldl (pushNew target) (stack, added)).2 := by
  induction edges generalizing stack added with
  | nil =>
    exact ⟨fun _ inside => inside, fun _ inside => inside, by simp, fun _ inside => .inl inside,
      fun _ inside => .inl inside, fun _ _ => le_rfl⟩
  | cons edge rest ih =>
    rw [foldl_cons]
    by_cases known : target edge ∈ added
    · have same : pushNew target (stack, added) edge = (stack, added) := by simp [pushNew, known]
      rw [same]
      have pushed := ih stack added
      refine ⟨pushed.stack_mono, pushed.added_mono, ?_, ?_, pushed.added_new, ?_⟩
      · rintro other (_ | ⟨_, later⟩)
        · exact pushed.added_mono _ known
        · exact pushed.targets other later
      · intro x inside
        refine (pushed.stack_new x inside).imp_right ?_
        rintro ⟨other, later, same⟩
        exact ⟨other, .tail _ later, same⟩
      · intro nodes inside
        exact pushed.room nodes fun other later => inside other (.tail _ later)
    · have same : pushNew target (stack, added) edge = (target edge :: stack, target edge :: added) := by
        simp [pushNew, known]
      rw [same]
      have pushed := ih (target edge :: stack) (target edge :: added)
      refine ⟨fun x inside => pushed.stack_mono x (.tail _ inside),
        fun x inside => pushed.added_mono x (.tail _ inside), ?_, ?_, ?_, ?_⟩
      · rintro other (_ | ⟨_, later⟩)
        · exact pushed.added_mono _ (.head _)
        · exact pushed.targets other later
      · intro x inside
        rcases pushed.stack_new x inside with old | ⟨other, later, same⟩
        · rcases mem_cons.mp old with rfl | old
          · exact .inr ⟨edge, .head _, rfl⟩
          · exact .inl old
        · exact .inr ⟨other, .tail _ later, same⟩
      · intro x inside
        rcases pushed.added_new x inside with old | new
        · rcases mem_cons.mp old with rfl | old
          · exact .inr (pushed.stack_mono _ (.head _))
          · exact .inl old
        · exact .inr new
      · intro nodes inside
        have rest := pushed.room nodes fun other later => inside other (.tail _ later)
        have one := room_push (inside edge (.head _)) known
        simp only [length_cons] at rest
        omega

section
variable {children : α → List β} {target : β → α} {start : α}

structure Progress (children : α → List β) (target : β → α) (start : α) (stack added : List α) (out : List β) :
    Prop where
  stack_reach : ∀ x ∈ stack, Reach children target start x
  out_reach : ∀ edge ∈ out, ∃ x, Reach children target start x ∧ edge ∈ children x
  out_added : ∀ edge ∈ out, target edge ∈ added
  known : ∀ x, x = start ∨ x ∈ added → x ∈ stack ∨ ∀ edge ∈ children x, edge ∈ out

omit [DecidableEq α] in
theorem progress_start (children : α → List β) (target : β → α) (start : α) :
    Progress children target start [start] [] [] where
  stack_reach := by
    intro x inside
    rw [mem_singleton.mp inside]
    exact .refl
  out_reach := by simp
  out_added := by simp
  known := by
    rintro x (rfl | inside)
    · exact .inl (.head _)
    · cases inside

variable {out : List β}

theorem Progress.round {x : α} {stack stack' added' : List α}
    (progress : Progress children target start (x :: stack) added out)
    (pushed : Pushed target (children x) stack added stack' added') :
    Progress children target start stack' added' (out ++ children x) where
  stack_reach := by
    intro y inside
    rcases pushed.stack_new y inside with old | ⟨edge, out, rfl⟩
    · exact progress.stack_reach y (.tail _ old)
    · exact (progress.stack_reach x (.head _)).tail ⟨edge, out, rfl⟩
  out_reach := by
    intro edge inside
    rcases mem_append.mp inside with old | new
    · exact progress.out_reach edge old
    · exact ⟨x, progress.stack_reach x (.head _), new⟩
  out_added := by
    intro edge inside
    rcases mem_append.mp inside with old | new
    · exact pushed.added_mono _ (progress.out_added edge old)
    · exact pushed.targets edge new
  known := by
    -- A node that was known is on the stack still, or is the one just expanded, or was expanded before.
    have old : ∀ y, y = start ∨ y ∈ added → y ∈ stack' ∨ ∀ edge ∈ children y, edge ∈ out ++ children x := by
      intro y known
      rcases progress.known y known with waiting | done
      · rcases mem_cons.mp waiting with rfl | waiting
        · exact .inr fun edge inside => mem_append_right _ inside
        · exact .inl (pushed.stack_mono y waiting)
      · exact .inr fun edge inside => mem_append_left _ (done edge inside)
    rintro y (isStart | inside)
    · exact old y (.inl isStart)
    · rcases pushed.added_new y inside with before | waiting
      · exact old y (.inr before)
      · exact .inl waiting

omit [DecidableEq α] in
theorem Progress.done (progress : Progress children target start [] added out)
    (edge : β) : edge ∈ out ↔ ∃ x, Reach children target start x ∧ edge ∈ children x := by
  refine ⟨progress.out_reach edge, ?_⟩
  rintro ⟨x, reach, inside⟩
  have expanded : ∀ y, y = start ∨ y ∈ added → ∀ edge ∈ children y, edge ∈ out := by
    intro y known
    exact (progress.known y known).resolve_left (by simp)
  have known : x = start ∨ x ∈ added := by
    clear inside
    induction reach with
    | refl => exact .inl rfl
    | tail _ step ih =>
      obtain ⟨edge, out, rfl⟩ := step
      exact .inr (progress.out_added edge (expanded _ ih edge out))
  exact expanded x known edge inside

variable {expand : σ → α → σ × List β} {Inv : σ → List β → Prop}

section
variable (keeps : ∀ {s out} (x), Inv s out → Inv (expand s x).1 (out ++ (expand s x).2) ∧ (expand s x).2 = children x)
include keeps

theorem search_progress
    {nodes : Finset α} (inside : ∀ x, ∀ edge ∈ children x, target edge ∈ nodes) {fuel : Nat} {s : σ}
    {stack : List α} (progress : Progress children target start stack added out) (inv : Inv s out)
    (enough : (nodes \ added.toFinset).card + stack.length ≤ fuel) :
    ∃ s' out', search expand target fuel s stack added out = some (s', out') ∧ Inv s' out' ∧
      ∀ edge, edge ∈ out' ↔ ∃ x, Reach children target start x ∧ edge ∈ children x := by
  induction fuel generalizing s stack added out with
  | zero =>
    obtain rfl : stack = [] := length_eq_zero_iff.mp (by omega)
    exact ⟨s, out, by simp [search], inv, progress.done⟩
  | succ fuel ih =>
    cases stack with
    | nil => exact ⟨s, out, by simp [search], inv, progress.done⟩
    | cons x stack =>
      obtain ⟨invNext, found⟩ := keeps x inv
      have pushed := pushed_foldl target (children x) stack added
      have room := pushed.room nodes (inside x)
      rw [found] at invNext
      simp only [search, found]
      refine ih (progress.round pushed) invNext ?_
      simp only [length_cons] at enough
      omega

end

end

end Cspn.Worklist
