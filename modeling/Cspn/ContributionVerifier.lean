import Cspn.Pool
import Cspn.Primitives

/-!
The check of secret key contributions by the worker pool. Vectors and shares are added up in batches of eight, and a
batch that fails is checked one by one. For no shares, or in the aggregated mode for empty vectors, no answer comes,
and an invalid share fails an assertion. Otherwise there is exactly one answer under every schedule.
-/
namespace Cspn.ContributionVerifier
open Primitives List Option Function Bool List Pool Nat
set_option linter.unusedSectionVars false

inductive Abort where
  | assertion
  | outOfRange

structure Bls (Pub Sec Id : Type) where
  getHash : Pub → Uint256
  aggregatePub : Pub → Pub → Pub
  aggregateSec : Sec → Sec → Sec
  publicKeyShare : List Pub → Id → Option Pub
  getPublicKey : Sec → Pub

/-- The arguments of `AsyncVerifyContributionShares`. An invalid object or a null pointer is `none`. -/
structure Input (Pub Sec Id : Type) where
  forId : Option Id
  vvecs : List (Option (List (Option Pub)))
  skShares : List (Option Sec)
  sameLength : vvecs.length = skShares.length
  parallel : Bool
  aggregated : Bool

variable {Pub Sec Id : Type} [DecidableEq Pub] (bls : Bls Pub Sec Id)

section
variable (vvecs : List (Option (List (Option Pub))))

def firstSize : Nat := ((vvecs.head?.bind id).map length).getD 0

def addKey (set : List Uint256) (key : Option Pub) : Option (List Uint256) :=
  key.bind fun key => if bls.getHash key ∈ set then none else some (bls.getHash key :: set)

def addVvec (set : List Uint256) (vvec : Option (List (Option Pub))) : Option (List Uint256) :=
  vvec.bind fun vvec => if vvec.length ≠ firstSize vvecs then none else vvec.foldlM (addKey bls) set

def verifyVerificationVectors : Bool := (vvecs.foldlM (addVvec bls vvecs) []).isSome

end

/-- `SyncAggregate`: the sum asserts that both sides are valid. -/
def syncAggregate {α : Type} (aggregate : α → α → α) : List (Option α) → Except Abort (Option α)
  | [] => .error .outOfRange
  | first :: rest =>
    rest.foldlM (fun result next =>
      match result, next with
      | some result, some next => .ok (some (aggregate result next))
      | _, _ => .error .assertion) first

structure BatchState (Pub Sec : Type) where
  result : List (Option Pub)
  doneCount : Nat
  vvec : Option (List (Option Pub))
  skShare : Option Sec
  aggDone : Nat
  verifyResults : List Bool

structure State (Pub Sec : Type) where
  batchStates : Nat → BatchState Pub Sec
  verifyDoneCount : Nat
  answers : List (List Bool)

/-- The tasks of the pool: the sums of one entry of a batch's vectors and of its shares, the checks of a batch and of
a share. -/
inductive Task where
  | aggregateVvec (batchIdx idx : Nat)
  | aggregateSkShare (batchIdx : Nat)
  | verifyBatch (batchIdx : Nat)
  | verifyOne (batchIdx i : Nat)

namespace Input
variable (input : Input Pub Sec Id)

def verifyCount : Nat := input.vvecs.length

def batchSize : Nat := if input.aggregated then 8 else input.vvecs.length

def batchCount : Nat := if input.aggregated then (input.vvecs.length + 8 - 1) / 8 else 1

variable (s : State Pub Sec) (batchIdx : Nat) (batchState : BatchState Pub Sec)

def start : Nat := batchIdx * input.batchSize

def count : Nat := min input.batchSize (input.vvecs.length - input.start batchIdx)

def vecSize : Nat := firstSize input.vvecs

def key (k idx : Nat) : Option Pub := ((input.vvecs[k]?.bind id).bind fun vvec => vvec[idx]?).bind id

def column (idx : Nat) : List (Option Pub) :=
  (range (input.count batchIdx)).map fun j => input.key (input.start batchIdx + j) idx

def shares : List (Option Sec) :=
  (range (input.count batchIdx)).map fun j => input.skShares[input.start batchIdx + j]?.bind id

def verify (vvec : List (Option Pub)) (skShare : Option Sec) : Bool :=
  match input.forId.bind fun id => if vvec.all isSome then bls.publicKeyShare vvec.reduceOption id else none with
  | none => false
  | some pk1 => decide (some pk1 = skShare.map bls.getPublicKey)

def finish : List Bool :=
  (range input.batchCount).foldl (fun result batchIdx =>
    (range (input.count batchIdx)).foldl (fun result j =>
      result.set (input.start batchIdx + j) ((s.batchStates batchIdx).verifyResults.getD j false)) result)
    (replicate input.vvecs.length false)

def setBatch : State Pub Sec :=
  { s with batchStates := update s.batchStates batchIdx batchState }

def handleVerifyDone (count : Nat) : State Pub Sec :=
  let c := s.verifyDoneCount + count
  { s with
    verifyDoneCount := c
    answers := if c = input.verifyCount then s.answers ++ [input.finish s] else s.answers }

def handleAggDone : State Pub Sec × List Task :=
  let batchState := s.batchStates batchIdx
  if (batchState.vvec.getD []).isEmpty || batchState.skShare.isNone then
    (input.handleVerifyDone
      (setBatch s batchIdx { batchState with verifyResults := replicate (input.count batchIdx) false })
      (input.count batchIdx), [])
  else (s, [.verifyBatch batchIdx])

def addEntry (idx : Nat) (agg : Option Pub) : BatchState Pub Sec :=
  { batchState with result := batchState.result.set idx agg, doneCount := batchState.doneCount + 1 }

def handleAgg : State Pub Sec × List Task :=
  let s := setBatch s batchIdx { batchState with aggDone := batchState.aggDone + 1 }
  if batchState.aggDone + 1 = 2 then input.handleAggDone s batchIdx else (s, [])

def exec : Task → Except Abort (State Pub Sec × List Task)
  | .aggregateVvec batchIdx idx => do
    let agg ← syncAggregate bls.aggregatePub (input.column batchIdx idx)
    let batchState := addEntry (s.batchStates batchIdx) idx agg
    if batchState.doneCount = input.vecSize then
      .ok (input.handleAgg s batchIdx { batchState with vvec := some batchState.result })
    else .ok (setBatch s batchIdx batchState, [])
  | .aggregateSkShare batchIdx => do
    let skShare ← syncAggregate bls.aggregateSec (input.shares batchIdx)
    .ok (input.handleAgg s batchIdx { s.batchStates batchIdx with skShare })
  | .verifyBatch batchIdx =>
    let batchState := s.batchStates batchIdx
    let count := input.count batchIdx
    if input.verify bls (batchState.vvec.getD []) batchState.skShare then
      .ok (input.handleVerifyDone
        (setBatch s batchIdx { batchState with verifyResults := replicate count true }) count, [])
    else
      .ok (setBatch s batchIdx { batchState with verifyResults := replicate count false },
        (range count).map (.verifyOne batchIdx))
  | .verifyOne batchIdx i =>
    let batchState := s.batchStates batchIdx
    let k := input.start batchIdx + i
    let result := input.verify bls ((input.vvecs[k]?.bind id).getD []) (input.skShares[k]?.bind id)
    .ok (input.handleVerifyDone
      (setBatch s batchIdx { batchState with verifyResults := batchState.verifyResults.set i result }) 1, [])

def initState : State Pub Sec where
  batchStates batchIdx :=
    ⟨replicate input.vecSize none, 0, none, none, 0, replicate (input.count batchIdx) false⟩
  verifyDoneCount := 0
  answers := []

def initTasks : List Task :=
  if input.aggregated then
    (range input.batchCount).flatMap fun batchIdx =>
      (range input.vecSize).map (.aggregateVvec batchIdx) ++ [.aggregateSkShare batchIdx]
  else (range (input.count 0)).map (.verifyOne 0)

def asyncVerifyContributionShares : State Pub Sec × List Task :=
  if input.forId.isNone || !verifyVerificationVectors bls input.vvecs then
    ({ input.initState with answers := [replicate input.vvecs.length false] }, [])
  else (input.initState, input.initTasks)

/-- The schedules that are possible: without `parallel` every task is run at once. -/
def Schedules (schedule : List Nat) : Prop := input.parallel = true ∨ ∀ i ∈ schedule, i = 0

/-- Every schedule comes to an end with exactly one answer, of the length of the input. -/
def AlwaysAnswers : Prop :=
  ∃ bound, ∀ schedule, input.Schedules schedule → bound ≤ schedule.length →
    ∃ final result, run (input.exec bls) (input.asyncVerifyContributionShares bls) schedule = .ok (final, []) ∧
      final.answers = [result] ∧ result.length = input.vvecs.length

/-- The input is rejected at once, or it has shares and, where they are added up, the vectors have entries and no
batch of several an invalid share. -/
def Answerable : Prop :=
  input.forId = none ∨ verifyVerificationVectors bls input.vvecs = false ∨
    (input.vvecs ≠ [] ∧ (input.aggregated = true → input.vecSize ≠ 0 ∧
      ∀ batchIdx < input.batchCount, 2 ≤ input.count batchIdx → ∀ share ∈ input.shares batchIdx, share.isSome))

theorem count_pos (some : input.vvecs ≠ []) {batchIdx : Nat} (inside : batchIdx < input.batchCount) :
    1 ≤ input.count batchIdx := by
  have positive := length_pos_iff.mpr some
  rw [batchCount] at inside
  rw [count, start, batchSize]
  split_ifs at inside ⊢ with aggregated
  · omega
  · obtain rfl : batchIdx = 0 := by omega
    omega

theorem sum_count_range (aggregated : input.aggregated = true) (k : Nat) :
    ∑ batchIdx ∈ Finset.range k, input.count batchIdx = min (8 * k) input.vvecs.length := by
  induction k with
  | zero => simp
  | succ k ih =>
    rw [Finset.sum_range_succ, ih, count, start, batchSize, if_pos aggregated]
    omega

theorem sum_count (aggregated : input.aggregated = true) :
    ∑ batchIdx ∈ Finset.range input.batchCount, input.count batchIdx = input.vvecs.length := by
  rw [input.sum_count_range aggregated, batchCount, if_pos aggregated]
  omega

theorem count_zero (single : input.aggregated = false) : input.count 0 = input.vvecs.length := by
  rw [count, start, batchSize, single]
  simp

theorem length_finish : (input.finish s).length = input.vvecs.length := by
  -- the entries are set in place
  refine foldlRecOn (motive := fun result : List Bool => result.length = input.vvecs.length) _ _ length_replicate ?_
  intro result length batchIdx _
  refine foldlRecOn (motive := fun result : List Bool => result.length = input.vvecs.length) _ _ length ?_
  intro result length j _
  rw [length_set, length]

@[simp] theorem batchStates_setBatch_self : (setBatch s batchIdx batchState).batchStates batchIdx = batchState := by
  simp [setBatch]

theorem batchStates_setBatch_of_ne {batchIdx other : Nat} (apart : other ≠ batchIdx)
    (batchState : BatchState Pub Sec) : (setBatch s batchIdx batchState).batchStates other = s.batchStates other := by
  simp [setBatch, update_of_ne apart]

/-! ### What is owed -/

/-- The shares of a batch are owed until its sums are done; from then on its tasks owe them. -/
def owed (aggDone batchIdx : Nat) : Nat := if input.aggregated ∧ aggDone < 2 then input.count batchIdx else 0

def totalOwed : Nat :=
  ∑ batchIdx ∈ Finset.range input.batchCount, input.owed (s.batchStates batchIdx).aggDone batchIdx

def credit : Task → Nat
  | .aggregateVvec _ _ | .aggregateSkShare _ => 0
  | .verifyBatch batchIdx => input.count batchIdx
  | .verifyOne _ _ => 1

/-- More than the tasks that a task can lead to. -/
def weight : Task → Nat
  | .aggregateVvec batchIdx _ | .aggregateSkShare batchIdx => input.count batchIdx + 2
  | .verifyBatch batchIdx => input.count batchIdx + 1
  | .verifyOne _ _ => 1

def isVvecOf : Task → Bool
  | .aggregateVvec other _ => other == batchIdx
  | _ => false

def isSkShareOf : Task → Bool
  | .aggregateSkShare other => other == batchIdx
  | _ => false

def TaskOk : Task → Prop
  | .aggregateVvec batchIdx idx => input.aggregated = true ∧ batchIdx < input.batchCount ∧ idx < input.vecSize
  | .aggregateSkShare batchIdx => input.aggregated = true ∧ batchIdx < input.batchCount
  | .verifyBatch batchIdx | .verifyOne batchIdx _ => batchIdx < input.batchCount

/-- The sums of a batch that are queued and those that are done add up. -/
structure SumsOk (doneCount aggDone : Nat) (pool : List Task) (batchIdx : Nat) : Prop where
  vvecs : pool.countP (isVvecOf batchIdx) + doneCount = input.vecSize
  skShares : pool.countP (isSkShareOf batchIdx) + aggDone = 1 + if doneCount = input.vecSize then 1 else 0

/-- Every share is done, or owed by a batch or a task; the answer is given when all are done. -/
structure Inv (s : State Pub Sec) (pool : List Task) (due : Nat) : Prop where
  tasks : ∀ task ∈ pool, input.TaskOk task
  sums : input.aggregated = true → ∀ batchIdx < input.batchCount,
    input.SumsOk (s.batchStates batchIdx).doneCount (s.batchStates batchIdx).aggDone pool batchIdx
  shares : input.totalOwed s + (pool.map input.credit).sum + due + s.verifyDoneCount = input.vvecs.length
  answers : s.answers = [] ∧ s.verifyDoneCount < input.vvecs.length ∨
    ∃ result, s.answers = [result] ∧ result.length = input.vvecs.length ∧ s.verifyDoneCount = input.vvecs.length

section
variable {input} {s : State Pub Sec} {pool : List Task} {due : Nat}

theorem Inv.perm {pool' : List Task} (same : pool.Perm pool') (inv : input.Inv s pool due) :
    input.Inv s pool' due where
  tasks task member := inv.tasks task (same.mem_iff.mpr member)
  sums aggregated batchIdx inside :=
    have ok := inv.sums aggregated batchIdx inside
    ⟨(same.countP_eq _) ▸ ok.vvecs, (same.countP_eq _) ▸ ok.skShares⟩
  shares := (same.map input.credit).sum_eq ▸ inv.shares
  answers := inv.answers

variable {task : Task}

theorem Inv.take (inv : input.Inv s (task :: pool) 0) (noVvec : ∀ batchIdx, isVvecOf batchIdx task = false)
    (noSkShare : ∀ batchIdx, isSkShareOf batchIdx task = false) : input.Inv s pool (input.credit task) where
  tasks other member := inv.tasks other (.tail _ member)
  sums aggregated batchIdx inside := by
    have ok := inv.sums aggregated batchIdx inside
    constructor
    · simpa [noVvec] using ok.vvecs
    · simpa [noSkShare] using ok.skShares
  shares := by
    have shares := inv.shares
    rw [map_cons, sum_cons] at shares
    omega
  answers := inv.answers

theorem Inv.queue {queued : List Task} (inv : input.Inv s pool due)
    (tasks : ∀ task ∈ queued, input.TaskOk task) (noVvec : ∀ task ∈ queued, ∀ batchIdx, isVvecOf batchIdx task = false)
    (noSkShare : ∀ task ∈ queued, ∀ batchIdx, isSkShareOf batchIdx task = false)
    (credits : (queued.map input.credit).sum = due) : input.Inv s (queued ++ pool) 0 where
  tasks task member := (mem_append.mp member).elim (tasks task) (inv.tasks task)
  sums aggregated batchIdx inside := by
    have ok := inv.sums aggregated batchIdx inside
    have none : queued.countP (isVvecOf batchIdx) = 0 :=
      countP_eq_zero.mpr fun task member => by simp [noVvec task member]
    have none' : queued.countP (isSkShareOf batchIdx) = 0 :=
      countP_eq_zero.mpr fun task member => by simp [noSkShare task member]
    constructor
    · simpa [none] using ok.vvecs
    · simpa [none'] using ok.skShares
  shares := by
    have shares := inv.shares
    rw [map_append, List.sum_append]
    omega
  answers := inv.answers

theorem Inv.setResults (inv : input.Inv s pool due) (batchIdx : Nat) (verifyResults : List Bool) :
    input.Inv (setBatch s batchIdx { s.batchStates batchIdx with verifyResults }) pool due := by
  set after := setBatch s batchIdx { s.batchStates batchIdx with verifyResults } with isAfter
  have same : ∀ other, (after.batchStates other).aggDone = (s.batchStates other).aggDone ∧
      (after.batchStates other).doneCount = (s.batchStates other).doneCount := by
    intro other
    by_cases own : other = batchIdx
    · simp [isAfter, own]
    · simp [isAfter, batchStates_setBatch_of_ne s own]
  refine ⟨inv.tasks, fun aggregated other inside => ?_, ?_, inv.answers⟩
  · have ok := inv.sums aggregated other inside
    rw [(same other).1, (same other).2]
    exact ok
  · have total : input.totalOwed after = input.totalOwed s :=
      Finset.sum_congr rfl fun other _ => by rw [(same other).1]
    rw [total]
    exact inv.shares

theorem Inv.handleVerifyDone (inv : input.Inv s pool due) (some : 1 ≤ due) :
    input.Inv (input.handleVerifyDone s due) pool 0 := by
  have shares := inv.shares
  refine ⟨inv.tasks, inv.sums, ?_, ?_⟩
  · change input.totalOwed s + (pool.map input.credit).sum + 0 + (s.verifyDoneCount + due) = _
    omega
  · have before : s.answers = [] := by
      rcases inv.answers with ⟨none, -⟩ | ⟨_, -, -, all⟩
      · exact none
      · omega
    by_cases last : s.verifyDoneCount + due = input.vvecs.length
    · refine .inr ⟨input.finish s, ?_, input.length_finish s, last⟩
      simp [Input.handleVerifyDone, verifyCount, last, before]
    · refine .inl ⟨?_, ?_⟩
      · simp [Input.handleVerifyDone, verifyCount, last, before]
      · change s.verifyDoneCount + due < _
        omega

theorem Inv.handleAggDone (some : input.vvecs ≠ []) {batchIdx : Nat} (inside : batchIdx < input.batchCount)
    (inv : input.Inv s pool (input.count batchIdx)) :
    input.Inv (input.handleAggDone s batchIdx).1 ((input.handleAggDone s batchIdx).2 ++ pool) 0 ∧
      ((input.handleAggDone s batchIdx).2.map input.weight).sum ≤ input.count batchIdx + 1 := by
  rw [Input.handleAggDone]
  split_ifs with wrong
  · exact ⟨(inv.setResults batchIdx _).handleVerifyDone (input.count_pos some inside), zero_le _⟩
  · refine ⟨inv.queue ?_ ?_ ?_ ?_, ?_⟩
    · simpa [TaskOk] using inside
    · simp [isVvecOf]
    · simp [isSkShareOf]
    · simp [credit]
    · simp [weight]

theorem totalOwed_setBatch {batchIdx : Nat} (inside : batchIdx < input.batchCount) (batchState : BatchState Pub Sec) :
    input.totalOwed (setBatch s batchIdx batchState) + input.owed (s.batchStates batchIdx).aggDone batchIdx =
      input.totalOwed s + input.owed batchState.aggDone batchIdx := by
  have member := Finset.mem_range.mpr inside
  rw [totalOwed, totalOwed, ← Finset.sum_erase_add _ _ member, ← Finset.sum_erase_add _ _ member]
  have others : ∑ other ∈ (Finset.range input.batchCount).erase batchIdx,
        input.owed ((setBatch s batchIdx batchState).batchStates other).aggDone other =
      ∑ other ∈ (Finset.range input.batchCount).erase batchIdx, input.owed (s.batchStates other).aggDone other := by
    refine Finset.sum_congr rfl fun other isOther => ?_
    rw [batchStates_setBatch_of_ne s (Finset.ne_of_mem_erase isOther)]
  rw [others, batchStates_setBatch_self]
  omega

section
variable (inv : input.Inv s (task :: pool) 0) (none : input.credit task = 0) (aggregated : input.aggregated = true)
  {batchIdx : Nat} (inside : batchIdx < input.batchCount)
  (others : ∀ other, other ≠ batchIdx → isVvecOf other task = false ∧ isSkShareOf other task = false)
include inv none aggregated inside others

theorem Inv.setBatch
    {batchState : BatchState Pub Sec} (sums : input.SumsOk batchState.doneCount batchState.aggDone pool batchIdx)
    (owed : input.owed (s.batchStates batchIdx).aggDone batchIdx = input.owed batchState.aggDone batchIdx + due) :
    input.Inv (setBatch s batchIdx batchState) pool due where
  tasks other member := inv.tasks other (.tail _ member)
  sums _ other otherInside := by
    by_cases own : other = batchIdx
    · subst own
      simpa using sums
    · have ok := inv.sums aggregated other otherInside
      obtain ⟨noVvec, noSkShare⟩ := others other own
      constructor
      · simpa [batchStates_setBatch_of_ne s own, noVvec] using ok.vvecs
      · simpa [batchStates_setBatch_of_ne s own, noSkShare] using ok.skShares
  shares := by
    have shares := inv.shares
    have total := @totalOwed_setBatch _ _ _ _ input s batchIdx inside batchState
    rw [map_cons, sum_cons, none] at shares
    change _ + s.verifyDoneCount = _
    omega
  answers := inv.answers

/-- A sum is the last of its kind, and if it is the last of its batch the check follows. -/
theorem Inv.handleAgg (some : input.vvecs ≠ [])
    (batchState : BatchState Pub Sec) (same : batchState.aggDone = (s.batchStates batchIdx).aggDone)
    (sums : input.SumsOk batchState.doneCount (batchState.aggDone + 1) pool batchIdx)
    (atMost : batchState.aggDone + 1 ≤ 2) :
    input.Inv (input.handleAgg s batchIdx batchState).1 ((input.handleAgg s batchIdx batchState).2 ++ pool) 0 ∧
      ((input.handleAgg s batchIdx batchState).2.map input.weight).sum ≤ input.count batchIdx + 1 := by
  rw [Input.handleAgg]
  split_ifs with both
  · refine Inv.handleAggDone some inside (inv.setBatch none aggregated inside others sums ?_)
    have before : batchState.aggDone < 2 := by omega
    have after : ¬ batchState.aggDone + 1 < 2 := by omega
    simp [Input.owed, ← same, aggregated, before, after]
  · refine ⟨inv.setBatch none aggregated inside others sums ?_, zero_le _⟩
    have before : batchState.aggDone < 2 := by omega
    have after : batchState.aggDone + 1 < 2 := by omega
    simp [Input.owed, ← same, before, after]

end

end

theorem syncAggregate_some {α : Type} (aggregate : α → α → α) {first : Option α} {rest : List (Option α)}
    (valid : rest ≠ [] → first.isSome ∧ ∀ next ∈ rest, next.isSome) :
    ∃ result, syncAggregate aggregate (first :: rest) = .ok result := by
  induction rest generalizing first with
  | nil => exact ⟨first, rfl⟩
  | cons next others ih =>
    obtain ⟨isFirst, isRest⟩ := valid (cons_ne_nil _ _)
    obtain ⟨x, rfl⟩ := isSome_iff_exists.mp isFirst
    obtain ⟨y, rfl⟩ := isSome_iff_exists.mp (isRest next (.head _))
    exact @ih (some (aggregate x y)) fun _ => ⟨rfl, fun z member => isRest z (.tail _ member)⟩

theorem syncAggregate_invalid {α : Type} (aggregate : α → α → α) {objects : List (Option α)} (several : 2 ≤ objects.length)
    (invalid : none ∈ objects) : syncAggregate aggregate objects = .error .assertion := by
  match objects, several with
  | first :: second :: rest, _ =>
    rw [syncAggregate]
    clear several
    induction rest generalizing first second with
    | nil =>
      rcases mem_cons.mp invalid with rfl | later
      · rfl
      · obtain rfl := mem_singleton.mp later
        cases first <;> rfl
    | cons third others ih =>
      cases first with
      | none => rfl
      | some x =>
        cases second with
        | none => rfl
        | some y =>
          exact ih (some (aggregate x y)) third (by simp) (by simpa using invalid)

theorem of_verifyVerificationVectors {vvecs : List (Option (List (Option Pub)))}
    (verified : verifyVerificationVectors bls vvecs = true) :
    ∀ vvec ∈ vvecs, ∃ keys, vvec = some keys ∧ keys.length = firstSize vvecs ∧ ∀ key ∈ keys, key.isSome := by
  intro vvec member
  obtain ⟨_, folded⟩ := isSome_iff_exists.mp verified
  obtain ⟨set, middle, added⟩ := Folds.foldlM_some_each folded member
  obtain ⟨keys, isVvec, later⟩ := bind_eq_some_iff.mp added
  split_ifs at later with size
  refine ⟨keys, isVvec, not_not.mp size, fun key inKeys => ?_⟩
  obtain ⟨_, _, added⟩ := Folds.foldlM_some_each later inKeys
  obtain ⟨valid, isValid, -⟩ := bind_eq_some_iff.mp added
  rw [isValid]
  rfl

variable {bls}

theorem column_isSome (verified : verifyVerificationVectors bls input.vvecs = true) {batchIdx idx : Nat}
    (place : idx < input.vecSize) : ∀ key ∈ input.column batchIdx idx, key.isSome := by
  intro key member
  obtain ⟨j, inRange, rfl⟩ := mem_map.mp member
  have less := mem_range.mp inRange
  have bound : input.start batchIdx + j < input.vvecs.length := by
    rw [count] at less
    omega
  obtain ⟨keys, isKeys, size, valid⟩ := of_verifyVerificationVectors bls verified _ (getElem_mem bound)
  have inKeys : idx < keys.length := by rw [size]; exact place
  have found : input.key (input.start batchIdx + j) idx = keys[idx] := by
    simp [Input.key, getElem?_eq_getElem bound, isKeys, getElem?_eq_getElem inKeys]
  rw [found]
  exact valid _ (getElem_mem inKeys)

theorem exists_cons_range_map {α : Type} {n : Nat} (positive : 1 ≤ n) (f : Nat → α) :
    ∃ first rest, (range n).map f = first :: rest := by
  apply exists_cons_of_ne_nil
  simpa using Nat.one_le_iff_ne_zero.mp positive

section
variable {s : State Pub Sec} {pool : List Task}

/-- The task is executed, the invariant holds again and the pool has become lighter. -/
abbrev Executes (bls : Bls Pub Sec Id) (s : State Pub Sec) (pool : List Task) (task : Task) : Prop :=
  ∃ after queued, input.exec bls s task = .ok (after, queued) ∧ input.Inv after (queued ++ pool) 0 ∧
    (queued.map input.weight).sum < input.weight task

abbrev SharesValid : Prop := input.aggregated = true → ∀ batchIdx < input.batchCount, 2 ≤ input.count batchIdx →
  ∀ share ∈ input.shares batchIdx, share.isSome

theorem exec_aggregateSkShare (some : input.vvecs ≠ []) (valid : input.SharesValid) {batchIdx : Nat}
    (inv : input.Inv s (.aggregateSkShare batchIdx :: pool) 0) :
    input.Executes bls s pool (.aggregateSkShare batchIdx) := by
  obtain ⟨aggregated, inside⟩ := inv.tasks _ (.head _)
  obtain ⟨vvecs, skShares⟩ := inv.sums aggregated batchIdx inside
  obtain ⟨agg, aggregates⟩ : ∃ agg, syncAggregate bls.aggregateSec (input.shares batchIdx) = .ok agg := by
    have sharesValid := valid aggregated batchIdx inside
    obtain ⟨first, rest, isShares⟩ := exists_cons_range_map (input.count_pos some inside)
      fun j => input.skShares[input.start batchIdx + j]?.bind id
    have length := congrArg length isShares
    simp only [length_map, length_range, length_cons] at length
    rw [shares, isShares] at sharesValid ⊢
    refine syncAggregate_some bls.aggregateSec fun more => forall_mem_cons.mp (sharesValid ?_)
    have := length_pos_iff.mpr more
    omega
  have others : ∀ other, other ≠ batchIdx →
      isVvecOf other (.aggregateSkShare batchIdx) = false ∧ isSkShareOf other (.aggregateSkShare batchIdx) = false := by
    intro other apart
    simp [isVvecOf, isSkShareOf, apart.symm]
  simp only [countP_cons, isVvecOf, isSkShareOf, beq_self_eq_true, if_true, false_eq_true, if_false,
    add_zero] at vvecs skShares
  have atMost : (s.batchStates batchIdx).aggDone + 1 ≤ 2 := by
    split_ifs at skShares <;> omega
  have executed : input.exec bls s (.aggregateSkShare batchIdx) =
      .ok (input.handleAgg s batchIdx { s.batchStates batchIdx with skShare := agg }) := by
    rw [exec, aggregates]
    rfl
  have sums : input.SumsOk (s.batchStates batchIdx).doneCount ((s.batchStates batchIdx).aggDone + 1) pool batchIdx :=
    ⟨vvecs, by omega⟩
  obtain ⟨keeps, light⟩ := inv.handleAgg rfl aggregated inside others some
    { s.batchStates batchIdx with skShare := agg } rfl sums atMost
  exact ⟨_, _, executed, keeps, lt_succ_of_le light⟩

variable (some : input.vvecs ≠ []) (verified : verifyVerificationVectors bls input.vvecs = true)
include some verified

theorem exec_aggregateVvec {batchIdx idx : Nat} (inv : input.Inv s (.aggregateVvec batchIdx idx :: pool) 0) :
    input.Executes bls s pool (.aggregateVvec batchIdx idx) := by
  obtain ⟨aggregated, inside, place⟩ := inv.tasks _ (.head _)
  obtain ⟨vvecs, skShares⟩ := inv.sums aggregated batchIdx inside
  obtain ⟨agg, aggregates⟩ : ∃ agg, syncAggregate bls.aggregatePub (input.column batchIdx idx) = .ok agg := by
    have valid := @column_isSome _ _ _ _ _ input verified batchIdx idx place
    obtain ⟨first, rest, isColumn⟩ := exists_cons_range_map (input.count_pos some inside)
      fun j => input.key (input.start batchIdx + j) idx
    rw [column, isColumn] at valid ⊢
    exact syncAggregate_some bls.aggregatePub fun _ => forall_mem_cons.mp valid
  have others : ∀ other, other ≠ batchIdx →
      isVvecOf other (.aggregateVvec batchIdx idx) = false ∧ isSkShareOf other (.aggregateVvec batchIdx idx) = false := by
    intro other apart
    simp [isVvecOf, isSkShareOf, apart.symm]
  simp only [countP_cons, isVvecOf, isSkShareOf, beq_self_eq_true, if_true, false_eq_true, if_false,
    add_zero] at vvecs skShares
  rw [if_neg (by omega)] at skShares
  obtain ⟨entry, isEntry⟩ : ∃ entry, entry = addEntry (s.batchStates batchIdx) idx agg := ⟨_, rfl⟩
  have executed : input.exec bls s (.aggregateVvec batchIdx idx) =
      if entry.doneCount = input.vecSize then
        .ok (input.handleAgg s batchIdx { entry with vvec := Option.some entry.result })
      else .ok (setBatch s batchIdx entry, []) := by
    rw [exec, aggregates, isEntry]
    rfl
  have doneCount : entry.doneCount = (s.batchStates batchIdx).doneCount + 1 := by rw [isEntry]; rfl
  have aggDone : entry.aggDone = (s.batchStates batchIdx).aggDone := by rw [isEntry]; rfl
  by_cases last : entry.doneCount = input.vecSize
  · rw [if_pos last] at executed
    have sums : input.SumsOk entry.doneCount (entry.aggDone + 1) pool batchIdx := ⟨by omega, by rw [if_pos last]; omega⟩
    obtain ⟨keeps, light⟩ := inv.handleAgg rfl aggregated inside others some
      { entry with vvec := Option.some entry.result } aggDone sums (by simp only; omega)
    exact ⟨_, _, executed, keeps, lt_succ_of_le light⟩
  · rw [if_neg last] at executed
    have sums : input.SumsOk entry.doneCount entry.aggDone pool batchIdx := ⟨by omega, by rw [if_neg last]; omega⟩
    exact ⟨_, [], executed, inv.setBatch rfl aggregated inside others sums (by rw [aggDone, add_zero]), by simp [weight]⟩

theorem exec_spec (valid : input.SharesValid) {task : Task} (inv : input.Inv s (task :: pool) 0) :
    input.Executes bls s pool task := by
  cases task with
  | aggregateVvec batchIdx idx => exact input.exec_aggregateVvec some verified inv
  | aggregateSkShare batchIdx => exact input.exec_aggregateSkShare some valid inv
  | verifyBatch batchIdx =>
    have inside : batchIdx < input.batchCount := inv.tasks _ (.head _)
    have taken : input.Inv s pool (input.count batchIdx) := inv.take (by simp [isVvecOf]) (by simp [isSkShareOf])
    by_cases passes : input.verify bls ((s.batchStates batchIdx).vvec.getD []) (s.batchStates batchIdx).skShare
    · refine ⟨_, [], by simp only [exec, passes, if_true]; rfl, ?_, by simp [weight]⟩
      exact (taken.setResults batchIdx _).handleVerifyDone (input.count_pos some inside)
    · refine ⟨_, _, by simp only [exec, passes, false_eq_true, if_false]; rfl, ?_, ?_⟩
      · refine (taken.setResults batchIdx _).queue ?_ ?_ ?_ ?_
        · intro task member
          obtain ⟨i, -, rfl⟩ := mem_map.mp member
          exact inside
        · intro task member
          obtain ⟨i, -, rfl⟩ := mem_map.mp member
          exact fun _ => rfl
        · intro task member
          obtain ⟨i, -, rfl⟩ := mem_map.mp member
          exact fun _ => rfl
        · simp [credit, comp_def]
      · simp [weight, comp_def]
  | verifyOne batchIdx i =>
    have taken : input.Inv s pool 1 := inv.take (by simp [isVvecOf]) (by simp [isSkShareOf])
    exact ⟨_, [], rfl, (taken.setResults batchIdx _).handleVerifyDone (le_refl 1), by simp [weight]⟩

end

theorem Inv.answered {input : Input Pub Sec Id} {s : State Pub Sec} (inv : input.Inv s [] 0) :
    ∃ result, s.answers = [result] ∧ result.length = input.vvecs.length := by
  have total : input.totalOwed s = 0 := by
    refine Finset.sum_eq_zero fun batchIdx member => ?_
    by_cases aggregated : input.aggregated = true
    · obtain ⟨vvecs, skShares⟩ := inv.sums aggregated batchIdx (Finset.mem_range.mp member)
      simp only [countP_nil, zero_add] at vvecs skShares
      rw [if_pos vvecs] at skShares
      simp [Input.owed, skShares]
    · simp [Input.owed, aggregated]
  have shares := inv.shares
  simp only [map_nil, sum_nil] at shares
  rcases inv.answers with ⟨-, less⟩ | ⟨result, answers, length, -⟩
  · omega
  · exact ⟨result, answers, length⟩

section
variable (aggregated : input.aggregated = true)
include aggregated

theorem countP_initTasks (batchIdx : Nat) :
    input.initTasks.countP (isVvecOf batchIdx) = (if batchIdx < input.batchCount then input.vecSize else 0) ∧
      input.initTasks.countP (isSkShareOf batchIdx) = if batchIdx < input.batchCount then 1 else 0 := by
  rw [initTasks, if_pos aggregated]
  generalize input.batchCount = k
  have vvecs : ∀ other, ((range input.vecSize).map (Task.aggregateVvec other)).countP (isVvecOf batchIdx) =
      if other = batchIdx then input.vecSize else 0 := by
    intro other
    by_cases same : other = batchIdx
    · simp [comp_def, isVvecOf, same]
    · simp [isVvecOf, same]
  have skShares : ∀ other, ((range input.vecSize).map (Task.aggregateVvec other)).countP (isSkShareOf batchIdx) = 0 := by
    intro other
    simp [isSkShareOf]
  induction k with
  | zero => simp
  | succ k ih =>
    simp only [range_succ, flatMap_append, flatMap_singleton, countP_append, countP_singleton,
      ih, vvecs, skShares, isVvecOf, isSkShareOf, beq_iff_eq, false_eq_true, if_false, add_zero, zero_add]
    constructor
    · split_ifs <;> omega
    · split_ifs <;> omega

theorem mem_initTasks {task : Task} (member : task ∈ input.initTasks) :
    ∃ batchIdx < input.batchCount, task = .aggregateSkShare batchIdx ∨
      ∃ idx < input.vecSize, task = .aggregateVvec batchIdx idx := by
  rw [initTasks, if_pos aggregated] at member
  obtain ⟨batchIdx, inside, inBatch⟩ := mem_flatMap.mp member
  refine ⟨batchIdx, mem_range.mp inside, ?_⟩
  rcases mem_append.mp inBatch with isVvec | isSkShare
  · obtain ⟨idx, place, rfl⟩ := mem_map.mp isVvec
    exact .inr ⟨idx, mem_range.mp place, rfl⟩
  · exact .inl (mem_singleton.mp isSkShare)

theorem no_answer_of_vecSize (noEntries : input.vecSize = 0) {schedule : List Nat} {final : State Pub Sec × List Task}
    (ran : run (input.exec bls) (input.initState, input.initTasks) schedule = .ok final) : final.1.answers = [] := by
  let P : State Pub Sec → List Task → Prop := fun s pool =>
    (∀ task ∈ pool, ∃ batchIdx, task = .aggregateSkShare batchIdx) ∧
      (∀ batchIdx, pool.countP (isSkShareOf batchIdx) + (s.batchStates batchIdx).aggDone ≤ 1) ∧ s.answers = []
  have holds : P final.1 final.2 := by
    refine run_keeps (P := P) ?_ ?_ ?_ ran
    · rintro s pool pool' same ⟨tasks, sums, none⟩
      exact ⟨fun task member => tasks task (same.mem_iff.mpr member),
        fun batchIdx => (same.countP_eq _) ▸ sums batchIdx, none⟩
    · rintro s task rest after queued ⟨tasks, sums, none⟩ executed
      obtain ⟨batchIdx, rfl⟩ := tasks task (.head _)
      obtain ⟨skShare, -, result⟩ := Folds.bind_eq_ok.mp executed
      have first := sums batchIdx
      simp only [countP_cons, isSkShareOf, beq_self_eq_true, if_true] at first
      rw [handleAgg, if_neg (by simp only; omega)] at result
      obtain ⟨rfl, rfl⟩ := Prod.mk.inj (Except.ok.inj result)
      refine ⟨fun other member => tasks other (.tail _ member), fun other => ?_, none⟩
      by_cases own : other = batchIdx
      · subst own
        rw [batchStates_setBatch_self]
        simp only [nil_append]
        omega
      · rw [batchStates_setBatch_of_ne s own]
        have before := sums other
        simp only [countP_cons, nil_append] at before ⊢
        omega
    · refine ⟨fun task member => ?_, fun batchIdx => ?_, rfl⟩
      · obtain ⟨batchIdx, -, rfl | ⟨idx, place, -⟩⟩ := input.mem_initTasks aggregated member
        · exact ⟨batchIdx, rfl⟩
        · omega
      · rw [(input.countP_initTasks aggregated batchIdx).2]
        simp only [initState]
        split_ifs <;> omega
  exact holds.2.2

theorem queued_of_invalid {batchIdx : Nat} (inside : batchIdx < input.batchCount)
    (several : 2 ≤ input.count batchIdx) (invalid : none ∈ input.shares batchIdx) {schedule : List Nat}
    {final : State Pub Sec × List Task}
    (ran : run (input.exec bls) (input.initState, input.initTasks) schedule = .ok final) :
    .aggregateSkShare batchIdx ∈ final.2 := by
  let P : State Pub Sec → List Task → Prop := fun _ pool => .aggregateSkShare batchIdx ∈ pool
  refine run_keeps (P := P) ?_ ?_ ?_ ran
  · intro s pool pool' same member
    exact same.mem_iff.mp member
  · intro s task rest after queued member executed
    rcases mem_cons.mp member with rfl | later
    · have length : 2 ≤ (input.shares batchIdx).length := by simpa [shares] using several
      rw [exec, syncAggregate_invalid bls.aggregateSec length invalid] at executed
      cases executed
    · exact mem_append_right _ later
  · change _ ∈ input.initTasks
    rw [initTasks, if_pos aggregated]
    exact mem_flatMap.mpr ⟨batchIdx, mem_range.mpr inside, mem_append_right _ (.head _)⟩

end

theorem inv_init (some : input.vvecs ≠ []) (entries : input.aggregated = true → input.vecSize ≠ 0) :
    input.Inv input.initState input.initTasks 0 := by
  have positive := length_pos_iff.mpr some
  cases aggregated : input.aggregated with
  | true =>
    refine ⟨fun task member => ?_, fun _ batchIdx inside => ?_, ?_, .inl ⟨rfl, positive⟩⟩
    · obtain ⟨batchIdx, inside, rfl | ⟨idx, place, rfl⟩⟩ := input.mem_initTasks aggregated member
      · exact ⟨aggregated, inside⟩
      · exact ⟨aggregated, inside, place⟩
    · obtain ⟨vvecs, skShares⟩ := input.countP_initTasks aggregated batchIdx
      rw [if_pos inside] at vvecs skShares
      refine ⟨vvecs, ?_⟩
      have unfinished : (input.initState.batchStates batchIdx).doneCount ≠ input.vecSize := (entries aggregated).symm
      rw [skShares, if_neg unfinished]
      rfl
    · have total : input.totalOwed input.initState = input.vvecs.length := by
        rw [← input.sum_count aggregated]
        exact Finset.sum_congr rfl fun batchIdx _ => by simp [Input.owed, initState, aggregated]
      have credits : (input.initTasks.map input.credit).sum = 0 := by
        refine sum_eq_zero fun credit member => ?_
        obtain ⟨task, isTask, rfl⟩ := mem_map.mp member
        obtain ⟨batchIdx, -, rfl | ⟨idx, -, rfl⟩⟩ := input.mem_initTasks aggregated isTask <;> rfl
      rw [total, credits]
      rfl
  | false =>
    have tasks : input.initTasks = (range (input.count 0)).map (.verifyOne 0) := by simp [initTasks, aggregated]
    refine ⟨fun task member => ?_, fun impossible => ?_, ?_, .inl ⟨rfl, positive⟩⟩
    · rw [tasks] at member
      obtain ⟨i, -, rfl⟩ := mem_map.mp member
      simp [TaskOk, batchCount, aggregated]
    · rw [aggregated] at impossible
      cases impossible
    · have total : input.totalOwed input.initState = 0 :=
        Finset.sum_eq_zero fun batchIdx _ => by simp [Input.owed, aggregated]
      have credits : (input.initTasks.map input.credit).sum = input.vvecs.length := by
        rw [tasks, ← input.count_zero aggregated]
        simp [comp_def, credit]
      rw [total, credits]
      simp [initState]

theorem initTasks_of_empty (empty : input.vvecs = []) : input.initTasks = [] := by
  rw [initTasks]
  split_ifs with aggregated
  · simp [batchCount, aggregated, empty]
  · simp [count, empty]

theorem alwaysAnswers_iff_answerable (bls : Bls Pub Sec Id) (input : Input Pub Sec Id) :
    input.AlwaysAnswers bls ↔ input.Answerable bls := by
  by_cases rejected : (input.forId.isNone || !verifyVerificationVectors bls input.vvecs) = true
  · have call : input.asyncVerifyContributionShares bls =
        ({ input.initState with answers := [replicate input.vvecs.length false] }, []) := if_pos rejected
    refine iff_of_true ⟨0, fun schedule _ _ => ?_⟩ ?_
    · rw [call]
      exact ⟨_, _, run_nil _ _ _, rfl, length_replicate⟩
    · rcases (or_eq_true _ _).mp rejected with noId | unverified
      · exact .inl (isNone_iff_eq_none.mp noId)
      · exact .inr (.inl (by simpa using unverified))
  · have call : input.asyncVerifyContributionShares bls = (input.initState, input.initTasks) := if_neg rejected
    obtain ⟨isId, verified⟩ : input.forId ≠ none ∧ verifyVerificationVectors bls input.vvecs = true := by
      simpa using rejected
    have cases : input.Answerable bls ↔ input.vvecs ≠ [] ∧ (input.aggregated = true → input.vecSize ≠ 0 ∧
        ∀ batchIdx < input.batchCount, 2 ≤ input.count batchIdx → ∀ share ∈ input.shares batchIdx, share.isSome) := by
      simp [Answerable, isId, verified]
    rw [cases]
    constructor
    · rintro ⟨bound, answers⟩
      obtain ⟨final, result, ran, answered, -⟩ := answers (replicate bound 0)
        (.inr fun i member => eq_of_mem_replicate member) (by simp)
      rw [call] at ran
      refine ⟨fun empty => ?_, fun aggregated => ⟨fun noEntries => ?_, fun batchIdx inside several share member => ?_⟩⟩
      · rw [input.initTasks_of_empty empty, run_nil] at ran
        obtain ⟨rfl, -⟩ := Prod.mk.inj (Except.ok.inj ran)
        cases answered
      · rw [input.no_answer_of_vecSize aggregated noEntries ran] at answered
        cases answered
      · by_contra invalid
        rw [not_isSome_iff_eq_none] at invalid
        subst invalid
        have queued := input.queued_of_invalid aggregated inside several member ran
        cases queued
    · rintro ⟨some, valid⟩
      refine ⟨(input.initTasks.map input.weight).sum, fun schedule _ enough => ?_⟩
      let P : State Pub Sec → List Task → Prop := fun s pool => input.Inv s pool 0
      have start : P (input.initState, input.initTasks).1 (input.initState, input.initTasks).2 :=
        input.inv_init some fun aggregated => (valid aggregated).1
      obtain ⟨final, ran, inv⟩ := run_completes (P := P) (fun same inv => inv.perm same) input.weight
        (fun inv => input.exec_spec some verified (fun aggregated => (valid aggregated).2) inv) start enough
      obtain ⟨result, answered, length⟩ := Inv.answered inv
      exact ⟨final, result, by rw [call]; exact ran, answered, length⟩

end Input

def noContributions : Input Nat Nat Nat := ⟨some 1, [], [], rfl, true, true⟩

def sampleBls : Bls Nat Nat Nat := ⟨id, (· + ·), (· + ·), fun keys _ => keys.head?, id⟩

theorem noContributions_unanswered : ¬ noContributions.AlwaysAnswers sampleBls := by
  rintro ⟨bound, answers⟩
  obtain ⟨final, result, ran, answered, -⟩ := answers (replicate bound 0) (.inl rfl) (by simp)
  have call : noContributions.asyncVerifyContributionShares sampleBls = (noContributions.initState, []) := rfl
  rw [call, run_nil] at ran
  obtain ⟨rfl, -⟩ := Prod.mk.inj (Except.ok.inj ran)
  cases answered

end Cspn.ContributionVerifier
