import Cspn.Index

/-!
The stake modifier of a kernel. `GetKernelStakeModifierV03` looks from the block of the staked coin for the first
modifier a selection interval later. It walks a temporary chain of the ancestors of `pindexPrev` that are off the
active chain, and the active chain below them, and may index the temporary chain out of range.
-/
namespace Cspn.Kernel
open Primitives Index Option Nat List
open CBlockIndex (AncestorOrEq getAncestor getAncestor_eq_some getAncestor_isSome getAncestor_none nHeight
  nHeight_next nHeight_pprev pprev_next)

def MODIFIER_INTERVAL_RATIO : Nat := 3

def getStakeModifierSelectionIntervalSection (nModifierInterval nSection : Nat) : Nat :=
  nModifierInterval * 63 / (63 + (63 - nSection) * ( MODIFIER_INTERVAL_RATIO - 1))

def getStakeModifierSelectionInterval (nModifierInterval : Nat) : Nat :=
  (range 64).foldl
    (fun nSelectionInterval nSection =>
      nSelectionInterval + getStakeModifierSelectionIntervalSection nModifierInterval nSection) 0

/-- How the function ends. `lengthError` is the exception of `reserve` on a negative depth; `running` is a walk cut
    short, which never happens. -/
inductive Outcome where
  | notIndexed
  | lengthError
  | reachedBestBlock (nStakeModifierHeight nStakeModifierTime : Nat)
  | found (nStakeModifier nStakeModifierHeight nStakeModifierTime : Nat)
  | running
deriving DecidableEq

/-- The outcome of a call, the entries it read, and whether it read past `tmpChain`. -/
structure KernelRun where
  outcome : Outcome
  reads : List CBlockIndex
  outOfRange : Bool := false

structure Branch where
  pushed : List CBlockIndex := []
  tested : List CBlockIndex := []

def walkBack (active : CChain) : Nat → CBlockIndex → Branch
  | 0, _ => {}
  | nDepth + 1, it =>
    if active.contains it then { tested := [it] }
    else
      match it.pprev with
      | none => { pushed := [it], tested := [it] }
      | some pprev =>
        let rest := walkBack active nDepth pprev
        { pushed := it :: rest.pushed, tested := it :: rest.tested }

/-- The walk: the next index of `tmpChain`, the current entry and the last modifier seen. -/
structure Cursor where
  n : Nat := 0
  pindex : CBlockIndex
  nStakeModifierHeight : Nat
  nStakeModifierTime : Nat
  reads : List CBlockIndex

def Cursor.visit (cursor : Cursor) (pindex : CBlockIndex) (n : Nat) : Cursor :=
  if pindex.fields.fGeneratedStakeModifier then
    { n, pindex, nStakeModifierHeight := pindex.nHeight, nStakeModifierTime := pindex.getBlockTime,
      reads := pindex :: cursor.reads }
  else { cursor with
    n, pindex
    reads := pindex :: cursor.reads }

inductive Advance where
  | entry (pindex : CBlockIndex) (n : Nat)
  | null
  | pastEnd

def advance (active : CChain) (tmpChain : List CBlockIndex) (n : Nat) (pindex : CBlockIndex) : Advance :=
  if tmpChain.head?.any (fun first => decide (first.nHeight ≤ pindex.nHeight + 1)) then
    match tmpChain[n]? with
    | some next => .entry next (n + 1)
    | none => .pastEnd
  else
    match active.next pindex with
    | some next => .entry next n
    | none => .null

/-- The loop, with `enough` the time at which it stops. -/
def walk (active : CChain) (tmpChain : List CBlockIndex) (enough : Nat) : Nat → Cursor → KernelRun
  | 0, cursor => { outcome := .running, reads := cursor.reads }
  | fuel + 1, cursor =>
    if cursor.nStakeModifierTime < enough then
      match advance active tmpChain cursor.n cursor.pindex with
      | .entry next n => walk active tmpChain enough fuel (cursor.visit next n)
      | .null =>
        { outcome := .reachedBestBlock cursor.nStakeModifierHeight cursor.nStakeModifierTime, reads := cursor.reads }
      | .pastEnd =>
        { outcome := .reachedBestBlock cursor.nStakeModifierHeight cursor.nStakeModifierTime, reads := cursor.reads,
          outOfRange := true }
    else
      { outcome := .found cursor.pindex.fields.nStakeModifier cursor.nStakeModifierHeight cursor.nStakeModifierTime,
        reads := cursor.reads }

def chainLength (active : CChain) : Nat := (active.tip.map fun tip => tip.nHeight + 1).getD 0

def getKernelStakeModifierV03 (nModifierInterval : Nat) (map : BlockMap) (active : CChain) (pindexPrev : CBlockIndex)
    (hashBlockFrom : Uint256) : KernelRun :=
  match map.find hashBlockFrom with
  | none => { outcome := .notIndexed, reads := [] }
  | some pindexFrom =>
    if pindexPrev.nHeight + 1 < pindexFrom.nHeight then
      { outcome := .lengthError, reads := [pindexFrom, pindexPrev] }
    else
      let branch := walkBack active (pindexPrev.nHeight + 1 - pindexFrom.nHeight) pindexPrev
      walk active branch.pushed.reverse
        (pindexFrom.getBlockTime + getStakeModifierSelectionInterval nModifierInterval)
        (pindexPrev.nHeight + chainLength active + 3)
        { pindex := pindexFrom, nStakeModifierHeight := pindexFrom.nHeight,
          nStakeModifierTime := pindexFrom.getBlockTime, reads := branch.tested ++ [pindexFrom, pindexPrev] }

/-! ### What the temporary chain holds -/

section
variable (active : CChain) (nDepth : Nat) (it : CBlockIndex)
include active nDepth it

theorem walkBack_length_le : (walkBack active nDepth it).pushed.length ≤ min nDepth (it.nHeight + 1) := by
  induction nDepth generalizing it with
  | zero => simp [walkBack]
  | succ nDepth ih =>
    rw [walkBack]
    split
    · simp
    · cases it with
      | genesis f => simp
      | next p f => simpa using ih p

theorem walkBack_tested : ∀ r ∈ (walkBack active nDepth it).tested, AncestorOrEq r it := by
  induction nDepth generalizing it with
  | zero => simp [walkBack]
  | succ nDepth ih =>
    rw [walkBack]
    split
    · simp [AncestorOrEq.refl]
    · cases it with
      | genesis f => simp [AncestorOrEq.refl]
      | next p f =>
        simp only [pprev_next, mem_cons]
        rintro r (rfl | later)
        · exact .refl _
        · exact .step f (ih p r later)

theorem walkBack_reverse (k : Nat) : (walkBack active nDepth it).pushed.reverse[k]? =
      it.getAncestor (it.nHeight + 1 - (walkBack active nDepth it).pushed.length + k) := by
  induction nDepth generalizing it with
  | zero =>
    simp only [walkBack, reverse_nil, getElem?_nil, length_nil]
    rw [getAncestor_none (by omega)]
  | succ nDepth ih =>
    rw [walkBack]
    split
    · simp only [reverse_nil, getElem?_nil, length_nil]
      rw [getAncestor_none (by omega)]
    · cases it with
      | genesis f => cases k <;> simp [getAncestor]
      | next p f =>
        have short := walkBack_length_le active nDepth p
        have rest := ih p
        simp only [pprev_next, reverse_cons, length_cons, nHeight_next,
          Nat.add_sub_add_right]
        rcases lt_trichotomy k (walkBack active nDepth p).pushed.length with lt | same | gt
        · rw [getElem?_append_left (by simpa using lt), rest, getAncestor, if_neg (by omega)]
        · rw [getElem?_append_right (by simp [same]), getAncestor, if_pos (by omega)]
          simp [same]
        · rw [getElem?_eq_none (by simp; omega), getAncestor_none]
          simp only [nHeight_next]
          omega

theorem walkBack_stops (deep : nDepth ≤ it.nHeight + 1) (early : (walkBack active nDepth it).pushed.length < nDepth) :
    ∃ q, it.getAncestor (it.nHeight - (walkBack active nDepth it).pushed.length) = some q ∧
      active.contains q = true := by
  induction nDepth generalizing it with
  | zero => omega
  | succ nDepth ih =>
    revert early
    rw [walkBack]
    split
    next inChain => exact fun _ => ⟨it, by simp, inChain⟩
    next =>
      intro early
      cases it with
      | genesis f => simp at early deep; omega
      | next p f =>
        simp only [pprev_next, length_cons, nHeight_next] at early deep ⊢
        obtain ⟨q, found, inChain⟩ := ih p (by omega) (by omega)
        refine ⟨q, ?_, inChain⟩
        rw [getAncestor, if_neg (by omega), Nat.add_sub_add_right]
        exact found

end

def tmpChain (active : CChain) (pindexFrom pindexPrev : CBlockIndex) : List CBlockIndex :=
  (walkBack active (pindexPrev.nHeight + 1 - pindexFrom.nHeight) pindexPrev).pushed.reverse

/-- The height of the first entry of the temporary chain, one above `pindexPrev` where it is empty. -/
def branchStart (active : CChain) (pindexFrom pindexPrev : CBlockIndex) : Nat :=
  pindexPrev.nHeight + 1 - (walkBack active (pindexPrev.nHeight + 1 - pindexFrom.nHeight) pindexPrev).pushed.length

section
variable {active : CChain} {pindexFrom pindexPrev : CBlockIndex}

theorem tmpChain_getElem? (k : Nat) :
    (tmpChain active pindexFrom pindexPrev)[k]? = pindexPrev.getAncestor (branchStart active pindexFrom pindexPrev + k) :=
  walkBack_reverse active _ pindexPrev k

theorem tmpChain_head? :
    (tmpChain active pindexFrom pindexPrev).head? = pindexPrev.getAncestor (branchStart active pindexFrom pindexPrev) := by
  rw [head?_eq_getElem?, tmpChain_getElem?, add_zero]

theorem contains_below_branchStart (late : pindexFrom.nHeight < branchStart active pindexFrom pindexPrev) :
    ∃ q, pindexPrev.getAncestor (branchStart active pindexFrom pindexPrev - 1) = some q ∧ active.contains q = true := by
  unfold branchStart at late ⊢
  obtain ⟨q, found, inChain⟩ :=
    walkBack_stops active (pindexPrev.nHeight + 1 - pindexFrom.nHeight) pindexPrev (by omega) (by omega)
  refine ⟨q, ?_, inChain⟩
  rw [← found]
  congr 1
  omega

end

/-! ### The walk always ends -/

section
variable {active : CChain} {pindexFrom pindexPrev : CBlockIndex}

/-- A bound on the rounds left: the rest of the temporary chain, and the active chain before it. -/
def remaining (active : CChain) (tmpChain : List CBlockIndex) (cursor : Cursor) : Nat :=
  tmpChain.length - cursor.n +
    if tmpChain.head?.any (fun first => decide (first.nHeight ≤ cursor.pindex.nHeight + 1)) then 0
    else chainLength active - cursor.pindex.nHeight

theorem remaining_le (active : CChain) (tmpChain : List CBlockIndex) (cursor : Cursor) :
    remaining active tmpChain cursor ≤ tmpChain.length + chainLength active := by
  unfold remaining
  split <;> omega

theorem next_nHeight {p q : CBlockIndex} (next : active.next p = some q) :
    q.nHeight = p.nHeight + 1 ∧ q.nHeight < chainLength active := by
  rw [CChain.next] at next
  split at next
  · rw [CChain.get, bind_eq_some_iff] at next
    obtain ⟨tip, isTip, found⟩ := next
    obtain ⟨below, height⟩ := getAncestor_eq_some.mp found
    have := below.nHeight_le
    simp only [chainLength, isTip, map_some, getD_some]
    omega
  · cases next

section
variable (cursor : Cursor) (pindex : CBlockIndex) (n : Nat)
include cursor pindex n

@[simp] theorem Cursor.visit_n : (cursor.visit pindex n).n = n := by
  unfold visit; split <;> rfl

@[simp] theorem Cursor.visit_pindex : (cursor.visit pindex n).pindex = pindex := by
  unfold visit; split <;> rfl

@[simp] theorem Cursor.visit_reads : (cursor.visit pindex n).reads = pindex :: cursor.reads := by
  unfold visit; split <;> rfl

end

theorem remaining_visit {cursor : Cursor} {next : CBlockIndex} {n : Nat}
    (moves : advance active (tmpChain active pindexFrom pindexPrev) cursor.n cursor.pindex = .entry next n) :
    remaining active (tmpChain active pindexFrom pindexPrev) (cursor.visit next n) <
      remaining active (tmpChain active pindexFrom pindexPrev) cursor := by
  unfold remaining
  simp only [Cursor.visit_n, Cursor.visit_pindex]
  unfold advance at moves
  split at moves
  next onBranch =>
    split at moves
    next found =>
      cases moves
      have inRange := (List.getElem?_eq_some_iff.mp found).1
      -- Every entry of the temporary chain is at least as high as its first.
      have stays : (tmpChain active pindexFrom pindexPrev).head?.any
          (fun first => decide (first.nHeight ≤ next.nHeight + 1)) = true := by
        rw [tmpChain_getElem?] at found
        have height := (getAncestor_eq_some.mp found).2
        rw [tmpChain_head?] at onBranch ⊢
        cases isFirst : pindexPrev.getAncestor (branchStart active pindexFrom pindexPrev) with
        | none => rw [isFirst] at onBranch; cases onBranch
        | some first =>
          have firstHeight := (getAncestor_eq_some.mp isFirst).2
          exact decide_eq_true (by omega)
      rw [if_pos stays, if_pos onBranch]
      omega
    next => cases moves
  next offBranch =>
    split at moves
    next found =>
      cases moves
      have := next_nHeight found
      split <;> omega
    next => cases moves

theorem walk_ends (pindexFrom pindexPrev : CBlockIndex) {enough : Nat} (fuel : Nat) (cursor : Cursor)
    (enoughFuel : remaining active (tmpChain active pindexFrom pindexPrev) cursor < fuel) :
    (walk active (tmpChain active pindexFrom pindexPrev) enough fuel cursor).outcome ≠ .running := by
  induction fuel generalizing cursor with
  | zero => omega
  | succ fuel ih =>
    rw [walk]
    split
    · split
      next moves =>
        have := remaining_visit moves
        exact ih _ (by omega)
      next => simp
      next => simp
    · simp

end

theorem getKernelStakeModifierV03_ends (nModifierInterval : Nat) (map : BlockMap) (active : CChain)
    (pindexPrev : CBlockIndex) (hashBlockFrom : Uint256) :
    (getKernelStakeModifierV03 nModifierInterval map active pindexPrev hashBlockFrom).outcome ≠ .running := by
  unfold getKernelStakeModifierV03
  split
  · simp
  · next pindexFrom _ =>
    split
    · simp
    · apply walk_ends pindexFrom pindexPrev
      apply lt_of_le_of_lt (remaining_le _ _ _)
      have short := walkBack_length_le active (pindexPrev.nHeight + 1 - pindexFrom.nHeight) pindexPrev
      simp only [tmpChain, length_reverse]
      omega

/-! ### What the walk finds -/

def Ripe (enough : Nat) (pindex : CBlockIndex) : Prop :=
  pindex.fields.fGeneratedStakeModifier = true ∧ enough ≤ pindex.getBlockTime

section
variable {active : CChain} {pindexFrom pindexPrev : CBlockIndex} {enough : Nat}

/-- The run found `pindex` and read only what had been read before and ancestors of `pindexPrev`. -/
structure FoundOnPath (pindexPrev pindex : CBlockIndex) (reads : List CBlockIndex) (run : KernelRun) : Prop where
  outcome : run.outcome = .found pindex.fields.nStakeModifier pindex.nHeight pindex.getBlockTime
  inRange : run.outOfRange = false
  onPath : ∀ r ∈ run.reads, r ∈ reads ∨ AncestorOrEq r pindexPrev

/-- The walk is at `pindex`, an ancestor of `pindexPrev`, with `n` counting the temporary chain up to it. -/
structure OnPath (active : CChain) (pindexFrom pindexPrev : CBlockIndex) (enough : Nat) (cursor : Cursor) : Prop where
  below : AncestorOrEq cursor.pindex pindexPrev
  low : pindexFrom.nHeight ≤ cursor.pindex.nHeight
  count : cursor.n = cursor.pindex.nHeight + 1 - branchStart active pindexFrom pindexPrev
  early : cursor.nStakeModifierTime < enough

section
variable {cursor : Cursor} (onPath : OnPath active pindexFrom pindexPrev enough cursor) {q : CBlockIndex} (link : q.pprev = some cursor.pindex)
  (below : AncestorOrEq q pindexPrev)
include onPath link below

theorem OnPath.advance : advance active (tmpChain active pindexFrom pindexPrev) cursor.n cursor.pindex =
      .entry q (q.nHeight + 1 - branchStart active pindexFrom pindexPrev) := by
  have low := onPath.low
  have height := nHeight_pprev link
  have high := below.nHeight_le
  rw [onPath.count, Kernel.advance, tmpChain_head?, tmpChain_getElem?]
  by_cases inBranch : branchStart active pindexFrom pindexPrev ≤ cursor.pindex.nHeight + 1
  · have le : branchStart active pindexFrom pindexPrev ≤ pindexPrev.nHeight := by omega
    obtain ⟨first, isFirst⟩ := getAncestor_isSome le
    have firstHeight := (getAncestor_eq_some.mp isFirst).2
    rw [if_pos (by simp [isFirst]; omega), getAncestor_eq_some.mpr ⟨below, by omega⟩]
    simp only [Advance.entry.injEq, true_and]
    omega
  · have outside : (pindexPrev.getAncestor (branchStart active pindexFrom pindexPrev)).any
        (fun first => decide (first.nHeight ≤ cursor.pindex.nHeight + 1)) = false := by
      cases isFirst : pindexPrev.getAncestor (branchStart active pindexFrom pindexPrev) with
      | none => rfl
      | some first =>
        have firstHeight := (getAncestor_eq_some.mp isFirst).2
        exact decide_eq_false (by omega)
    have late : pindexFrom.nHeight < branchStart active pindexFrom pindexPrev := by omega
    rw [outside]
    obtain ⟨top, isTop, inChain⟩ := contains_below_branchStart late
    obtain ⟨topBelow, topHeight⟩ := getAncestor_eq_some.mp isTop
    rw [CChain.next_of_contains inChain (below.of_le topBelow (by omega)) link]
    simp only [Bool.false_eq_true, ↓reduceIte, Advance.entry.injEq, true_and]
    omega

theorem OnPath.visit (unripe : ¬ Ripe enough q) : OnPath active pindexFrom pindexPrev enough
      (cursor.visit q (q.nHeight + 1 - branchStart active pindexFrom pindexPrev)) where
  below := by simpa using below
  low := by
    have := onPath.low
    have := nHeight_pprev link
    simp only [Cursor.visit_pindex]
    omega
  count := by simp
  early := by
    unfold Cursor.visit
    split
    next generated => exact Nat.lt_of_not_le fun late => unripe ⟨generated, late⟩
    next => exact onPath.early

end

theorem walk_found {e : CBlockIndex} (isRipe : Ripe enough e) (below : AncestorOrEq e pindexPrev) (fuel : Nat)
    (cursor : Cursor) (onPath : OnPath active pindexFrom pindexPrev enough cursor)
    (lt : cursor.pindex.nHeight < e.nHeight) (enoughFuel : e.nHeight < cursor.pindex.nHeight + fuel)
    (least : ∀ r, AncestorOrEq r e → cursor.pindex.nHeight < r.nHeight → r.nHeight < e.nHeight → ¬ Ripe enough r) :
    FoundOnPath pindexPrev e cursor.reads (walk active (tmpChain active pindexFrom pindexPrev) enough fuel cursor) := by
  induction fuel generalizing cursor with
  | zero => omega
  | succ fuel ih =>
    have lower := onPath.below.of_le below (by omega)
    obtain ⟨q, link, qBelow⟩ := lower.successor lt
    have qHeight := nHeight_pprev link
    have qHigh := qBelow.nHeight_le
    have qPath := qBelow.trans below
    rw [walk, if_pos onPath.early, onPath.advance link qPath]
    rcases lt_or_eq_of_le qHigh with lower | level
    · have unripe := least q qBelow (by omega) lower
      have rest := ih _ (onPath.visit link qPath unripe) (by simpa using lower) (by simp only [Cursor.visit_pindex]; omega)
        (fun r rBelow above => least r rBelow (by simp only [Cursor.visit_pindex] at above; omega))
      refine ⟨rest.outcome, rest.inRange, fun r read => ?_⟩
      rcases rest.onPath r read with earlier | path
      · rw [Cursor.visit_reads, mem_cons] at earlier
        rcases earlier with rfl | earlier
        · exact .inr qPath
        · exact .inl earlier
      · exact .inr path
    · cases qBelow.unique (.refl e) level
      obtain ⟨fuel, rfl⟩ : ∃ k, fuel = k + 1 := ⟨fuel - 1, by omega⟩
      dsimp only
      rw [Cursor.visit, if_pos isRipe.1, walk, if_neg (not_lt.mpr isRipe.2)]
      refine ⟨rfl, rfl, fun r read => ?_⟩
      rcases mem_cons.mp read with rfl | earlier
      · exact .inr below
      · exact .inl earlier

theorem walk_launch (active : CChain) (above : AncestorOrEq pindexFrom pindexPrev) (early : pindexFrom.getBlockTime < enough)
    (fuel : Nat) (reads : List CBlockIndex) :
    ∃ cursor k, OnPath active pindexFrom pindexPrev enough cursor ∧ cursor.pindex = pindexFrom ∧
      cursor.reads ⊆ pindexFrom :: reads ∧ fuel ≤ k ∧
      walk active (tmpChain active pindexFrom pindexPrev) enough (fuel + 1)
          { pindex := pindexFrom, nStakeModifierHeight := pindexFrom.nHeight,
            nStakeModifierTime := pindexFrom.getBlockTime, reads } =
        walk active (tmpChain active pindexFrom pindexPrev) enough k cursor := by
  have short := walkBack_length_le active (pindexPrev.nHeight + 1 - pindexFrom.nHeight) pindexPrev
  have low := above.nHeight_le
  have start : pindexFrom.nHeight ≤ branchStart active pindexFrom pindexPrev := by unfold branchStart; omega
  rcases lt_or_eq_of_le start with late | level
  · refine ⟨_, fuel + 1, ⟨above, le_refl _, ?_, early⟩, rfl, subset_cons_self _ _, le_succ _, rfl⟩
    dsimp only
    omega
  · have isFirst : (tmpChain active pindexFrom pindexPrev)[0]? = some pindexFrom := by
      rw [tmpChain_getElem?, add_zero]
      exact getAncestor_eq_some.mpr ⟨above, level⟩
    refine ⟨{ n := 1, pindex := pindexFrom, nStakeModifierHeight := pindexFrom.nHeight,
              nStakeModifierTime := pindexFrom.getBlockTime, reads := pindexFrom :: reads },
      fuel, ⟨above, le_refl _, ?_, early⟩, rfl, Subset.refl _, le_refl _, ?_⟩
    · dsimp only
      omega
    · have moves : advance active (tmpChain active pindexFrom pindexPrev) 0 pindexFrom = .entry pindexFrom 1 := by
        rw [advance, head?_eq_getElem?, isFirst]
        simp
      rw [walk, if_pos early, moves]
      dsimp only
      unfold Cursor.visit
      split <;> rfl

/-- Off the active chain a walk that has found nothing reads past the temporary chain. -/
theorem walk_pastEnd (inBranch : branchStart active pindexFrom pindexPrev ≤ pindexPrev.nHeight) (fuel : Nat)
    (cursor : Cursor) (onPath : OnPath active pindexFrom pindexPrev enough cursor)
    (enoughFuel : pindexPrev.nHeight < cursor.pindex.nHeight + fuel)
    (none : ∀ r, AncestorOrEq r pindexPrev → cursor.pindex.nHeight < r.nHeight → ¬ Ripe enough r) :
    (walk active (tmpChain active pindexFrom pindexPrev) enough fuel cursor).outOfRange = true := by
  induction fuel generalizing cursor with
  | zero =>
    have := onPath.below.nHeight_le
    omega
  | succ fuel ih =>
    rw [walk, if_pos onPath.early]
    rcases lt_or_eq_of_le onPath.below.nHeight_le with lower | level
    · obtain ⟨q, link, qBelow⟩ := onPath.below.successor lower
      have qHeight := nHeight_pprev link
      rw [onPath.advance link qBelow]
      refine ih _ (onPath.visit link qBelow (none q qBelow (by omega))) ?_ fun r rBelow higher => none r rBelow ?_
      · simp only [Cursor.visit_pindex]; omega
      · simp only [Cursor.visit_pindex] at higher; omega
    · obtain ⟨first, isFirst⟩ := getAncestor_isSome inBranch
      have firstHeight := (getAncestor_eq_some.mp isFirst).2
      have moves : advance active (tmpChain active pindexFrom pindexPrev) cursor.n cursor.pindex = .pastEnd := by
        rw [advance, tmpChain_head?, isFirst, tmpChain_getElem?, onPath.count,
          getAncestor_none (by omega), if_pos (by simp; omega)]
      rw [moves]

end

/-! ### The modifier as a function of the ancestry -/

/-- The active chains of a node with this block index; empty before the genesis block is connected. -/
def ActiveIn (map : BlockMap) (active : CChain) : Prop := ∀ tip, active.tip = some tip → map.mem tip

/-- Whatever the active chain, the call ends the same way, reads only ancestors of `pindexPrev` and
    stays within its temporary chain. -/
structure OwnAncestryOnly (nModifierInterval : Nat) (map : BlockMap) (pindexPrev : CBlockIndex)
    (hashBlockFrom : Uint256) : Prop where
  same : ∀ a b, ActiveIn map a → ActiveIn map b →
    (getKernelStakeModifierV03 nModifierInterval map a pindexPrev hashBlockFrom).outcome =
      (getKernelStakeModifierV03 nModifierInterval map b pindexPrev hashBlockFrom).outcome
  reads : ∀ a, ActiveIn map a →
    ∀ r ∈ (getKernelStakeModifierV03 nModifierInterval map a pindexPrev hashBlockFrom).reads, AncestorOrEq r pindexPrev
  inRange : ∀ a, ActiveIn map a →
    (getKernelStakeModifierV03 nModifierInterval map a pindexPrev hashBlockFrom).outOfRange = false

/-- Up to `pindexPrev` there is a modifier a selection interval after the kernel block. -/
def ReachesModifier (nModifierInterval : Nat) (pindexFrom pindexPrev : CBlockIndex) : Prop :=
  getStakeModifierSelectionInterval nModifierInterval = 0 ∨
    ∃ e, AncestorOrEq pindexFrom e ∧ AncestorOrEq e pindexPrev ∧
      Ripe (pindexFrom.getBlockTime + getStakeModifierSelectionInterval nModifierInterval) e

variable {pindexFrom : CBlockIndex} {pindexPrev : CBlockIndex} {map : BlockMap} {hashBlockFrom : Uint256}
  {nModifierInterval : Nat}

theorem getKernelStakeModifierV03_indexed (indexed : map.find hashBlockFrom = some pindexFrom)
    (above : AncestorOrEq pindexFrom pindexPrev) (active : CChain) :
    getKernelStakeModifierV03 nModifierInterval map active pindexPrev hashBlockFrom =
      walk active (tmpChain active pindexFrom pindexPrev)
        (pindexFrom.getBlockTime + getStakeModifierSelectionInterval nModifierInterval)
        (pindexPrev.nHeight + chainLength active + 3)
        { pindex := pindexFrom, nStakeModifierHeight := pindexFrom.nHeight,
          nStakeModifierTime := pindexFrom.getBlockTime,
          reads := (walkBack active (pindexPrev.nHeight + 1 - pindexFrom.nHeight) pindexPrev).tested ++
            [pindexFrom, pindexPrev] } := by
  have low := above.nHeight_le
  simp only [getKernelStakeModifierV03, indexed, if_neg (by omega : ¬ pindexPrev.nHeight + 1 < pindexFrom.nHeight)]
  rfl

theorem mem_walk_reads (active : CChain) (tmpChain : List CBlockIndex) (enough fuel : Nat) (cursor : Cursor)
    {r : CBlockIndex} (read : r ∈ cursor.reads) : r ∈ (walk active tmpChain enough fuel cursor).reads := by
  induction fuel generalizing cursor with
  | zero => exact read
  | succ fuel ih =>
    rw [walk]
    split
    · split
      · exact ih _ (by simp [read])
      · exact read
      · exact read
    · exact read

theorem first_reads_onPath (active : CChain) (nDepth : Nat) (above : AncestorOrEq pindexFrom pindexPrev) :
    ∀ r ∈ (walkBack active nDepth pindexPrev).tested ++ [pindexFrom, pindexPrev], AncestorOrEq r pindexPrev := by
  intro r read
  simp only [mem_append, mem_cons, not_mem_nil, or_false] at read
  rcases read with tested | rfl | rfl
  · exact walkBack_tested _ _ _ r tested
  · exact above
  · exact .refl _

theorem exists_first_ripe {enough : Nat} {e : CBlockIndex} (above : AncestorOrEq pindexFrom e)
    (below : AncestorOrEq e pindexPrev) (isRipe : Ripe enough e) (early : pindexFrom.getBlockTime < enough) :
    ∃ e, AncestorOrEq e pindexPrev ∧ pindexFrom.nHeight < e.nHeight ∧ Ripe enough e ∧
      ∀ r, AncestorOrEq r e → pindexFrom.nHeight < r.nHeight → r.nHeight < e.nHeight → ¬ Ripe enough r := by
  have higher : pindexFrom.nHeight < e.nHeight := by
    rcases lt_or_eq_of_le above.nHeight_le with lower | level
    · exact lower
    · cases above.unique (.refl e) level
      exact absurd isRipe.2 (not_le.mpr early)
  obtain ⟨least, ⟨leastBelow, leastHigher, leastRipe⟩, minimal⟩ :=
    (measure nHeight).wf.has_min
      {r | AncestorOrEq r pindexPrev ∧ pindexFrom.nHeight < r.nHeight ∧ Ripe enough r} ⟨e, below, higher, isRipe⟩
  exact ⟨least, leastBelow, leastHigher, leastRipe,
    fun r rBelow rHigher lower ripe => minimal r ⟨rBelow.trans leastBelow, rHigher, ripe⟩ lower⟩

section
variable (indexed : map.find hashBlockFrom = some pindexFrom)
include indexed

section
variable (above : AncestorOrEq pindexFrom pindexPrev)
include above

/-- Whatever the active chain, the call finds the lowest ripe entry above the kernel block. -/
theorem foundOnPath_of_first {e : CBlockIndex}
    (below : AncestorOrEq e pindexPrev) (higher : pindexFrom.nHeight < e.nHeight)
    (positive : 0 < getStakeModifierSelectionInterval nModifierInterval)
    (isRipe : Ripe (pindexFrom.getBlockTime + getStakeModifierSelectionInterval nModifierInterval) e)
    (least : ∀ r, AncestorOrEq r e → pindexFrom.nHeight < r.nHeight → r.nHeight < e.nHeight →
      ¬ Ripe (pindexFrom.getBlockTime + getStakeModifierSelectionInterval nModifierInterval) r) (active : CChain) :
    FoundOnPath pindexPrev e [] (getKernelStakeModifierV03 nModifierInterval map active pindexPrev hashBlockFrom) := by
  rw [getKernelStakeModifierV03_indexed indexed above]
  obtain ⟨cursor, k, start, atFrom, reads, fuel, same⟩ :=
    walk_launch active above (Nat.lt_add_of_pos_right positive) (pindexPrev.nHeight + chainLength active + 2) _
  rw [same]
  have high := below.nHeight_le
  have found := walk_found isRipe below k cursor start (by rw [atFrom]; exact higher) (by omega)
    (fun r rBelow => by rw [atFrom]; exact least r rBelow)
  refine ⟨found.outcome, found.inRange, fun r read => .inr ?_⟩
  rcases found.onPath r read with earlier | path
  · rcases mem_cons.mp (reads earlier) with rfl | first
    · exact above
    · exact first_reads_onPath active _ above r first
  · exact path

theorem foundOnPath_at_kernel (zero : getStakeModifierSelectionInterval nModifierInterval = 0) (active : CChain) :
    FoundOnPath pindexPrev pindexFrom []
      (getKernelStakeModifierV03 nModifierInterval map active pindexPrev hashBlockFrom) := by
  rw [getKernelStakeModifierV03_indexed indexed above, zero, walk, if_neg (by simp)]
  exact ⟨rfl, rfl, fun r read => .inr (first_reads_onPath active _ above r read)⟩

theorem foundOnPath_of_reachesModifier (reaches : ReachesModifier nModifierInterval pindexFrom pindexPrev) :
    ∃ e, ∀ active, FoundOnPath pindexPrev e []
      (getKernelStakeModifierV03 nModifierInterval map active pindexPrev hashBlockFrom) := by
  by_cases zero : getStakeModifierSelectionInterval nModifierInterval = 0
  · exact ⟨pindexFrom, foundOnPath_at_kernel indexed above zero⟩
  · have positive := pos_of_ne_zero zero
    obtain ⟨e, fromAbove, onPath, isRipe⟩ := reaches.resolve_left zero
    obtain ⟨e, below, higher, isRipe, least⟩ :=
      exists_first_ripe fromAbove onPath isRipe (Nat.lt_add_of_pos_right positive)
    exact ⟨e, foundOnPath_of_first indexed above below higher positive isRipe least⟩

end

end

/-- Before any block is connected, a walk with no modifier to find reads past its temporary chain. -/
theorem outOfRange_of_not_reachesModifier (indexed : map.find hashBlockFrom = some pindexFrom)
    (above : AncestorOrEq pindexFrom pindexPrev) (never : ¬ ReachesModifier nModifierInterval pindexFrom pindexPrev) :
    (getKernelStakeModifierV03 nModifierInterval map ⟨none⟩ pindexPrev hashBlockFrom).outOfRange = true := by
  rw [getKernelStakeModifierV03_indexed indexed above]
  obtain ⟨interval, noRipe⟩ := not_or.mp never
  obtain ⟨cursor, k, start, atFrom, -, fuel, same⟩ := walk_launch ⟨none⟩ above
    (by omega : _ < pindexFrom.getBlockTime + getStakeModifierSelectionInterval nModifierInterval)
    (pindexPrev.nHeight + chainLength ⟨none⟩ + 2) _
  rw [same]
  refine walk_pastEnd ?_ k cursor start (by omega) fun r below higher ripe => noRipe ⟨r, ?_, below, ripe⟩
  · refine le_trans (not_lt.mp fun late => ?_) above.nHeight_le
    obtain ⟨q, -, inChain⟩ := contains_below_branchStart late
    obtain ⟨tip, isTip, -⟩ := CChain.contains_iff.mp inChain
    cases isTip
  · rw [atFrom] at higher
    exact above.of_le below (by omega)

/-- The modifier depends on the ancestry of `pindexPrev` alone exactly when the kernel block is on it and a
    modifier a selection interval later is too. -/
theorem getKernelStakeModifierV03_ownAncestryOnly_iff (nModifierInterval : Nat) (map : BlockMap)
    (pindexPrev : CBlockIndex) (hashBlockFrom : Uint256) :
    OwnAncestryOnly nModifierInterval map pindexPrev hashBlockFrom ↔
      ∀ pindexFrom, map.find hashBlockFrom = some pindexFrom →
        AncestorOrEq pindexFrom pindexPrev ∧ ReachesModifier nModifierInterval pindexFrom pindexPrev := by
  have noChain : ActiveIn map ⟨none⟩ := fun tip isTip => by cases isTip
  constructor
  · intro own pindexFrom indexed
    have above : AncestorOrEq pindexFrom pindexPrev := by
      refine own.reads ⟨none⟩ noChain pindexFrom ?_
      simp only [getKernelStakeModifierV03, indexed]
      split
      · simp
      · exact mem_walk_reads _ _ _ _ _ (by simp)
    refine ⟨above, ?_⟩
    by_contra never
    have past := outOfRange_of_not_reachesModifier indexed above never
    rw [own.inRange ⟨none⟩ noChain] at past
    cases past
  · intro holds
    cases indexed : map.find hashBlockFrom with
    | none =>
      have stops (active : CChain) : getKernelStakeModifierV03 nModifierInterval map active pindexPrev hashBlockFrom =
          { outcome := .notIndexed, reads := [] } := by
        rw [getKernelStakeModifierV03, indexed]
      exact ⟨fun a b _ _ => by rw [stops, stops], fun a _ r read => by simp [stops] at read,
        fun a _ => by rw [stops]⟩
    | some pindexFrom =>
      obtain ⟨above, reaches⟩ := holds pindexFrom indexed
      obtain ⟨e, found⟩ := foundOnPath_of_reachesModifier indexed above reaches
      exact ⟨fun a b _ _ => by rw [(found a).outcome, (found b).outcome],
        fun a _ r read => ((found a).onPath r read).resolve_left (by simp), fun a _ => (found a).inRange⟩

def kernelGenesis : CBlockIndex := .genesis { phashBlock := 1, fGeneratedStakeModifier := true }
def kernelPrev : CBlockIndex := .next kernelGenesis { phashBlock := 2, nTime := 60 }
def kernelTip : CBlockIndex :=
  .next kernelPrev { phashBlock := 3, nTime := 4000, fGeneratedStakeModifier := true, nStakeModifier := 7 }

def kernelMap : BlockMap where
  find hash := [kernelGenesis, kernelPrev, kernelTip].find? fun p => p.getBlockHash == hash
  keyed found := by simpa using find?_some found
  closed found := by
    have inList := mem_of_find?_eq_some found
    simp only [mem_cons, not_mem_nil, or_false] at inList
    rcases inList with genesis | second | third
    · cases genesis
    · cases second; rfl
    · cases third; rfl

/-- Below a block whose ancestors hold no late modifier: with its child active the walk runs on into the child, and
    with the genesis block active it reads past its temporary chain and fails. -/
theorem getKernelStakeModifierV03_active_chain_matters :
    (getKernelStakeModifierV03 60 kernelMap ⟨some kernelTip⟩ kernelPrev 1).outcome = .found 7 2 4000 ∧
      kernelTip ∈ (getKernelStakeModifierV03 60 kernelMap ⟨some kernelTip⟩ kernelPrev 1).reads ∧
      (getKernelStakeModifierV03 60 kernelMap ⟨some kernelGenesis⟩ kernelPrev 1).outcome = .reachedBestBlock 0 0 ∧
      (getKernelStakeModifierV03 60 kernelMap ⟨some kernelGenesis⟩ kernelPrev 1).outOfRange = true ∧
      ¬ OwnAncestryOnly 60 kernelMap kernelPrev 1 := by
  have found : (getKernelStakeModifierV03 60 kernelMap ⟨some kernelTip⟩ kernelPrev 1).outcome = .found 7 2 4000 := by
    decide +kernel
  have fails : (getKernelStakeModifierV03 60 kernelMap ⟨some kernelGenesis⟩ kernelPrev 1).outcome =
      .reachedBestBlock 0 0 := by
    decide +kernel
  refine ⟨found, by decide +kernel, fails, by decide +kernel, fun own => ?_⟩
  have same := own.same ⟨some kernelTip⟩ ⟨some kernelGenesis⟩ (fun tip isTip => by cases isTip; rfl)
    (fun tip isTip => by cases isTip; rfl)
  rw [found, fails] at same
  cases same

end Cspn.Kernel
