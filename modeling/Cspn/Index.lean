import Cspn.Primitives

/-!
Block index entries and the active chain. An entry holds its predecessor, so every
entry is the end of a finite path from a genesis block and its height is the length
of that path. The active chain is the path of its tip.
-/
namespace Cspn.Index
open Primitives Option Nat

structure IndexFields where
  phashBlock : Uint256
  nTime : Nat := 0
  nBits : Nat := 0
  nNonce : Nat := 0
  nMint : Int := 0
  nMoneySupply : Int := 0
  /-- The flag bit `BLOCK_STAKE_MODIFIER`. -/
  fGeneratedStakeModifier : Bool := false
  nStakeModifier : Nat := 0
  nStakeModifierChecksum : Nat := 0
  hashProofOfStake : Uint256 := 0
deriving DecidableEq

inductive CBlockIndex where
  | genesis (fields : IndexFields)
  | next (pprev : CBlockIndex) (fields : IndexFields)
deriving DecidableEq

namespace CBlockIndex

def fields : CBlockIndex → IndexFields
  | genesis f => f
  | next _ f => f

def pprev : CBlockIndex → Option CBlockIndex
  | genesis _ => none
  | next p _ => some p

def nHeight : CBlockIndex → Nat
  | genesis _ => 0
  | next p _ => p.nHeight + 1

def getBlockHash (pindex : CBlockIndex) : Uint256 := pindex.fields.phashBlock
def getBlockTime (pindex : CBlockIndex) : Nat := pindex.fields.nTime

/-- The walk down the predecessors; the skip pointers only shorten it. -/
def getAncestor : CBlockIndex → Nat → Option CBlockIndex
  | genesis f, height => if height = 0 then some (genesis f) else none
  | next p f, height => if height = p.nHeight + 1 then some (next p f) else p.getAncestor height

/-- The entry and all its predecessors, the entry first. -/
def path : CBlockIndex → List CBlockIndex
  | genesis f => [genesis f]
  | next p f => next p f :: p.path

variable (p : CBlockIndex) (f : IndexFields)

@[simp] theorem fields_genesis : (genesis f).fields = f := rfl
@[simp] theorem fields_next : (next p f).fields = f := rfl
@[simp] theorem pprev_genesis : (genesis f).pprev = none := rfl
@[simp] theorem pprev_next : (next p f).pprev = some p := rfl
@[simp] theorem nHeight_genesis : (genesis f).nHeight = 0 := rfl
@[simp] theorem nHeight_next : (next p f).nHeight = p.nHeight + 1 := rfl

variable {p : CBlockIndex}

theorem nHeight_pprev {pindex : CBlockIndex} (prev : pindex.pprev = some p) : pindex.nHeight = p.nHeight + 1 := by
  cases pindex with
  | genesis f => cases prev
  | next q f => cases prev; rfl

inductive AncestorOrEq : CBlockIndex → CBlockIndex → Prop where
  | refl (p : CBlockIndex) : AncestorOrEq p p
  | step {a p : CBlockIndex} (f : IndexFields) (above : AncestorOrEq a p) : AncestorOrEq a (next p f)

variable {a : CBlockIndex}

theorem AncestorOrEq.nHeight_le (above : AncestorOrEq a p) : a.nHeight ≤ p.nHeight := by
  induction above with
  | refl => exact le_refl _
  | step f _ ih => simp only [nHeight_next]; omega

theorem AncestorOrEq.trans {b c : CBlockIndex} (first : AncestorOrEq a b) (second : AncestorOrEq b c) :
    AncestorOrEq a c := by
  induction second with
  | refl => exact first
  | step f _ ih => exact .step f ih

theorem AncestorOrEq.pprev {q : CBlockIndex} (prev : p.pprev = some q) : AncestorOrEq q p := by
  cases p with
  | genesis f => cases prev
  | next r f => cases prev; exact .step f (.refl _)

@[simp] theorem getAncestor_nHeight (p : CBlockIndex) : p.getAncestor p.nHeight = some p := by
  cases p <;> simp [getAncestor]

variable {height : Nat}

theorem getAncestor_none (above : p.nHeight < height) : p.getAncestor height = none := by
  induction p with
  | genesis f => simp only [nHeight_genesis] at above; simp [getAncestor, ne_of_gt above]
  | next p f ih =>
    simp only [nHeight_next] at above
    rw [getAncestor, if_neg (by omega)]
    exact ih (by omega)

theorem getAncestor_eq_some : p.getAncestor height = some a ↔ AncestorOrEq a p ∧ a.nHeight = height := by
  induction p with
  | genesis f =>
    constructor
    · intro found
      simp only [getAncestor] at found
      split at found
      next zero => cases found; exact ⟨.refl _, zero.symm⟩
      next => cases found
    · rintro ⟨above, rfl⟩
      cases above
      simp [getAncestor]
  | next p f ih =>
    rw [getAncestor]
    split
    next top =>
      constructor
      · intro found; cases found; exact ⟨.refl _, top.symm⟩
      · rintro ⟨above, height⟩
        cases above with
        | refl => rfl
        | step _ below => have := below.nHeight_le; omega
    next top =>
      rw [ih]
      constructor
      · rintro ⟨above, height⟩; exact ⟨.step f above, height⟩
      · rintro ⟨above, height⟩
        cases above with
        | refl => simp only [nHeight_next] at height; omega
        | step _ below => exact ⟨below, height⟩

theorem getAncestor_isSome (le : height ≤ p.nHeight) : ∃ a, p.getAncestor height = some a := by
  induction p with
  | genesis f =>
    simp only [nHeight_genesis, le_zero] at le
    exact ⟨genesis f, by simp [getAncestor, le]⟩
  | next p f ih =>
    rw [getAncestor]
    split
    · exact ⟨_, rfl⟩
    · simp only [nHeight_next] at le
      exact ih (by omega)

section
variable {b : CBlockIndex} (first : AncestorOrEq a p) (second : AncestorOrEq b p)
include first second

theorem AncestorOrEq.unique (height : a.nHeight = b.nHeight) : a = b := by
  have one := getAncestor_eq_some.mpr ⟨first, height⟩
  have two := getAncestor_eq_some.mpr ⟨second, rfl⟩
  rw [one] at two
  exact some.inj two

theorem AncestorOrEq.of_le (le : a.nHeight ≤ b.nHeight) : AncestorOrEq a b := by
  obtain ⟨c, found⟩ := getAncestor_isSome le
  obtain ⟨below, height⟩ := getAncestor_eq_some.mp found
  have same := first.unique (below.trans second) height.symm
  exact same ▸ below

end

theorem AncestorOrEq.successor (above : AncestorOrEq a p) (lt : a.nHeight < p.nHeight) :
    ∃ q, q.pprev = some a ∧ AncestorOrEq q p := by
  induction above with
  | refl => omega
  | @step p f below ih =>
    rcases lt_or_eq_of_le below.nHeight_le with lower | level
    · obtain ⟨q, link, onPath⟩ := ih lower
      exact ⟨q, link, .step f onPath⟩
    · rw [below.unique (.refl p) level]
      exact ⟨next p f, rfl, .refl _⟩

theorem mem_path : a ∈ p.path ↔ AncestorOrEq a p := by
  induction p with
  | genesis f =>
    simp only [path, List.mem_singleton]
    exact ⟨fun same => same ▸ .refl _, fun above => by cases above; rfl⟩
  | next p f ih =>
    simp only [path, List.mem_cons, ih]
    constructor
    · rintro (rfl | above)
      · exact .refl _
      · exact .step f above
    · intro above
      cases above with
      | refl => exact .inl rfl
      | step _ below => exact .inr below

end CBlockIndex

structure BlockMap where
  find : Uint256 → Option CBlockIndex
  keyed : ∀ {hash p}, find hash = some p → p.getBlockHash = hash
  closed : ∀ {hash pprev fields}, find hash = some (.next pprev fields) → find pprev.getBlockHash = some pprev

namespace BlockMap

def mem (map : BlockMap) (p : CBlockIndex) : Prop := map.find p.getBlockHash = some p

theorem hash_injective (map : BlockMap) {p q : CBlockIndex} (inMapP : map.mem p) (inMapQ : map.mem q)
    (same : p.getBlockHash = q.getBlockHash) : p = q := by
  unfold mem at inMapP inMapQ
  rw [same, inMapQ] at inMapP
  exact (some.inj inMapP).symm

theorem mem_of_find (map : BlockMap) {hash : Uint256} {p : CBlockIndex} (found : map.find hash = some p) :
    map.mem p := by
  unfold mem
  rw [map.keyed found, found]

theorem mem_ancestor (map : BlockMap) {p q : CBlockIndex} (above : CBlockIndex.AncestorOrEq q p) (inMap : map.mem p) :
    map.mem q := by
  induction above with
  | refl => exact inMap
  | step f _ ih => exact ih (map.closed inMap)

end BlockMap

/-- The active chain, given by its tip; empty before the genesis block is connected. -/
structure CChain where
  tip : Option CBlockIndex

namespace CChain

def get (chain : CChain) (height : Nat) : Option CBlockIndex :=
  chain.tip.bind fun tip => tip.getAncestor height

def contains (chain : CChain) (pindex : CBlockIndex) : Bool := decide (chain.get pindex.nHeight = some pindex)

def next (chain : CChain) (pindex : CBlockIndex) : Option CBlockIndex :=
  if chain.contains pindex then chain.get (pindex.nHeight + 1) else none

theorem contains_iff {chain : CChain} {pindex : CBlockIndex} :
    chain.contains pindex = true ↔ ∃ tip, chain.tip = some tip ∧ CBlockIndex.AncestorOrEq pindex tip := by
  rw [contains, decide_eq_true_eq, get, bind_eq_some_iff]
  simp [CBlockIndex.getAncestor_eq_some]

theorem next_of_contains {chain : CChain} {p q top : CBlockIndex} (inChain : chain.contains top = true)
    (below : CBlockIndex.AncestorOrEq q top) (link : q.pprev = some p) : chain.next p = some q := by
  obtain ⟨tip, isTip, above⟩ := contains_iff.mp inChain
  have inQ := below.trans above
  have inP := (CBlockIndex.AncestorOrEq.pprev link).trans inQ
  rw [next, if_pos (contains_iff.mpr ⟨tip, isTip, inP⟩), get, isTip, bind_some]
  exact CBlockIndex.getAncestor_eq_some.mpr ⟨inQ, CBlockIndex.nHeight_pprev link⟩

end CChain

/-! ### Skip pointers

`pskip` holds the skip pointer of every entry, null before the entry is built. -/

namespace Skip
open CBlockIndex

/-- The number without its lowest bit that is set. -/
def invertLowestOne (n : Nat) : Nat := n &&& (n - 1)

def getSkipHeight (height : Nat) : Nat :=
  if height < 2 then 0
  else if height % 2 = 1 then invertLowestOne (invertLowestOne (height - 1)) + 1
  else invertLowestOne height

/-- One round of the walk: to the skip pointer, or to the predecessor, which the code asserts. -/
def walkStep (pskip : CBlockIndex → Option CBlockIndex) (height : Nat) (pindexWalk : CBlockIndex) (heightWalk : Nat) :
    Option (CBlockIndex × Nat) :=
  let heightSkip := getSkipHeight heightWalk
  let heightSkipPrev := getSkipHeight (heightWalk - 1)
  if (pskip pindexWalk).isSome ∧ (heightSkip = height ∨
      heightSkip > height ∧ ¬ (heightSkipPrev + 2 < heightSkip ∧ heightSkipPrev ≥ height))
  then (pskip pindexWalk).map (·, heightSkip)
  else pindexWalk.pprev.map (·, heightWalk - 1)

def walk (pskip : CBlockIndex → Option CBlockIndex) (height : Nat) : Nat → CBlockIndex → Nat → Option CBlockIndex
  | 0, pindexWalk, heightWalk => if heightWalk > height then none else some pindexWalk
  | fuel + 1, pindexWalk, heightWalk =>
    if heightWalk > height then (walkStep pskip height pindexWalk heightWalk).bind fun q => walk pskip height fuel q.1 q.2
    else some pindexWalk

def getAncestor (pskip : CBlockIndex → Option CBlockIndex) (pindex : CBlockIndex) (height : Int) : Option CBlockIndex :=
  if height > pindex.nHeight ∨ height < 0 then none
  else walk pskip height.toNat pindex.nHeight pindex pindex.nHeight

def buildSkip (pskip : CBlockIndex → Option CBlockIndex) (pindex : CBlockIndex) : CBlockIndex → Option CBlockIndex :=
  match pindex.pprev with
  | some pprev => Function.update pskip pindex (getAncestor pskip pprev (getSkipHeight pindex.nHeight))
  | none => pskip

theorem getSkipHeight_lt {height : Nat} (positive : 0 < height) : getSkipHeight height < height := by
  unfold getSkipHeight
  split_ifs with small odd
  · exact positive
  · have first : invertLowestOne (height - 1) ≤ height - 1 - 1 := and_le_right
    have second : invertLowestOne (invertLowestOne (height - 1)) ≤ invertLowestOne (height - 1) := and_le_left
    omega
  · have lower : invertLowestOne height ≤ height - 1 := and_le_right
    omega

/-- Every skip pointer that is set is the ancestor at the skip height. -/
def Skips (pskip : CBlockIndex → Option CBlockIndex) : Prop :=
  ∀ q a, pskip q = some a → AncestorOrEq a q ∧ a.nHeight = getSkipHeight q.nHeight

variable {pskip : CBlockIndex → Option CBlockIndex} {height : Nat}

/-- A round goes down and not below the height that is looked for. -/
theorem walkStep_spec (skips : Skips pskip) {p : CBlockIndex} (above : height < p.nHeight) :
    ∃ q, walkStep pskip height p p.nHeight = some (q, q.nHeight) ∧ AncestorOrEq q p ∧ height ≤ q.nHeight ∧
      q.nHeight < p.nHeight := by
  unfold walkStep
  dsimp only
  split_ifs with follow
  · obtain ⟨a, isSkip⟩ := isSome_iff_exists.mp follow.1
    obtain ⟨below, atSkip⟩ := skips p a isSkip
    have lower := getSkipHeight_lt (zero_lt_of_lt above)
    refine ⟨a, by simp [isSkip, atSkip], below, ?_, by omega⟩
    rcases follow.2 with same | ⟨higher, -⟩ <;> omega
  · cases p with
    | genesis f => cases above
    | next q f =>
      simp only [nHeight_next] at above ⊢
      exact ⟨q, by simp, .step f (.refl q), by omega, by omega⟩

theorem walk_eq (skips : Skips pskip) (fuel : Nat) :
    ∀ p : CBlockIndex, height ≤ p.nHeight → p.nHeight ≤ height + fuel →
      walk pskip height fuel p p.nHeight = p.getAncestor height := by
  induction fuel with
  | zero =>
    intro p low high
    obtain rfl : p.nHeight = height := by omega
    simp [walk]
  | succ fuel ih =>
    intro p low high
    rw [walk]
    split_ifs with above
    · obtain ⟨q, step, below, least, lower⟩ := walkStep_spec skips above
      rw [step, bind_some, ih q least (by omega)]
      -- The ancestor of a lower entry on the path is the same entry.
      obtain ⟨a, found⟩ := getAncestor_isSome least
      obtain ⟨under, atHeight⟩ := getAncestor_eq_some.mp found
      rw [found, getAncestor_eq_some.mpr ⟨under.trans below, atHeight⟩]
    · obtain rfl : p.nHeight = height := by omega
      simp

theorem getAncestor_eq (skips : Skips pskip) {p : CBlockIndex} (low : height ≤ p.nHeight) :
    getAncestor pskip p height = p.getAncestor height := by
  rw [getAncestor, if_neg (by omega)]
  exact walk_eq skips _ p low (by simp)

theorem Skips.buildSkip (skips : Skips pskip) (pindex : CBlockIndex) : Skips (buildSkip pskip pindex) := by
  cases pindex with
  | genesis f => exact skips
  | next p f =>
    intro q a found
    simp only [Skip.buildSkip, pprev_next] at found
    by_cases here : q = next p f
    · subst here
      have lower : getSkipHeight (p.nHeight + 1) < p.nHeight + 1 := getSkipHeight_lt (by omega)
      rw [Function.update_self, nHeight_next, getAncestor_eq skips (by omega)] at found
      obtain ⟨below, atHeight⟩ := getAncestor_eq_some.mp found
      exact ⟨.step f below, atHeight⟩
    · rw [Function.update_of_ne here] at found
      exact skips q a found

theorem skips_built (entries : List CBlockIndex) : Skips (entries.foldl buildSkip fun _ => none) := by
  refine List.foldlRecOn entries buildSkip (fun _ _ found => by cases found) ?_
  intro pskip skips pindex _
  exact skips.buildSkip pindex

theorem getAncestor_eq_iterate (p : CBlockIndex) (low : height ≤ p.nHeight) :
    p.getAncestor height = (·.bind pprev)^[p.nHeight - height] (some p) := by
  induction p with
  | genesis f =>
    simp only [nHeight_genesis, le_zero] at low
    simp [CBlockIndex.getAncestor, low]
  | next p f ih =>
    simp only [nHeight_next] at low ⊢
    rw [CBlockIndex.getAncestor]
    split_ifs with top
    · simp [top]
    · rw [show p.nHeight + 1 - height = (p.nHeight - height) + 1 by omega, Function.iterate_succ_apply]
      exact ih (by omega)

/-- Whatever entries were built, the lookup is the walk down the predecessors, and null outside of the heights. -/
theorem getAncestor_built (entries : List CBlockIndex) (b : CBlockIndex) (h : Int) :
    getAncestor (entries.foldl buildSkip fun _ => none) b h =
      if 0 ≤ h ∧ h ≤ b.nHeight then (·.bind pprev)^[b.nHeight - h.toNat] (some b) else none := by
  split_ifs with within
  · lift h to Nat using within.1
    have low : h ≤ b.nHeight := by omega
    rw [getAncestor_eq (skips_built entries) low, getAncestor_eq_iterate b low, Int.toNat_natCast]
  · rw [getAncestor, if_pos (by omega)]

end Skip

end Cspn.Index
