import Cspn.BestChain
import Cspn.CrashReplay

/-!
The active chain as `CChain` holds it, a vector that `SetTip` overwrites from the top down to the first entry that is
right already, and the searches for a fork, which first bring both sides to one height. They give what the other
modules say directly: the path of the tip, and the first entry of a path that is on another.
-/
namespace Cspn.ActiveChain
open Index CBlockIndex BestChain Option List
open CrashReplay (Node)

/-- The loop of `SetTip` down the path of the tip. A null pointer in the vector is `none`. -/
def overwrite : List CBlockIndex → List (Option CBlockIndex) → List (Option CBlockIndex)
  | [], vChain => vChain
  | pindex :: rest, vChain =>
    if vChain[pindex.nHeight]? = some (some pindex) then vChain
    else overwrite rest (vChain.set pindex.nHeight (some pindex))

def setTip (vChain : List (Option CBlockIndex)) : Option CBlockIndex → List (Option CBlockIndex)
  | none => []
  | some pindex => overwrite pindex.path ((range (pindex.nHeight + 1)).map fun height => vChain[height]?.join)

section
variable {old : Option CBlockIndex} {p : CBlockIndex} {vChain : List (Option CBlockIndex)}
  (lower : ∀ height ≤ p.nHeight, vChain[height]? = some (old.bind (·.getAncestor height)))
include lower

/-- An entry of the old path that is right has the right entries below it. -/
theorem right_below (there : vChain[p.nHeight]? = some (some p)) {height : Nat} (low : height ≤ p.nHeight) :
    vChain[height]? = some (p.getAncestor height) := by
  rw [lower _ le_rfl, some_inj, bind_eq_some_iff] at there
  obtain ⟨tip, rfl, found⟩ := there
  obtain ⟨a, isA⟩ := getAncestor_isSome low
  obtain ⟨under, atHeight⟩ := getAncestor_eq_some.mp isA
  have onOld := under.trans (getAncestor_eq_some.mp found).1
  rw [lower height low, bind_some, isA, getAncestor_eq_some.mpr ⟨onOld, atHeight⟩]

theorem set_own : (vChain.set p.nHeight (some p))[p.nHeight]? = some (some p) :=
  getElem?_set_self (List.getElem?_eq_some_iff.mp (lower _ le_rfl)).1

/-- Up to an entry the loop turns the path of the old tip into that of the entry. -/
theorem overwrite_spec : (∀ height ≤ p.nHeight, (overwrite p.path vChain)[height]? = some (p.getAncestor height)) ∧
    ∀ height > p.nHeight, (overwrite p.path vChain)[height]? = vChain[height]? := by
  induction p generalizing vChain with
  | genesis f =>
    rw [path, overwrite, overwrite]
    split_ifs with there
    · exact ⟨fun _ => right_below lower there, fun _ _ => rfl⟩
    · refine ⟨fun height low => ?_, fun height high => getElem?_set_ne (ne_of_lt high)⟩
      obtain rfl := Nat.le_zero.mp low
      exact set_own lower
  | next p f ih =>
    rw [path, overwrite]
    split_ifs with there
    · exact ⟨fun _ => right_below lower there, fun _ _ => rfl⟩
    obtain ⟨filled, kept⟩ := @ih (vChain.set (p.nHeight + 1) (some (next p f))) fun height low => by
      rw [getElem?_set_ne (by omega)]
      exact lower height (Nat.le_succ_of_le low)
    refine ⟨fun height low => ?_, fun height high => ?_⟩
    · rcases Nat.le_succ_iff.mp low with low | rfl
      · rw [getAncestor, if_neg (by omega)]
        exact filled height low
      · rw [nHeight_next, kept _ (Nat.lt_succ_self _), getAncestor, if_pos rfl]
        exact set_own lower
    · rw [nHeight_next] at high ⊢
      rw [kept height (by omega), getElem?_set_ne (by omega)]

end

/-- Whatever tips were set, the vector holds the path of the last one. -/
theorem getElem_setTip (tips : List (Option CBlockIndex)) (height : Nat) :
    (tips.foldl setTip [])[height]? = ((CChain.mk tips.getLast?.join).get height).map some := by
  induction tips using reverseRecOn generalizing height with
  | nil => simp [CChain.get]
  | append_singleton tips tip ih =>
    rw [foldl_concat, getLast?_concat, join_some, CChain.get]
    cases tip with
    | none => rfl
    | some p =>
      obtain ⟨filled, kept⟩ := @overwrite_spec tips.getLast?.join p
        ((range (p.nHeight + 1)).map fun height => (tips.foldl setTip [])[height]?.join) fun height low => by
          rw [getElem?_map, getElem?_range (by omega), map_some, ih, CChain.get]
          cases tips.getLast?.join.bind (·.getAncestor height) <;> rfl
      rcases le_or_gt height p.nHeight with low | high
      · obtain ⟨a, found⟩ := getAncestor_isSome low
        rw [setTip, filled height low, bind_some, found, map_some]
      · rw [setTip, kept height high, bind_some, getAncestor_none high]
        simp [high]

/-! ### Forks -/

/-- The loop of `LastCommonAncestor` down the two paths. -/
def meet : List CBlockIndex → List CBlockIndex → Option CBlockIndex
  | pa :: below, pb :: below' => if pa = pb then some pa else meet below below'
  | _, _ => none

def lastCommonAncestor (pa pb : CBlockIndex) : Option CBlockIndex :=
  if pa.nHeight > pb.nHeight then (pa.getAncestor pb.nHeight).bind (meet ·.path pb.path)
  else if pb.nHeight > pa.nHeight then (pb.getAncestor pa.nHeight).bind (meet pa.path ·.path)
  else meet pa.path pb.path

def findFork (chain : CChain) (pindex : CBlockIndex) : Option CBlockIndex :=
  chain.tip.bind fun tip =>
  (if pindex.nHeight > tip.nHeight then pindex.getAncestor tip.nHeight else some pindex).bind
    (·.path.find? chain.contains)

theorem not_mem_path {p q : CBlockIndex} (high : q.nHeight < p.nHeight) : p ∉ q.path :=
  fun inside => absurd (mem_path.mp inside).nHeight_le (not_le.mpr high)

/-- No entry above the height of a path is on it. -/
theorem find_getAncestor {p q : CBlockIndex} (low : q.nHeight ≤ p.nHeight) :
    (p.getAncestor q.nHeight).bind (·.path.find? fun r => decide (r ∈ q.path)) =
      p.path.find? fun r => decide (r ∈ q.path) := by
  induction p with
  | genesis f => rw [getAncestor, if_pos (Nat.le_zero.mp low), bind_some]
  | next p f ih =>
    rw [getAncestor]
    split_ifs with top
    · rfl
    · have lower : q.nHeight ≤ p.nHeight := Nat.le_of_lt_succ (lt_of_le_of_ne low top)
      rw [path, find?_cons, decide_eq_false (not_mem_path (Nat.lt_succ_of_le lower))]
      exact ih lower

/-- The cut at the height of the tip makes no difference to `FindFork`. -/
theorem findFork_eq (s : ChainState) (pindex : CBlockIndex) : findFork s.chain pindex = s.findFork pindex := by
  have same : s.chain.contains = fun p => decide (p ∈ s.tip.path) :=
    funext fun p => Bool.eq_iff_iff.mpr (by rw [decide_eq_true_iff, mem_path, s.chain_contains_iff])
  rw [findFork, ChainState.findFork, same, ChainState.chain, bind_some]
  split_ifs with high
  · exact find_getAncestor high.le
  · rfl

/-- Different entries of one height have their common ancestors below them. -/
theorem meet_eq {a b : CBlockIndex} (level : a.nHeight = b.nHeight) :
    meet a.path b.path = Node.lastCommonAncestor a b := by
  unfold Node.lastCommonAncestor
  induction a generalizing b with
  | genesis f =>
    cases b with
    | genesis g => by_cases same : genesis f = genesis g <;> simp [path, meet, same]
    | next q g => cases level
  | next p f ih =>
    cases b with
    | genesis g => cases level
    | next q g =>
      have level' : p.nHeight = q.nHeight := Nat.succ.inj level
      rw [path, path, meet, find?_cons]
      split_ifs with same
      · simp [same]
      · have apart : next p f ∉ q.path := not_mem_path (by simp [level'])
        rw [decide_eq_false (by simp [same, apart]), ih level']
        refine find?_congr fun r inside => ?_
        have other : r ≠ next q g := by
          rintro rfl
          exact not_mem_path (by simp [level']) inside
        simp [other]

/-- `LastCommonAncestor` finds the highest entry that is on both paths, if there is one. -/
theorem lastCommonAncestor_eq (pa pb : CBlockIndex) : lastCommonAncestor pa pb = Node.lastCommonAncestor pa pb := by
  unfold lastCommonAncestor
  split_ifs with above below
  · obtain ⟨a, found⟩ := getAncestor_isSome above.le
    have rest := find_getAncestor above.le
    rw [found, bind_some] at rest ⊢
    exact (meet_eq (getAncestor_eq_some.mp found).2).trans rest
  · obtain ⟨b, found⟩ := getAncestor_isSome below.le
    obtain ⟨under, level⟩ := getAncestor_eq_some.mp found
    rw [found, bind_some, meet_eq level.symm]
    refine find?_congr fun r inside => decide_eq_decide.mpr ?_
    rw [mem_path, mem_path]
    exact ⟨(·.trans under), fun onPath => onPath.of_le under (level ▸ (mem_path.mp inside).nHeight_le)⟩
  · exact meet_eq (by omega)

end Cspn.ActiveChain
