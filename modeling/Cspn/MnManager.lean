import Cspn.MnDiff

/-!
The store of masternode lists: a cache with eviction by age, a snapshot every 576 blocks and a difference for every
connected block. `Sound` says what the store holds for a connected block; for any other it holds at most the empty
list, which is harmless if the block is too high to be connected before that is evicted.
-/
namespace Cspn.MnManager
open Primitives Index MnList MnBuild MnDiff Option Function
open Std (ExtTreeMap)
open CBlockIndex

def SNAPSHOT_LIST_PERIOD : Nat := 576
def LISTS_CACHE_SIZE : Int := 576

structure CDeterministicMNManager where
  mnListsCache : ExtTreeMap Uint256 CDeterministicMNList compare := ∅
  listDiffs : ExtTreeMap Uint256 CDeterministicMNListDiff compare := ∅
  listSnapshots : ExtTreeMap Uint256 CDeterministicMNList compare := ∅

namespace CDeterministicMNManager

def emplace (manager : CDeterministicMNManager) (blockHash : Uint256) (list : CDeterministicMNList) :
    CDeterministicMNManager :=
  { manager with mnListsCache := manager.mnListsCache.insertIfNew blockHash list }

def emptyList (pindex : CBlockIndex) : CDeterministicMNList := { blockHash := pindex.getBlockHash }

def applyStored (h : Hashing) (list : CDeterministicMNList) (pindex : CBlockIndex) (diff : CDeterministicMNListDiff) :
    Option CDeterministicMNList :=
  if diff.hasChanges then applyDiff h list pindex diff
  else some { list with blockHash := pindex.getBlockHash, nHeight := pindex.nHeight }

/-- The loop down to a list that is there, and the differences applied on the way back. A
    difference stored for the genesis block would make the loop leave the chain. -/
def getListForBlock (h : Hashing) (manager : CDeterministicMNManager) (pindex : CBlockIndex) :
    Option (CDeterministicMNList × CDeterministicMNManager) :=
  match manager.mnListsCache[pindex.getBlockHash]? with
  | some list => some (list, manager)
  | none =>
    match manager.listSnapshots[pindex.getBlockHash]? with
    | some list => some (list, manager.emplace pindex.getBlockHash list)
    | none =>
      match manager.listDiffs[pindex.getBlockHash]? with
      | none => some (emptyList pindex, manager.emplace pindex.getBlockHash (emptyList pindex))
      | some diff =>
        match pindex with
        | .genesis _ => none
        | .next pprev fields =>
          (getListForBlock h manager pprev).bind fun below =>
            (applyStored h below.1 (.next pprev fields) diff).map fun list =>
              (list, below.2.emplace fields.phashBlock list)

def cleanupCache (manager : CDeterministicMNManager) (nHeight : Nat) : CDeterministicMNManager :=
  { manager with
    mnListsCache := manager.mnListsCache.filter fun _ list => !decide (list.nHeight + LISTS_CACHE_SIZE < nHeight) }

/-- `ProcessBlock`; `quorumBlocks` are the blocks whose lists its quorum commitments make it read. The second
    component is the parent's list and the list that were stored, if any. -/
def processBlock (env : BuildEnv) (manager : CDeterministicMNManager) (block : CBlock) (pprev : CBlockIndex)
    (quorumBlocks : List CBlockIndex) (fJustCheck : Bool) :
    Option (CDeterministicMNManager × Option (CDeterministicMNList × CDeterministicMNList)) :=
  let nHeight := pprev.nHeight + 1
  (getListForBlock env.hashing manager pprev).bind fun old =>
  (quorumBlocks.foldlM (fun manager q => (getListForBlock env.hashing manager q).map Prod.snd) old.2).bind fun manager =>
  match buildNewListFromBlock env block pprev old.1 with
  | .error .aborted => none
  | .error _ => some (manager, none)
  | .ok newList =>
    if fJustCheck then some (manager, none)
    else
      let newList := if newList.nHeight = -1 then { newList with nHeight := nHeight } else newList
      let newList := { newList with blockHash := block.hash }
      (getListForBlock env.hashing manager pprev).map fun old =>
        let manager := { old.2 with listDiffs := old.2.listDiffs.insert block.hash (buildDiff old.1 newList) }
        let manager :=
          if nHeight % SNAPSHOT_LIST_PERIOD = 0 ∨ old.1.nHeight = -1 then
            { manager with listSnapshots := manager.listSnapshots.insert block.hash newList }
          else manager
        (manager.cleanupCache nHeight, some (old.1, newList))

def undoBlock (h : Hashing) (manager : CDeterministicMNManager) (pprev : CBlockIndex) (fields : IndexFields) :
    Option CDeterministicMNManager :=
  let diff := (manager.listDiffs[fields.phashBlock]?).getD {}
  -- both lists are read before anything is erased
  (if diff.hasChanges then
    (getListForBlock h manager (.next pprev fields)).bind fun cur => (getListForBlock h cur.2 pprev).map Prod.snd
  else some manager).map fun manager =>
    { manager with
      listDiffs := manager.listDiffs.erase fields.phashBlock
      listSnapshots := manager.listSnapshots.erase fields.phashBlock
      mnListsCache := manager.mnListsCache.erase fields.phashBlock }

end CDeterministicMNManager

open CDeterministicMNManager

/-- The store, the tip of the connected chain, and what `ProcessBlock` last computed for each block. -/
structure State where
  manager : CDeterministicMNManager
  tip : CBlockIndex
  computed : CBlockIndex → CDeterministicMNList

/-- Connected and not the genesis block, for which `ProcessBlock` is never called. -/
def Connected (tip p : CBlockIndex) : Prop := AncestorOrEq p tip ∧ 0 < p.nHeight

/-- Runs from an empty store. `allowed` restricts the queries; every stored difference reproduces its list. -/
inductive Run (h : Hashing) (tree : BlockMap) (allowed : CBlockIndex → CBlockIndex → Prop) : State → Prop where
  | start (fields : IndexFields) (computed : CBlockIndex → CDeterministicMNList) (inTree : tree.mem (.genesis fields)) :
      Run h tree allowed ⟨{}, .genesis fields, computed⟩
  | query {state : State} {p : CBlockIndex} {answer : CDeterministicMNList × CDeterministicMNManager}
      (run : Run h tree allowed state) (inTree : tree.mem p) (harmless : allowed state.tip p)
      (answered : getListForBlock h state.manager p = some answer) :
      Run h tree allowed { state with manager := answer.2 }
  | check {state : State} {env : BuildEnv} {block : CBlock} {quorumBlocks : List CBlockIndex} {fJustCheck : Bool}
      {manager : CDeterministicMNManager} (run : Run h tree allowed state) (hashing : env.hashing = h)
      (ancestors : ∀ q ∈ quorumBlocks, AncestorOrEq q state.tip)
      (processed : processBlock env state.manager block state.tip quorumBlocks fJustCheck = some (manager, none)) :
      Run h tree allowed { state with manager := manager }
  | connect {state : State} {env : BuildEnv} {block : CBlock} {fields : IndexFields} {quorumBlocks : List CBlockIndex}
      {fJustCheck : Bool} {manager : CDeterministicMNManager} {oldList newList : CDeterministicMNList}
      (run : Run h tree allowed state) (hashing : env.hashing = h) (inTree : tree.mem (.next state.tip fields))
      (hash : fields.phashBlock = block.hash) (ancestors : ∀ q ∈ quorumBlocks, AncestorOrEq q state.tip)
      (processed : processBlock env state.manager block state.tip quorumBlocks fJustCheck =
        some (manager, some (oldList, newList)))
      (reproduces : applyStored h oldList (.next state.tip fields) (buildDiff oldList newList) = some newList) :
      Run h tree allowed ⟨manager, .next state.tip fields, update state.computed (.next state.tip fields) newList⟩
  | disconnect {state : State} {pprev : CBlockIndex} {fields : IndexFields} {manager : CDeterministicMNManager}
      (run : Run h tree allowed state) (atTip : state.tip = .next pprev fields)
      (undone : undoBlock h state.manager pprev fields = some manager) :
      Run h tree allowed { state with manager := manager, tip := pprev }

/-! ### What the store holds -/

/-- What the store should answer for a block of the connected chain. -/
def expected (computed : CBlockIndex → CDeterministicMNList) : CBlockIndex → CDeterministicMNList
  | .genesis fields => emptyList (.genesis fields)
  | .next pprev fields => computed (.next pprev fields)

/-- The answer for any block: the empty list unless it is connected. -/
def Answer (state : State) (p : CBlockIndex) (list : CDeterministicMNList) : Prop :=
  (AncestorOrEq p state.tip → list = expected state.computed p) ∧ (¬AncestorOrEq p state.tip → list = emptyList p)

/-- A block whose empty list may be cached: it cannot be connected before the entry is evicted. -/
def Harmless (tip p : CBlockIndex) : Prop := AncestorOrEq p tip ∨ SNAPSHOT_LIST_PERIOD ≤ p.nHeight

structure Sound (h : Hashing) (tree : BlockMap) (state : State) : Prop where
  tipInTree : tree.mem state.tip
  cached : ∀ {p : CBlockIndex} {list : CDeterministicMNList}, tree.mem p →
    state.manager.mnListsCache[p.getBlockHash]? = some list → Answer state p list ∧ Harmless state.tip p
  snapshots : ∀ {p : CBlockIndex} {list : CDeterministicMNList}, tree.mem p →
    state.manager.listSnapshots[p.getBlockHash]? = some list → Connected state.tip p ∧ list = state.computed p
  diffs : ∀ {p : CBlockIndex}, tree.mem p → (state.manager.listDiffs[p.getBlockHash]?).isSome → Connected state.tip p
  replays : ∀ {pprev : CBlockIndex} {fields : IndexFields}, AncestorOrEq (.next pprev fields) state.tip →
    ∃ diff, state.manager.listDiffs[fields.phashBlock]? = some diff ∧
      applyStored h (expected state.computed pprev) (.next pprev fields) diff =
        some (state.computed (.next pprev fields))

variable {tree : BlockMap} {computed : CBlockIndex → CDeterministicMNList} {tip : CBlockIndex}
  {list newList : CDeterministicMNList} {manager : CDeterministicMNManager}

section
variable {h : Hashing} {state : State} {p : CBlockIndex}

theorem expected_of_connected (connected : Connected tip p) : expected computed p = computed p := by
  cases p with
  | genesis f => exact absurd connected.2 (by simp)
  | next pprev f => rfl

theorem Sound.start (fields : IndexFields) (computed : CBlockIndex → CDeterministicMNList)
    (inTree : tree.mem (.genesis fields)) : Sound h tree ⟨{}, .genesis fields, computed⟩ where
  tipInTree := inTree
  cached := by simp
  snapshots := by simp
  diffs := by simp
  replays := fun above => by cases above

theorem Sound.emplace (sound : Sound h tree state) (inTree : tree.mem p)
    (answer : Answer state p list) (harmless : Harmless state.tip p) :
    Sound h tree { state with manager := state.manager.emplace p.getBlockHash list } where
  tipInTree := sound.tipInTree
  cached := by
    intro q other inTreeQ found
    simp only [CDeterministicMNManager.emplace, ExtTreeMap.getElem?_insertIfNew, Std.compare_eq_iff_eq] at found
    split at found
    next here =>
      obtain rfl := tree.hash_injective inTree inTreeQ here.1
      cases found
      exact ⟨answer, harmless⟩
    next => exact sound.cached inTreeQ found
  snapshots := sound.snapshots
  diffs := sound.diffs
  replays := sound.replays

theorem Sound.getListForBlock {p : CBlockIndex} (sound : Sound h tree state) (inTree : tree.mem p)
    (harmless : Harmless state.tip p) : ∃ list manager, getListForBlock h state.manager p = some (list, manager) ∧
      Answer state p list ∧ Sound h tree { state with manager := manager } := by
  rw [getListForBlock.eq_def]
  cases inCache : state.manager.mnListsCache[p.getBlockHash]? with
  | some list => exact ⟨list, _, rfl, (sound.cached inTree inCache).1, sound⟩
  | none =>
    cases inSnapshots : state.manager.listSnapshots[p.getBlockHash]? with
    | some list =>
      obtain ⟨connected, same⟩ := sound.snapshots inTree inSnapshots
      have answer : Answer state p list :=
        ⟨fun _ => same.trans (expected_of_connected connected).symm, fun no => absurd connected.1 no⟩
      exact ⟨list, _, rfl, answer, sound.emplace inTree answer harmless⟩
    | none =>
      cases inDiffs : state.manager.listDiffs[p.getBlockHash]? with
      | none =>
        have answer : Answer state p (emptyList p) := by
          refine ⟨fun above => ?_, fun _ => rfl⟩
          cases p with
          | genesis fields => rfl
          | next pprev fields =>
            obtain ⟨diff, found, -⟩ := sound.replays above
            exact absurd (inDiffs.symm.trans found) (by simp)
        exact ⟨_, _, rfl, answer, sound.emplace inTree answer harmless⟩
      | some diff =>
        have connected := sound.diffs inTree (by simp [inDiffs])
        cases p with
        | genesis fields => exact absurd connected.2 (by simp)
        | next pprev fields =>
          have above : AncestorOrEq pprev state.tip := (AncestorOrEq.pprev rfl).trans connected.1
          obtain ⟨list, manager, answered, answer, soundBelow⟩ :=
            Sound.getListForBlock sound (tree.closed inTree) (.inl above)
          obtain ⟨stored, found, applied⟩ := sound.replays connected.1
          have same := inDiffs.symm.trans found
          cases same
          rw [← answer.1 above] at applied
          have right : Answer state (.next pprev fields) (state.computed (.next pprev fields)) :=
            ⟨fun _ => rfl, fun no => absurd connected.1 no⟩
          refine ⟨_, manager.emplace fields.phashBlock (state.computed (.next pprev fields)), ?_, right,
            soundBelow.emplace inTree right harmless⟩
          simp [answered, bind_some, applied]

variable {fields : IndexFields}

theorem ancestorOrEq_next (apart : p ≠ .next tip fields) :
    AncestorOrEq p (.next tip fields) ↔ AncestorOrEq p tip := by
  constructor
  · intro above
    cases above with
    | refl => exact absurd rfl apart
    | step _ below => exact below
  · exact .step fields

theorem not_ancestorOrEq_next (tip : CBlockIndex) (fields : IndexFields) : ¬AncestorOrEq (.next tip fields) tip := by
  intro above
  have le := above.nHeight_le
  simp only [nHeight_next] at le
  omega

private theorem expected_update {block : CBlockIndex} (apart : p ≠ block) :
    expected (update computed block list) p = expected computed p := by
  cases p with
  | genesis f => rfl
  | next pprev f => exact update_of_ne apart _ _

theorem Sound.store (sound : Sound h tree state)
    {diff : CDeterministicMNListDiff} {after : CDeterministicMNManager} (inTree : tree.mem (.next state.tip fields))
    (reproduces : applyStored h (expected state.computed state.tip) (.next state.tip fields) diff = some newList)
    (cache : ∀ {key : Uint256} {list : CDeterministicMNList}, after.mnListsCache[key]? = some list →
      state.manager.mnListsCache[key]? = some list ∧ ¬list.nHeight + LISTS_CACHE_SIZE < (state.tip.nHeight + 1 : Nat))
    (diffs : ∀ key, after.listDiffs[key]? =
      if fields.phashBlock = key then some diff else state.manager.listDiffs[key]?)
    (snapshots : ∀ {key : Uint256} {list : CDeterministicMNList}, after.listSnapshots[key]? = some list →
      (key = fields.phashBlock ∧ list = newList) ∨ state.manager.listSnapshots[key]? = some list) :
    Sound h tree ⟨after, .next state.tip fields, update state.computed (.next state.tip fields) newList⟩ := by
  have hash_ne : ∀ {p}, tree.mem p → p ≠ .next state.tip fields → p.getBlockHash ≠ fields.phashBlock :=
    fun inTreeP apart same => apart (tree.hash_injective inTreeP inTree same)
  have connected_next : ∀ {p}, Connected state.tip p → Connected (.next state.tip fields) p :=
    fun connected => ⟨.step fields connected.1, connected.2⟩
  have notYet := not_ancestorOrEq_next state.tip fields
  constructor
  case tipInTree => exact inTree
  case cached =>
    intro p list inTreeP found
    obtain ⟨inCache, young⟩ := cache found
    obtain ⟨answer, harmless⟩ := sound.cached inTreeP inCache
    by_cases here : p = .next state.tip fields
    · -- an empty list cached for this block was old enough to be evicted
      subst here
      rw [answer.2 notYet] at young
      rcases harmless with above | high
      · exact absurd above notYet
      · simp only [emptyList, LISTS_CACHE_SIZE] at young
        simp only [SNAPSHOT_LIST_PERIOD, nHeight_next] at high
        omega
    · refine ⟨?_, harmless.imp_left (ancestorOrEq_next here).mpr⟩
      unfold Answer
      rw [ancestorOrEq_next here, expected_update here]
      exact answer
  case snapshots =>
    intro p list inTreeP found
    by_cases here : p = .next state.tip fields
    · subst here
      rcases snapshots found with ⟨-, rfl⟩ | before
      · exact ⟨⟨.refl _, by simp⟩, by simp⟩
      · exact absurd (sound.snapshots inTree before).1.1 notYet
    · rcases snapshots found with ⟨same, -⟩ | before
      · exact absurd same (hash_ne inTreeP here)
      · obtain ⟨connected, same⟩ := sound.snapshots inTreeP before
        exact ⟨connected_next connected, by simp only [update_of_ne here]; exact same⟩
  case diffs =>
    intro p inTreeP found
    by_cases here : p = .next state.tip fields
    · subst here
      exact ⟨.refl _, by simp⟩
    · rw [diffs, if_neg (hash_ne inTreeP here).symm] at found
      exact connected_next (sound.diffs inTreeP found)
  case replays =>
    intro pprev f above
    by_cases here : next pprev f = .next state.tip fields
    · cases here
      have parent : state.tip ≠ .next state.tip fields := fun same => notYet (same ▸ .refl _)
      exact ⟨diff, by rw [diffs, if_pos rfl], by
        simp only [expected_update parent, update_self]; exact reproduces⟩
    · have above' := (ancestorOrEq_next here).mp above
      obtain ⟨stored, found, applied⟩ := sound.replays above'
      have parent : pprev ≠ .next state.tip fields := by
        rintro rfl
        exact notYet ((AncestorOrEq.pprev rfl).trans above')
      have other : f.phashBlock ≠ fields.phashBlock := hash_ne (tree.mem_ancestor above' sound.tipInTree) here
      exact ⟨stored, by rw [diffs, if_neg other.symm]; exact found, by
        simp only [expected_update parent, update_of_ne here]; exact applied⟩

theorem Sound.erase (sound : Sound h tree state) {pprev : CBlockIndex} (atTip : state.tip = .next pprev fields) :
    Sound h tree { state with
      tip := pprev
      manager := { state.manager with
        listDiffs := state.manager.listDiffs.erase fields.phashBlock
        listSnapshots := state.manager.listSnapshots.erase fields.phashBlock
        mnListsCache := state.manager.mnListsCache.erase fields.phashBlock } } := by
  obtain ⟨manager, tip, computed⟩ := state
  subst atTip
  have lookup : ∀ {V : Type} {map : ExtTreeMap Uint256 V compare} {p : CBlockIndex} {v : V},
      (map.erase fields.phashBlock)[p.getBlockHash]? = some v →
        map[p.getBlockHash]? = some v ∧ p ≠ .next pprev fields := by
    intro V map p v found
    obtain ⟨other, present⟩ := erase_cases found
    exact ⟨present, fun same => other (same ▸ rfl)⟩
  constructor
  case tipInTree => exact tree.closed sound.tipInTree
  case cached =>
    intro p list inTreeP found
    obtain ⟨before, apart⟩ := lookup found
    obtain ⟨answer, harmless⟩ := sound.cached inTreeP before
    simp only [Answer, Harmless, ancestorOrEq_next apart] at answer harmless ⊢
    exact ⟨answer, harmless⟩
  case snapshots =>
    intro p list inTreeP found
    obtain ⟨before, apart⟩ := lookup found
    obtain ⟨connected, same⟩ := sound.snapshots inTreeP before
    exact ⟨⟨(ancestorOrEq_next apart).mp connected.1, connected.2⟩, same⟩
  case diffs =>
    intro p inTreeP found
    obtain ⟨diff, found⟩ := isSome_iff_exists.mp found
    obtain ⟨before, apart⟩ := lookup found
    have connected := sound.diffs inTreeP (isSome_iff_exists.mpr ⟨diff, before⟩)
    exact ⟨(ancestorOrEq_next apart).mp connected.1, connected.2⟩
  case replays =>
    intro q f above
    obtain ⟨diff, found, applied⟩ := sound.replays (.step fields above)
    refine ⟨diff, ?_, applied⟩
    have apart : next q f ≠ .next pprev fields := by
      intro same
      exact not_ancestorOrEq_next pprev fields (same ▸ above)
    have other : fields.phashBlock ≠ f.phashBlock := fun same =>
      apart (tree.hash_injective (tree.mem_ancestor (.step fields above) sound.tipInTree) sound.tipInTree same.symm)
    simp only [ExtTreeMap.getElem?_erase, Std.compare_eq_iff_eq, other, ↓reduceIte]
    exact found

theorem Sound.processBlock (sound : Sound h tree state) {env : BuildEnv} (hashing : env.hashing = h) {block : CBlock}
    {quorumBlocks : List CBlockIndex} {fJustCheck : Bool}
    {stored : Option (CDeterministicMNList × CDeterministicMNList)}
    (ancestors : ∀ q ∈ quorumBlocks, AncestorOrEq q state.tip)
    (processed : processBlock env state.manager block state.tip quorumBlocks fJustCheck = some (manager, stored)) :
    (stored = none ∧ Sound h tree { state with manager := manager }) ∨
      ∃ (read : CDeterministicMNManager) (newList : CDeterministicMNList),
        stored = some (expected state.computed state.tip, newList) ∧ Sound h tree { state with manager := read } ∧
        manager = cleanupCache
          { read with
            listDiffs := read.listDiffs.insert block.hash (buildDiff (expected state.computed state.tip) newList)
            listSnapshots :=
              if (state.tip.nHeight + 1) % SNAPSHOT_LIST_PERIOD = 0 ∨ (expected state.computed state.tip).nHeight = -1
              then read.listSnapshots.insert block.hash newList else read.listSnapshots } (state.tip.nHeight + 1) := by
  subst hashing
  have parent : ∀ {state : State}, Sound env.hashing tree state →
      ∃ manager, CDeterministicMNManager.getListForBlock env.hashing state.manager state.tip =
        some (expected state.computed state.tip, manager) ∧ Sound env.hashing tree { state with manager := manager } := by
    intro state sound
    obtain ⟨list, manager, answered, answer, after⟩ := sound.getListForBlock sound.tipInTree (.inl (.refl _))
    exact ⟨manager, by rw [answered, answer.1 (.refl _)], after⟩
  obtain ⟨first, answered, soundFirst⟩ := parent sound
  simp only [processBlock, answered, bind_some] at processed
  obtain ⟨second, queried, processed⟩ := bind_eq_some_iff.mp processed
  have soundSecond := Folds.foldlM_some (P := fun manager => Sound env.hashing tree { state with manager := manager }) (by
    intro q member before after sound answered
    obtain ⟨list, manager, found, -, sound'⟩ := sound.getListForBlock
      (tree.mem_ancestor (ancestors q member) sound.tipInTree) (.inl (ancestors q member))
    simp only [found, map_some, some.injEq] at answered
    exact answered ▸ sound') soundFirst queried
  split at processed
  · cases processed
  · cases processed; exact .inl ⟨rfl, soundSecond⟩
  split at processed
  · cases processed; exact .inl ⟨rfl, soundSecond⟩
  obtain ⟨third, answered, soundThird⟩ := parent soundSecond
  simp only [answered, map_some, some.injEq, Prod.mk.injEq] at processed
  obtain ⟨written, rfl⟩ := processed
  refine .inr ⟨third, _, rfl, soundThird, ?_⟩
  rw [← written]
  split <;> rfl

theorem Run.sound (run : Run h tree Harmless state) : Sound h tree state := by
  induction run with
  | start fields computed inTree => exact .start fields computed inTree
  | @query state p answer _ inTree harmless answered sound =>
    obtain ⟨list, manager, found, -, after⟩ := sound.getListForBlock inTree harmless
    rw [found] at answered
    cases answered
    exact after
  | @check state env block quorumBlocks fJustCheck manager _ hashing ancestors processed sound =>
    rcases sound.processBlock hashing ancestors processed with ⟨-, after⟩ | ⟨_, _, stored, -⟩
    · exact after
    · cases stored
  | @connect state env block fields quorumBlocks fJustCheck manager oldList newList _ hashing inTree hash ancestors
      processed reproduces sound =>
    rcases sound.processBlock hashing ancestors processed with ⟨stored, -⟩ | ⟨read, _, stored, soundRead, written⟩
    · cases stored
    · cases stored
      subst written
      rw [← hash]
      refine soundRead.store inTree reproduces ?_ ?_ ?_
      · intro key list found
        simp only [cleanupCache, ExtTreeMap.getElem?_filter', filter_eq_some_iff,
          Bool.not_eq_eq_eq_not, Bool.not_true, decide_eq_false_iff_not] at found
        exact found
      · intro key
        simp [cleanupCache, ExtTreeMap.getElem?_insert]
      · intro key list found
        split at found
        · rcases insert_cases found with ⟨here, same⟩ | ⟨-, present⟩
          · exact .inl ⟨here.symm, same.symm⟩
          · exact .inr present
        · exact .inr found
  | @disconnect state pprev fields manager _ atTip undone sound =>
    obtain ⟨read, queried, rfl⟩ := map_eq_some_iff.mp undone
    have soundRead : Sound h tree { state with manager := read } := by
      split at queried
      · obtain ⟨cur, answered, rest⟩ := bind_eq_some_iff.mp queried
        rw [← atTip] at answered
        obtain ⟨_, _, found, -, soundCur⟩ := sound.getListForBlock sound.tipInTree (.inl (.refl _))
        rw [found] at answered
        cases answered
        have below : AncestorOrEq pprev state.tip := .pprev (by rw [atTip]; rfl)
        obtain ⟨_, _, found, -, soundPrev⟩ := soundCur.getListForBlock
          (tree.mem_ancestor below sound.tipInTree) (.inl below)
        rw [found] at rest
        cases rest
        exact soundPrev
      · cases queried
        exact sound
    exact soundRead.erase atTip

/-- In every run whose queries for blocks that are not connected are for heights from 576 on, the store gives back the
    list that was computed for each connected block. -/
theorem getListForBlock_eq_computed {tree : BlockMap} (run : Run h tree Harmless state) {p : CBlockIndex}
    (connected : Connected state.tip p) :
    ∃ manager, getListForBlock h state.manager p = some (state.computed p, manager) := by
  have sound := run.sound
  obtain ⟨list, manager, answered, answer, -⟩ := sound.getListForBlock
    (tree.mem_ancestor connected.1 sound.tipInTree) (.inl connected.1)
  exact ⟨manager, by rw [answered, answer.1 connected.1, expected_of_connected connected]⟩

end

def registeringIndex : CBlockIndex := .next sampleGenesis { phashBlock := 7 }

def sampleTree : BlockMap where
  find hash := if hash = 6 then some sampleGenesis else if hash = 7 then some registeringIndex else none
  keyed := by
    intro hash p found
    split at found
    next same => cases found; exact same.symm
    split at found
    next same => cases found; exact same.symm
    next => cases found
  closed := by
    intro hash pprev fields found
    split at found
    next => cases found
    split at found
    next => cases found; rfl
    next => cases found

def sampleStart : State := ⟨{}, sampleGenesis, emptyList⟩

private theorem sampleStart_run (allowed : CBlockIndex → CBlockIndex → Prop) :
    Run sampleHashing sampleTree allowed sampleStart :=
  .start { phashBlock := 6 } emptyList rfl

private theorem sample_connect {allowed : CBlockIndex → CBlockIndex → Prop}
    (run : Run sampleHashing sampleTree allowed { sampleStart with manager := manager })
    (test : CDeterministicMNManager → CDeterministicMNList → Bool)
    (passes : (match processBlock sampleEnv manager registeringBlock sampleGenesis [] false with
      | some (after, some (oldList, newList)) => test after newList && decide
          (applyStored sampleHashing oldList registeringIndex (buildDiff oldList newList) = some newList)
      | _ => false) = true) :
    ∃ after newList, test after newList = true ∧ Run sampleHashing sampleTree allowed
      ⟨after, registeringIndex, update emptyList registeringIndex newList⟩ := by
  split at passes
  next after oldList newList processed =>
    rw [Bool.and_eq_true, decide_eq_true_eq] at passes
    exact ⟨after, newList, passes.1, .connect run rfl rfl rfl (by simp) processed passes.2⟩
  next => cases passes

theorem getListForBlock_eq_computed_registering :
    ∃ state, Run sampleHashing sampleTree Harmless state ∧ state.tip = registeringIndex ∧
      state.computed registeringIndex ≠ emptyList registeringIndex ∧
      ∃ manager, getListForBlock sampleHashing state.manager registeringIndex =
        some (state.computed registeringIndex, manager) := by
  obtain ⟨after, newList, registered, run⟩ := sample_connect (sampleStart_run Harmless)
    (fun _ newList => decide (newList ≠ emptyList registeringIndex)) (by decide +kernel)
  have connected : Connected registeringIndex registeringIndex := ⟨.refl _, by decide⟩
  refine ⟨_, run, rfl, ?_, getListForBlock_eq_computed run connected⟩
  exact of_decide_eq_true registered

/-- A query for the block before it is connected leaves the empty list in the cache, and that is what
    the store answers after the block has been connected. -/
theorem getListForBlock_ne_computed :
    ∃ state, Run sampleHashing sampleTree (fun _ _ => True) state ∧ Connected state.tip registeringIndex ∧
      ∃ list manager, getListForBlock sampleHashing state.manager registeringIndex = some (list, manager) ∧
        list ≠ state.computed registeringIndex := by
  have asked := Run.query (sampleStart_run fun _ _ => True) (p := registeringIndex) rfl trivial
    (show getListForBlock sampleHashing {} registeringIndex = some (emptyList registeringIndex, _) from rfl)
  obtain ⟨after, newList, answers, run⟩ := sample_connect asked
    (fun after newList => decide (newList ≠ emptyList registeringIndex) &&
      ((getListForBlock sampleHashing after registeringIndex).any fun answer =>
        decide (answer.1 = emptyList registeringIndex))) (by decide +kernel)
  rw [Bool.and_eq_true, decide_eq_true_eq, any_eq_true] at answers
  obtain ⟨registered, answer, answered, wrong⟩ := answers
  refine ⟨_, run, ⟨.refl _, by decide⟩, answer.1, answer.2, answered, ?_⟩
  rw [of_decide_eq_true wrong]
  exact registered.symm

end Cspn.MnManager
