import Cspn.MnChange

/-!
Differences of masternode lists. `BuildDiff` notes new masternodes, changed states and internal ids that are gone;
`ApplyDiff` replays them in the order removed, added, updated, read here as one sequence of items. Meanwhile the
masternode of an item that is still to come is as in the old list, and all others as in the new (`Stage`).
-/
namespace Cspn.MnDiff
open Primitives Index MnState MnList MnBuild Validation List Nat
open Std (ExtTreeMap ExtTreeSet)
open CDeterministicMNList CDeterministicMNStateDiff
open Option (bind_eq_some_iff bind_some isNone_iff_eq_none map_eq_some_iff)

structure CDeterministicMNListDiff where
  addedMNs : List CDeterministicMN := []
  updatedMNs : ExtTreeMap Nat CDeterministicMNStateDiff compare := ∅
  removedMns : ExtTreeSet Nat compare := ∅

def CDeterministicMNListDiff.hasChanges (diff : CDeterministicMNListDiff) : Bool :=
  !diff.addedMNs.isEmpty || !diff.updatedMNs.isEmpty || !diff.removedMns.isEmpty

/-- The state difference noted for a masternode of the new list that the old list has too. -/
def noteUpdate (old : CDeterministicMNList) (updated : ExtTreeMap Nat CDeterministicMNStateDiff compare)
    (toPtr : CDeterministicMN) : ExtTreeMap Nat CDeterministicMNStateDiff compare :=
  match old.getMN toPtr.proTxHash with
  | none => updated
  | some fromPtr =>
    let stateDiff := ofStates fromPtr.pdmnState toPtr.pdmnState
    if stateDiff.fields ≠ 0 then updated.insertIfNew toPtr.internalId stateDiff else updated

/-- The comparison of shared pointers in the source only skips states that are equal. -/
def buildDiff (old new : CDeterministicMNList) : CDeterministicMNListDiff :=
  { addedMNs := ((new.forEachMN false).filter fun toPtr => (old.getMN toPtr.proTxHash).isNone).insertionSort
      fun a b => a.internalId ≤ b.internalId
    updatedMNs := (new.forEachMN false).foldl (noteUpdate old) ∅
    removedMns := (old.forEachMN false).foldl (fun removed fromPtr =>
      if (new.getMN fromPtr.proTxHash).isNone then removed.insert fromPtr.internalId else removed) ∅ }

section
variable (h : Hashing) (result : CDeterministicMNList)

def applyRemoved (id : Nat) : Option CDeterministicMNList :=
  (result.getMNByInternalId id).bind fun dmn => result.removeMN h dmn.proTxHash

def applyAdded (dmn : CDeterministicMN) : Option CDeterministicMNList :=
  if dmn.internalId = result.nTotalRegisteredCount then
    (result.addMN h dmn).map countRegistration
  else none

def applyUpdated (entry : Nat × CDeterministicMNStateDiff) : Option CDeterministicMNList :=
  (result.getMNByInternalId entry.1).bind fun dmn => result.updateDmn h dmn (entry.2.applyToState dmn.pdmnState)

def applyDiff (list : CDeterministicMNList) (pindex : CBlockIndex) (diff : CDeterministicMNListDiff) :
    Option CDeterministicMNList :=
  let result := { list with blockHash := pindex.getBlockHash, nHeight := pindex.nHeight }
  (diff.removedMns.toList.foldlM (applyRemoved h) result).bind fun result =>
  (diff.addedMNs.foldlM (applyAdded h) result).bind fun result =>
  diff.updatedMNs.toList.foldlM (applyUpdated h) result

end

/-! ### The replay as one sequence of items -/

inductive Item where
  | removed (id : Nat)
  | added (dmn : CDeterministicMN)
  | updated (entry : Nat × CDeterministicMNStateDiff)

def applyItem (h : Hashing) (result : CDeterministicMNList) : Item → Option CDeterministicMNList
  | .removed id => applyRemoved h result id
  | .added dmn => applyAdded h result dmn
  | .updated entry => applyUpdated h result entry

def CDeterministicMNListDiff.items (diff : CDeterministicMNListDiff) : List Item :=
  diff.removedMns.toList.map .removed ++ diff.addedMNs.map .added ++ diff.updatedMNs.toList.map .updated

open CDeterministicMNListDiff

theorem applyDiff_eq (h : Hashing) (list : CDeterministicMNList) (pindex : CBlockIndex)
    (diff : CDeterministicMNListDiff) : applyDiff h list pindex diff =
      diff.items.foldlM (applyItem h) { list with blockHash := pindex.getBlockHash, nHeight := pindex.nHeight } := by
  simp [items, foldlM_map, applyDiff, applyItem]

variable {p q : Uint256} {list after result : CDeterministicMNList} {id n : Nat} {item a b : Item} {height : Int}
  {rest : List Item}

section
variable {h : Hashing} {old new : CDeterministicMNList}

/-- The masternode an item is about, and what the two lists say of it. -/
def Touches (old new : CDeterministicMNList) : Item → Uint256 → Prop
  | .removed id, p => ∃ dmn : CDeterministicMN, old.mnMap[p]? = some dmn ∧ dmn.internalId = id ∧ new.mnMap[p]? = none
  | .added dmn, p => new.mnMap[p]? = some dmn ∧ old.mnMap[p]? = none
  | .updated entry, p => ∃ before after : CDeterministicMN, old.mnMap[p]? = some before ∧
      new.mnMap[p]? = some after ∧ after.internalId = entry.1 ∧
      entry.2 = ofStates before.pdmnState after.pdmnState ∧
      before.pdmnState ≠ after.pdmnState

variable {dmn : CDeterministicMN} {bound : Nat}

private theorem getMN_proTxHash (consistent : Consistent h list bound)
    (found : list.mnMap[p]? = some dmn) (other : CDeterministicMNList) :
    other.getMN dmn.proTxHash = other.mnMap[p]? := by
  rw [consistent.keyed found, getMN]

theorem mem_removedMns (consistent : Consistent h old bound) :
    id ∈ (buildDiff old new).removedMns ↔ ∃ p, Touches old new (.removed id) p := by
  have collected : ∀ (dmns : List CDeterministicMN) (removed : ExtTreeSet Nat compare),
      id ∈ dmns.foldl (fun removed fromPtr =>
          if (new.getMN fromPtr.proTxHash).isNone then removed.insert fromPtr.internalId else removed) removed ↔
        id ∈ removed ∨ ∃ dmn ∈ dmns, (new.getMN dmn.proTxHash).isNone ∧ dmn.internalId = id := by
    intro dmns
    induction dmns with
    | nil => simp
    | cons dmn rest ih =>
      intro removed
      rw [foldl_cons, ih]
      by_cases gone : (new.getMN dmn.proTxHash).isNone = true
      · simp only [gone, ↓reduceIte, ExtTreeSet.mem_insert, Std.compare_eq_iff_eq, mem_cons, exists_eq_or_imp,
          true_and]
        tauto
      · simp only [gone, Bool.false_eq_true, ↓reduceIte, mem_cons, exists_eq_or_imp, false_and, false_or]
  rw [buildDiff, collected]
  simp only [ExtTreeSet.not_mem_empty, false_or, mem_forEachMN, isNone_iff_eq_none, Touches]
  constructor
  · rintro ⟨dmn, ⟨p, found⟩, gone, same⟩
    exact ⟨p, dmn, found, same, by rw [← getMN_proTxHash consistent found]; exact gone⟩
  · rintro ⟨p, dmn, found, same, gone⟩
    exact ⟨dmn, ⟨p, found⟩, by rw [getMN_proTxHash consistent found]; exact gone, same⟩

/-- The order of the items: removals, additions by internal id, updates by internal id. -/
def Before : Item → Item → Prop
  | .removed i, .removed j => i < j
  | .removed _, _ => True
  | .added a, .added b => a.internalId < b.internalId
  | .added _, .updated _ => True
  | .updated a, .updated b => a.1 < b.1
  | _, _ => False

section
variable (consistent : Consistent h new bound)
include consistent

theorem mem_addedMNs : dmn ∈ (buildDiff old new).addedMNs ↔ ∃ p, Touches old new (.added dmn) p := by
  simp only [buildDiff, mem_insertionSort, mem_filter, mem_forEachMN, isNone_iff_eq_none, Touches]
  constructor
  · rintro ⟨⟨p, found⟩, absent⟩
    exact ⟨p, found, by rw [← getMN_proTxHash consistent found]; exact absent⟩
  · rintro ⟨p, found, absent⟩
    exact ⟨⟨p, found⟩, by rw [getMN_proTxHash consistent found]; exact absent⟩

theorem getElem?_updatedMNs {stateDiff : CDeterministicMNStateDiff} :
    (buildDiff old new).updatedMNs[id]? = some stateDiff ↔ ∃ p, Touches old new (.updated (id, stateDiff)) p := by
  -- what the loop notes for the masternodes it has visited
  have noted : ∀ (dmns : List CDeterministicMN) (updated : ExtTreeMap Nat CDeterministicMNStateDiff compare),
      (∀ a ∈ dmns, ∀ b ∈ dmns, a.internalId = b.internalId → a = b) →
      (∀ a ∈ dmns, updated[a.internalId]? = none) → dmns.Nodup →
      ((dmns.foldl (noteUpdate old) updated)[id]? = some stateDiff ↔ updated[id]? = some stateDiff ∨
        ∃ after ∈ dmns, after.internalId = id ∧ ∃ before, old.getMN after.proTxHash = some before ∧
          stateDiff = ofStates before.pdmnState after.pdmnState ∧
          before.pdmnState ≠ after.pdmnState) := by
    intro dmns
    induction dmns with
    | nil => intro updated _ _ _; simp
    | cons dmn rest ih =>
      intro updated distinct unset nodup
      obtain ⟨first, nodup⟩ := nodup_cons.mp nodup
      have apart : ∀ other ∈ rest, dmn.internalId ≠ other.internalId := by
        intro other member same
        exact first (distinct dmn (.head _) other (.tail _ member) same ▸ member)
      rw [foldl_cons, ih _ (fun a ma b mb => distinct a (.tail _ ma) b (.tail _ mb))
        ?_ nodup]
      · simp only [mem_cons, exists_eq_or_imp]
        have free := unset dmn (.head _)
        unfold noteUpdate
        cases found : old.getMN dmn.proTxHash with
        | none => simp
        | some before =>
          by_cases same : before.pdmnState = dmn.pdmnState
          · simp [same, (fields_ofStates_eq_zero _ _).mpr]
          · have changed := mt (fields_ofStates_eq_zero _ _).mp same
            have absent : dmn.internalId ∉ updated := by
              rw [ExtTreeMap.mem_iff_isSome_getElem?, free]
              exact Bool.false_ne_true
            simp only [ne_eq, changed, not_false_eq_true, ↓reduceIte, ExtTreeMap.getElem?_insertIfNew, absent, and_true,
              Std.compare_eq_iff_eq, Option.some.injEq, exists_eq_left', same]
            by_cases here : dmn.internalId = id
            · subst here
              simp only [↓reduceIte, Option.some.injEq, free, reduceCtorEq, false_or, true_and]
              rw [eq_comm]
            · simp [here]
      · intro other member
        have unset' := unset other (.tail _ member)
        unfold noteUpdate
        split
        · exact unset'
        · dsimp only
          split
          · rw [ExtTreeMap.getElem?_insertIfNew, if_neg]
            · exact unset'
            · simp [apart other member]
          · exact unset'
  have distinct : ∀ a ∈ new.forEachMN false, ∀ b ∈ new.forEachMN false, a.internalId = b.internalId → a = b := by
    intro a ma b mb same
    obtain ⟨p, foundA⟩ := mem_forEachMN.mp ma
    obtain ⟨q, foundB⟩ := mem_forEachMN.mp mb
    obtain rfl := consistent.id_unique foundA foundB same
    rw [foundA] at foundB
    exact Option.some.inj foundB
  rw [buildDiff, noted _ _ distinct (by simp) consistent.indexed.forEachMN_nodup]
  simp only [ExtTreeMap.getElem?_empty, reduceCtorEq, false_or, mem_forEachMN, Touches]
  constructor
  · rintro ⟨after, ⟨p, found⟩, same, before, old, diff, changed⟩
    exact ⟨p, before, after, by rw [← getMN_proTxHash consistent found]; exact old, found, same, diff, changed⟩
  · rintro ⟨p, before, after, old, found, same, diff, changed⟩
    exact ⟨after, ⟨p, found⟩, same, before, by rw [getMN_proTxHash consistent found]; exact old, diff, changed⟩

theorem addedMNs_ordered : (buildDiff old new).addedMNs.Pairwise fun a b => a.internalId < b.internalId := by
  have sorted : (buildDiff old new).addedMNs.Pairwise fun a b => a.internalId ≤ b.internalId :=
    @pairwise_insertionSort _ (fun a b : CDeterministicMN => a.internalId ≤ b.internalId) _
      ⟨fun a b => le_total _ _⟩ ⟨fun a b c => le_trans⟩ _
  have nodup : (buildDiff old new).addedMNs.Nodup :=
    (perm_insertionSort _ _).nodup_iff.mpr (consistent.indexed.forEachMN_nodup.filter _)
  refine (sorted.and nodup).imp_of_mem ?_
  rintro a b memberA memberB ⟨le, apart⟩
  refine lt_of_le_of_ne le (fun same => apart ?_)
  obtain ⟨p, foundA, -⟩ := (mem_addedMNs consistent).mp memberA
  obtain ⟨q, foundB, -⟩ := (mem_addedMNs consistent).mp memberB
  obtain rfl := consistent.id_unique foundA foundB same
  rw [foundA] at foundB
  exact Option.some.inj foundB

theorem items_ordered : (buildDiff old new).items.Pairwise Before := by
  simp only [items, pairwise_append, pairwise_map, mem_map, mem_append]
  refine ⟨⟨?_, ?_, ?_⟩, ?_, ?_⟩
  · exact ExtTreeSet.ordered_toList.imp (fun lt => Nat.compare_eq_lt.mp lt)
  · exact addedMNs_ordered consistent
  · rintro _ ⟨_, _, rfl⟩ _ ⟨_, _, rfl⟩; trivial
  · exact ExtTreeMap.ordered_keys_toList.imp (fun lt => Nat.compare_eq_lt.mp lt)
  · rintro _ (⟨_, _, rfl⟩ | ⟨_, _, rfl⟩) _ ⟨_, _, rfl⟩ <;> trivial

end

theorem before_apart (before : Before a b) (one : Touches old new a p) : ¬Touches old new b p := by
  intro two
  cases a with
  | removed i =>
    obtain ⟨x, foundX, sameX, goneX⟩ := one
    cases b with
    | removed j =>
      obtain ⟨y, foundY, sameY, -⟩ := two
      rw [foundX] at foundY
      cases foundY
      simp only [Before] at before
      omega
    | added dmn => rw [two.2] at foundX; cases foundX
    | updated entry =>
      obtain ⟨_, _, -, foundY, -⟩ := two
      rw [goneX] at foundY
      cases foundY
  | added x =>
    cases b with
    | removed j => exact before
    | added y =>
      have same := one.1.symm.trans two.1
      cases same
      exact lt_irrefl _ before
    | updated entry =>
      obtain ⟨_, _, foundY, -⟩ := two
      rw [one.2] at foundY
      cases foundY
  | updated x =>
    cases b with
    | removed j => exact before
    | added y => exact before
    | updated y =>
      obtain ⟨_, _, -, foundX, sameX, -⟩ := one
      obtain ⟨_, _, -, foundY, sameY, -⟩ := two
      rw [foundX] at foundY
      cases foundY
      simp only [Before] at before
      omega

/-! ### The mixture during the replay -/

/-- Two lists of which the second comes from the first by a block. -/
structure Follows (h : Hashing) (old new : CDeterministicMNList) : Prop where
  oldConsistent : Consistent h old old.nTotalRegisteredCount
  newConsistent : Consistent h new new.nTotalRegisteredCount
  grows : old.nTotalRegisteredCount ≤ new.nTotalRegisteredCount
  fits : new.nTotalRegisteredCount < 2 ^ 32
  kept : ∀ {p : Uint256} {dmn : CDeterministicMN}, new.mnMap[p]? = some dmn →
    (∃ before : CDeterministicMN, old.mnMap[p]? = some before ∧ SameRegistration before dmn) ∨
      old.nTotalRegisteredCount ≤ dmn.internalId

/-- Every internal id handed out since `old` is in `new` that of a masternode that `old` does not have. -/
def IdsInUse (old new : CDeterministicMNList) : Prop :=
  ∀ i, old.nTotalRegisteredCount ≤ i → i < new.nTotalRegisteredCount →
    ∃ (p : Uint256) (dmn : CDeterministicMN), new.mnMap[p]? = some dmn ∧ old.mnMap[p]? = none ∧ dmn.internalId = i

/-- A unique property that a masternode of both lists had in `old` is held in `new` by another only if that one was in
    `old` too and has the larger id. -/
def NoEarlyTakeover (h : Hashing) (old new : CDeterministicMNList) : Prop :=
  ∀ (p q : Uint256) (taker giver : CDeterministicMN) (key : Uint256), p ≠ q →
    new.mnMap[p]? = some taker → old.mnMap[q]? = some giver → (new.mnMap[q]?).isSome →
    key ∈ taker.uniqueProperties.map h.serializeHash → key ∈ giver.uniqueProperties.map h.serializeHash →
    (old.mnMap[p]?).isSome ∧ giver.internalId < taker.internalId

section
variable (follows : Follows h old new)
include follows

theorem Follows.mem_items : item ∈ (buildDiff old new).items ↔ ∃ p, Touches old new item p := by
  simp only [items, mem_append, mem_map]
  cases item with
  | removed id =>
    rw [← mem_removedMns follows.oldConsistent, ← ExtTreeSet.mem_toList]
    simp
  | added dmn =>
    rw [← mem_addedMNs follows.newConsistent]
    simp
  | updated entry =>
    rw [← getElem?_updatedMNs follows.newConsistent, ← ExtTreeMap.mem_toList_iff_getElem?_eq_some]
    simp

theorem Follows.touches_unique (one : Touches old new item p) (two : Touches old new item q) : p = q := by
  cases item with
  | removed id =>
    obtain ⟨a, foundA, sameA, -⟩ := one
    obtain ⟨b, foundB, sameB, -⟩ := two
    exact follows.oldConsistent.id_unique foundA foundB (sameA.trans sameB.symm)
  | added dmn => exact follows.newConsistent.id_unique one.1 two.1 rfl
  | updated entry =>
    obtain ⟨_, a, -, foundA, sameA, -⟩ := one
    obtain ⟨_, b, -, foundB, sameB, -⟩ := two
    exact follows.newConsistent.id_unique foundA foundB (sameA.trans sameB.symm)

end

section
variable (follows : Follows h old new) (inUse : IdsInUse old new) {before after : CDeterministicMN} (inOld : old.mnMap[p]? = some before)
  (inNew : new.mnMap[p]? = some after)
include follows inUse inOld inNew

theorem Follows.sameRegistration : SameRegistration before after := by
  rcases follows.kept inNew with ⟨other, found, same⟩ | large
  · rw [inOld] at found
    cases found
    exact same
  · -- the id is one handed out since, so its owner is not in the old list
    obtain ⟨q, owner, found, absent, same⟩ := inUse after.internalId large (follows.newConsistent.fresh inNew)
    obtain rfl := follows.newConsistent.id_unique found inNew same
    rw [inOld] at absent
    cases absent

theorem Follows.withState : ({ before with pdmnState := after.pdmnState } : CDeterministicMN) = after := by
  obtain ⟨sameId, sameCollateral, sameReward⟩ := follows.sameRegistration inUse inOld inNew
  have sameKey := (follows.oldConsistent.keyed inOld).trans (follows.newConsistent.keyed inNew).symm
  rw [sameKey, sameId, sameCollateral, sameReward]

theorem Follows.eq_of_state (same : before.pdmnState = after.pdmnState) : before = after := by
  have whole := follows.withState inUse inOld inNew
  rw [← same] at whole
  exact whole

end

structure Stage (h : Hashing) (old new : CDeterministicMNList) (height : Int) (rest : List Item)
    (result : CDeterministicMNList) : Prop where
  consistent : Consistent h result result.nTotalRegisteredCount
  bounded : result.nTotalRegisteredCount ≤ new.nTotalRegisteredCount
  height : result.nHeight = height
  pending : ∀ item ∈ rest, ∀ p, Touches old new item p → result.mnMap[p]? = old.mnMap[p]?
  done : ∀ p, (∀ item ∈ rest, ¬Touches old new item p) → result.mnMap[p]? = new.mnMap[p]?

theorem Stage.start (follows : Follows h old new) (inUse : IdsInUse old new) (hash : Uint256) (height : Int) :
    Stage h old new height (buildDiff old new).items { old with blockHash := hash, nHeight := height } where
  consistent := follows.oldConsistent.congr rfl rfl rfl
  bounded := follows.grows
  height := rfl
  pending := fun _ _ _ _ => rfl
  done := by
    intro p untouched
    have noItem : ∀ item, ¬Touches old new item p := fun item touches =>
      untouched item (follows.mem_items.mpr ⟨p, touches⟩) touches
    cases inOld : old.mnMap[p]? with
    | none =>
      cases inNew : new.mnMap[p]? with
      | none => rfl
      | some after => exact absurd ⟨inNew, inOld⟩ (noItem (.added after))
    | some before =>
      cases inNew : new.mnMap[p]? with
      | none => exact absurd ⟨before, inOld, rfl, inNew⟩ (noItem (.removed before.internalId))
      | some after =>
        -- an unnoted survivor has kept its state, and everything else is set at registration
        by_cases changed : before.pdmnState = after.pdmnState
        · rw [follows.eq_of_state inUse inOld inNew changed]
        · exact absurd ⟨before, after, inOld, inNew, rfl, rfl, changed⟩ (noItem (.updated (after.internalId, _)))

namespace Stage

section
variable (stage : Stage h old new height (item :: rest) result)
include stage

theorem advance (follows : Follows h old new)
    (ordered : (item :: rest).Pairwise Before) (touches : Touches old new item p)
    (consistent : Consistent h after after.nTotalRegisteredCount)
    (bounded : after.nTotalRegisteredCount ≤ new.nTotalRegisteredCount) (height' : after.nHeight = result.nHeight)
    (placed : after.mnMap[p]? = new.mnMap[p]?) (others : ∀ q, q ≠ p → after.mnMap[q]? = result.mnMap[q]?) :
    Stage h old new height rest after where
  consistent := consistent
  bounded := bounded
  height := height'.trans stage.height
  pending := by
    intro other member q touched
    have apart : q ≠ p := by
      rintro rfl
      exact before_apart ((pairwise_cons.mp ordered).1 other member) touches touched
    rw [others q apart]
    exact stage.pending other (.tail _ member) q touched
  done := by
    intro q untouched
    by_cases here : q = p
    · rw [here, placed]
    · rw [others q here]
      apply stage.done
      intro other member touched
      rcases mem_cons.mp member with rfl | later
      · exact here (follows.touches_unique touched touches)
      · exact untouched other later touched

theorem found (touches : Touches old new item p) (inOld : old.mnMap[p]? = some dmn) :
    result.mnMap[p]? = some dmn ∧ result.getMNByInternalId dmn.internalId = some dmn := by
  have present := (stage.pending item (.head _) p touches).trans inOld
  exact ⟨present, stage.consistent.getMNByInternalId present⟩

theorem step (follows : Follows h old new)
    (inUse : IdsInUse old new) (ordered : (item :: rest).Pairwise Before) (touches : Touches old new item p)
    (applied : applyItem h result item = some after) : Stage h old new height rest after := by
  cases item with
  | removed id =>
    have ⟨dmn, inOld, same, gone⟩ := touches
    obtain ⟨present, byId⟩ := stage.found touches inOld
    obtain ⟨_, lookup, removed⟩ := bind_eq_some_iff.mp applied
    rw [← same, byId] at lookup
    cases lookup
    rw [stage.consistent.keyed present] at removed
    obtain ⟨consistent, _, _, shape⟩ := stage.consistent.removeMN removed
    refine stage.advance follows ordered touches (by rw [shape] at consistent ⊢; exact consistent)
      (by rw [shape]; exact stage.bounded) (by rw [shape]) (by rw [shape, gone]; simp) ?_
    intro q apart
    rw [shape]
    simp [ExtTreeMap.getElem?_erase, Ne.symm apart]
  | added dmn =>
    simp only [applyItem, applyAdded] at applied
    split at applied
    next next_id =>
      obtain ⟨added, addedEq, rfl⟩ := map_eq_some_iff.mp applied
      have key := follows.newConsistent.keyed touches.1
      have below := follows.newConsistent.fresh touches.1
      have counted : added.countRegistration.nTotalRegisteredCount = result.nTotalRegisteredCount + 1 ∧
          Consistent h added (result.nTotalRegisteredCount + 1) ∧ Added dmn result added := by
        obtain ⟨consistent, _, shape⟩ := stage.consistent.addMN addedEq
          (fun q other present => by rw [next_id]; exact Nat.ne_of_lt (stage.consistent.fresh present))
          (result.nTotalRegisteredCount + 1) (by omega) (by omega)
        refine ⟨?_, consistent, shape⟩
        have fits := follows.fits
        have total : added.nTotalRegisteredCount = result.nTotalRegisteredCount := by rw [shape]
        simp only [countRegistration, total]
        exact mod_eq_of_lt (by omega)
      obtain ⟨count, consistent, shape⟩ := counted
      refine stage.advance follows ordered touches (by rw [count]; exact consistent.congr rfl rfl rfl)
        (by rw [count]; omega) (by rw [shape]; rfl) ?_ ?_
      · rw [shape, touches.1]
        simp [countRegistration, key]
      · intro q apart
        rw [shape]
        simp [countRegistration, ExtTreeMap.getElem?_insert, key, Ne.symm apart]
    next => cases applied
  | updated entry =>
    obtain ⟨before, target, inOld, inNew, same, diff, -⟩ := id touches
    obtain ⟨sameId, -⟩ := follows.sameRegistration inUse inOld inNew
    obtain ⟨present, byId⟩ := stage.found touches inOld
    obtain ⟨_, lookup, updated⟩ := bind_eq_some_iff.mp applied
    rw [← same, ← sameId, byId] at lookup
    cases lookup
    rw [diff, applyToState_ofStates] at updated
    obtain ⟨consistent, shape⟩ := stage.consistent.updateDmn present (follows.newConsistent.nonNull inNew).2 updated
    refine stage.advance follows ordered touches (by rw [shape] at consistent ⊢; exact consistent)
      (by rw [shape]; exact stage.bounded) (by rw [shape]) ?_ ?_
    · rw [shape, inNew, ← follows.withState inUse inOld inNew]
      exact ExtTreeMap.getElem?_insert_self
    · intro q apart
      rw [shape]
      simp [ExtTreeMap.getElem?_insert, Ne.symm apart]

section
variable (follows : Follows h old new) (inUse : IdsInUse old new) (takeover : NoEarlyTakeover h old new) (ordered : (item :: rest).Pairwise Before)
  (touches : Touches old new item p)
include follows inUse takeover ordered touches

/-- Nobody but the masternode itself holds, in the mixture, a property it is about to have. -/
theorem free (inNew : new.mnMap[p]? = some dmn) :
    ∀ key ∈ dmn.uniqueProperties.map h.serializeHash, ∀ q, q ≠ p → held h result.mnMap q key = 0 := by
  intro key member q apart
  by_contra holds
  obtain ⟨holder, present, holdsKey⟩ := held_pos.mp (pos_of_ne_zero holds)
  by_cases later : ∃ other ∈ rest, Touches old new other q
  · -- the holder is still as in the old list, so its item comes after this one
    obtain ⟨other, memberRest, touched⟩ := later
    rw [stage.pending other (.tail _ memberRest) q touched] at present
    have order := (pairwise_cons.mp ordered).1 other memberRest
    cases other with
    | removed id =>
      cases item with
      | removed j => obtain ⟨_, _, _, gone⟩ := touches; rw [inNew] at gone; cases gone
      | added a => exact order
      | updated e => exact order
    | added a => rw [touched.2] at present; cases present
    | updated e =>
      have ⟨before, target, inOldQ, inNewQ, sameQ, _⟩ := touched
      rw [present] at inOldQ
      cases inOldQ
      obtain ⟨wasThere, larger⟩ := takeover p q dmn holder key (Ne.symm apart) inNew present (by simp [inNewQ])
        member holdsKey
      obtain ⟨sameId, -⟩ := follows.sameRegistration inUse present inNewQ
      cases item with
      | removed j => obtain ⟨_, _, _, gone⟩ := touches; rw [inNew] at gone; cases gone
      | added a => rw [touches.2] at wasThere; cases wasThere
      | updated e' =>
        obtain ⟨_, _, _, inNewP, sameP, _⟩ := touches
        rw [inNew] at inNewP
        cases inNewP
        simp only [Before] at order
        omega
  · -- the holder is as in the new list, where properties have one owner
    rw [stage.done q] at present
    · have one : 0 < held h new.mnMap q key := held_pos.mpr ⟨holder, present, holdsKey⟩
      have two : 0 < held h new.mnMap p key := held_pos.mpr ⟨dmn, inNew, member⟩
      exact apart (follows.newConsistent.props.sole one two)
    · intro other memberOther touched
      rcases mem_cons.mp memberOther with rfl | inRest
      · exact apart (follows.touches_unique touched touches)
      · exact later ⟨other, inRest, touched⟩

/-- One item succeeds when an added masternode carries the next id and no property is taken over early. -/
theorem progress (nextId : ∀ dmn, item = .added dmn → dmn.internalId = result.nTotalRegisteredCount) :
    ∃ after, applyItem h result item = some after := by
  cases item with
  | removed id =>
    have ⟨dmn, inOld, same, _⟩ := touches
    obtain ⟨present, byId⟩ := stage.found touches inOld
    obtain ⟨after, removed⟩ := stage.consistent.indexed.removeMN_isSome present
    exact ⟨after, by
      simp [applyItem, applyRemoved, ← same, byId, stage.consistent.keyed present, removed]⟩
  | added dmn =>
    obtain ⟨collateral, owner⟩ := follows.newConsistent.nonNull touches.1
    have key := follows.newConsistent.keyed touches.1
    have absent := (stage.pending _ (.head _) p touches).trans touches.2
    obtain ⟨after, added⟩ := stage.consistent.indexed.addMN_isSome (by rw [key]; exact absent) collateral owner
      (by rw [key]; exact stage.free follows inUse takeover ordered touches touches.1)
    exact ⟨_, by rw [applyItem, applyAdded, if_pos (nextId dmn rfl), added]; rfl⟩
  | updated entry =>
    obtain ⟨before, target, inOld, inNew, same, diff, -⟩ := id touches
    obtain ⟨sameId, -⟩ := follows.sameRegistration inUse inOld inNew
    obtain ⟨present, byId⟩ := stage.found touches inOld
    obtain ⟨after, updated⟩ := stage.consistent.indexed.updateDmn_isSome present (follows.newConsistent.nonNull inNew).2
      (by rw [follows.withState inUse inOld inNew]; exact stage.free follows inUse takeover ordered touches inNew)
    exact ⟨after, by
      simp [applyItem, applyUpdated, ← same, ← sameId, byId, diff, applyToState_ofStates, updated]⟩

end

end

end Stage

/-! ### The whole replay -/

def addedId : Item → Option Nat
  | .added dmn => some dmn.internalId
  | _ => none

theorem applyItem_count (applied : applyItem h result item = some after) : after.nTotalRegisteredCount =
      if (addedId item).isSome then (result.nTotalRegisteredCount + 1) % 2 ^ 32
      else result.nTotalRegisteredCount := by
  cases item with
  | removed id =>
    obtain ⟨_, _, removed⟩ := bind_eq_some_iff.mp applied
    obtain ⟨_, _, removed⟩ := bind_eq_some_iff.mp removed
    obtain ⟨_, _, rfl⟩ := map_eq_some_iff.mp removed
    rfl
  | added dmn =>
    simp only [applyItem, applyAdded] at applied
    split at applied
    · obtain ⟨added, addedEq, rfl⟩ := map_eq_some_iff.mp applied
      unfold addMN at addedEq
      split at addedEq
      · cases addedEq
      · obtain ⟨_, _, rfl⟩ := map_eq_some_iff.mp addedEq
        rfl
    · cases applied
  | updated entry =>
    obtain ⟨_, _, updated⟩ := bind_eq_some_iff.mp applied
    obtain ⟨_, _, rfl⟩ := map_eq_some_iff.mp updated
    rfl

theorem items_addedIds (follows : Follows h old new) (inUse : IdsInUse old new) :
    (buildDiff old new).items.filterMap addedId =
      range' old.nTotalRegisteredCount (new.nTotalRegisteredCount - old.nTotalRegisteredCount) := by
  have ids : (buildDiff old new).items.filterMap addedId =
      (buildDiff old new).addedMNs.map CDeterministicMN.internalId := by
    simp [items, Function.comp_def, addedId]
  have ordered : ((buildDiff old new).addedMNs.map CDeterministicMN.internalId).Pairwise (· < ·) :=
    pairwise_map.mpr (addedMNs_ordered follows.newConsistent)
  have range := pairwise_lt_range' (s := old.nTotalRegisteredCount)
    (n := new.nTotalRegisteredCount - old.nTotalRegisteredCount) 1
  rw [ids]
  refine Perm.eq_of_pairwise (fun a b _ _ ab ba => absurd ab (lt_asymm ba)) ordered range ?_
  refine (perm_ext_iff_of_nodup (ordered.imp ne_of_lt) (range.imp ne_of_lt)).mpr ?_
  intro i
  rw [mem_range'_1, mem_map]
  constructor
  · rintro ⟨dmn, member, rfl⟩
    obtain ⟨p, inNew, absent⟩ := (mem_addedMNs follows.newConsistent).mp member
    have below := follows.newConsistent.fresh inNew
    rcases follows.kept inNew with ⟨_, inOld, _⟩ | large
    · rw [absent] at inOld; cases inOld
    · omega
  · rintro ⟨low, high⟩
    obtain ⟨p, dmn, inNew, absent, same⟩ := inUse i low (by omega)
    exact ⟨dmn, (mem_addedMNs follows.newConsistent).mpr ⟨p, inNew, absent⟩, same⟩

def Agrees (a b : CDeterministicMNList) : Prop :=
  a.nHeight = b.nHeight ∧ a.nTotalRegisteredCount = b.nTotalRegisteredCount ∧ a.mnMap = b.mnMap ∧
    a.mnInternalIdMap = b.mnInternalIdMap ∧ a.mnUniquePropertyMap = b.mnUniquePropertyMap

instance (a b : CDeterministicMNList) : Decidable (Agrees a b) :=
  inferInstanceAs (Decidable (_ ∧ _ ∧ _ ∧ _ ∧ _))

/-- The mixture with the items still to come, whose additions carry the ids from the counter on. -/
private structure Replaying (h : Hashing) (old new : CDeterministicMNList) (height : Int) (rest : List Item)
    (result : CDeterministicMNList) : Prop where
  stage : Stage h old new height rest result
  ordered : rest.Pairwise Before
  touched : ∀ item ∈ rest, ∃ p, Touches old new item p
  ids : rest.filterMap addedId = range' result.nTotalRegisteredCount
    (new.nTotalRegisteredCount - result.nTotalRegisteredCount)

theorem replay_ids {items : List Item} (replayed : items.foldlM (applyItem h) result = some after) :
    ∀ i, result.nTotalRegisteredCount ≤ i → i < after.nTotalRegisteredCount →
      ∃ dmn, .added dmn ∈ items ∧ dmn.internalId = i := by
  induction items generalizing result with
  | nil =>
    cases replayed
    intro i low high
    omega
  | cons item rest ih =>
    intro i low high
    obtain ⟨middle, first, tail⟩ := bind_eq_some_iff.mp replayed
    have counter := applyItem_count first
    have later : middle.nTotalRegisteredCount ≤ i → ∃ dmn, .added dmn ∈ item :: rest ∧ dmn.internalId = i := by
      intro low
      obtain ⟨dmn, member, same⟩ := ih tail i low high
      exact ⟨dmn, .tail _ member, same⟩
    cases item with
    | removed id => exact later (by simpa [counter, addedId] using low)
    | updated entry => exact later (by simpa [counter, addedId] using low)
    | added dmn =>
      rcases lt_or_eq_of_le low with more | here
      · exact later (by rw [counter]; exact le_trans (mod_le _ _) more)
      · refine ⟨dmn, .head _, ?_⟩
        simp only [applyItem, applyAdded] at first
        split at first
        next same => exact same.trans here
        next => cases first

theorem before_asymm (one : Before a b) : ¬Before b a := by
  cases a <;> cases b <;> simp only [Before, not_false_eq_true] at one ⊢ <;> omega

section
variable (follows : Follows h old new) (inUse : IdsInUse old new)
include follows inUse

private theorem replaying_step (takeover : NoEarlyTakeover h old new)
    (replaying : Replaying h old new height (item :: rest) result) :
    ∃ after, applyItem h result item = some after ∧ Replaying h old new height rest after := by
  obtain ⟨p, touches⟩ := replaying.touched item (.head _)
  have ids := replaying.ids
  have fits := follows.fits
  rw [filterMap_cons] at ids
  have nextId : ∀ dmn, item = .added dmn → dmn.internalId = result.nTotalRegisteredCount ∧
      rest.filterMap addedId = range' (result.nTotalRegisteredCount + 1)
        (new.nTotalRegisteredCount - (result.nTotalRegisteredCount + 1)) := by
    rintro dmn rfl
    simp only [addedId] at ids
    cases left : new.nTotalRegisteredCount - result.nTotalRegisteredCount with
    | zero => rw [left] at ids; cases ids
    | succ n =>
      rw [left, range'_succ, cons.injEq] at ids
      have fewer : new.nTotalRegisteredCount - (result.nTotalRegisteredCount + 1) = n := by omega
      exact ⟨ids.1, by rw [fewer]; exact ids.2⟩
  obtain ⟨after, applied⟩ := replaying.stage.progress follows inUse takeover replaying.ordered touches
    (fun dmn isAdded => (nextId dmn isAdded).1)
  have counter := applyItem_count applied
  refine ⟨after, applied, replaying.stage.step follows inUse replaying.ordered touches applied,
    (pairwise_cons.mp replaying.ordered).2,
    fun other member => replaying.touched other (.tail _ member), ?_⟩
  cases item with
  | removed id =>
    rwa [counter]
  | updated entry =>
    rwa [counter]
  | added dmn =>
    obtain ⟨id, remaining⟩ := nextId dmn rfl
    have below := follows.newConsistent.fresh touches.1
    rw [mod_eq_of_lt (by omega)] at counter
    rw [counter]
    exact remaining

theorem replay_succeeds (takeover : NoEarlyTakeover h old new)
    (pindex : CBlockIndex) (height : new.nHeight = pindex.nHeight) :
    ∃ result, applyDiff h old pindex (buildDiff old new) = some result ∧ Agrees result new := by
  have start : Replaying h old new pindex.nHeight (buildDiff old new).items
      { old with blockHash := pindex.getBlockHash, nHeight := pindex.nHeight } :=
    ⟨Stage.start follows inUse _ _, items_ordered follows.newConsistent,
      fun _ => follows.mem_items.mp,
      items_addedIds follows inUse⟩
  obtain ⟨result, replayed, final⟩ := Folds.foldlM_isSome_rest (P := Replaying h old new pindex.nHeight)
    (fun _ _ _ replaying => replaying_step follows inUse takeover replaying) start
  have map : result.mnMap = new.mnMap := by
    apply ExtTreeMap.ext_getElem?
    intro p
    exact final.stage.done p (by simp)
  refine ⟨result, by rw [applyDiff_eq]; exact replayed, final.stage.height.trans height.symm, ?_, map, ?_, ?_⟩
  · have bounded := final.stage.bounded
    have none := congrArg length final.ids
    simp only [filterMap_nil, length_nil, length_range'] at none
    omega
  · apply ExtTreeMap.ext_getElem?
    intro i
    apply Option.ext
    intro p
    rw [final.stage.consistent.ids, follows.newConsistent.ids, map]
  · have reflects := final.stage.consistent.props
    rw [map] at reflects
    exact reflects.unique follows.newConsistent.props

theorem replay_clash {taker giver : Item}
    {key : Uint256} (takerTouches : Touches old new taker p) (giverTouches : Touches old new giver q)
    (comesFirst : Before taker giver) (apart : p ≠ q) (takes : 0 < held h new.mnMap p key)
    (gives : 0 < held h old.mnMap q key) (stage : Stage h old new height rest result) (ordered : rest.Pairwise Before)
    (touched : ∀ item ∈ rest, ∃ p, Touches old new item p) (takerIn : taker ∈ rest) (giverIn : giver ∈ rest) :
    rest.foldlM (applyItem h) result ≠ some after := by
  induction rest generalizing result with
  | nil => cases takerIn
  | cons item rest ih =>
    intro replayed
    obtain ⟨middle, first, tail⟩ := bind_eq_some_iff.mp replayed
    obtain ⟨r, touches⟩ := touched item (.head _)
    have next := stage.step follows inUse ordered touches first
    obtain ⟨before, ordered⟩ := pairwise_cons.mp ordered
    rcases mem_cons.mp takerIn with rfl | takerLater
    · rcases mem_cons.mp giverIn with rfl | giverLater
      · exact before_asymm comesFirst comesFirst
      -- now the taker is as in the new list and the giver as in the old one
      have takerPlaced := next.done p (fun other member => before_apart (before other member) takerTouches)
      have giverPlaced := next.pending giver giverLater q giverTouches
      have takerHolds : 0 < held h middle.mnMap p key := by simpa [held, takerPlaced] using takes
      have giverHolds : 0 < held h middle.mnMap q key := by simpa [held, giverPlaced] using gives
      exact apart (next.consistent.props.sole takerHolds giverHolds)
    · rcases mem_cons.mp giverIn with rfl | giverLater
      · exact before_asymm comesFirst (before taker takerLater)
      · exact ih next ordered (fun other member => touched other (.tail _ member)) takerLater
          giverLater tail

/-- A replay that succeeds never claims a property that the mixture still has elsewhere. -/
theorem noEarlyTakeover_of_replay
    {start : CDeterministicMNList} (stage : Stage h old new height (buildDiff old new).items start)
    (replayed : (buildDiff old new).items.foldlM (applyItem h) start = some after) : NoEarlyTakeover h old new := by
  intro p q taker giver key apart inNew inOld stays takes gives
  obtain ⟨target, inNewQ⟩ := Option.isSome_iff_exists.mp stays
  by_contra early
  have giverHolds : 0 < held h old.mnMap q key := held_pos.mpr ⟨giver, inOld, gives⟩
  have takerHolds : 0 < held h new.mnMap p key := held_pos.mpr ⟨taker, inNew, takes⟩
  -- the giver has changed, since the new list has one owner for the key
  have giverTouches : Touches old new (.updated (target.internalId,
      ofStates giver.pdmnState target.pdmnState)) q := by
    refine ⟨giver, target, inOld, inNewQ, rfl, rfl, fun same => apart ?_⟩
    obtain rfl := follows.eq_of_state inUse inOld inNewQ same
    exact follows.newConsistent.props.sole takerHolds (held_pos.mpr ⟨giver, inNewQ, gives⟩)
  -- the taker has an item too, and it comes first
  obtain ⟨takerItem, takerTouches, comesFirst⟩ : ∃ item, Touches old new item p ∧
      Before item (.updated (target.internalId, ofStates giver.pdmnState target.pdmnState)) := by
    cases inOldP : old.mnMap[p]? with
    | none => exact ⟨.added taker, ⟨inNew, inOldP⟩, trivial⟩
    | some before =>
      refine ⟨.updated (taker.internalId, _), ⟨before, taker, inOldP, inNew, rfl, rfl, fun same => apart ?_⟩, ?_⟩
      · obtain rfl := follows.eq_of_state inUse inOldP inNew same
        exact follows.oldConsistent.props.sole (held_pos.mpr ⟨before, inOldP, takes⟩) giverHolds
      · obtain ⟨sameId, -⟩ := follows.sameRegistration inUse inOld inNewQ
        have different : taker.internalId ≠ target.internalId := fun same =>
          apart (follows.newConsistent.id_unique inNew inNewQ same)
        simp only [inOldP, Option.isSome_some, true_and, not_lt] at early
        show taker.internalId < target.internalId
        omega
  have member : ∀ item r, Touches old new item r → item ∈ (buildDiff old new).items := fun item r touches =>
    follows.mem_items.mpr ⟨r, touches⟩
  exact replay_clash follows inUse takerTouches giverTouches comesFirst apart takerHolds giverHolds stage
    (items_ordered follows.newConsistent) (fun _ => follows.mem_items.mp)
    (member _ _ takerTouches) (member _ _ giverTouches) replayed

end

/-- The lists that connecting blocks builds from the empty list, with the number of registrations so far. -/
inductive Reachable (h : Hashing) : Nat → CDeterministicMNList → Prop where
  | empty (blockHash : Uint256) : Reachable h 0 { blockHash := blockHash }
  | connect {n : Nat} {oldList newList : CDeterministicMNList} (env : BuildEnv) (block : CBlock)
      (pindexPrev : CBlockIndex) (blockHash : Uint256) (hashing : env.hashing = h) (reachable : Reachable h n oldList)
      (built : buildNewListFromBlock env block pindexPrev oldList = .ok newList) :
      Reachable h (n + registrations block) { newList with blockHash := blockHash }

theorem Reachable.consistent (reachable : Reachable h n list)
    (room : n < 2 ^ 32) : Consistent h list list.nTotalRegisteredCount ∧ list.nTotalRegisteredCount = n := by
  induction reachable with
  | empty blockHash => exact ⟨Consistent.empty blockHash (-1) 0, rfl⟩
  | connect env block pindexPrev blockHash hashing _ built ih =>
    obtain ⟨consistent, count⟩ := ih (by omega)
    subst hashing
    have evolves := MnChange.buildNewListFromBlock_evolves consistent (by omega) built
    have total := evolves.count
    refine ⟨?_, by simp [total, count]⟩
    simp only [total]
    exact evolves.consistent.congr rfl rfl rfl

/-- Replaying the difference of a reachable list and what a block makes of it gives the latter exactly when every id
    the block handed out is in use and no property changes hands early. -/
theorem applyDiff_buildDiff_iff {env : BuildEnv} {n : Nat} (reachable : Reachable env.hashing n old) {block : CBlock}
    {pindexPrev : CBlockIndex} (room : n + registrations block < 2 ^ 32)
    (built : buildNewListFromBlock env block pindexPrev old = .ok new) (fields : IndexFields) :
    (∃ result, applyDiff env.hashing old (.next pindexPrev fields) (buildDiff old new) = some result ∧
      Agrees result new) ↔ IdsInUse old new ∧ NoEarlyTakeover env.hashing old new := by
  obtain ⟨consistent, count⟩ := reachable.consistent (by omega)
  have evolves := MnChange.buildNewListFromBlock_evolves consistent (by omega) built
  have height := evolves.height
  have total := evolves.count
  have follows : Follows env.hashing old new := by
    refine ⟨consistent, by rw [total]; exact evolves.consistent, by rw [total]; simp, ?_, evolves.kept⟩
    rw [total]
    simp only
    omega
  constructor
  · rintro ⟨result, replayed, -, count, -⟩
    rw [applyDiff_eq] at replayed
    have inUse : IdsInUse old new := by
      intro i low high
      obtain ⟨dmn, member, same⟩ := replay_ids replayed i low (by rw [count]; exact high)
      obtain ⟨p, inNew, absent⟩ := follows.mem_items.mp member
      exact ⟨p, dmn, inNew, absent, same⟩
    exact ⟨inUse, noEarlyTakeover_of_replay follows inUse (Stage.start follows inUse _ _) replayed⟩
  · rintro ⟨inUse, takeover⟩
    exact replay_succeeds follows inUse takeover _ (by rw [height]; simp)

end

/-! ### A block that registers one collateral twice -/

def sampleHashing : Hashing where
  serializeHash
    | .outpoint o => 4 * (1000 * o.hash + o.n)
    | .service addr => 4 * (1000 * addr.ip + addr.port) + 1
    | .keyID key => 4 * key + 2
    | .blsKey key => 4 * key.getD 0 + 3
  sha256 a b := a + b

def sampleEnv : BuildEnv where
  hashing := sampleHashing
  nMasternodeMinimumConfirmations := 1
  getUTXOCoin o := if o = ⟨50, 0⟩ then some ⟨⟨1337 * COIN, []⟩, 1, false, false⟩ else none
  dkgInterval _ := none
  getAllQuorumMembers _ _ := []

/-- A registration with keys and address of its own on that coin as external collateral. -/
def sampleRegistration (n : Nat) : CTransaction where
  vin := [{ prevout := ⟨60 + n, 0⟩ }]
  vout := [⟨1, []⟩]
  nType := TRANSACTION_PROVIDER_REGISTER
  vExtraPayload := .proRegTx
    { collateralOutpoint := ⟨50, 0⟩, addr := ⟨n, 1⟩, keyIDOwner := n, pubKeyOperator := some n, keyIDVoting := n }
  hash := 100 + n
  noPayload := fun no => absurd ⟨by decide, by decide⟩ no

def sampleCoinbase : CTransaction := { vin := [{ prevout := COutPoint.null }], vout := [⟨1, []⟩], hash := 99 }

def sampleGenesis : CBlockIndex := .genesis { phashBlock := 6 }

def registeringBlock : CBlock := { vtx := [sampleCoinbase, sampleRegistration 1], hash := 7 }

def replacingBlock : CBlock := { vtx := [sampleCoinbase, sampleRegistration 1, sampleRegistration 2], hash := 7 }

theorem applyDiff_buildDiff_registering :
    ∃ newList, buildNewListFromBlock sampleEnv registeringBlock sampleGenesis {} = .ok newList ∧
      IdsInUse {} newList ∧ NoEarlyTakeover sampleHashing {} newList := by
  obtain ⟨newList, built, test⟩ := (okAnd_iff (buildNewListFromBlock sampleEnv registeringBlock sampleGenesis {})
    (fun newList => decide (∃ result ∈
      applyDiff sampleHashing {} (.next sampleGenesis { phashBlock := 7 }) (buildDiff {} newList),
        Agrees result newList))).mp (by decide +kernel)
  obtain ⟨result, replayed, agrees⟩ := of_decide_eq_true test
  exact ⟨newList, built, (applyDiff_buildDiff_iff (Reachable.empty 0) (by decide) built { phashBlock := 7 }).mp
    ⟨result, replayed, agrees⟩⟩

/-- The second registration replaces the first, whose internal id is then unused: the difference cannot be replayed.
    -/
theorem applyDiff_buildDiff_replaced : ∃ newList, Reachable sampleHashing 0 {} ∧
      buildNewListFromBlock sampleEnv replacingBlock sampleGenesis {} = .ok newList ∧
      applyDiff sampleHashing {} (.next sampleGenesis { phashBlock := 7 }) (buildDiff {} newList) = none := by
  obtain ⟨newList, built, test⟩ := (okAnd_iff (buildNewListFromBlock sampleEnv replacingBlock sampleGenesis {})
    (fun newList =>
      (applyDiff sampleHashing {} (.next sampleGenesis { phashBlock := 7 }) (buildDiff {} newList)).isNone)).mp
    (by decide +kernel)
  exact ⟨newList, .empty 0, built, isNone_iff_eq_none.mp test⟩

end Cspn.MnDiff
