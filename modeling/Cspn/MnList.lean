import Cspn.Folds
import Cspn.MnState
import Cspn.OwnerIndex

/-!
The deterministic masternode list: the masternodes by registration transaction, the
index of their internal ids and the index of their unique properties. An operation
is `none` where an assertion of the source fails. `Consistent` ties the two indexes
to the masternodes, and every operation keeps it.
-/
namespace Cspn.MnList
open Primitives MnState List Option
open Std (ExtTreeMap)
open COutPoint
open OwnerIndex

variable {p q key : Uint256} {holds : Uint256 → Uint256 → Nat}

section
variable {V : Type} {map : ExtTreeMap Uint256 V compare} {x y : V}

theorem insert_cases (found : (map.insert p x)[q]? = some y) : p = q ∧ x = y ∨ p ≠ q ∧ map[q]? = some y := by
  simp only [ExtTreeMap.getElem?_insert, Std.compare_eq_iff_eq] at found
  split at found
  next here => exact .inl ⟨here, some.inj found⟩
  next other => exact .inr ⟨other, found⟩

theorem forall_insert {P : Uint256 → V → Prop} (all : ∀ {q y}, map[q]? = some y → P q y) (new : P p x)
    (found : (map.insert p x)[q]? = some y) : P q y := by
  rcases insert_cases found with ⟨rfl, rfl⟩ | ⟨-, present⟩
  · exact new
  · exact all present

theorem erase_cases (found : (map.erase p)[q]? = some y) : p ≠ q ∧ map[q]? = some y := by
  simpa [ExtTreeMap.getElem?_erase] using found

end

structure CDeterministicMN where
  proTxHash : Uint256
  internalId : Nat
  collateralOutpoint : COutPoint
  nOperatorReward : Nat
  pdmnState : CDeterministicMNState
deriving DecidableEq

/-- The values a list keeps unique, by the type `SerializeHash` is taken at. -/
inductive UniqueProperty where
  | outpoint (o : COutPoint)
  | service (addr : CService)
  | keyID (key : CKeyID)
  | blsKey (key : CBLSPublicKey)
deriving DecidableEq

/-- The default-constructed value of its type. -/
def UniqueProperty.isNull : UniqueProperty → Bool
  | .outpoint o => decide (o = null)
  | .service addr => decide (addr = {})
  | .keyID key => decide (key = 0)
  | .blsKey key => key.isNone

/-- The hash functions the list is built on. Nothing is assumed about them. -/
structure Hashing where
  serializeHash : UniqueProperty → Uint256
  /-- SHA-256 of two hashes written one after the other. -/
  sha256 : Uint256 → Uint256 → Uint256

abbrev MnMap := ExtTreeMap Uint256 CDeterministicMN compare
abbrev MnInternalIdMap := ExtTreeMap Nat Uint256 compare
abbrev MnUniquePropertyMap := ExtTreeMap Uint256 (Uint256 × Nat) compare

structure CDeterministicMNList where
  blockHash : Uint256 := 0
  nHeight : Int := -1
  nTotalRegisteredCount : Nat := 0
  mnMap : MnMap := ∅
  mnInternalIdMap : MnInternalIdMap := ∅
  mnUniquePropertyMap : MnUniquePropertyMap := ∅
deriving DecidableEq

variable {dmn : CDeterministicMN} {index : MnUniquePropertyMap}

section
variable (h : Hashing)

section
variable (index : MnUniquePropertyMap) (proTxHash : Uint256)

def addUniqueProperty (v : UniqueProperty) : Option MnUniquePropertyMap :=
  if v.isNull then none else claim index proTxHash (h.serializeHash v)

def deleteUniqueProperty (v : UniqueProperty) : Option MnUniquePropertyMap :=
  if v.isNull then none else release index proTxHash (h.serializeHash v)

def updateUniqueProperty (oldValue newValue : UniqueProperty) : Option MnUniquePropertyMap :=
  if oldValue = newValue then some index
  else (if oldValue.isNull then some index else deleteUniqueProperty h index proTxHash oldValue).bind fun index =>
    if newValue.isNull then some index else addUniqueProperty h index proTxHash newValue

end

/-- The properties `AddMN` adds and `RemoveMN` deletes, in their order. -/
def CDeterministicMN.uniqueProperties (dmn : CDeterministicMN) : List UniqueProperty :=
  [.outpoint dmn.collateralOutpoint] ++
    (if dmn.pdmnState.addr ≠ {} then [.service dmn.pdmnState.addr] else []) ++
    [.keyID dmn.pdmnState.keyIDOwner] ++
    (if dmn.pdmnState.pubKeyOperator.isSome then [.blsKey dmn.pdmnState.pubKeyOperator] else [])

/-! ### The list -/

namespace CDeterministicMNList

variable (list : CDeterministicMNList) (proTxHash : Uint256)

def getMN : Option CDeterministicMN := list.mnMap[proTxHash]?

def hasMN : Bool := (list.getMN proTxHash).isSome

def isMNPoSeBanned (dmn : CDeterministicMN) : Bool := decide (dmn.pdmnState.nPoSeBanHeight ≠ -1)

def isMNValid (dmn : CDeterministicMN) : Bool := !isMNPoSeBanned dmn

section
variable (list : CDeterministicMNList)

def getAllMNsCount : Nat := list.mnMap.size

/-- The masternodes `ForEachMN` visits. The order of the map plays no role in any result. -/
def forEachMN (onlyValid : Bool) : List CDeterministicMN :=
  (list.mnMap.toList.map Prod.snd).filter fun dmn => !onlyValid || isMNValid dmn

def getMNByInternalId (internalId : Nat) : Option CDeterministicMN :=
  list.mnInternalIdMap[internalId]?.bind list.getMN

def hasUniqueProperty (v : UniqueProperty) : Bool :=
  list.mnUniquePropertyMap.contains (h.serializeHash v)

def getUniquePropertyMN (v : UniqueProperty) : Option CDeterministicMN :=
  list.mnUniquePropertyMap[h.serializeHash v]?.bind fun entry => list.getMN entry.1

def getMNByCollateral (collateralOutpoint : COutPoint) : Option CDeterministicMN :=
  list.getUniquePropertyMN h (.outpoint collateralOutpoint)

/-- The counter is a `uint32_t`. -/
def countRegistration : CDeterministicMNList :=
  { list with nTotalRegisteredCount := (list.nTotalRegisteredCount + 1) % 2 ^ 32 }

def addMN (dmn : CDeterministicMN) : Option CDeterministicMNList :=
  if (list.getMN dmn.proTxHash).isSome then none
  else
    (dmn.uniqueProperties.foldlM (addUniqueProperty h · dmn.proTxHash ·) list.mnUniquePropertyMap).map fun index =>
      { list with
        mnMap := list.mnMap.insert dmn.proTxHash dmn
        mnInternalIdMap := list.mnInternalIdMap.insert dmn.internalId dmn.proTxHash
        mnUniquePropertyMap := index }

end

def updateProperties (index : MnUniquePropertyMap) (proTxHash : Uint256) (oldState newState : CDeterministicMNState) :
    Option MnUniquePropertyMap :=
  (updateUniqueProperty h index proTxHash (.service oldState.addr) (.service newState.addr)).bind fun index =>
    (updateUniqueProperty h index proTxHash (.keyID oldState.keyIDOwner) (.keyID newState.keyIDOwner)).bind fun index =>
      updateUniqueProperty h index proTxHash (.blsKey oldState.pubKeyOperator) (.blsKey newState.pubKeyOperator)

def updateDmn (oldDmn : CDeterministicMN) (pdmnState : CDeterministicMNState) : Option CDeterministicMNList :=
  (updateProperties h list.mnUniquePropertyMap oldDmn.proTxHash oldDmn.pdmnState pdmnState).map fun index =>
    { list with
      mnMap := list.mnMap.insert oldDmn.proTxHash { oldDmn with pdmnState := pdmnState }
      mnUniquePropertyMap := index }

def updateMN (pdmnState : CDeterministicMNState) : Option CDeterministicMNList :=
  (list.getMN proTxHash).bind fun oldDmn => list.updateDmn h oldDmn pdmnState

def removeMN : Option CDeterministicMNList :=
  (list.getMN proTxHash).bind fun dmn =>
    (dmn.uniqueProperties.foldlM (deleteUniqueProperty h · dmn.proTxHash ·) list.mnUniquePropertyMap).map fun index =>
      { list with
        mnMap := list.mnMap.erase proTxHash
        mnInternalIdMap := list.mnInternalIdMap.erase dmn.internalId
        mnUniquePropertyMap := index }

end CDeterministicMNList

/-! ### Consistent lists -/

/-- How often `proTxHash` holds a property with the given hash. -/
def held (map : MnMap) (proTxHash : Uint256) (key : Uint256) : Nat :=
  (map[proTxHash]?).elim 0 fun dmn => (dmn.uniqueProperties.map h.serializeHash).count key

structure Consistent (list : CDeterministicMNList) (bound : Nat) : Prop where
  keyed : ∀ {p : Uint256} {dmn : CDeterministicMN}, list.mnMap[p]? = some dmn → dmn.proTxHash = p
  ids : ∀ (i : Nat) (p : Uint256), list.mnInternalIdMap[i]? = some p ↔
    ∃ dmn : CDeterministicMN, list.mnMap[p]? = some dmn ∧ dmn.internalId = i
  fresh : ∀ {p : Uint256} {dmn : CDeterministicMN}, list.mnMap[p]? = some dmn → dmn.internalId < bound
  props : Reflects list.mnUniquePropertyMap (held h list.mnMap)
  nonNull : ∀ {p : Uint256} {dmn : CDeterministicMN}, list.mnMap[p]? = some dmn →
    dmn.collateralOutpoint ≠ null ∧ dmn.pdmnState.keyIDOwner ≠ 0

/-- The part of consistency that does not speak of internal ids. -/
structure Indexed (list : CDeterministicMNList) : Prop where
  keyed : ∀ {p : Uint256} {dmn : CDeterministicMN}, list.mnMap[p]? = some dmn → dmn.proTxHash = p
  props : Reflects list.mnUniquePropertyMap (held h list.mnMap)
  nonNull : ∀ {p : Uint256} {dmn : CDeterministicMN}, list.mnMap[p]? = some dmn →
    dmn.collateralOutpoint ≠ null ∧ dmn.pdmnState.keyIDOwner ≠ 0

def weight (v : UniqueProperty) (key : Uint256) : Nat :=
  if v.isNull then 0 else if h.serializeHash v = key then 1 else 0

open CDeterministicMN

theorem count_uniqueProperties (dmn : CDeterministicMN) (collateral : dmn.collateralOutpoint ≠ null)
    (owner : dmn.pdmnState.keyIDOwner ≠ 0) (key : Uint256) : (dmn.uniqueProperties.map h.serializeHash).count key =
      weight h (.outpoint dmn.collateralOutpoint) key + weight h (.service dmn.pdmnState.addr) key +
        weight h (.keyID dmn.pdmnState.keyIDOwner) key + weight h (.blsKey dmn.pdmnState.pubKeyOperator) key := by
  have one : ∀ v, v.isNull = false → ([h.serializeHash v]).count key = weight h v key := by
    intro v present
    simp [weight, present, count_cons]
  have maybe : ∀ (c : Prop) [Decidable c] (v : UniqueProperty), (c ↔ v.isNull = false) →
      ((if c then [v] else []).map h.serializeHash).count key = weight h v key := by
    intro c _ v iff
    by_cases holds : c
    · rw [if_pos holds, map_singleton, one v (iff.mp holds)]
    · have null : v.isNull = true := by
        cases value : v.isNull with
        | true => rfl
        | false => exact absurd (iff.mpr value) holds
      rw [if_neg holds, weight, if_pos null]
      rfl
  simp only [uniqueProperties, map_append, count_append, map_singleton]
  rw [one _ (by simpa [UniqueProperty.isNull] using collateral), one _ (by simpa [UniqueProperty.isNull] using owner),
    maybe _ (.service dmn.pdmnState.addr) (by simp [UniqueProperty.isNull]),
    maybe _ (.blsKey dmn.pdmnState.pubKeyOperator) (by simp [UniqueProperty.isNull])]

variable {v : UniqueProperty}

theorem mem_uniqueProperties : v ∈ dmn.uniqueProperties ↔ v = .outpoint dmn.collateralOutpoint ∨
      (dmn.pdmnState.addr ≠ {} ∧ v = .service dmn.pdmnState.addr) ∨ v = .keyID dmn.pdmnState.keyIDOwner ∨
      (dmn.pdmnState.pubKeyOperator.isSome = true ∧ v = .blsKey dmn.pdmnState.pubKeyOperator) := by
  simp [uniqueProperties]

theorem uniqueProperties_nonNull (collateral : dmn.collateralOutpoint ≠ null)
    (owner : dmn.pdmnState.keyIDOwner ≠ 0) : ∀ v ∈ dmn.uniqueProperties, v.isNull = false := by
  intro v member
  rcases mem_uniqueProperties.mp member with rfl | ⟨set, rfl⟩ | rfl | ⟨set, rfl⟩
  · simpa [UniqueProperty.isNull] using collateral
  · simpa [UniqueProperty.isNull] using set
  · simpa [UniqueProperty.isNull] using owner
  · simpa [UniqueProperty.isNull] using set

section
variable {vs : List UniqueProperty} (present : ∀ v ∈ vs, v.isNull = false)
include present

theorem foldlM_addUniqueProperty (p : Uint256) (index : MnUniquePropertyMap) :
    vs.foldlM (addUniqueProperty h · p ·) index = (vs.map h.serializeHash).foldlM (claim · p ·) index := by
  rw [foldlM_map]
  exact Folds.foldlM_congr (fun v member _ => by simp [addUniqueProperty, present v member]) index

theorem foldlM_deleteUniqueProperty (p : Uint256) (index : MnUniquePropertyMap) :
    vs.foldlM (deleteUniqueProperty h · p ·) index = (vs.map h.serializeHash).foldlM (release · p ·) index := by
  rw [foldlM_map]
  exact Folds.foldlM_congr (fun v member _ => by simp [deleteUniqueProperty, present v member]) index

end

variable {h}

theorem deleted_reflects {after : MnUniquePropertyMap} (reflects : Reflects index holds)
    (deleted : (if v.isNull then some index else deleteUniqueProperty h index p v) = some after) :
    ∃ holds', Reflects after holds' ∧ (∀ a, a ≠ p → holds' a = holds a) ∧
      ∀ key, holds' p key + weight h v key = holds p key := by
  split at deleted
  next null => cases deleted; exact ⟨holds, reflects, fun _ _ => rfl, by simp [weight, null]⟩
  next set =>
    simp only [deleteUniqueProperty, set, Bool.false_eq_true, ↓reduceIte] at deleted
    refine ⟨_, release_reflects reflects deleted, ?_, ?_⟩
    · intro a other; funext key; simp [less, other]
    · intro key
      have positive := (release_isSome reflects p (h.serializeHash v)).mp (by rw [deleted]; rfl)
      by_cases here : key = h.serializeHash v
      · subst here; simp [less, weight, set]; omega
      · simp [less, weight, here, Ne.symm here]

theorem updateUniqueProperty_reflects {after : MnUniquePropertyMap}
    {oldValue newValue : UniqueProperty} (reflects : Reflects index holds)
    (updated : updateUniqueProperty h index p oldValue newValue = some after) :
    ∃ holds', Reflects after holds' ∧ (∀ a, a ≠ p → holds' a = holds a) ∧
      ∀ key, holds' p key + weight h oldValue key = holds p key + weight h newValue key := by
  unfold updateUniqueProperty at updated
  split at updated
  next same => cases updated; exact ⟨holds, reflects, fun _ _ => rfl, by simp [same]⟩
  next =>
    obtain ⟨middle, deleted, added⟩ := bind_eq_some_iff.mp updated
    obtain ⟨holds₁, reflects₁, others₁, sum₁⟩ := deleted_reflects reflects deleted
    split at added
    next null =>
      cases added
      exact ⟨holds₁, reflects₁, others₁, fun key => by have := sum₁ key; simp [weight, null] at this ⊢; omega⟩
    next set =>
      simp only [addUniqueProperty, set, Bool.false_eq_true, ↓reduceIte] at added
      refine ⟨_, claim_reflects reflects₁ added, ?_, ?_⟩
      · intro a other
        rw [← others₁ a other]
        funext key
        simp [more, other]
      · intro key
        have total := sum₁ key
        by_cases here : key = h.serializeHash newValue
        · subst here; simp [more, weight, set] at total ⊢; omega
        · simp [more, weight, set, here, Ne.symm here] at total ⊢; omega

theorem updateUniqueProperty_isSome
    (reflects : Reflects index holds) (p : Uint256) (oldValue newValue : UniqueProperty)
    (owns : ∀ key, weight h oldValue key ≤ holds p key)
    (free : ∀ key, 0 < weight h newValue key → ∀ a, a ≠ p → holds a key = 0) :
    ∃ after, updateUniqueProperty h index p oldValue newValue = some after := by
  unfold updateUniqueProperty
  split
  · exact ⟨index, rfl⟩
  -- the old value is held, so it can be deleted
  have first : ∃ middle, (if oldValue.isNull then some index else deleteUniqueProperty h index p oldValue) =
      some middle := by
    split
    next => exact ⟨index, rfl⟩
    next set =>
      have positive := owns (h.serializeHash oldValue)
      simp only [weight, set, Bool.false_eq_true, ↓reduceIte] at positive
      obtain ⟨middle, released⟩ := isSome_iff_exists.mp
        ((release_isSome reflects p (h.serializeHash oldValue)).mpr (by omega))
      exact ⟨middle, by simp [deleteUniqueProperty, set, released]⟩
  obtain ⟨middle, deleted⟩ := first
  obtain ⟨holds₁, reflects₁, others₁, -⟩ := deleted_reflects reflects deleted
  rw [deleted]
  by_cases null : newValue.isNull = true
  · exact ⟨middle, by simp [null]⟩
  · have alone : ∀ a, a ≠ p → holds₁ a (h.serializeHash newValue) = 0 := by
      intro a other
      rw [others₁ a other]
      exact free _ (by simp [weight, null]) a other
    obtain ⟨after, claimed⟩ := isSome_iff_exists.mp
      ((claim_isSome reflects₁ p (h.serializeHash newValue)).mpr alone)
    exact ⟨after, by simp [null, addUniqueProperty, claimed]⟩

/-! ### What the operations do -/

section
variable {list after : CDeterministicMNList} {bound : Nat} {state : CDeterministicMNState}

open CDeterministicMNList

theorem mem_forEachMN : dmn ∈ list.forEachMN false ↔ ∃ p : Uint256, list.mnMap[p]? = some dmn := by
  simp [forEachMN]

theorem mem_forEachMN_true :
    dmn ∈ list.forEachMN true ↔ (∃ p : Uint256, list.mnMap[p]? = some dmn) ∧ isMNValid dmn = true := by
  simp [forEachMN]

theorem held_insert (map : MnMap) (p : Uint256) (dmn : CDeterministicMN) (q key : Uint256) :
    held h (map.insert p dmn) q key =
      if q = p then (dmn.uniqueProperties.map h.serializeHash).count key else held h map q key := by
  by_cases here : q = p
  · subst here; simp [held]
  · simp [held, ExtTreeMap.getElem?_insert, Ne.symm here, here]

theorem held_erase (map : MnMap) (p q key : Uint256) :
    held h (map.erase p) q key = if q = p then 0 else held h map q key := by
  by_cases here : q = p
  · subst here; simp [held]
  · simp [held, ExtTreeMap.getElem?_erase, Ne.symm here, here]

variable {map : MnMap}

theorem held_of_some (found : map[p]? = some dmn) (key : Uint256) :
    held h map p key = (dmn.uniqueProperties.map h.serializeHash).count key := by
  simp [held, found]

theorem held_pos :
    0 < held h map p key ↔ ∃ dmn, map[p]? = some dmn ∧ key ∈ dmn.uniqueProperties.map h.serializeHash := by
  cases found : map[p]? with
  | none => simp [held, found]
  | some dmn => simp [held, found]

/-! What an operation leaves. The index of the unique properties is described by `Indexed`. -/

section
variable (p : Uint256) (dmn : CDeterministicMN) (list after : CDeterministicMNList)

abbrev Added : Prop := after = { list with
  mnMap := list.mnMap.insert dmn.proTxHash dmn
  mnInternalIdMap := list.mnInternalIdMap.insert dmn.internalId dmn.proTxHash
  mnUniquePropertyMap := after.mnUniquePropertyMap }

abbrev Updated : Prop := after = { list with
  mnMap := list.mnMap.insert p dmn
  mnUniquePropertyMap := after.mnUniquePropertyMap }

abbrev Removed : Prop := after = { list with
  mnMap := list.mnMap.erase p
  mnInternalIdMap := list.mnInternalIdMap.erase dmn.internalId
  mnUniquePropertyMap := after.mnUniquePropertyMap }

end

namespace Indexed

theorem empty (hash : Uint256) (height : Int) (count : Nat) :
    Indexed h { blockHash := hash, nHeight := height, nTotalRegisteredCount := count } where
  keyed := by simp
  props := by
    exact reflects_empty
  nonNull := by simp

section
variable (indexed : Indexed h list)
include indexed

theorem congr (map : after.mnMap = list.mnMap)
    (props : after.mnUniquePropertyMap = list.mnUniquePropertyMap) : Indexed h after where
  keyed := by rw [map]; exact indexed.keyed
  props := by rw [map, props]; exact indexed.props
  nonNull := by rw [map]; exact indexed.nonNull

theorem forEachMN_nodup {onlyValid : Bool} : (list.forEachMN onlyValid).Nodup := by
  have distinct : (list.mnMap.toList.map Prod.snd).Nodup := by
    refine (pairwise_map.mpr ?_)
    refine ExtTreeMap.distinct_keys_toList.imp_of_mem ?_
    intro a b memberA memberB keys same
    have keyA := indexed.keyed (ExtTreeMap.mem_toList_iff_getElem?_eq_some.mp memberA)
    have keyB := indexed.keyed (ExtTreeMap.mem_toList_iff_getElem?_eq_some.mp memberB)
    rw [← keyA, ← keyB, same] at keys
    exact keys Std.ReflCmp.compare_self
  exact distinct.filter _

theorem addMN (added : list.addMN h dmn = some after) :
    Indexed h after ∧ list.mnMap[dmn.proTxHash]? = none ∧ Added dmn list after := by
  unfold CDeterministicMNList.addMN at added
  split at added
  · cases added
  next missing =>
    have absent : list.mnMap[dmn.proTxHash]? = none := not_isSome_iff_eq_none.mp missing
    obtain ⟨index, folded, rfl⟩ := map_eq_some_iff.mp added
    -- the assertions on null values have passed
    have collateral : dmn.collateralOutpoint ≠ null := by
      intro null
      simp [uniqueProperties, addUniqueProperty, UniqueProperty.isNull, null] at folded
    have owner : dmn.pdmnState.keyIDOwner ≠ 0 := by
      intro null
      simp only [uniqueProperties, foldlM_append, foldlM_cons, foldlM_nil] at folded
      obtain ⟨_, inner, _⟩ := bind_eq_some_iff.mp folded
      obtain ⟨_, _, failing⟩ := bind_eq_some_iff.mp inner
      simp [addUniqueProperty, UniqueProperty.isNull, null] at failing
    rw [foldlM_addUniqueProperty h (uniqueProperties_nonNull collateral owner)] at folded
    have reflects := claimAll_reflects indexed.props folded
    have holdings : moreAll (held h list.mnMap) dmn.proTxHash (dmn.uniqueProperties.map h.serializeHash) =
        held h (list.mnMap.insert dmn.proTxHash dmn) := by
      funext q key
      rw [held_insert]
      by_cases here : q = dmn.proTxHash
      · simp [moreAll, here, held, absent]
      · simp [moreAll, here]
    exact ⟨⟨forall_insert indexed.keyed rfl, holdings ▸ reflects,
      forall_insert indexed.nonNull ⟨collateral, owner⟩⟩, absent, rfl⟩

theorem addMN_isSome (absent : list.mnMap[dmn.proTxHash]? = none)
    (collateral : dmn.collateralOutpoint ≠ null) (owner : dmn.pdmnState.keyIDOwner ≠ 0)
    (free : ∀ key ∈ dmn.uniqueProperties.map h.serializeHash, ∀ q, q ≠ dmn.proTxHash → held h list.mnMap q key = 0) :
    ∃ after, list.addMN h dmn = some after := by
  obtain ⟨index, claimed⟩ := claimAll_isSome indexed.props free
  exact ⟨_, by
    rw [CDeterministicMNList.addMN, getMN, absent, isSome_none, if_neg Bool.false_ne_true,
      foldlM_addUniqueProperty h (uniqueProperties_nonNull collateral owner), claimed]
    rfl⟩

theorem removeMN (removed : list.removeMN h p = some after) :
    Indexed h after ∧ (∃ dmn, list.mnMap[p]? = some dmn ∧ Removed p dmn list after) := by
  obtain ⟨dmn, found, removed⟩ := bind_eq_some_iff.mp removed
  obtain ⟨index, folded, rfl⟩ := map_eq_some_iff.mp removed
  have key := indexed.keyed found
  obtain ⟨collateral, owner⟩ := indexed.nonNull found
  rw [foldlM_deleteUniqueProperty h (uniqueProperties_nonNull collateral owner), key] at folded
  have reflects := releaseAll_reflects indexed.props folded
  have holdings : lessAll (held h list.mnMap) p (dmn.uniqueProperties.map h.serializeHash) =
      held h (list.mnMap.erase p) := by
    funext q k
    rw [held_erase]
    by_cases here : q = p
    · simp [lessAll, here, held_of_some found]
    · simp [lessAll, here]
  exact ⟨⟨fun inErased => indexed.keyed (erase_cases inErased).2, holdings ▸ reflects,
    fun inErased => indexed.nonNull (erase_cases inErased).2⟩, dmn, found, rfl⟩

section
variable (found : list.mnMap[p]? = some dmn)
include found

theorem removeMN_isSome : ∃ after, list.removeMN h p = some after := by
  obtain ⟨collateral, owner⟩ := indexed.nonNull found
  have enough : ∀ key, (dmn.uniqueProperties.map h.serializeHash).count key ≤ held h list.mnMap p key :=
    fun key => (held_of_some found key).ge
  obtain ⟨index, released⟩ := releaseAll_isSome indexed.props enough
  exact ⟨_, by
    rw [CDeterministicMNList.removeMN, getMN, found, bind_some, indexed.keyed found,
      foldlM_deleteUniqueProperty h (uniqueProperties_nonNull collateral owner), released]
    rfl⟩

theorem updateDmn (owner : state.keyIDOwner ≠ 0) (updated : list.updateDmn h dmn state = some after) :
    Indexed h after ∧ Updated p { dmn with pdmnState := state } list after := by
  obtain rfl := indexed.keyed found
  obtain ⟨index, properties, rfl⟩ := map_eq_some_iff.mp updated
  obtain ⟨index₁, one, rest⟩ := bind_eq_some_iff.mp properties
  obtain ⟨index₂, two, three⟩ := bind_eq_some_iff.mp rest
  obtain ⟨holds₁, reflects₁, others₁, sum₁⟩ := updateUniqueProperty_reflects indexed.props one
  obtain ⟨holds₂, reflects₂, others₂, sum₂⟩ := updateUniqueProperty_reflects reflects₁ two
  obtain ⟨holds₃, reflects₃, others₃, sum₃⟩ := updateUniqueProperty_reflects reflects₂ three
  obtain ⟨collateral, oldOwner⟩ := indexed.nonNull found
  -- one property after the other leaves the count and the next one enters it
  have holdings : holds₃ = held h (list.mnMap.insert dmn.proTxHash { dmn with pdmnState := state }) := by
    funext q k
    rw [held_insert]
    by_cases here : q = dmn.proTxHash
    · subst here
      have before := held_of_some (h := h) found k
      rw [count_uniqueProperties h dmn collateral oldOwner] at before
      rw [if_pos rfl, count_uniqueProperties h { dmn with pdmnState := state } collateral owner]
      have := sum₁ k
      have := sum₂ k
      have := sum₃ k
      dsimp only
      omega
    · rw [if_neg here, others₃ q here, others₂ q here, others₁ q here]
  exact ⟨⟨forall_insert indexed.keyed rfl, holdings ▸ reflects₃,
    forall_insert indexed.nonNull ⟨collateral, owner⟩⟩, rfl⟩

theorem updateDmn_isSome (owner : state.keyIDOwner ≠ 0)
    (free : ∀ key ∈ ({ dmn with pdmnState := state } : CDeterministicMN).uniqueProperties.map h.serializeHash,
      ∀ q, q ≠ p → held h list.mnMap q key = 0) :
    ∃ after, list.updateDmn h dmn state = some after := by
  obtain ⟨collateral, oldOwner⟩ := indexed.nonNull found
  have before : ∀ k, held h list.mnMap p k = _ := fun k =>
    (held_of_some found k).trans (count_uniqueProperties h dmn collateral oldOwner k)
  have alone : ∀ v, v = .service state.addr ∨ v = .keyID state.keyIDOwner ∨ v = .blsKey state.pubKeyOperator →
      ∀ k, 0 < weight h v k → ∀ q, q ≠ p → held h list.mnMap q k = 0 := by
    intro v property k positive
    apply free
    rw [← count_pos_iff, count_uniqueProperties h { dmn with pdmnState := state } collateral owner]
    dsimp only
    rcases property with rfl | rfl | rfl <;> omega
  -- before each call the old value is still counted, and nobody else holds the new one
  obtain ⟨index₁, one⟩ := updateUniqueProperty_isSome indexed.props p (.service dmn.pdmnState.addr)
    (.service state.addr) (h := h) (fun k => by rw [before k]; omega) (alone _ (.inl rfl))
  obtain ⟨holds₁, reflects₁, others₁, sum₁⟩ := updateUniqueProperty_reflects indexed.props one
  obtain ⟨index₂, two⟩ := updateUniqueProperty_isSome reflects₁ p (.keyID dmn.pdmnState.keyIDOwner)
    (.keyID state.keyIDOwner) (h := h) (fun k => by have := sum₁ k; rw [before k] at this; omega)
    (fun k positive q other => by rw [others₁ q other]; exact alone _ (.inr (.inl rfl)) k positive q other)
  obtain ⟨holds₂, reflects₂, others₂, sum₂⟩ := updateUniqueProperty_reflects reflects₁ two
  obtain ⟨index₃, three⟩ := updateUniqueProperty_isSome reflects₂ p (.blsKey dmn.pdmnState.pubKeyOperator)
    (.blsKey state.pubKeyOperator) (h := h)
    (fun k => by have first := sum₁ k; have second := sum₂ k; rw [before k] at first; omega)
    (fun k positive q other => by
      rw [others₂ q other, others₁ q other]; exact alone _ (.inr (.inr rfl)) k positive q other)
  exact ⟨_, by
    rw [CDeterministicMNList.updateDmn, updateProperties, indexed.keyed found, one,
      bind_some, two, bind_some, three]
    rfl⟩

end

theorem updateMN (updated : list.updateMN h p state = some after) (owner : state.keyIDOwner ≠ 0) :
    Indexed h after ∧ ∃ dmn, list.mnMap[p]? = some dmn ∧
      Updated p { dmn with pdmnState := state } list after := by
  obtain ⟨dmn, found, updated⟩ := bind_eq_some_iff.mp updated
  obtain ⟨kept, shape⟩ := indexed.updateDmn found owner updated
  exact ⟨kept, dmn, found, shape⟩

theorem held_other (holds : 0 < held h list.mnMap p key) (other : q ≠ p) : held h list.mnMap q key = 0 := by
  by_contra held
  exact other (indexed.props.sole (Nat.pos_of_ne_zero held) holds)

section
variable (found : list.mnMap[p]? = some dmn)
include found

theorem held_own (property : v ∈ dmn.uniqueProperties) (other : q ≠ p) :
    held h list.mnMap q (h.serializeHash v) = 0 :=
  indexed.held_other (held_pos.mpr ⟨dmn, found, mem_map_of_mem property⟩) other

variable (owner : state.keyIDOwner = dmn.pdmnState.keyIDOwner)
include owner

/-- An update finds its place in the index if the new address and operator key are not somebody else's. -/
theorem updateMN_isSome
    (addr : state.addr ≠ {} → ∀ q, q ≠ p → held h list.mnMap q (h.serializeHash (.service state.addr)) = 0)
    (operator : state.pubKeyOperator.isSome → ∀ q, q ≠ p →
      held h list.mnMap q (h.serializeHash (.blsKey state.pubKeyOperator)) = 0) :
    ∃ after, list.updateMN h p state = some after := by
  have free : ∀ key ∈ ({ dmn with pdmnState := state } : CDeterministicMN).uniqueProperties.map h.serializeHash,
      ∀ q, q ≠ p → held h list.mnMap q key = 0 := by
    intro key member q other
    obtain ⟨v, property, rfl⟩ := mem_map.mp member
    rcases mem_uniqueProperties.mp property with rfl | ⟨set, rfl⟩ | rfl | ⟨set, rfl⟩
    · exact indexed.held_own found (mem_uniqueProperties.mpr (.inl rfl)) other
    · exact addr set q other
    · exact indexed.held_own found (mem_uniqueProperties.mpr (.inr (.inr (.inl (by rw [owner]))))) other
    · exact operator set q other
  obtain ⟨after, updated⟩ := indexed.updateDmn_isSome found (owner ▸ (indexed.nonNull found).2) free
  exact ⟨after, by rw [CDeterministicMNList.updateMN, getMN, found]; exact updated⟩

theorem updateMN_isSome_own (addr : state.addr = dmn.pdmnState.addr ∨ state.addr = {})
    (operator : state.pubKeyOperator = dmn.pdmnState.pubKeyOperator ∨ state.pubKeyOperator = none) :
    ∃ after, list.updateMN h p state = some after := by
  refine indexed.updateMN_isSome found owner ?_ ?_
  · intro set q other
    rcases addr with same | reset
    · rw [same] at set ⊢
      exact indexed.held_own found (mem_uniqueProperties.mpr (.inr (.inl ⟨set, rfl⟩))) other
    · exact absurd reset set
  · intro set q other
    rcases operator with same | reset
    · rw [same] at set ⊢
      exact indexed.held_own found (mem_uniqueProperties.mpr (.inr (.inr (.inr ⟨set, rfl⟩)))) other
    · rw [reset] at set
      cases set

end

theorem hasUniqueProperty_iff :
    list.hasUniqueProperty h v = true ↔ ∃ q, 0 < held h list.mnMap q (h.serializeHash v) := by
  rw [hasUniqueProperty, ExtTreeMap.contains_eq_isSome_getElem?, isSome_iff_ne_none, ne_eq,
    indexed.props.none_iff]
  simp [Nat.pos_iff_ne_zero]

theorem hasUniqueProperty_of_mem (found : list.mnMap[p]? = some dmn)
    (property : v ∈ dmn.uniqueProperties) : list.hasUniqueProperty h v = true :=
  indexed.hasUniqueProperty_iff.mpr ⟨p, held_pos.mpr ⟨dmn, found, mem_map_of_mem property⟩⟩

theorem getUniquePropertyMN_eq_some : list.getUniquePropertyMN h v = some dmn ↔
      list.mnMap[dmn.proTxHash]? = some dmn ∧ h.serializeHash v ∈ dmn.uniqueProperties.map h.serializeHash := by
  rw [getUniquePropertyMN, bind_eq_some_iff]
  constructor
  · rintro ⟨⟨q, count⟩, entry, found⟩
    obtain ⟨holds, positive⟩ := (indexed.props.entry _ q count).mp entry
    change list.mnMap[q]? = some dmn at found
    obtain ⟨holder, listed, member⟩ := held_pos.mp (holds ▸ positive)
    rw [found] at listed
    cases listed
    exact ⟨indexed.keyed found ▸ found, member⟩
  · rintro ⟨found, member⟩
    have positive : 0 < held h list.mnMap dmn.proTxHash (h.serializeHash v) := held_pos.mpr ⟨dmn, found, member⟩
    exact ⟨_, (indexed.props.entry _ dmn.proTxHash _).mpr ⟨rfl, positive⟩, found⟩

theorem getMNByCollateral_of_listed (found : list.mnMap[p]? = some dmn) :
    list.getMNByCollateral h dmn.collateralOutpoint = some dmn :=
  indexed.getUniquePropertyMN_eq_some.mpr
    ⟨(indexed.keyed found).symm ▸ found, mem_map_of_mem (mem_uniqueProperties.mpr (.inl rfl))⟩

end

end Indexed

namespace Consistent

theorem indexed (consistent : Consistent h list bound) : Indexed h list := { consistent with }

theorem of_indexed (indexed : Indexed h list) (ids : ∀ (i : Nat) (p : Uint256), list.mnInternalIdMap[i]? = some p ↔
      ∃ dmn, list.mnMap[p]? = some dmn ∧ dmn.internalId = i)
    (fresh : ∀ {p : Uint256} {dmn : CDeterministicMN}, list.mnMap[p]? = some dmn → dmn.internalId < bound) :
    Consistent h list bound :=
  ⟨indexed.keyed, ids, fresh, indexed.props, indexed.nonNull⟩

theorem empty (hash : Uint256) (height : Int) (count : Nat) :
    Consistent h { blockHash := hash, nHeight := height, nTotalRegisteredCount := count } 0 :=
  of_indexed (Indexed.empty hash height count) (by simp) (by simp)

section
variable (consistent : Consistent h list bound)
include consistent

theorem congr (map : after.mnMap = list.mnMap)
    (ids : after.mnInternalIdMap = list.mnInternalIdMap) (props : after.mnUniquePropertyMap = list.mnUniquePropertyMap) :
    Consistent h after bound :=
  of_indexed (consistent.indexed.congr map props) (by rw [map, ids]; exact consistent.ids)
    (by rw [map]; exact consistent.fresh)

theorem addMN (added : list.addMN h dmn = some after)
    (newId : ∀ (q : Uint256) (other : CDeterministicMN), list.mnMap[q]? = some other →
      other.internalId ≠ dmn.internalId) (bound' : Nat) (below : dmn.internalId < bound') (grows : bound ≤ bound') :
    Consistent h after bound' ∧ list.mnMap[dmn.proTxHash]? = none ∧ Added dmn list after := by
  obtain ⟨indexed, absent, shape⟩ := consistent.indexed.addMN added
  refine ⟨of_indexed indexed ?_ ?_, absent, shape⟩
  · intro i q
    rw [shape]
    simp only [ExtTreeMap.getElem?_insert, Std.compare_eq_iff_eq]
    by_cases idHere : dmn.internalId = i <;> by_cases here : dmn.proTxHash = q
    · simp [idHere, here]
    · simp only [idHere, here, ↓reduceIte, some.injEq, false_iff]
      rintro ⟨other, found, same⟩
      exact newId q other found (same.trans idHere.symm)
    · simp only [idHere, here, ↓reduceIte, some.injEq, exists_eq_left']
      have missing := consistent.ids i q
      rw [← here, absent] at missing
      simpa [here] using missing
    · simp [idHere, here, consistent.ids i q]
  · rw [shape]
    exact forall_insert (fun present => Nat.lt_of_lt_of_le (consistent.fresh present) grows) below

section
variable (found : list.mnMap[p]? = some dmn)
include found

theorem id_unique {other : CDeterministicMN} (found' : list.mnMap[q]? = some other)
    (same : dmn.internalId = other.internalId) : p = q := by
  have one := (consistent.ids dmn.internalId p).mpr ⟨dmn, found, rfl⟩
  have two := (consistent.ids dmn.internalId q).mpr ⟨other, found', same.symm⟩
  rw [one] at two
  exact some.inj two

theorem getMNByInternalId : list.getMNByInternalId dmn.internalId = some dmn := by
  have id := (consistent.ids dmn.internalId p).mpr ⟨dmn, found, rfl⟩
  simp [CDeterministicMNList.getMNByInternalId, getMN, id, found]

theorem updateDmn (owner : state.keyIDOwner ≠ 0) (updated : list.updateDmn h dmn state = some after) :
    Consistent h after bound ∧ Updated p { dmn with pdmnState := state } list after := by
  obtain ⟨indexed, shape⟩ := consistent.indexed.updateDmn found owner updated
  have kept : ∀ {q : Uint256} {other : CDeterministicMN},
      (list.mnMap.insert p { dmn with pdmnState := state })[q]? = some other →
        ∃ old, list.mnMap[q]? = some old ∧ other.internalId = old.internalId := by
    intro q other inserted
    rcases insert_cases inserted with ⟨here, rfl⟩ | ⟨-, present⟩
    · exact ⟨dmn, here ▸ found, rfl⟩
    · exact ⟨other, present, rfl⟩
  refine ⟨of_indexed indexed ?_ ?_, shape⟩
  · intro i q
    rw [shape]
    refine (consistent.ids i q).trans ⟨?_, ?_⟩
    · rintro ⟨old, present, same⟩
      by_cases here : p = q
      · subst here
        rw [found] at present
        cases present
        exact ⟨{ dmn with pdmnState := state }, by simp, same⟩
      · exact ⟨old, by simp [ExtTreeMap.getElem?_insert, here, present], same⟩
    · rintro ⟨other, inserted, same⟩
      obtain ⟨old, present, sameId⟩ := kept inserted
      exact ⟨old, present, sameId.symm.trans same⟩
  · intro q other inserted
    rw [shape] at inserted
    obtain ⟨old, present, sameId⟩ := kept inserted
    exact sameId ▸ consistent.fresh present

end

theorem removeMN (removed : list.removeMN h p = some after) :
    Consistent h after bound ∧ (∃ dmn, list.mnMap[p]? = some dmn ∧ Removed p dmn list after) := by
  obtain ⟨indexed, dmn, found, shape⟩ := consistent.indexed.removeMN removed
  refine ⟨of_indexed indexed ?_ ?_, dmn, found, shape⟩
  · intro i q
    rw [shape]
    simp only [ExtTreeMap.getElem?_erase, Std.compare_eq_iff_eq]
    constructor
    · intro indexed
      split at indexed
      · cases indexed
      next other =>
        obtain ⟨holder, present, same⟩ := (consistent.ids i q).mp indexed
        have apart : p ≠ q := by
          rintro rfl
          rw [found] at present
          cases present
          exact other same
        exact ⟨holder, by simp [apart, present], same⟩
    · rintro ⟨holder, present, same⟩
      obtain ⟨apart, present⟩ := erase_cases (by simpa [ExtTreeMap.getElem?_erase] using present)
      rw [if_neg (fun id => apart (consistent.id_unique found present (id.trans same.symm)))]
      exact (consistent.ids i q).mpr ⟨holder, present, same⟩
  · intro q other inErased
    rw [shape] at inErased
    exact consistent.fresh (erase_cases inErased).2

theorem updateMN (updated : list.updateMN h p state = some after) (owner : state.keyIDOwner ≠ 0) :
    Consistent h after bound ∧ ∃ dmn, list.mnMap[p]? = some dmn ∧
      Updated p { dmn with pdmnState := state } list after := by
  obtain ⟨dmn, found, updated⟩ := bind_eq_some_iff.mp updated
  obtain ⟨kept, shape⟩ := consistent.updateDmn found owner updated
  exact ⟨kept, dmn, found, shape⟩

end

end Consistent

end

end

end Cspn.MnList
