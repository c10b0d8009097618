import Cspn.MnChain

/-!
Operator keys as the masternode list really holds them. A key is read as a buffer and decoded when it is first looked
at; a buffer that is not the encoding of a key is then forgotten. `AddMN` and `RemoveMN` ask whether the key is valid,
`UpdateMN` compares it with the default key, and the two tests differ on a malformed buffer.
-/
namespace Cspn.LazyKeys
open Primitives MnState MnList Option Function MnChain OwnerIndex
open Std (ExtTreeMap)
open CDeterministicMNList

/-! ### Keys -/

/-- The bytes of an operator key: zeros (`proper none`), the encoding of a key, or something else. -/
inductive KeyBuf where
  | proper (key : CBLSPublicKey)
  | malformed (bytes : Nat)
deriving DecidableEq

/-- `CBLSLazyWrapper`; `forgotten` has neither a buffer nor an object. -/
inductive CBLSLazyPublicKey where
  | buffer (buf : KeyBuf)
  | forgotten
deriving DecidableEq

namespace CBLSLazyPublicKey

def null : CBLSLazyPublicKey := .buffer (.proper none)

/-- `Get`: the decoded key, `none` for an object that is not valid. -/
def get : CBLSLazyPublicKey → CBLSPublicKey
  | .buffer (.proper key) => key
  | _ => none

def got : CBLSLazyPublicKey → CBLSLazyPublicKey
  | .buffer (.malformed _) => .forgotten
  | key => key

/-- The comparison looks at the buffers, or at the objects where a buffer is gone. -/
def eq : CBLSLazyPublicKey → CBLSLazyPublicKey → Bool
  | .buffer a, .buffer b => decide (a = b)
  | a, b => decide (a.get = b.get)

/-- What is left of the first key after a comparison. -/
def compared : CBLSLazyPublicKey → CBLSLazyPublicKey → CBLSLazyPublicKey
  | .buffer a, .buffer _ => .buffer a
  | a, _ => a.got

/-- What is hashed of the key; an object that is not valid writes zeros. -/
def getBuf : CBLSLazyPublicKey → KeyBuf
  | .buffer buf => buf
  | .forgotten => .proper none

/-- A buffer that `Get` would forget. -/
def isMalformed : CBLSLazyPublicKey → Bool
  | .buffer (.malformed _) => true
  | _ => false

end CBLSLazyPublicKey

open CBLSLazyPublicKey

/-! ### The list -/

inductive LazyProperty where
  | value (v : UniqueProperty)
  | malformedKey (bytes : Nat)
deriving DecidableEq

def KeyBuf.property : KeyBuf → LazyProperty
  | .proper key => .value (.blsKey key)
  | .malformed bytes => .malformedKey bytes

/-- The fields of a state that the index of unique properties is about. -/
structure LazyState where
  addr : CService := {}
  keyIDOwner : CKeyID := 0
  pubKeyOperator : CBLSLazyPublicKey := .null
deriving DecidableEq

/-- No two masternodes share a state object, so that only the owner of a key looks at it. -/
structure LazyMN where
  proTxHash : Uint256
  internalId : Nat
  collateralOutpoint : COutPoint
  pdmnState : LazyState
deriving DecidableEq

/-- The properties `AddMN` adds and `RemoveMN` deletes, in their order. -/
def LazyMN.uniqueProperties (dmn : LazyMN) : List UniqueProperty :=
  [.outpoint dmn.collateralOutpoint] ++
    (if dmn.pdmnState.addr ≠ {} then [.service dmn.pdmnState.addr] else []) ++
    [.keyID dmn.pdmnState.keyIDOwner] ++
    (if dmn.pdmnState.pubKeyOperator.get.isSome then [.blsKey dmn.pdmnState.pubKeyOperator.get] else [])

structure LazyList where
  mnMap : ExtTreeMap Uint256 LazyMN compare := ∅
  mnInternalIdMap : MnInternalIdMap := ∅
  mnUniquePropertyMap : MnUniquePropertyMap := ∅

section
variable (hash : LazyProperty → Uint256)

/-- The hashes of the values that are not malformed. -/
def hashing : Hashing where
  serializeHash v := hash (.value v)
  sha256 _ _ := 0

section
variable (index : MnUniquePropertyMap) (proTxHash : Uint256)

def addKey (key : CBLSLazyPublicKey) : Option MnUniquePropertyMap :=
  if key.eq .null then none else claim index proTxHash (hash key.getBuf.property)

def deleteKey (key : CBLSLazyPublicKey) : Option MnUniquePropertyMap :=
  if key.eq .null then none else release index proTxHash (hash key.getBuf.property)

def updateKey (oldValue newValue : CBLSLazyPublicKey) : Option MnUniquePropertyMap :=
  if oldValue.eq newValue then some index
  else
    let oldKey := oldValue.compared newValue
    let newKey := newValue.compared oldValue
    (if oldKey.eq .null then some index else deleteKey hash index proTxHash oldKey).bind fun index =>
      if newKey.eq .null then some index else addKey hash index proTxHash newKey

end

namespace LazyList

def addMN (list : LazyList) (dmn : LazyMN) : Option LazyList :=
  if (list.mnMap[dmn.proTxHash]?).isSome then none
  else
    (dmn.uniqueProperties.foldlM (addUniqueProperty (hashing hash) · dmn.proTxHash ·) list.mnUniquePropertyMap).map
      fun index =>
        -- the test of the key looks at it
        { mnMap := list.mnMap.insert dmn.proTxHash
            { dmn with pdmnState := { dmn.pdmnState with pubKeyOperator := dmn.pdmnState.pubKeyOperator.got } }
          mnInternalIdMap := list.mnInternalIdMap.insert dmn.internalId dmn.proTxHash
          mnUniquePropertyMap := index }

def updateDmn (list : LazyList) (oldDmn : LazyMN) (pdmnState : LazyState) : Option LazyList :=
  let p := oldDmn.proTxHash
  let oldState := oldDmn.pdmnState
  (updateUniqueProperty (hashing hash) list.mnUniquePropertyMap p (.service oldState.addr) (.service pdmnState.addr)).bind
    fun index =>
  (updateUniqueProperty (hashing hash) index p (.keyID oldState.keyIDOwner) (.keyID pdmnState.keyIDOwner)).bind fun index =>
  (updateKey hash index p oldState.pubKeyOperator pdmnState.pubKeyOperator).map fun index =>
    let pubKeyOperator := pdmnState.pubKeyOperator.compared oldState.pubKeyOperator
    { list with
      mnMap := list.mnMap.insert p { oldDmn with pdmnState := { pdmnState with pubKeyOperator := pubKeyOperator } }
      mnUniquePropertyMap := index }

def updateMN (list : LazyList) (proTxHash : Uint256) (pdmnState : LazyState) : Option LazyList :=
  (list.mnMap[proTxHash]?).bind fun oldDmn => list.updateDmn hash oldDmn pdmnState

def removeMN (list : LazyList) (proTxHash : Uint256) : Option LazyList :=
  (list.mnMap[proTxHash]?).bind fun dmn =>
    (dmn.uniqueProperties.foldlM (deleteUniqueProperty (hashing hash) · dmn.proTxHash ·) list.mnUniquePropertyMap).map
      fun index =>
        { mnMap := list.mnMap.erase proTxHash
          mnInternalIdMap := list.mnInternalIdMap.erase dmn.internalId
          mnUniquePropertyMap := index }

end LazyList

/-- The calls that change a list. `UpdateMN` with a difference is `updateDmn` with the state it leads to. -/
inductive Call where
  | addMN (dmn : LazyMN)
  | updateDmn (oldDmn : LazyMN) (pdmnState : LazyState)
  | updateMN (proTxHash : Uint256) (pdmnState : LazyState)
  | removeMN (proTxHash : Uint256)

/-- A call, `none` where an assertion fails. -/
def LazyList.call (list : LazyList) : Call → Option LazyList
  | .addMN dmn => list.addMN hash dmn
  | .updateDmn oldDmn pdmnState => list.updateDmn hash oldDmn pdmnState
  | .updateMN proTxHash pdmnState => list.updateMN hash proTxHash pdmnState
  | .removeMN proTxHash => list.removeMN hash proTxHash

end

/-! ### Decoded lists -/

def LazyState.decode (state : LazyState) : CDeterministicMNState :=
  { addr := state.addr, keyIDOwner := state.keyIDOwner, pubKeyOperator := state.pubKeyOperator.get }

def LazyMN.decode (dmn : LazyMN) : CDeterministicMN where
  proTxHash := dmn.proTxHash
  internalId := dmn.internalId
  collateralOutpoint := dmn.collateralOutpoint
  nOperatorReward := 0
  pdmnState := dmn.pdmnState.decode

open LazyMN

/-- The list is the lazy one with its keys decoded, and no key of it is malformed. -/
structure Decodes (lazy : LazyList) (list : CDeterministicMNList) : Prop where
  map : ∀ p : Uint256, list.mnMap[p]? = (lazy.mnMap[p]?).map decode
  looked : ∀ {p : Uint256} {dmn : LazyMN}, lazy.mnMap[p]? = some dmn → dmn.pdmnState.pubKeyOperator.isMalformed = false
  ids : list.mnInternalIdMap = lazy.mnInternalIdMap
  props : list.mnUniquePropertyMap = lazy.mnUniquePropertyMap

theorem uniqueProperties_decode (dmn : LazyMN) : dmn.decode.uniqueProperties = dmn.uniqueProperties := rfl

variable {lazy after : LazyList} {list : CDeterministicMNList}
  {key : CBLSLazyPublicKey} {p : Uint256} {dmn : LazyMN} {calls : List Call}

namespace CBLSLazyPublicKey
variable {other : CBLSLazyPublicKey}

theorem got_get (key : CBLSLazyPublicKey) : key.got.get = key.get := by
  rcases key with (_ | _) | _ <;> rfl

theorem isMalformed_got (key : CBLSLazyPublicKey) : key.got.isMalformed = false := by
  rcases key with (_ | _) | _ <;> rfl

theorem compared_get (key other : CBLSLazyPublicKey) : (key.compared other).get = key.get := by
  rcases key with (_ | _) | _ <;> rcases other with _ | _ <;> rfl

section
variable (proper : key.isMalformed = false)
include proper

theorem isMalformed_compared (other : CBLSLazyPublicKey) : (key.compared other).isMalformed = false := by
  rcases key with (_ | _) | _ <;> rcases other with _ | _ <;> first | rfl | exact proper

theorem eq_iff (proper' : other.isMalformed = false) : key.eq other = true ↔ key.get = other.get := by
  rcases key with (a | _) | _
  · rcases other with (b | _) | _
    · simp [eq, get]
    · cases proper'
    · exact decide_eq_true_iff
  · cases proper
  · exact decide_eq_true_iff

theorem eq_null : key.eq .null = (UniqueProperty.blsKey key.get).isNull := by
  rw [Bool.eq_iff_iff, eq_iff proper rfl]
  exact isNone_iff_eq_none.symm

theorem property_of_proper : key.getBuf.property = .value (.blsKey key.get) := by
  rcases key with (_ | _) | _ <;> first | rfl | cases proper

end

end CBLSLazyPublicKey

section
variable {hash : LazyProperty → Uint256} {state : LazyState} {index : MnUniquePropertyMap}

theorem addKey_eq (proper : key.isMalformed = false) :
    addKey hash index p key = addUniqueProperty (hashing hash) index p (.blsKey key.get) := by
  rw [addKey, addUniqueProperty, eq_null proper, property_of_proper proper, hashing]

theorem deleteKey_eq (proper : key.isMalformed = false) :
    deleteKey hash index p key = deleteUniqueProperty (hashing hash) index p (.blsKey key.get) := by
  rw [deleteKey, deleteUniqueProperty, eq_null proper, property_of_proper proper,
    hashing]

theorem updateKey_eq {oldValue newValue : CBLSLazyPublicKey}
    (old : oldValue.isMalformed = false) (new : newValue.isMalformed = false) :
    updateKey hash index p oldValue newValue =
      updateUniqueProperty (hashing hash) index p (.blsKey oldValue.get) (.blsKey newValue.get) := by
  have old' := isMalformed_compared old newValue
  have new' := isMalformed_compared new oldValue
  simp [updateKey, updateUniqueProperty, eq_iff old new, eq_null old', eq_null new', deleteKey_eq old', addKey_eq new', compared_get]

namespace Decodes

section
variable (decodes : Decodes lazy list)
include decodes

theorem map_insert (p q : Uint256) (dmn : LazyMN) :
    (list.mnMap.insert p dmn.decode)[q]? = ((lazy.mnMap.insert p dmn)[q]?).map decode := by
  rw [ExtTreeMap.getElem?_insert, ExtTreeMap.getElem?_insert]
  split
  · rfl
  · exact decodes.map q

theorem looked_insert {q : Uint256} {other : LazyMN}
    (proper : dmn.pdmnState.pubKeyOperator.isMalformed = false) (found : (lazy.mnMap.insert p dmn)[q]? = some other) :
    other.pdmnState.pubKeyOperator.isMalformed = false := by
  rw [ExtTreeMap.getElem?_insert] at found
  split at found
  · cases found; exact proper
  · exact decodes.looked found

theorem addMN (added : lazy.addMN hash dmn = some after) :
    ∃ list', list.addMN (hashing hash) dmn.decode = some list' ∧ Decodes after list' := by
  unfold LazyList.addMN at added
  split at added
  · cases added
  next absent =>
    obtain ⟨index, folded, rfl⟩ := map_eq_some_iff.mp added
    have free : ¬ (list.getMN dmn.decode.proTxHash).isSome = true := by
      rw [getMN, decodes.map, isSome_map]
      exact absent
    have same : decode { dmn with pdmnState :=
        { dmn.pdmnState with pubKeyOperator := dmn.pdmnState.pubKeyOperator.got } } = dmn.decode := by
      simp [decode, LazyState.decode, got_get]
    rw [addMN, if_neg free, uniqueProperties_decode, decodes.props]
    refine ⟨_, map_eq_some_iff.mpr ⟨index, folded, rfl⟩, ?_, ?_, by rw [decodes.ids]; rfl, rfl⟩
    · rw [← same]
      exact fun q => decodes.map_insert _ q _
    · exact decodes.looked_insert (isMalformed_got _)

theorem removeMN (removed : lazy.removeMN hash p = some after) :
    ∃ list', list.removeMN (hashing hash) p = some list' ∧ Decodes after list' := by
  obtain ⟨dmn, found, removed⟩ := bind_eq_some_iff.mp removed
  obtain ⟨index, folded, rfl⟩ := map_eq_some_iff.mp removed
  have listed : list.getMN p = some dmn.decode := by
    rw [getMN, decodes.map, found]
    rfl
  rw [removeMN, listed, bind_some, uniqueProperties_decode, decodes.props]
  refine ⟨_, map_eq_some_iff.mpr ⟨index, folded, rfl⟩, ?_, ?_, by rw [decodes.ids]; rfl, rfl⟩
  · intro q
    rw [ExtTreeMap.getElem?_erase, ExtTreeMap.getElem?_erase]
    split
    · rfl
    · exact decodes.map q
  · intro q other kept
    rw [ExtTreeMap.getElem?_erase] at kept
    split at kept
    · cases kept
    · exact decodes.looked kept

theorem updateDmn (found : lazy.mnMap[dmn.proTxHash]? = some dmn)
    (proper : state.pubKeyOperator.isMalformed = false) (updated : lazy.updateDmn hash dmn state = some after) :
    ∃ list', list.updateDmn (hashing hash) dmn.decode state.decode = some list' ∧ Decodes after list' := by
  obtain ⟨first, addr, updated⟩ := bind_eq_some_iff.mp updated
  obtain ⟨second, owner, updated⟩ := bind_eq_some_iff.mp updated
  obtain ⟨index, operator, rfl⟩ := map_eq_some_iff.mp updated
  rw [updateKey_eq (decodes.looked found) proper] at operator
  rw [← decodes.props] at addr
  have same : decode { dmn with pdmnState := { state with
      pubKeyOperator := state.pubKeyOperator.compared dmn.pdmnState.pubKeyOperator } } =
      { dmn.decode with pdmnState := state.decode } := by
    simp [decode, LazyState.decode, compared_get]
  have properties : updateProperties (hashing hash) list.mnUniquePropertyMap dmn.proTxHash
      dmn.decode.pdmnState state.decode = some index :=
    bind_eq_some_iff.mpr ⟨first, addr, bind_eq_some_iff.mpr ⟨second, owner, operator⟩⟩
  refine ⟨_, map_eq_some_iff.mpr ⟨index, properties, rfl⟩, ?_, ?_, decodes.ids, rfl⟩
  · rw [← same]
    exact fun q => decodes.map_insert _ q _
  · exact decodes.looked_insert (isMalformed_compared proper _)

end

end Decodes

end

/-! ### The indexes -/

section
variable (hash : LazyProperty → Uint256)

/-- The indexes say exactly what the masternodes say: that of internal ids is a bijection between ids and
registrations, and that of the unique properties has an entry for every property of a masternode, with how often it
has it, and no other. -/
structure Represents (list : LazyList) : Prop where
  keyed : ∀ {p : Uint256} {dmn : LazyMN}, list.mnMap[p]? = some dmn → dmn.proTxHash = p
  ids : ∀ (i : Nat) (p : Uint256), list.mnInternalIdMap[i]? = some p ↔
    ∃ dmn : LazyMN, list.mnMap[p]? = some dmn ∧ dmn.internalId = i
  held : ∀ {p : Uint256} {dmn : LazyMN} {v : UniqueProperty}, list.mnMap[p]? = some dmn → v ∈ dmn.uniqueProperties →
    list.mnUniquePropertyMap[hash (.value v)]? = some (p, dmn.uniqueProperties.count v)
  only : ∀ {key q : Uint256} {count : Nat}, list.mnUniquePropertyMap[key]? = some (q, count) →
    ∃ (dmn : LazyMN) (v : UniqueProperty), list.mnMap[q]? = some dmn ∧ v ∈ dmn.uniqueProperties ∧ hash (.value v) = key

structure LazyState.Proper (state : LazyState) : Prop where
  owner : state.keyIDOwner ≠ 0
  operator : state.pubKeyOperator.isMalformed = false

/-- The callers' part: a new masternode has its own internal id, and an update starts from the listed masternode and
    leads to a proper state. -/
def Call.Proper (list : LazyList) : Call → Prop
  | .addMN dmn => ∀ (q : Uint256) (other : LazyMN), list.mnMap[q]? = some other → other.internalId ≠ dmn.internalId
  | .updateDmn oldDmn pdmnState => list.mnMap[oldDmn.proTxHash]? = some oldDmn ∧ pdmnState.Proper
  | .updateMN _ pdmnState => pdmnState.Proper
  | .removeMN _ => True

inductive Reachable : LazyList → Prop where
  | empty : Reachable {}
  | call {list after : LazyList} {call : Call} (reachable : Reachable list) (proper : call.Proper list)
      (called : list.call hash call = some after) : Reachable after

variable {hash} {lazy : LazyList} {bound : Nat}

section
variable (decodes : Decodes lazy list)
include decodes

theorem Decodes.listed (found : lazy.mnMap[p]? = some dmn) : list.mnMap[p]? = some dmn.decode := by
  rw [decodes.map, found]
  rfl

theorem Decodes.lazy_listed {dmn : CDeterministicMN}
    (found : list.mnMap[p]? = some dmn) : ∃ lazyDmn, lazy.mnMap[p]? = some lazyDmn ∧ lazyDmn.decode = dmn := by
  rw [decodes.map] at found
  exact map_eq_some_iff.mp found

variable (consistent : Consistent (hashing hash) list bound)
include consistent

theorem Decodes.represents (injective : Injective hash) : Represents hash lazy where
  keyed found := consistent.keyed (decodes.listed found)
  ids := by
    intro i p
    rw [← decodes.ids, consistent.ids]
    constructor
    · rintro ⟨dmn, found, rfl⟩
      obtain ⟨lazyDmn, present, rfl⟩ := decodes.lazy_listed found
      exact ⟨lazyDmn, present, rfl⟩
    · rintro ⟨dmn, found, rfl⟩
      exact ⟨dmn.decode, decodes.listed found, rfl⟩
  held := by
    intro p dmn v found property
    have apart : Injective (hashing hash).serializeHash := fun v w same =>
      LazyProperty.value.inj (injective same)
    rw [← decodes.props]
    refine (consistent.props.entry _ p _).mpr ⟨?_, List.count_pos_iff.mpr property⟩
    rw [held_of_some (decodes.listed found), uniqueProperties_decode]
    exact List.count_map_of_injective _ _ apart v
  only := by
    intro key q count entry
    rw [← decodes.props] at entry
    obtain ⟨holds, positive⟩ := (consistent.props.entry key q count).mp entry
    obtain ⟨dmn, found, member⟩ := held_pos.mp (holds ▸ positive)
    obtain ⟨lazyDmn, present, rfl⟩ := decodes.lazy_listed found
    obtain ⟨v, property, same⟩ := List.mem_map.mp member
    exact ⟨lazyDmn, v, present, property, same⟩

theorem Decodes.call {call : Call} (proper : call.Proper lazy) (called : lazy.call hash call = some after) :
    ∃ list' bound', Decodes after list' ∧ Consistent (hashing hash) list' bound' := by
  have update : ∀ {dmn : LazyMN} {state : LazyState}, lazy.mnMap[dmn.proTxHash]? = some dmn → state.Proper →
      lazy.updateDmn hash dmn state = some after → ∃ list' bound', Decodes after list' ∧
        Consistent (hashing hash) list' bound' := by
    intro dmn state found proper updated
    obtain ⟨list', updated', decodes'⟩ := decodes.updateDmn found proper.operator updated
    exact ⟨list', bound, decodes', (consistent.updateDmn (decodes.listed found) proper.owner updated').1⟩
  cases call with
  | addMN dmn =>
    obtain ⟨list', added, decodes'⟩ := decodes.addMN called
    refine ⟨list', _, decodes', (consistent.addMN added ?_ (max bound (dmn.internalId + 1)) ?_ (le_max_left _ _)).1⟩
    · intro q other found
      obtain ⟨lazyDmn, present, rfl⟩ := decodes.lazy_listed found
      exact proper q lazyDmn present
    · exact Nat.lt_of_lt_of_le (Nat.lt_succ_self _) (le_max_right _ _)
  | updateDmn dmn state => exact update proper.1 proper.2 called
  | updateMN p state =>
    obtain ⟨dmn, found, updated⟩ := bind_eq_some_iff.mp called
    have key : dmn.proTxHash = p := consistent.keyed (decodes.listed found)
    exact update (key ▸ found) proper updated
  | removeMN p =>
    obtain ⟨list', removed, decodes'⟩ := decodes.removeMN called
    exact ⟨list', bound, decodes', (consistent.removeMN removed).1⟩

end

theorem Reachable.decodes (reachable : Reachable hash lazy) :
    ∃ list bound, Decodes lazy list ∧ Consistent (hashing hash) list bound := by
  induction reachable with
  | empty => exact ⟨{}, 0, ⟨by simp, by simp, rfl, rfl⟩, Consistent.empty _ _ _⟩
  | call _ proper called ih =>
    obtain ⟨list, bound, decodes, consistent⟩ := ih
    exact decodes.call consistent proper called

/-! ### Runs on fixed calls -/

instance (list : LazyList) (call : Call) : Decidable (call.Proper list) :=
  match call with
  | .addMN dmn => decidable_of_iff (∀ entry ∈ list.mnMap.toList, entry.2.internalId ≠ dmn.internalId)
      (by simp [Call.Proper, ExtTreeMap.mem_toList_iff_getElem?_eq_some])
  | .updateDmn oldDmn state => decidable_of_iff
      (list.mnMap[oldDmn.proTxHash]? = some oldDmn ∧ state.keyIDOwner ≠ 0 ∧ state.pubKeyOperator.isMalformed = false)
      ⟨fun ⟨found, owner, operator⟩ => ⟨found, owner, operator⟩, fun ⟨found, owner, operator⟩ => ⟨found, owner, operator⟩⟩
  | .updateMN _ state => decidable_of_iff (state.keyIDOwner ≠ 0 ∧ state.pubKeyOperator.isMalformed = false)
      ⟨fun ⟨owner, operator⟩ => ⟨owner, operator⟩, fun ⟨owner, operator⟩ => ⟨owner, operator⟩⟩
  | .removeMN _ => .isTrue trivial

def LazyList.properCall (hash : LazyProperty → Uint256) (list : LazyList) (call : Call) : Option LazyList :=
  if call.Proper list then list.call hash call else none

theorem reachable_of_run (run : calls.foldlM (LazyList.properCall hash) {} = some lazy) : Reachable hash lazy := by
  refine Folds.foldlM_some (P := Reachable hash) ?_ .empty run
  intro call _ list after reachable step
  unfold LazyList.properCall at step
  split at step
  next proper => exact .call reachable proper step
  next => cases step

def sampleHash : LazyProperty → Uint256
  | .value v => 2 * pairHashing.serializeHash v
  | .malformedKey bytes => 2 * bytes + 1

theorem sampleHash_injective : Injective sampleHash := by
  rintro (v | a) (w | b) same
  · have hashes : @Eq ℕ (2 * pairHashing.serializeHash v) (2 * pairHashing.serializeHash w) := same
    rw [pairHashing_injective (by unfold Uint256; omega : pairHashing.serializeHash v = pairHashing.serializeHash w)]
  · have hashes : @Eq ℕ (2 * pairHashing.serializeHash v) (2 * b + 1) := same
    omega
  · have hashes : @Eq ℕ (2 * a + 1) (2 * pairHashing.serializeHash w) := same
    omega
  · have bytes : @Eq ℕ (2 * a + 1) (2 * b + 1) := same
    rw [show a = b by omega]

def sampleMN (n internalId : Nat) : LazyMN where
  proTxHash := n
  internalId
  collateralOutpoint := ⟨n, 0⟩
  pdmnState := { addr := ⟨0xffff01020300 + n, 9999⟩, keyIDOwner := n, pubKeyOperator := .buffer (.proper (some n)) }

/-- Masternodes come with a valid and with a malformed key, get other keys, lose them and leave. -/
def sampleCalls : List Call :=
  [.addMN (sampleMN 1 0),
    .addMN { sampleMN 2 1 with pdmnState := { keyIDOwner := 2, pubKeyOperator := .buffer (.malformed 7) } },
    .updateMN 2 { keyIDOwner := 2, pubKeyOperator := .buffer (.proper (some 9)) },
    .updateDmn (sampleMN 1 0) { addr := ⟨5, 5⟩, keyIDOwner := 3 },
    .removeMN 2]

/-- Every list that proper calls build represents its masternodes. -/
theorem reachable_represents (injective : Injective hash) (reachable : Reachable hash lazy) :
    Represents hash lazy := by
  obtain ⟨list, bound, decodes, consistent⟩ := reachable.decodes
  exact decodes.represents consistent injective

theorem reachable_represents_sample :
    ∃ list, sampleCalls.foldlM (LazyList.properCall sampleHash) {} = some list ∧ Represents sampleHash list := by
  obtain ⟨list, run⟩ := isSome_iff_exists.mp
    (by decide +kernel : (sampleCalls.foldlM (LazyList.properCall sampleHash) {}).isSome = true)
  exact ⟨list, run, reachable_represents sampleHash_injective (reachable_of_run run)⟩

/-- The calls go through, and the list no longer represents its masternodes. -/
def Breaks (calls : List Call) : Prop :=
  ∃ list, calls.foldlM (LazyList.call sampleHash) {} = some list ∧ ¬ Represents sampleHash list

theorem breaks_of_test (test : LazyList → Bool)
    (passed : (calls.foldlM (LazyList.call sampleHash) {}).any test = true)
    (contradicts : ∀ list, test list = true → ¬ Represents sampleHash list) : Breaks calls := by
  obtain ⟨list, run, shown⟩ := (any_eq_true _ _).mp passed
  exact ⟨list, run, contradicts list shown⟩

/-- An internal id that is in use, a malformed key, no owner, and a masternode that is not listed. -/
theorem improper_not_represents : Breaks [.addMN (sampleMN 1 0), .addMN (sampleMN 2 0)] ∧
      Breaks [.addMN (sampleMN 1 0), .updateMN 1 { keyIDOwner := 1, pubKeyOperator := .buffer (.malformed 7) }] ∧
      Breaks [.addMN (sampleMN 1 0), .updateMN 1 {}] ∧
      Breaks [.updateDmn { sampleMN 1 0 with pdmnState := {} } { keyIDOwner := 1 }] := by
  refine ⟨?_, ?_, ?_, ?_⟩
  · refine breaks_of_test (fun list => decide (list.mnMap[1]? = some (sampleMN 1 0) ∧ list.mnInternalIdMap[0]? = some 2))
      (by decide +kernel) ?_
    intro list shown represents
    obtain ⟨listed, indexed⟩ := of_decide_eq_true shown
    have own := (represents.ids 0 1).mpr ⟨_, listed, rfl⟩
    rw [indexed] at own
    exact absurd own (by decide)
  · refine breaks_of_test (fun list => decide (list.mnUniquePropertyMap[sampleHash (.malformedKey 7)]? = some (1, 1)))
      (by decide +kernel) ?_
    intro list shown represents
    obtain ⟨_, v, -, -, same⟩ := represents.only (of_decide_eq_true shown)
    cases sampleHash_injective same
  · refine breaks_of_test (fun list => decide ((list.mnMap[1]?).map uniqueProperties = some [.outpoint ⟨1, 0⟩, .keyID 0] ∧
      list.mnUniquePropertyMap[sampleHash (.value (.keyID 0))]? = none)) (by decide +kernel) ?_
    intro list shown represents
    obtain ⟨listed, absent⟩ := of_decide_eq_true shown
    obtain ⟨dmn, found, properties⟩ := map_eq_some_iff.mp listed
    have entry := represents.held found (by rw [properties]; simp : UniqueProperty.keyID 0 ∈ dmn.uniqueProperties)
    rw [absent] at entry
    cases entry
  · refine breaks_of_test (fun list => decide ((list.mnMap[1]?).map internalId = some 0 ∧ list.mnInternalIdMap[0]? = none))
      (by decide +kernel) ?_
    intro list shown represents
    obtain ⟨listed, absent⟩ := of_decide_eq_true shown
    obtain ⟨dmn, found, id⟩ := map_eq_some_iff.mp listed
    have own := (represents.ids 0 1).mpr ⟨dmn, found, id⟩
    rw [absent] at own
    cases own

end

end Cspn.LazyKeys
