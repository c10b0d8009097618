import Cspn.Folds
import Cspn.Primitives

/-!
The stake proofs that a node finds in its database when it starts. `LoadBlockIndex` notes the proof of an entry when the
entry is inserted, before the record is read into it, so only the proof of a block with a child later in the order of
the keys is noted.
-/
namespace Cspn.PosIndex
open Primitives List

/-- What the loop reads of a record; `workOk` is its check of the proof of work. -/
structure CDiskBlockIndex where
  blockHash : Uint256
  hashPrev : Uint256
  hashProofOfStake : Uint256
  workOk : Bool

/-- The records in the order of their keys. -/
structure CBlockTreeDB where
  records : List CDiskBlockIndex
  distinct : (records.map CDiskBlockIndex.blockHash).Nodup
  nonNull : ∀ record ∈ records, record.blockHash ≠ 0
  work : ∀ record ∈ records, record.workOk = true

structure BlockManager where
  /-- The field of the entries, null where there is no entry, as in one that was just inserted. -/
  hashProofOfStake : Uint256 → Uint256 := fun _ => 0
  m_pos_index : List Uint256 := []

namespace BlockManager
variable (m : BlockManager)

def insertPoSIndex (hash : Uint256) : BlockManager :=
  if hash = 0 ∨ hash ∈ m.m_pos_index then m else { m with m_pos_index := m.m_pos_index ++ [hash] }

/-- The function that `LoadBlockIndex` hands to `LoadBlockIndexGuts`. -/
def insertBlockIndex (hash : Uint256) : BlockManager :=
  if hash = 0 then m else m.insertPoSIndex (m.hashProofOfStake hash)

def loadRecord (record : CDiskBlockIndex) : Option BlockManager :=
  let m := (m.insertBlockIndex record.blockHash).insertBlockIndex record.hashPrev
  if record.workOk then
    some { m with hashProofOfStake := Function.update m.hashProofOfStake record.blockHash record.hashProofOfStake }
  else none

def Rebuilt : Prop := ∀ hash, hash ∈ m.m_pos_index ↔ hash ≠ 0 ∧ ∃ block, m.hashProofOfStake block = hash

end BlockManager

open BlockManager

def loadBlockIndex (db : CBlockTreeDB) : Option BlockManager := db.records.foldlM loadRecord {}

/-- A record with the proof comes before one of a child. -/
def Followed (records : List CDiskBlockIndex) (hash : Uint256) : Prop :=
  ∃ parent child, [parent, child].Sublist records ∧ parent.hashProofOfStake = hash ∧ child.hashPrev = parent.blockHash

structure Loaded (done : List CDiskBlockIndex) (m : BlockManager) : Prop where
  proofs : ∀ record ∈ done, m.hashProofOfStake record.blockHash = record.hashProofOfStake
  others : ∀ block, (∀ record ∈ done, record.blockHash ≠ block) → m.hashProofOfStake block = 0
  noted : ∀ hash, hash ∈ m.m_pos_index ↔ hash ≠ 0 ∧ Followed done hash

variable {m : BlockManager} {done : List CDiskBlockIndex} {record : CDiskBlockIndex}

@[simp] theorem hashProofOfStake_insertBlockIndex (m : BlockManager) (hash : Uint256) :
    (m.insertBlockIndex hash).hashProofOfStake = m.hashProofOfStake := by
  rw [insertBlockIndex, insertPoSIndex]
  split_ifs <;> rfl

theorem mem_insertBlockIndex {block hash : Uint256} : hash ∈ (m.insertBlockIndex block).m_pos_index ↔
    hash ∈ m.m_pos_index ∨ block ≠ 0 ∧ hash ≠ 0 ∧ m.hashProofOfStake block = hash := by
  rw [insertBlockIndex, insertPoSIndex]
  split_ifs with null known
  · simp [null]
  · refine ⟨.inl, fun either => either.elim id ?_⟩
    rintro ⟨-, proves, rfl⟩
    exact known.resolve_left proves
  · rw [mem_append, mem_singleton]
    refine or_congr_right ⟨?_, fun new => new.2.2.symm⟩
    rintro rfl
    exact ⟨null, (not_or.mp known).1, rfl⟩

theorem followed_append {hash : Uint256} : Followed (done ++ [record]) hash ↔
    Followed done hash ∨ ∃ parent ∈ done, parent.hashProofOfStake = hash ∧ record.hashPrev = parent.blockHash := by
  constructor
  · rintro ⟨parent, child, pair, proves, isChild⟩
    obtain ⟨front, back, split, inFront, inBack⟩ := sublist_append_iff.mp pair
    match back, sublist_singleton.mp inBack with
    | _, .inl rfl =>
      rw [append_nil] at split
      exact .inl ⟨parent, child, split ▸ inFront, proves, isChild⟩
    | _, .inr rfl =>
      obtain ⟨rfl, last⟩ := append_inj' (show [parent] ++ [child] = front ++ [record] from split) rfl
      cases last
      exact .inr ⟨parent, singleton_sublist.mp inFront, proves, isChild⟩
  · rintro (⟨parent, child, pair, rest⟩ | ⟨parent, member, proves, isChild⟩)
    · exact ⟨parent, child, pair.trans (sublist_append_left _ _), rest⟩
    · exact ⟨parent, record, (singleton_sublist.mpr member).append (Sublist.refl [record]), proves, isChild⟩

theorem Loaded.loadRecord (loaded : Loaded done m) (fresh : ∀ other ∈ done, other.blockHash ≠ record.blockHash)
    (nonNull : ∀ other ∈ done, other.blockHash ≠ 0) (work : record.workOk = true) :
    ∃ after, m.loadRecord record = some after ∧ Loaded (done ++ [record]) after := by
  refine ⟨_, if_pos work, fun other member => ?_, fun block other => ?_, fun hash => ?_⟩
  · rcases mem_append.mp member with old | new
    · simpa [Function.update_of_ne (fresh other old)] using loaded.proofs other old
    · simp [mem_singleton.mp new]
  · have apart : block ≠ record.blockHash := fun same => other record (by simp) same.symm
    simpa [Function.update_of_ne apart] using loaded.others block fun old member => other old (mem_append_left _ member)
  · rw [mem_insertBlockIndex, mem_insertBlockIndex, hashProofOfStake_insertBlockIndex, loaded.others _ fresh,
      loaded.noted, followed_append]
    constructor
    · rintro ((⟨proves, followed⟩ | ⟨-, proves, rfl⟩) | ⟨-, proves, isProof⟩)
      · exact ⟨proves, .inl followed⟩
      · exact absurd rfl proves
      · refine ⟨proves, .inr (by_contra fun none => proves ?_)⟩
        rw [← isProof]
        exact loaded.others _ fun parent member same => none
          ⟨parent, member, by rw [← loaded.proofs parent member, same, isProof], same.symm⟩
    · rintro ⟨proves, followed | ⟨parent, member, isProof, isChild⟩⟩
      · exact .inl (.inl ⟨proves, followed⟩)
      · exact .inr ⟨isChild ▸ nonNull parent member, proves, by rw [isChild, loaded.proofs parent member, isProof]⟩

theorem loadBlockIndex_loaded (db : CBlockTreeDB) : ∃ m, loadBlockIndex db = some m ∧ Loaded db.records m := by
  have start : Loaded [] {} := ⟨by simp, fun _ _ => rfl, by simp [Followed]⟩
  have keeps : ∀ record rest m, (∃ done, done ++ record :: rest = db.records ∧ Loaded done m) →
      ∃ after, m.loadRecord record = some after ∧ ∃ done, done ++ rest = db.records ∧ Loaded done after := by
    rintro record rest m ⟨done, whole, loaded⟩
    have inside : ∀ other ∈ done, other ∈ db.records := fun other member => whole ▸ mem_append_left _ member
    have distinct := db.distinct
    rw [← whole, map_append, nodup_append] at distinct
    obtain ⟨after, ran, next⟩ := loaded.loadRecord
      (fun other member => distinct.2.2 _ (mem_map_of_mem member) _ (by simp))
      (fun other member => db.nonNull other (inside other member)) (db.work record (whole ▸ by simp))
    exact ⟨after, ran, done ++ [record], by simp [whole], next⟩
  obtain ⟨m, ran, done, whole, loaded⟩ := Folds.foldlM_isSome_rest
    (P := fun rest m => ∃ done, done ++ rest = db.records ∧ Loaded done m) keeps ⟨[], rfl, start⟩
  rw [append_nil] at whole
  exact ⟨m, ran, whole ▸ loaded⟩

/-- The stake index is rebuilt exactly if each proof is of a record with a child later in the order. -/
theorem loadBlockIndex_rebuilt_iff (db : CBlockTreeDB) : ∃ m, loadBlockIndex db = some m ∧
    (m.Rebuilt ↔ ∀ record ∈ db.records, record.hashProofOfStake ≠ 0 → Followed db.records record.hashProofOfStake) := by
  obtain ⟨m, ran, loaded⟩ := loadBlockIndex_loaded db
  have entries : ∀ hash, hash ≠ 0 →
      ((∃ block, m.hashProofOfStake block = hash) ↔ ∃ record ∈ db.records, record.hashProofOfStake = hash) := by
    intro hash proves
    constructor
    · rintro ⟨block, rfl⟩
      by_contra none
      exact proves (loaded.others block fun record member same => none
        ⟨record, member, by rw [← loaded.proofs record member, same]⟩)
    · rintro ⟨record, member, rfl⟩
      exact ⟨record.blockHash, loaded.proofs record member⟩
  refine ⟨m, ran, fun rebuilt record member proves => ?_, fun followed hash => ?_⟩
  · exact ((loaded.noted _).mp ((rebuilt _).mpr ⟨proves, (entries _ proves).mpr ⟨record, member, rfl⟩⟩)).2
  · rw [loaded.noted, and_congr_right_iff]
    intro proves
    rw [entries hash proves]
    constructor
    · rintro ⟨parent, child, pair, same, -⟩
      exact ⟨parent, pair.subset (.head _), same⟩
    · rintro ⟨record, member, rfl⟩
      exact followed record member proves

/-- The genesis block, with hash 2, and a stake block on it, with hash 1. -/
def stakeTip : CBlockTreeDB := ⟨[⟨1, 2, 7, true⟩, ⟨2, 0, 0, true⟩], by simp, by simp, by simp⟩

theorem stakeTip_not_rebuilt : ∃ m, loadBlockIndex stakeTip = some m ∧ ¬ m.Rebuilt :=
  ⟨_, rfl, fun rebuilt => absurd ((rebuilt 7).mpr ⟨by decide, 1, rfl⟩) (by decide)⟩

end Cspn.PosIndex
