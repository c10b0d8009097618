import Cspn.DbTransaction

/-!
The iterator of a transaction, which merges the pending writes with the parent's keys.
The line that copies the parent's current key is commented out, so `parentKey` keeps
the empty stream it is built with, the least key.
-/
namespace Cspn.DbIterator
open DbTransaction List Option

variable {K V : Type} [LinearOrder K] [OrderBot K]

/-- The parent's map with the keys its iterator meets. -/
structure Parent (K V : Type) [LinearOrder K] where
  read : K → Option V
  keys : List K
  sorted : keys.Pairwise (· < ·)
  mem_keys : ∀ k, k ∈ keys ↔ (read k).isSome

/-- The two iterators, each with the keys it has still to visit. -/
structure CDBTransactionIterator (K : Type) [LinearOrder K] [OrderBot K] where
  transactionIt : List K := []
  parentIt : List K := []
  parentKey : K := ⊥
  curIsParent : Bool := false

section
variable (tx : CDBTransaction K V) (parent : Parent K V) (it : CDBTransactionIterator K)

def hides (key : K) : Bool := decide (key ∈ tx.deletes) || decide (key ∈ tx.writes)

namespace CDBTransactionIterator

def skipDeletedAndOverwritten : CDBTransactionIterator K :=
  { it with parentIt := it.parentIt.dropWhile fun _ => hides tx it.parentKey }

def decideCur : CDBTransactionIterator K :=
  match it.transactionIt, it.parentIt with
  | _ :: _, [] => { it with curIsParent := false }
  | [], _ :: _ => { it with curIsParent := true }
  | key :: _, _ :: _ => { it with curIsParent := !decide (key < it.parentKey) }
  | [], [] => it

def place (range : K → Bool) : CDBTransactionIterator K :=
  decideCur (skipDeletedAndOverwritten tx { it with
    transactionIt := (tx.writes.keys.mergeSort (· ≤ ·)).filter range, parentIt := parent.keys.filter range })

def seekToFirst : CDBTransactionIterator K := it.place tx parent fun _ => true
def seek (ssKey : K) : CDBTransactionIterator K := it.place tx parent (ssKey ≤ ·)

def valid : Bool := !it.transactionIt.isEmpty || !it.parentIt.isEmpty

/-- `none` is a failed assertion. -/
def next : Option (CDBTransactionIterator K) :=
  if !it.valid then some it
  else if it.curIsParent then
    if it.parentIt.isEmpty then none
    else some (decideCur (skipDeletedAndOverwritten tx { it with parentIt := it.parentIt.tail }))
  else if it.transactionIt.isEmpty then none
  else some (decideCur { it with transactionIt := it.transactionIt.tail })

def getKey : K := if it.curIsParent then it.parentKey else it.transactionIt.headD ⊥

def getValue : Option V := tx.read parent.read it.getKey

def visit : Nat → CDBTransactionIterator K → Option (List (K × Option V))
  | 0, _ => some []
  | n + 1, it =>
    if it.valid then do
      let rest ← visit n (← it.next tx)
      return (it.getKey, it.getValue tx parent) :: rest
    else some []

end CDBTransactionIterator
open CDBTransactionIterator

def entry (key : K) : K × Option V := (key, tx.read parent.read key)

/-- The keys with a value in the range, each once and in order: however far the iterator goes, it shows them. -/
def Merges (range : K → Bool) : Prop :=
  ∃ keys : List K, keys.Pairwise (· < ·) ∧ (∀ k, k ∈ keys ↔ (tx.read parent.read k).isSome ∧ range k) ∧
    ∀ n, visit tx parent n it = some ((keys.map (entry tx parent)).take n)

/-- What the iterator needs of the parent's keys in the range. -/
def Served (range : K → Bool) : Prop :=
  if hides tx ⊥ then ∀ k ∈ parent.keys, range k → hides tx k else ∀ k ∈ parent.keys, range k → k = ⊥

variable {tx parent}

theorem visit_decideCur (n : Nat) (writes keys : List K) (cur : Bool) (skipped : hides tx ⊥ = true → keys = []) :
    visit tx parent n (decideCur ⟨writes, keys, ⊥, cur⟩)
      = some (((keys.map (fun _ => ⊥) ++ writes).map (entry tx parent)).take n) := by
  induction n generalizing writes keys cur with
  | zero => rfl
  | succ n ih =>
    cases keys with
    | nil =>
      cases writes with
      | nil => rfl
      | cons w writes =>
        change (do let rest ← visit tx parent n (decideCur ⟨writes, [], ⊥, false⟩); return entry tx parent w :: rest) = _
        rw [ih writes [] false fun _ => rfl]
        rfl
    | cons k keys =>
      have shown : hides tx (⊥ : K) = false := by
        by_contra hidden
        simpa using skipped (by simpa using hidden)
      have stays : keys.dropWhile (fun _ => hides tx ⊥) = keys := by cases keys <;> simp [shown]
      have chosen : decideCur ⟨writes, k :: keys, ⊥, cur⟩ = ⟨writes, k :: keys, ⊥, true⟩ := by
        cases writes <;> simp [decideCur]
      have moved : next tx ⟨writes, k :: keys, ⊥, true⟩ = some (decideCur ⟨writes, keys, ⊥, true⟩) := by
        simp [CDBTransactionIterator.next, valid, skipDeletedAndOverwritten, stays]
      rw [chosen, visit, moved, bind_eq_bind, bind_some, ih writes keys true (by simp [shown])]
      simp [valid, getKey, getValue, entry]

def shownKeys (tx : CDBTransaction K V) (parent : Parent K V) (range : K → Bool) : List K :=
  (if hides tx ⊥ then [] else parent.keys.filter range).map (fun _ => ⊥) ++
    (tx.writes.keys.mergeSort (· ≤ ·)).filter range

theorem merges_place_iff_shown {range : K → Bool} : Merges tx parent (place tx parent {} range) range ↔
    (shownKeys tx parent range).Pairwise (· < ·) ∧
      ∀ k, k ∈ shownKeys tx parent range ↔ (tx.read parent.read k).isSome ∧ range k := by
  have visits (n : Nat) : visit tx parent n (place tx parent {} range)
      = some (((shownKeys tx parent range).map (entry tx parent)).take n) := by
    have skipped : (parent.keys.filter range).dropWhile (fun _ => hides tx ⊥)
        = if hides tx ⊥ then [] else parent.keys.filter range := by
      cases hides tx (⊥ : K) <;> simp
    rw [place, skipDeletedAndOverwritten, skipped]
    exact visit_decideCur n _ _ false (fun hidden => if_pos hidden)
  constructor
  · rintro ⟨keys, sorted, live, same⟩
    have equal : shownKeys tx parent range = keys := by
      have injective : Function.Injective (entry tx parent) := fun k k' equal => congrArg Prod.fst equal
      refine map_injective_iff.mpr injective (ext_getElem? fun n => ?_)
      have prefixes := (visits (n + 1)).symm.trans (same (n + 1))
      simpa [getElem?_take] using congrArg (·[n]?) (some.inj prefixes)
    exact equal ▸ ⟨sorted, live⟩
  · exact fun ⟨sorted, live⟩ => ⟨_, sorted, live, visits⟩

omit [OrderBot K] in
theorem live_iff {k : K} : (tx.read parent.read k).isSome ↔ k ∈ tx.writes ∨ k ∈ parent.keys ∧ hides tx k = false := by
  by_cases deleted : k ∈ tx.deletes
  · have unwritten := AList.lookup_eq_none.mp (tx.apart k deleted)
    simp [CDBTransaction.read, hides, deleted, unwritten]
  · cases written : tx.writes.lookup k with
    | none => simp [CDBTransaction.read, hides, deleted, written, AList.lookup_eq_none.mp written, parent.mem_keys]
    | some v => simp [CDBTransaction.read, deleted, written, AList.lookup_isSome.mp (isSome_of_mem written)]

omit [OrderBot K] in
theorem sorted_writes (range : K → Bool) : ((tx.writes.keys.mergeSort (· ≤ ·)).filter range).Pairwise (· < ·) := by
  have distinct : (tx.writes.keys.mergeSort (· ≤ ·)).Nodup := (mergeSort_perm _ _).nodup_iff.mpr tx.writes.keys_nodup
  exact ((pairwise_mergeSort' (· ≤ ·) tx.writes.keys).and distinct).imp (fun le => lt_of_le_of_ne le.1 le.2) |>.filter range

theorem merges_place {range : K → Bool} : Merges tx parent (place tx parent {} range) range ↔ Served tx parent range := by
  rw [merges_place_iff_shown, Served]
  by_cases hidden : hides tx (⊥ : K) = true
  · simp only [shownKeys, hidden, if_true, map_nil, nil_append, sorted_writes, true_and, mem_filter,
      mem_mergeSort, ← AList.mem_keys, live_iff]
    refine ⟨fun same k inParent inRange => ?_, fun served k => ?_⟩
    · by_contra shown
      have written := ((same k).mpr ⟨.inr ⟨inParent, by simpa using shown⟩, inRange⟩).1
      simp [hides, written] at shown
    · refine and_congr_left fun inRange => ⟨.inl, ?_⟩
      rintro (inWrites | ⟨inParent, shown⟩)
      · exact inWrites
      · simp [served k inParent inRange] at shown
  · have unwritten : (⊥ : K) ∉ tx.writes := fun member => hidden (by simp [hides, member])
    rw [Bool.not_eq_true] at hidden
    simp only [shownKeys, hidden, Bool.false_eq_true, if_false]
    constructor
    · rintro ⟨sorted, same⟩ k inParent inRange
      have member : k ∈ parent.keys.filter range := mem_filter.mpr ⟨inParent, inRange⟩
      obtain ⟨live, bottomInRange⟩ := (same ⊥).mp (mem_append_left _ (mem_map.mpr ⟨k, member, rfl⟩))
      have bottom : ⊥ ∈ parent.keys.filter range :=
        mem_filter.mpr ⟨((live_iff.mp live).resolve_left unwritten).1, bottomInRange⟩
      -- A second key of the parent would show the empty key twice.
      have once := (pairwise_append.mp sorted).1.imp ne_of_lt
      exact inj_on_of_nodup_map once member bottom rfl
    · intro served
      have only : ∀ k ∈ parent.keys.filter range, k = ⊥ := fun k member =>
        served k (mem_filter.mp member).1 (mem_filter.mp member).2
      have kept : (parent.keys.filter range).map (fun _ => ⊥) = parent.keys.filter range :=
        (map_congr_left fun k member => (only k member).symm).trans (map_id _)
      rw [kept]
      refine ⟨pairwise_append.mpr ⟨parent.sorted.filter range, sorted_writes range, ?_⟩, fun k => ?_⟩
      · intro k member w written
        rw [only k member]
        refine bot_lt_iff_ne_bot.mpr fun bottom => unwritten ?_
        simpa [bottom, ← AList.mem_keys] using (mem_filter.mp written).1
      · simp only [mem_append, mem_filter, mem_mergeSort, ← AList.mem_keys, live_iff]
        constructor
        · rintro (⟨inParent, inRange⟩ | ⟨inWrites, inRange⟩)
          · exact ⟨.inr ⟨inParent, served k inParent inRange ▸ hidden⟩, inRange⟩
          · exact ⟨.inl inWrites, inRange⟩
        · rintro ⟨inWrites | ⟨inParent, -⟩, inRange⟩
          · exact .inr ⟨inWrites, inRange⟩
          · exact .inl ⟨inParent, inRange⟩

/-- The seeks that show the parent's map under the transaction. -/
theorem iterates_overlay_iff (tx : CDBTransaction K V) (parent : Parent K V) :
    (Merges tx parent (seekToFirst tx parent {}) (fun _ => true) ↔ Served tx parent fun _ => true) ∧
    ∀ ssKey, Merges tx parent (seek tx parent {} ssKey) (ssKey ≤ ·) ↔ Served tx parent (ssKey ≤ ·) :=
  ⟨merges_place, fun _ => merges_place⟩

end

def oneKey : Parent Nat Nat where
  read k := if k = 1 then some 7 else none
  keys := [1]
  sorted := pairwise_singleton _ _
  mem_keys k := by by_cases same : k = 1 <;> simp [same]

theorem not_iterates_overlay : ¬ Merges {} oneKey (CDBTransactionIterator.seekToFirst {} oneKey {}) fun _ => true := by
  rw [CDBTransactionIterator.seekToFirst, merges_place]
  simp [Served, hides, oneKey]

end Cspn.DbIterator
