import Mathlib

/-!
A bounded cache that drops the entries used least recently once it has grown to twice its size. Which ones it drops
never matters to a reader: a cache of a function holds values of that function only, as long as a key is erased or
inserted again when its value changes.
-/
namespace Cspn.Lru
open List

/-- Values with the time of their last use. -/
structure LruCache (K V : Type) (maxSize : Nat) where
  cacheMap : AList fun _ : K => V × Nat
  accessCounter : Nat
deriving DecidableEq

variable {K V : Type} [DecidableEq K] {maxSize : Nat}

namespace LruCache

def empty : LruCache K V maxSize := ⟨∅, 0⟩

/-- The value under a key, without counting as a use. -/
def lookup (cache : LruCache K V maxSize) (key : K) : Option V := (cache.cacheMap.lookup key).map Prod.fst

omit [DecidableEq K] in
theorem nodupKeys_take_sort (entries : List (Sigma fun _ : K => V × Nat)) (distinct : entries.NodupKeys) (n : Nat) :
    ((entries.mergeSort fun a b => decide (b.2.2 ≤ a.2.2)).take n).NodupKeys := by
  have sorted := (perm_nodupKeys (mergeSort_perm entries fun a b => decide (b.2.2 ≤ a.2.2))).mpr distinct
  exact NodupKeys.sublist (take_sublist n _) sorted

section
variable (cache : LruCache K V maxSize)

def truncateIfNeeded : LruCache K V maxSize :=
  if cache.cacheMap.entries.length ≤ maxSize * 2 then cache
  else
    { cache with
      cacheMap :=
        ⟨(cache.cacheMap.entries.mergeSort fun a b => decide (b.2.2 ≤ a.2.2)).take maxSize,
          nodupKeys_take_sort _ cache.cacheMap.nodupKeys _⟩ }

def insert (key : K) (v : V) : LruCache K V maxSize :=
  let kept := cache.truncateIfNeeded
  ⟨kept.cacheMap.insert key (v, kept.accessCounter), kept.accessCounter + 1⟩

def get (key : K) : LruCache K V maxSize × Option V :=
  match cache.cacheMap.lookup key with
  | some (v, _) => (⟨cache.cacheMap.insert key (v, cache.accessCounter), cache.accessCounter + 1⟩, some v)
  | none => (cache, none)

def erase (key : K) : LruCache K V maxSize :=
  { cache with cacheMap := cache.cacheMap.erase key }

end

variable {cache : LruCache K V maxSize}

theorem lookup_insert_self (cache : LruCache K V maxSize) (key : K) (v : V) :
    (cache.insert key v).lookup key = some v := by
  simp [insert, lookup]

theorem lookup_insert_of_ne {key other : K} {v w : V} (apart : other ≠ key)
    (found : (cache.insert key v).lookup other = some w) : cache.lookup other = some w := by
  have found : cache.truncateIfNeeded.lookup other = some w := by
    simpa [insert, lookup, AList.lookup_insert_ne apart] using found
  unfold truncateIfNeeded at found
  split at found
  · exact found
  next =>
    obtain ⟨⟨w, time⟩, kept, rfl⟩ := Option.map_eq_some_iff.mp found
    have inside := mem_of_mem_take (AList.mem_lookup_iff.mp kept)
    rw [mem_mergeSort] at inside
    rw [lookup, AList.mem_lookup_iff.mpr inside, Option.map_some]

@[simp] theorem lookup_erase_self (cache : LruCache K V maxSize) (key : K) : (cache.erase key).lookup key = none := by
  simp [erase, lookup]

@[simp] theorem lookup_erase_of_ne (cache : LruCache K V maxSize) {key other : K} (apart : other ≠ key) :
    (cache.erase key).lookup other = cache.lookup other := by
  simp [erase, lookup, AList.lookup_erase_ne apart]

theorem of_lookup_erase {key other : K} {w : V}
    (found : (cache.erase key).lookup other = some w) : other ≠ key ∧ cache.lookup other = some w := by
  by_cases same : other = key
  · subst same
    simp at found
  · rw [lookup_erase_of_ne _ same] at found
    exact ⟨same, found⟩

theorem get_value (cache : LruCache K V maxSize) (key : K) : (cache.get key).2 = cache.lookup key := by
  cases found : cache.cacheMap.lookup key with
  | none => simp [get, lookup, found]
  | some entry => simp [get, lookup, found]

theorem lookup_get (cache : LruCache K V maxSize) (key other : K) :
    (cache.get key).1.lookup other = cache.lookup other := by
  cases found : cache.cacheMap.lookup key with
  | none => simp [get, found]
  | some entry =>
    by_cases same : other = key
    · subst same
      simp [get, lookup, found]
    · simp [get, lookup, found, AList.lookup_insert_ne same]

def Caches (cache : LruCache K V maxSize) (f : K → V) : Prop := ∀ key v, cache.lookup key = some v → v = f key

theorem caches_empty (f : K → V) : (empty : LruCache K V maxSize).Caches f := by
  intro key v found
  simp [empty, lookup] at found

namespace Caches
variable {cache : LruCache K V maxSize} {f g : K → V}

section
variable (caches : cache.Caches f)
include caches

theorem get (key : K) : (cache.get key).1.Caches f := by
  intro other v found
  rw [lookup_get] at found
  exact caches _ _ found

theorem insert_update (key : K) (v : V) : (cache.insert key v).Caches (Function.update f key v) := by
  intro other w found
  by_cases same : other = key
  · subst same
    rw [lookup_insert_self] at found
    rw [Function.update_self]
    exact (Option.some.inj found).symm
  · rw [Function.update_of_ne same]
    exact caches _ _ (lookup_insert_of_ne same found)

theorem insertAll (keys : List K) (v : V) :
    (keys.foldl (fun cache key => cache.insert key v) cache).Caches fun key => if key ∈ keys then v else f key := by
  induction keys generalizing cache f with
  | nil => simpa [Caches] using caches
  | cons key rest ih =>
    intro other w found
    have value := ih (caches.insert_update key v) other w found
    by_cases later : other ∈ rest
    · simpa [later] using value
    · by_cases same : other = key
      · simpa [later, same] using value
      · simpa [later, same] using value

theorem eraseAll (keys : List K) (apart : ∀ key, key ∉ keys → g key = f key) :
    (keys.foldl LruCache.erase cache).Caches g := by
  -- What is left after the loop was there before it, under another key.
  have left : ∀ {cache : LruCache K V maxSize} {other w}, (keys.foldl LruCache.erase cache).lookup other = some w →
      other ∉ keys ∧ cache.lookup other = some w := by
    clear apart
    induction keys with
    | nil => intro cache other w found; exact ⟨by simp, found⟩
    | cons key rest ih =>
      intro cache other w found
      obtain ⟨later, found⟩ := ih found
      obtain ⟨same, found⟩ := of_lookup_erase found
      exact ⟨by simp [same, later], found⟩
  intro other w found
  obtain ⟨outside, found⟩ := left found
  rw [apart other outside]
  exact caches _ _ found

theorem lookup_eq (key : K) : cache.lookup key = none ∨ cache.lookup key = some (f key) := by
  cases found : cache.lookup key with
  | none => exact .inl rfl
  | some v => exact .inr (by rw [caches _ _ found])

end

end Caches

end LruCache

end Cspn.Lru
