import Cspn.Folds
import Cspn.Lru
import Cspn.Primitives

/-!
The caches of the recovered signatures. A lookup that misses its cache asks the database without a lock and caches the
answer afterwards; a write changes the database before the caches. Either way an old answer may be cached for good.
Apart from such answers the caches agree with the database when no call is running.
-/
namespace Cspn.RecoveredSigs
open Primitives Lru List Option Function LruCache

structure CRecoveredSig where
  llmqType : Nat
  quorumHash : Uint256
  id : Uint256
  msgHash : Uint256
  sig : CBLSSignature
deriving DecidableEq

structure Hashing where
  getHash : CRecoveredSig → Uint256
  buildSignHash : CRecoveredSig → Uint256

/-- What is asked for: a signature for a request, for a session or by its hash. -/
inductive Key where
  | forId (llmqType : Nat) (id : Uint256)
  | forSession (signHash : Uint256)
  | forHash (hash : Uint256)
deriving DecidableEq

/-- A call between two steps: a lookup that missed its cache, one that has its answer, and a write whose batch is
written. -/
inductive Call where
  | looking (key : Key)
  | answered (key : Key) (ret : Bool)
  | wrote (recSig : CRecoveredSig)

/-- The records under `rs_r`, `rs_s` and `rs_h`, the caches and the running calls. The last field notes whether the
answer cached last for a key agreed with the database. -/
structure State where
  recSigs : Nat × Uint256 → Option CRecoveredSig
  sessions : Uint256 → Bool
  hashes : Uint256 → Bool
  hasSigForIdCache : LruCache (Nat × Uint256) Bool 30000
  hasSigForSessionCache : LruCache Uint256 Bool 30000
  hasSigForHashCache : LruCache Uint256 Bool 30000
  calls : List Call
  agreed : Key → Bool

def init : State := ⟨fun _ => none, fun _ => false, fun _ => false, .empty, .empty, .empty, [], fun _ => false⟩

namespace State

def existsInDb (s : State) : Key → Bool
  | .forId llmqType id => (s.recSigs (llmqType, id)).isSome
  | .forSession signHash => s.sessions signHash
  | .forHash hash => s.hashes hash

def cached (s : State) : Key → Option Bool
  | .forId llmqType id => s.hasSigForIdCache.lookup (llmqType, id)
  | .forSession signHash => s.hasSigForSessionCache.lookup signHash
  | .forHash hash => s.hasSigForHashCache.lookup hash

def get (s : State) : Key → State
  | .forId llmqType id => { s with hasSigForIdCache := (s.hasSigForIdCache.get (llmqType, id)).1 }
  | .forSession signHash => { s with hasSigForSessionCache := (s.hasSigForSessionCache.get signHash).1 }
  | .forHash hash => { s with hasSigForHashCache := (s.hasSigForHashCache.get hash).1 }

def insert (s : State) (key : Key) (ret : Bool) : State :=
  let s := { s with agreed := update s.agreed key (ret == s.existsInDb key) }
  match key with
  | .forId llmqType id => { s with hasSigForIdCache := s.hasSigForIdCache.insert (llmqType, id) ret }
  | .forSession signHash => { s with hasSigForSessionCache := s.hasSigForSessionCache.insert signHash ret }
  | .forHash hash => { s with hasSigForHashCache := s.hasSigForHashCache.insert hash ret }

def erase (s : State) : Key → State
  | .forId llmqType id => { s with hasSigForIdCache := s.hasSigForIdCache.erase (llmqType, id) }
  | .forSession signHash => { s with hasSigForSessionCache := s.hasSigForSessionCache.erase signHash }
  | .forHash hash => { s with hasSigForHashCache := s.hasSigForHashCache.erase hash }

end State

open State

section
variable (hashing : Hashing) (s : State) (recSig : CRecoveredSig)

/-- The keys of a signature, in the order in which they are cached and erased. -/
def keysOf : List Key :=
  [.forId recSig.llmqType recSig.id, .forSession (hashing.buildSignHash recSig), .forHash (hashing.getHash recSig)]

def writeBatch : State :=
  { s with
    recSigs := update s.recSigs (recSig.llmqType, recSig.id) (some recSig)
    sessions := update s.sessions (hashing.buildSignHash recSig) true
    hashes := update s.hashes (hashing.getHash recSig) true }

def eraseBatch : State :=
  { s with
    recSigs := update s.recSigs (recSig.llmqType, recSig.id) none
    sessions := update s.sessions (hashing.buildSignHash recSig) false
    hashes := update s.hashes (hashing.getHash recSig) false }

/-- The critical section in which a lookup begins, the batch of a write, and a removal, which holds the lock
throughout. `next` is the next step of a running call. -/
inductive Event where
  | lookup (key : Key)
  | write (recSig : CRecoveredSig)
  | remove (llmqType : Nat) (id : Uint256)
  | next (i : Nat)

def removeRecoveredSig (llmqType : Nat) (id : Uint256) : State :=
  match s.recSigs (llmqType, id) with
  | none => s
  | some recSig => eraseBatch hashing ((keysOf hashing recSig).foldl erase s) recSig

def advance (i : Nat) : Call → State
  | .looking key => { s with calls := s.calls.set i (.answered key (s.existsInDb key)) }
  | .answered key ret => { s.insert key ret with calls := s.calls.eraseIdx i }
  | .wrote recSig =>
    { (keysOf hashing recSig).foldl (fun s key => s.insert key true) s with calls := s.calls.eraseIdx i }

/-- One step; `none` for a call that is not running. -/
def step : Event → Option State
  | .lookup key =>
    if (s.cached key).isSome then some (s.get key) else some { s with calls := s.calls ++ [.looking key] }
  | .write recSig => some { writeBatch hashing s recSig with calls := s.calls ++ [.wrote recSig] }
  | .remove llmqType id => some (removeRecoveredSig hashing s llmqType id)
  | .next i => s.calls[i]?.map (advance hashing s i)

def run (events : List Event) : Option State := events.foldlM (step hashing) init

end

def Coherent (s : State) : Prop := ∀ key ret, s.cached key = some ret → ret = s.existsInDb key

/-! ### The caches -/

namespace State
variable {s : State}

@[simp] theorem cached_get (s : State) (key other : Key) : (s.get key).cached other = s.cached other := by
  cases key <;> cases other <;> simp [get, cached, lookup_get]

@[simp] theorem existsInDb_get (s : State) (key other : Key) : (s.get key).existsInDb other = s.existsInDb other := by
  cases key <;> cases other <;> rfl

@[simp] theorem existsInDb_insert (s : State) (key : Key) (ret : Bool) (other : Key) :
    (s.insert key ret).existsInDb other = s.existsInDb other := by
  cases key <;> cases other <;> rfl

@[simp] theorem existsInDb_erase (s : State) (key other : Key) :
    (s.erase key).existsInDb other = s.existsInDb other := by
  cases key <;> cases other <;> rfl

theorem cached_insert_self (s : State) (key : Key) (ret : Bool) : (s.insert key ret).cached key = some ret := by
  cases key <;> simp [insert, cached, lookup_insert_self]

theorem cached_insert_of_ne {key other : Key} {ret found : Bool} (apart : other ≠ key)
    (isCached : (s.insert key ret).cached other = some found) : s.cached other = some found := by
  cases key <;> cases other <;> try exact isCached
  · exact lookup_insert_of_ne (by simpa using apart) isCached
  · exact lookup_insert_of_ne (by simpa using apart) isCached
  · exact lookup_insert_of_ne (by simpa using apart) isCached

theorem agreed_insert (s : State) (key : Key) (ret : Bool) :
    (s.insert key ret).agreed = update s.agreed key (ret == s.existsInDb key) := by
  cases key <;> rfl

theorem cached_erase {key other : Key} {found : Bool} (isCached : (s.erase key).cached other = some found) :
    other ≠ key ∧ s.cached other = some found := by
  cases key <;> cases other <;> try exact ⟨by simp, isCached⟩
  all_goals exact (of_lookup_erase isCached).imp_left fun apart => by simpa using apart

@[simp] theorem agreed_get (s : State) (key : Key) : (s.get key).agreed = s.agreed := by cases key <;> rfl

@[simp] theorem agreed_erase (s : State) (key : Key) : (s.erase key).agreed = s.agreed := by cases key <;> rfl

@[simp] theorem calls_get (s : State) (key : Key) : (s.get key).calls = s.calls := by cases key <;> rfl

@[simp] theorem calls_erase (s : State) (key : Key) : (s.erase key).calls = s.calls := by cases key <;> rfl

theorem eraseAll_spec (keys : List Key) (s : State) :
    (keys.foldl erase s).calls = s.calls ∧ (keys.foldl erase s).agreed = s.agreed ∧
      (∀ key, (keys.foldl erase s).existsInDb key = s.existsInDb key) ∧
      ∀ key found, (keys.foldl erase s).cached key = some found → key ∉ keys ∧ s.cached key = some found := by
  induction keys generalizing s with
  | nil => exact ⟨rfl, rfl, fun _ => rfl, fun key found isCached => ⟨not_mem_nil, isCached⟩⟩
  | cons first rest ih =>
    obtain ⟨calls, agreed, same, left⟩ := ih (s.erase first)
    refine ⟨by simpa using calls, by simpa using agreed, fun key => by simpa using same key, fun key found isCached => ?_⟩
    obtain ⟨later, before⟩ := left key found isCached
    obtain ⟨apart, original⟩ := cached_erase before
    exact ⟨by simp [apart, later], original⟩

theorem insertAll_spec (keys : List Key) (ret : Bool) (s : State) :
    (∀ key, (keys.foldl (fun s key => s.insert key ret) s).existsInDb key = s.existsInDb key) ∧
      (∀ key ∈ keys, (keys.foldl (fun s key => s.insert key ret) s).agreed key = (ret == s.existsInDb key)) ∧
      (∀ key, key ∉ keys → (keys.foldl (fun s key => s.insert key ret) s).agreed key = s.agreed key) ∧
      ∀ key found, (keys.foldl (fun s key => s.insert key ret) s).cached key = some found →
        if key ∈ keys then found = ret else s.cached key = some found := by
  induction keys generalizing s with
  | nil => simp
  | cons first rest ih =>
    obtain ⟨same, inside, outside, found⟩ := ih (s.insert first ret)
    simp only [existsInDb_insert] at same inside
    rw [foldl_cons]
    refine ⟨same, fun key member => ?_, fun key notMember => ?_, fun key value isCached => ?_⟩
    · by_cases later : key ∈ rest
      · exact inside key later
      · obtain rfl := (mem_cons.mp member).resolve_right later
        rw [outside key later, agreed_insert, update_self]
    · obtain ⟨apart, later⟩ := not_or.mp (fun either => notMember (mem_cons.mpr either))
      rw [outside key later, agreed_insert, update_of_ne apart]
    · have after := found key value isCached
      by_cases later : key ∈ rest
      · simpa [later] using after
      · rw [if_neg later] at after
        by_cases own : key = first
        · subst own
          rw [cached_insert_self] at after
          simpa using (some.inj after).symm
        · simpa [own, later] using cached_insert_of_ne own after

end State

section
variable (hashing : Hashing) {s : State}

theorem existsInDb_writeBatch (s : State) (recSig : CRecoveredSig) (key : Key) :
    (writeBatch hashing s recSig).existsInDb key =
      if key ∈ keysOf hashing recSig then true else s.existsInDb key := by
  cases key with
  | forId llmqType id =>
    by_cases same : (llmqType, id) = (recSig.llmqType, recSig.id)
    · have both := Prod.mk.inj same
      simp [existsInDb, writeBatch, keysOf, both.1, both.2]
    · have apart : ¬ (llmqType = recSig.llmqType ∧ id = recSig.id) := by simpa using same
      simp [existsInDb, writeBatch, keysOf, apart]
  | forSession signHash => simp [existsInDb, writeBatch, keysOf, update_apply]
  | forHash hash => simp [existsInDb, writeBatch, keysOf, update_apply]

theorem existsInDb_eraseBatch (s : State) (recSig : CRecoveredSig) {key : Key} (apart : key ∉ keysOf hashing recSig) :
    (eraseBatch hashing s recSig).existsInDb key = s.existsInDb key := by
  cases key with
  | forId llmqType id =>
    have differs : (llmqType, id) ≠ (recSig.llmqType, recSig.id) := by simpa [keysOf] using apart
    simp [existsInDb, eraseBatch, update_of_ne differs]
  | forSession signHash =>
    have differs : signHash ≠ hashing.buildSignHash recSig := by simpa [keysOf] using apart
    simp [existsInDb, eraseBatch, update_of_ne differs]
  | forHash hash =>
    have differs : hash ≠ hashing.getHash recSig := by simpa [keysOf] using apart
    simp [existsInDb, eraseBatch, update_of_ne differs]

/-! ### What holds in every run -/

def Pending (s : State) (key : Key) : Prop := ∃ recSig, .wrote recSig ∈ s.calls ∧ key ∈ keysOf hashing recSig

/-- An entry is right exactly if it was when it was cached, unless a write is about to cache it again. -/
def Inv (s : State) : Prop :=
  ∀ key ret, s.cached key = some ret → (ret = s.existsInDb key ↔ s.agreed key = true) ∨ Pending hashing s key

theorem mem_calls_of_ne {calls : List Call} {i : Nat} {call other : Call} (isCall : calls[i]? = some call)
    (member : other ∈ calls) (apart : other ≠ call) :
    other ∈ calls.eraseIdx i ∧ ∀ later, other ∈ calls.set i later := by
  obtain ⟨j, found⟩ := mem_iff_getElem?.mp member
  have differs : j ≠ i := by
    rintro rfl
    rw [isCall, some.injEq] at found
    exact apart found.symm
  refine ⟨mem_eraseIdx_iff_getElem?.mpr ⟨j, differs, found⟩, fun later => mem_iff_getElem?.mpr ⟨j, ?_⟩⟩
  rw [getElem?_set_ne differs.symm]
  exact found

theorem inv_init : Inv hashing init := by
  intro key ret isCached
  cases key <;> simp [init, cached, empty, LruCache.lookup] at isCached

variable {hashing}

theorem Inv.kept (inv : Inv hashing s) {after : State} {key : Key} {ret : Bool} (isCached : s.cached key = some ret)
    (same : after.existsInDb key = s.existsInDb key) (agreed : after.agreed key = s.agreed key)
    (writers : ∀ recSig, key ∈ keysOf hashing recSig → .wrote recSig ∈ s.calls → .wrote recSig ∈ after.calls) :
    (ret = after.existsInDb key ↔ after.agreed key = true) ∨ Pending hashing after key := by
  rw [same, agreed]
  refine (inv key ret isCached).imp_right ?_
  rintro ⟨recSig, member, isKey⟩
  exact ⟨recSig, writers recSig isKey member, isKey⟩

theorem inv_step {event : Event} {after : State} (inv : Inv hashing s) (stepped : step hashing s event = some after) :
    Inv hashing after := by
  cases event with
  | lookup key =>
    rw [step] at stepped
    split_ifs at stepped with hit
    · cases stepped
      intro other ret isCached
      exact inv.kept (by simpa using isCached) (by simp) (by simp) (by simp)
    · cases stepped
      intro other ret isCached
      exact inv.kept isCached rfl rfl fun _ _ => mem_append_left _
  | write recSig =>
    cases stepped
    intro other ret isCached
    by_cases own : other ∈ keysOf hashing recSig
    · exact .inr ⟨recSig, mem_append_right _ (.head _), own⟩
    · have same := existsInDb_writeBatch hashing s recSig other
      rw [if_neg own] at same
      exact inv.kept (by cases other <;> exact isCached) (by cases other <;> exact same) rfl fun _ _ => mem_append_left _
  | remove llmqType id =>
    cases stepped
    rw [removeRecoveredSig]
    cases found : s.recSigs (llmqType, id) with
    | none => exact inv
    | some recSig =>
      obtain ⟨calls, agreed, same, left⟩ := eraseAll_spec (keysOf hashing recSig) s
      intro other ret isCached
      obtain ⟨apart, original⟩ := left other ret (by cases other <;> exact isCached)
      exact inv.kept original ((existsInDb_eraseBatch hashing _ recSig apart).trans (same other)) (congrFun agreed other)
        fun _ _ member => calls ▸ member
  | next i =>
    obtain ⟨call, isCall, rfl⟩ := map_eq_some_iff.mp stepped
    cases call with
    | looking key =>
      intro other ret isCached
      exact inv.kept (by cases other <;> exact isCached) (by cases other <;> rfl) rfl fun _ _ member =>
        (mem_calls_of_ne isCall member (by simp)).2 _
    | answered key answer =>
      intro other ret isCached
      have same : (advance hashing s i (.answered key answer)).existsInDb other = s.existsInDb other :=
        (by cases other <;> rfl : _ = (s.insert key answer).existsInDb other).trans (s.existsInDb_insert key answer other)
      have agreed : (advance hashing s i (.answered key answer)).agreed =
          update s.agreed key (answer == s.existsInDb key) := s.agreed_insert key answer
      have cached : (s.insert key answer).cached other = some ret := by cases other <;> exact isCached
      by_cases own : other = key
      · subst own
        rw [cached_insert_self, some.injEq] at cached
        subst cached
        simp [same, agreed]
      · exact inv.kept (cached_insert_of_ne own cached) same (by rw [agreed, update_of_ne own]) fun _ _ member =>
          (mem_calls_of_ne isCall member (by simp)).1
    | wrote recSig =>
      obtain ⟨same, inside, outside, left⟩ := insertAll_spec (keysOf hashing recSig) true s
      intro other ret isCached
      have exists' : (advance hashing s i (.wrote recSig)).existsInDb other = s.existsInDb other :=
        (by cases other <;> rfl :
          _ = ((keysOf hashing recSig).foldl (fun s key => s.insert key true) s).existsInDb other).trans (same other)
      have found := left other ret (by cases other <;> exact isCached)
      by_cases own : other ∈ keysOf hashing recSig
      · rw [if_pos own] at found
        have agreed : (advance hashing s i (.wrote recSig)).agreed other = (true == s.existsInDb other) := inside other own
        rw [exists', agreed, found]
        exact .inl (by simp)
      · rw [if_neg own] at found
        exact inv.kept found exists' (outside other own) fun writer isKey member =>
          (mem_calls_of_ne isCall member fun equal => own (Call.wrote.inj equal ▸ isKey)).1

variable (hashing)

theorem inv_run {events : List Event} (ran : run hashing events = some s) : Inv hashing s :=
  Folds.foldlM_some (fun _ _ _ _ inv stepped => inv_step inv stepped) (inv_init hashing) ran

/-- Once no call is running, the caches agree with the database exactly if every entry agreed with it when it
was cached. -/
theorem coherent_iff_agreed {events : List Event} (ran : run hashing events = some s) (quiet : s.calls = []) :
    Coherent s ↔ ∀ key, (s.cached key).isSome → s.agreed key = true := by
  have right : ∀ key ret, s.cached key = some ret → (ret = s.existsInDb key ↔ s.agreed key = true) := by
    intro key ret isCached
    refine (inv_run hashing ran key ret isCached).resolve_right ?_
    rintro ⟨recSig, member, -⟩
    rw [quiet] at member
    cases member
  constructor
  · intro coherent key some
    obtain ⟨ret, isCached⟩ := isSome_iff_exists.mp some
    exact (right key ret isCached).mp (coherent key ret isCached)
  · intro agreed key ret isCached
    exact (right key ret isCached).mpr (agreed key (by rw [isCached]; rfl))

end

def sampleHashing : Hashing := ⟨fun recSig => recSig.msgHash + 1, fun recSig => recSig.msgHash + 2⟩

def sampleRecSig : CRecoveredSig := ⟨1, 10, 7, 5, none⟩

def written : List Event := [.write sampleRecSig, .next 0, .lookup (.forId 1 7)]

theorem written_coherent : ∃ s, run sampleHashing written = some s ∧ Coherent s := by
  refine ⟨_, rfl, (@coherent_iff_agreed sampleHashing _ written rfl rfl).mpr fun key some => ?_⟩
  obtain ⟨ret, isCached⟩ := isSome_iff_exists.mp some
  by_cases own : key ∈ keysOf sampleHashing sampleRecSig
  · simp only [keysOf, mem_cons, not_mem_nil, or_false] at own
    rcases own with rfl | rfl | rfl <;> decide
  · rw [cached_get] at isCached
    have before := (insertAll_spec (keysOf sampleHashing sampleRecSig) true
      { writeBatch sampleHashing init sampleRecSig with calls := [.wrote sampleRecSig] }).2.2.2 key ret
        (by cases key <;> exact isCached)
    rw [if_neg own] at before
    cases key <;> simp [writeBatch, init, cached, empty, LruCache.lookup] at before

/-- A lookup has asked the database, a signature is written, and the lookup caches its old answer. -/
def overtaken : List Event := [.lookup (.forId 1 7), .next 0, .write sampleRecSig, .next 1, .next 0]

theorem overtaken_incoherent : ∃ s, run sampleHashing overtaken = some s ∧ s.calls = [] ∧ ¬ Coherent s := by
  refine ⟨_, rfl, rfl, fun coherent => ?_⟩
  have wrong := coherent (.forId 1 7) false (by decide)
  revert wrong
  decide

end Cspn.RecoveredSigs
