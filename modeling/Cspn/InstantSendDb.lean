import Cspn.Lru
import Cspn.Worklist
import Cspn.Primitives

/-!
The database of InstantSend locks. A lock is stored under its hash, with entries from its transaction and inputs to
the hash, and three caches in front of the tables. The entries name stored locks that have the transaction or the
input. A stored lock is named by its entries as long as no other lock is written that shares one of them.
-/
namespace Cspn.InstantSendDb
open Primitives Lru List Function LruCache

/-! ### The tables -/

structure CInstantSendLock where
  inputs : List COutPoint
  txid : Uint256
  sig : List UInt8
deriving DecidableEq

/-- What LevelDB holds, table by table: `is_i`, `is_tx`, `is_in`, `is_m`, `is_a1` and `is_a2`. -/
structure Tables where
  locks : AList fun _ : Uint256 => CInstantSendLock
  byTxid : AList fun _ : Uint256 => Uint256
  byInput : AList fun _ : COutPoint => Uint256
  mined : List (Nat × Uint256)
  archived : List (Nat × Uint256)
  archivedHashes : List Uint256
deriving DecidableEq

/-- The changes that a `CDBBatch` collects. Archiving a lock writes two keys, and so does erasing it from there. -/
inductive Change where
  | eraseLock (hash : Uint256)
  | eraseTxid (txid : Uint256)
  | eraseInput (outpoint : COutPoint)
  | eraseMined (nHeight : Nat) (hash : Uint256)
  | writeArchived (nHeight : Nat) (hash : Uint256)
  | eraseArchived (nHeight : Nat) (hash : Uint256)
deriving DecidableEq

abbrev CDBBatch := List Change

namespace Tables

def empty : Tables := ⟨∅, ∅, ∅, [], [], []⟩

def apply (tables : Tables) : Change → Tables
  | .eraseLock hash => { tables with locks := tables.locks.erase hash }
  | .eraseTxid txid => { tables with byTxid := tables.byTxid.erase txid }
  | .eraseInput outpoint => { tables with byInput := tables.byInput.erase outpoint }
  | .eraseMined nHeight hash => { tables with mined := tables.mined.filter (· ≠ (nHeight, hash)) }
  | .writeArchived nHeight hash =>
    { tables with
      archived := tables.archived.insert (nHeight, hash)
      archivedHashes := tables.archivedHashes.insert hash }
  | .eraseArchived nHeight hash =>
    { tables with
      archived := tables.archived.filter (· ≠ (nHeight, hash))
      archivedHashes := tables.archivedHashes.filter (· ≠ hash) }

def writeBatch (tables : Tables) (batch : CDBBatch) : Tables := batch.foldl apply tables

def writeLock (tables : Tables) (hash : Uint256) (islock : CInstantSendLock) : Tables :=
  { tables with
    locks := tables.locks.insert hash islock
    byTxid := tables.byTxid.insert islock.txid hash
    byInput := islock.inputs.foldl (fun byInput input => byInput.insert input hash) tables.byInput }

/-- `GetInstantSendLocksByParent`, in some order where the iterator meets them in that of their keys. -/
def locksByParent (tables : Tables) (parent : Uint256) : List Uint256 :=
  (tables.byInput.entries.filter fun entry => entry.1.hash = parent).map Sigma.snd

end Tables

/-- The tables with the caches before them. No lock, or a null hash, is cached for a key not found. -/
structure CInstantSendDb where
  db : Tables
  islockCache : LruCache Uint256 (Option CInstantSendLock) 10000
  txidCache : LruCache Uint256 Uint256 10000
  outpointCache : LruCache COutPoint Uint256 10000
deriving DecidableEq

namespace CInstantSendDb

def empty : CInstantSendDb := ⟨.empty, .empty, .empty, .empty⟩

variable (d : CInstantSendDb) (nHeight : Nat) (txid hash : Uint256) (islock : CInstantSendLock)

def writeNewInstantSendLock : CInstantSendDb where
  db := d.db.writeLock hash islock
  islockCache := d.islockCache.insert hash (some islock)
  txidCache := d.txidCache.insert islock.txid hash
  outpointCache := islock.inputs.foldl (fun cache input => cache.insert input hash) d.outpointCache

def getInstantSendLockByHash : CInstantSendDb × Option CInstantSendLock :=
  let got := d.islockCache.get hash
  match got.2 with
  | some ret => ({ d with islockCache := got.1 }, ret)
  | none =>
    let ret := d.db.locks.lookup hash
    ({ d with islockCache := got.1.insert hash ret }, ret)

def getInstantSendLockHashByTxid : CInstantSendDb × Uint256 :=
  let got := d.txidCache.get txid
  match got.2 with
  | some islockHash => ({ d with txidCache := got.1 }, islockHash)
  | none =>
    let islockHash := (d.db.byTxid.lookup txid).getD 0
    ({ d with txidCache := got.1.insert txid islockHash }, islockHash)

def getInstantSendLockByTxid : CInstantSendDb × Option CInstantSendLock :=
  let got := d.getInstantSendLockHashByTxid txid
  if got.2 = 0 then (got.1, none) else got.1.getInstantSendLockByHash got.2

def getInstantSendLockByInput (outpoint : COutPoint) : CInstantSendDb × Option CInstantSendLock :=
  let got := d.outpointCache.get outpoint
  match got.2 with
  | some islockHash =>
    let d := { d with outpointCache := got.1 }
    if islockHash = 0 then (d, none) else d.getInstantSendLockByHash islockHash
  | none =>
    let read := d.db.byInput.lookup outpoint
    let d := { d with outpointCache := got.1.insert outpoint (read.getD 0) }
    match read with
    | none => (d, none)
    | some islockHash => d.getInstantSendLockByHash islockHash

def erasures : CDBBatch :=
  .eraseLock hash :: .eraseTxid islock.txid :: islock.inputs.map .eraseInput

section
variable (d : CInstantSendDb)

def eraseCached (hash : Uint256) (islock : CInstantSendLock) : CInstantSendDb :=
  { d with
    islockCache := d.islockCache.erase hash
    txidCache := d.txidCache.erase islock.txid
    outpointCache := islock.inputs.foldl erase d.outpointCache }

/-- `RemoveInstantSendLock`: the keys go into the batch, and out of the caches at once. -/
def removeInstantSendLock (batch : CDBBatch) (hash : Uint256) (islock : Option CInstantSendLock) :
    CInstantSendDb × CDBBatch :=
  match islock with
  | some islock => (d.eraseCached hash islock, batch ++ erasures hash islock)
  | none =>
    let got := d.getInstantSendLockByHash hash
    match got.2 with
    | none => (got.1, batch)
    | some islock => (got.1.eraseCached hash islock, batch ++ erasures hash islock)

def writeBatch (batch : CDBBatch) : CInstantSendDb := { d with db := d.db.writeBatch batch }

def writeInstantSendLockMined (hash : Uint256) (nHeight : Nat) : CInstantSendDb :=
  { d with db := { d.db with mined := d.db.mined.insert (nHeight, hash) } }

def removeInstantSendLockMined (hash : Uint256) (nHeight : Nat) : CInstantSendDb :=
  { d with db := d.db.apply (.eraseMined nHeight hash) }

def hasArchivedInstantSendLock (islockHash : Uint256) : Bool :=
  decide (islockHash ∈ d.db.archivedHashes)

def getInstantSendLockCount : Nat := d.db.locks.entries.length

end

/-- A database in the middle of an operation, with the batch it is to write and the locks met so far. -/
structure Pending where
  d : CInstantSendDb
  batch : CDBBatch
  locks : List (Uint256 × CInstantSendLock)

def confirmOne (p : Pending) (curKey : Nat × Uint256) : Pending :=
  let got := p.d.getInstantSendLockByHash curKey.2
  match got.2 with
  | none => ⟨got.1, p.batch ++ [.writeArchived curKey.1 curKey.2, .eraseMined curKey.1 curKey.2], p.locks⟩
  | some islock =>
    let removed := got.1.removeInstantSendLock p.batch curKey.2 (some islock)
    ⟨removed.1, removed.2 ++ [.writeArchived curKey.1 curKey.2, .eraseMined curKey.1 curKey.2],
      p.locks.insert (curKey.2, islock)⟩

def removeConfirmedInstantSendLocks (nUntilHeight : Nat) : CInstantSendDb × List (Uint256 × CInstantSendLock) :=
  let p := (d.db.mined.filter fun curKey => decide (curKey.1 ≤ nUntilHeight)).foldl confirmOne ⟨d, [], []⟩
  (p.d.writeBatch p.batch, p.locks)

def removeArchivedInstantSendLocks (nUntilHeight : Nat) : CInstantSendDb :=
  d.writeBatch ((d.db.archived.filter fun curKey => decide (curKey.1 ≤ nUntilHeight)).map fun curKey =>
    .eraseArchived curKey.1 curKey.2)

def removeChild (p : Pending) (childIslockHash : Uint256) : Pending :=
  let got := p.d.getInstantSendLockByHash childIslockHash
  match got.2 with
  | none => { p with d := got.1 }
  | some childIsLock =>
    let removed := got.1.removeInstantSendLock p.batch childIslockHash (some childIsLock)
    ⟨removed.1, removed.2 ++ [.writeArchived nHeight childIslockHash], p.locks ++ [(childIslockHash, childIsLock)]⟩

def removeChildren (s : CInstantSendDb × CDBBatch) (txid : Uint256) :
    (CInstantSendDb × CDBBatch) × List (Uint256 × CInstantSendLock) :=
  let p := (s.1.db.locksByParent txid).foldl (removeChild nHeight) ⟨s.1, s.2, []⟩
  ((p.d, p.batch), p.locks)

/-- `RemoveChainedInstantSendLocks`, with the hashes it returns; `none` where the fuel for its stack is too little. -/
def removeChainedInstantSendLocks (islockHash txid : Uint256) (nHeight : Nat) :
    Option (CInstantSendDb × List Uint256) :=
  (Worklist.search (removeChildren nHeight) (fun child => child.2.txid) (d.getInstantSendLockCount + 1) (d, []) [txid]
    [] []).map fun found =>
      let removed := found.1.1.removeInstantSendLock found.1.2 islockHash none
      (removed.1.writeBatch (removed.2 ++ [.writeArchived nHeight islockHash]),
        found.2.map Prod.fst ++ [islockHash])

def conflictingLock (txid : Uint256) : CInstantSendDb → List COutPoint → CInstantSendDb × Option CInstantSendLock
  | d, [] => (d, none)
  | d, prevout :: rest =>
    let got := d.getInstantSendLockByInput prevout
    match got.2 with
    | none => conflictingLock txid got.1 rest
    | some otherIsLock => if otherIsLock.txid ≠ txid then (got.1, some otherIsLock) else conflictingLock txid got.1 rest

def getConflictingLock (tx : CTransaction) : CInstantSendDb × Option CInstantSendLock :=
  conflictingLock tx.hash d (tx.vin.map CTxIn.prevout)

/-- `ProcessInstantSendLock` for a lock that is not dropped, with the height of its transaction. That another lock has
    the transaction or an input is only logged. -/
def processInstantSendLock (pindexMined : Option Nat) : CInstantSendDb :=
  let got := d.getInstantSendLockByHash hash
  if got.2.isSome then got.1
  else
    let d := (got.1.getInstantSendLockByTxid islock.txid).1
    let d := islock.inputs.foldl (fun d input => (d.getInstantSendLockByInput input).1) d
    let d := d.writeNewInstantSendLock hash islock
    match pindexMined with
    | none => d
    | some nHeight => d.writeInstantSendLockMined hash nHeight

def syncMined (pindex : Option Nat) (isDisconnect : Bool) : CInstantSendDb :=
  let got := d.getInstantSendLockHashByTxid txid
  match pindex with
  | none => got.1
  | some nHeight =>
    if got.2 = 0 then got.1
    else if isDisconnect then got.1.removeInstantSendLockMined got.2 (nHeight + 1)
    else got.1.writeInstantSendLockMined got.2 nHeight

def confirmBlock : CInstantSendDb :=
  let d := (d.removeConfirmedInstantSendLocks nHeight).1
  if nHeight > 100 then d.removeArchivedInstantSendLocks (nHeight - 100) else d

/-- `RemoveChainLockConflictingLock`. The removal always ends, `removeChainedInstantSendLocks_spec`. -/
def removeChainLockConflictingLock (tipHeight : Nat) : CInstantSendDb :=
  ((d.removeChainedInstantSendLocks hash islock.txid tipHeight).map Prod.fst).getD d

end CInstantSendDb

/-! ### What a batch erases -/

variable {tables : Tables} {batch : CDBBatch} {hash : Uint256} {islock : CInstantSendLock}

section
variable {K V : Type} [DecidableEq K] (map : AList fun _ : K => V) (k other : K)
include map k other

theorem lookup_erase :
    (map.erase k).lookup other = if k = other then none else map.lookup other := by
  split
  next same => rw [same, AList.lookup_erase]
  next apart => exact AList.lookup_erase_ne (Ne.symm apart)

theorem lookup_insert (v : V) :
    (map.insert k v).lookup other = if other = k then some v else map.lookup other := by
  split
  next same => rw [same, AList.lookup_insert]
  next apart => exact AList.lookup_insert_ne apart

end

namespace Tables

section
variable (tables : Tables)

theorem lookup_writeBatch {V : Type} (look : Tables → Option V) {erases : Change}
    (touches : ∀ tables change, look (tables.apply change) = if change = erases then none else look tables)
    (batch : CDBBatch) : look (tables.writeBatch batch) = if erases ∈ batch then none else look tables := by
  induction batch generalizing tables with
  | nil => rfl
  | cons change rest ih =>
    refine (ih (tables.apply change)).trans ?_
    rw [touches]
    by_cases later : erases ∈ rest
    · simp [later]
    · by_cases first : change = erases
      · simp [first]
      · simp [first, Ne.symm first]

variable (batch : CDBBatch)

theorem locks_writeBatch (hash : Uint256) :
    (tables.writeBatch batch).locks.lookup hash = if .eraseLock hash ∈ batch then none else tables.locks.lookup hash :=
  lookup_writeBatch tables (·.locks.lookup hash) (fun _ change => by cases change <;> simp [apply, lookup_erase]) batch

theorem byTxid_writeBatch (txid : Uint256) :
    (tables.writeBatch batch).byTxid.lookup txid = if .eraseTxid txid ∈ batch then none else tables.byTxid.lookup txid :=
  lookup_writeBatch tables (·.byTxid.lookup txid) (fun _ change => by cases change <;> simp [apply, lookup_erase]) batch

theorem byInput_writeBatch (outpoint : COutPoint) : (tables.writeBatch batch).byInput.lookup outpoint =
      if .eraseInput outpoint ∈ batch then none else tables.byInput.lookup outpoint :=
  lookup_writeBatch tables (·.byInput.lookup outpoint) (fun _ change => by cases change <;> simp [apply, lookup_erase]) batch

theorem mem_mined_writeBatch (key : Nat × Uint256) :
    key ∈ (tables.writeBatch batch).mined ↔ key ∈ tables.mined ∧ .eraseMined key.1 key.2 ∉ batch := by
  induction batch generalizing tables with
  | nil => simp [writeBatch]
  | cons change rest ih =>
    refine (ih (tables.apply change)).trans ?_
    cases change with
    | eraseMined nHeight hash =>
      have same : key = (nHeight, hash) ↔ key.1 = nHeight ∧ key.2 = hash := Prod.ext_iff
      simp [apply, same]
      tauto
    | _ => simp [apply]

end

structure Whole (tables : Tables) (batch : CDBBatch) : Prop where
  lock : ∀ {hash}, .eraseLock hash ∈ batch → ∃ islock, tables.locks.lookup hash = some islock ∧
    .eraseTxid islock.txid ∈ batch ∧ ∀ input ∈ islock.inputs, .eraseInput input ∈ batch
  txid : ∀ {txid}, .eraseTxid txid ∈ batch → ∃ hash islock, .eraseLock hash ∈ batch ∧
    tables.locks.lookup hash = some islock ∧ islock.txid = txid
  input : ∀ {input}, .eraseInput input ∈ batch → ∃ hash islock, .eraseLock hash ∈ batch ∧
    tables.locks.lookup hash = some islock ∧ input ∈ islock.inputs

def Named (tables : Tables) : Prop :=
  ∀ hash islock, tables.locks.lookup hash = some islock →
    tables.byTxid.lookup islock.txid = some hash ∧ ∀ input ∈ islock.inputs, tables.byInput.lookup input = some hash

/-- The entries name stored locks that have the transaction or the input. -/
structure Refers (tables : Tables) : Prop where
  txid : ∀ txid hash, tables.byTxid.lookup txid = some hash →
    ∃ islock, tables.locks.lookup hash = some islock ∧ islock.txid = txid
  input : ∀ input hash, tables.byInput.lookup input = some hash →
    ∃ islock, tables.locks.lookup hash = some islock ∧ input ∈ islock.inputs

theorem Named.writeBatch (named : tables.Named) (whole : tables.Whole batch) : (tables.writeBatch batch).Named := by
  intro hash islock stored
  rw [locks_writeBatch] at stored
  split at stored
  · cases stored
  next kept =>
    obtain ⟨txid, inputs⟩ := named hash islock stored
    -- A lock that is erased with one of the keys is named by it, as this one is.
    constructor
    · rw [byTxid_writeBatch, if_neg, txid]
      intro erased
      obtain ⟨other, otherLock, erasedLock, otherStored, same⟩ := whole.txid erased
      have clash := (named other otherLock otherStored).1
      rw [same, txid] at clash
      exact kept (Option.some.inj clash ▸ erasedLock)
    · intro input member
      rw [byInput_writeBatch, if_neg, inputs input member]
      intro erased
      obtain ⟨other, otherLock, erasedLock, otherStored, member'⟩ := whole.input erased
      have clash := (named other otherLock otherStored).2 input member'
      rw [inputs input member] at clash
      exact kept (Option.some.inj clash ▸ erasedLock)

theorem Refers.writeBatch (refers : tables.Refers) (whole : tables.Whole batch) :
    (tables.writeBatch batch).Refers where
  txid := by
    intro txid hash entry
    rw [byTxid_writeBatch] at entry
    split at entry
    · cases entry
    next kept =>
      obtain ⟨islock, stored, same⟩ := refers.txid txid hash entry
      refine ⟨islock, ?_, same⟩
      rw [locks_writeBatch, if_neg, stored]
      intro erased
      obtain ⟨other, otherStored, erasedTxid, -⟩ := whole.lock erased
      rw [stored] at otherStored
      cases otherStored
      exact kept (same ▸ erasedTxid)
  input := by
    intro input hash entry
    rw [byInput_writeBatch] at entry
    split at entry
    · cases entry
    next kept =>
      obtain ⟨islock, stored, member⟩ := refers.input input hash entry
      refine ⟨islock, ?_, member⟩
      rw [locks_writeBatch, if_neg, stored]
      intro erased
      obtain ⟨other, otherStored, -, erasedInputs⟩ := whole.lock erased
      rw [stored] at otherStored
      cases otherStored
      exact kept (erasedInputs input member)

theorem byInput_writeLock (tables : Tables) (hash : Uint256) (islock : CInstantSendLock) (input : COutPoint) :
    (tables.writeLock hash islock).byInput.lookup input =
      if input ∈ islock.inputs then some hash else tables.byInput.lookup input := by
  simp only [writeLock]
  generalize tables.byInput = byInput
  induction islock.inputs generalizing byInput with
  | nil => simp
  | cons first rest ih =>
    rw [foldl_cons, ih]
    by_cases later : input ∈ rest
    · simp [later]
    · simp [later, lookup_insert]

theorem byTxid_writeLock (tables : Tables) (hash : Uint256) (islock : CInstantSendLock) (txid : Uint256) :
    (tables.writeLock hash islock).byTxid.lookup txid =
      if txid = islock.txid then some hash else tables.byTxid.lookup txid := by
  simp [writeLock, lookup_insert]

theorem locks_writeLock (tables : Tables) (hash : Uint256) (islock : CInstantSendLock) (other : Uint256) :
    (tables.writeLock hash islock).locks.lookup other =
      if other = hash then some islock else tables.locks.lookup other := by
  simp [writeLock, lookup_insert]

def Apart (tables : Tables) (islock : CInstantSendLock) : Prop :=
  ∀ hash other, tables.locks.lookup hash = some other →
    other.txid ≠ islock.txid ∧ ∀ input ∈ islock.inputs, input ∉ other.inputs

theorem Refers.writeLock (refers : tables.Refers) (islock : CInstantSendLock)
    (new : tables.locks.lookup hash = none) : (tables.writeLock hash islock).Refers where
  txid := by
    intro txid named entry
    rw [byTxid_writeLock] at entry
    split at entry
    next same =>
      cases entry
      exact ⟨islock, by simp [locks_writeLock], same.symm⟩
    next =>
      obtain ⟨other, stored, has⟩ := refers.txid txid named entry
      refine ⟨other, ?_, has⟩
      rw [locks_writeLock, if_neg, stored]
      rintro rfl
      rw [new] at stored
      cases stored
  input := by
    intro input named entry
    rw [byInput_writeLock] at entry
    split at entry
    next member =>
      cases entry
      exact ⟨islock, by simp [locks_writeLock], member⟩
    next =>
      obtain ⟨other, stored, has⟩ := refers.input input named entry
      refine ⟨other, ?_, has⟩
      rw [locks_writeLock, if_neg, stored]
      rintro rfl
      rw [new] at stored
      cases stored

theorem named_writeLock_iff (named : tables.Named)
    (new : tables.locks.lookup hash = none) : (tables.writeLock hash islock).Named ↔ tables.Apart islock := by
  constructor
  · intro after other otherLock stored
    have distinct : other ≠ hash := by
      rintro rfl
      rw [new] at stored
      cases stored
    obtain ⟨txid, inputs⟩ := after other otherLock (by rw [locks_writeLock, if_neg distinct, stored])
    constructor
    · intro same
      rw [byTxid_writeLock, if_pos same] at txid
      exact distinct (Option.some.inj txid).symm
    · intro input member shared
      have entry := inputs input shared
      rw [byInput_writeLock, if_pos member] at entry
      exact distinct (Option.some.inj entry).symm
  · intro apart other otherLock stored
    rw [locks_writeLock] at stored
    split at stored
    next same =>
      cases stored
      exact ⟨by simp [byTxid_writeLock, same], fun input member => by simp [byInput_writeLock, member, same]⟩
    next =>
      obtain ⟨txid, inputs⟩ := named other otherLock stored
      obtain ⟨otherTxid, otherInputs⟩ := apart other otherLock stored
      refine ⟨by rw [byTxid_writeLock, if_neg otherTxid, txid], fun input member => ?_⟩
      rw [byInput_writeLock, if_neg fun shared => otherInputs input shared member, inputs input member]

end Tables

/-! ### The caches -/

namespace CInstantSendDb

structure Coherent (d : CInstantSendDb) (tables : Tables) : Prop where
  islocks : d.islockCache.Caches fun hash => tables.locks.lookup hash
  txids : d.txidCache.Caches fun txid => (tables.byTxid.lookup txid).getD 0
  outpoints : d.outpointCache.Caches fun outpoint => (tables.byInput.lookup outpoint).getD 0

abbrev Cached (d : CInstantSendDb) : Prop := d.Coherent d.db

theorem coherent_empty (tables : Tables) : empty.Coherent tables :=
  ⟨caches_empty _, caches_empty _, caches_empty _⟩

theorem Coherent.of_eq {d d' : CInstantSendDb} {tables' : Tables} (coherent : d.Coherent tables)
    (islocks : d'.islockCache = d.islockCache) (txids : d'.txidCache = d.txidCache)
    (outpoints : d'.outpointCache = d.outpointCache)
    (locks : ∀ hash, tables'.locks.lookup hash = tables.locks.lookup hash)
    (byTxid : ∀ txid, tables'.byTxid.lookup txid = tables.byTxid.lookup txid)
    (byInput : ∀ outpoint, tables'.byInput.lookup outpoint = tables.byInput.lookup outpoint) :
    d'.Coherent tables' := by
  refine ⟨?_, ?_, ?_⟩
  · simpa [islocks, locks] using coherent.islocks
  · simpa [txids, byTxid] using coherent.txids
  · simpa [outpoints, byInput] using coherent.outpoints

/-- A lookup by hash finds what the table has, and caches it. -/
structure ReadLock (d : CInstantSendDb) (hash : Uint256) (after : CInstantSendDb) (islock : Option CInstantSendLock) :
    Prop where
  found : islock = d.db.locks.lookup hash
  db : after.db = d.db
  txids : after.txidCache = d.txidCache
  outpoints : after.outpointCache = d.outpointCache
  islocks : ∀ {f : Uint256 → Option CInstantSendLock}, d.islockCache.Caches f →
    after.islockCache.Caches (update f hash (d.db.locks.lookup hash))

section
variable {d : CInstantSendDb}

theorem getInstantSendLockByHash_read (coherent : d.Cached) (hash : Uint256) :
    ReadLock d hash (d.getInstantSendLockByHash hash).1 (d.getInstantSendLockByHash hash).2 := by
  have value := d.islockCache.get_value hash
  rcases coherent.islocks.lookup_eq hash with missing | cached
  · have same : d.getInstantSendLockByHash hash =
        ({ d with islockCache := (d.islockCache.get hash).1.insert hash (d.db.locks.lookup hash) },
          d.db.locks.lookup hash) := by
      simp [getInstantSendLockByHash, value, missing]
    rw [same]
    exact ⟨rfl, rfl, rfl, rfl, fun caches => (caches.get hash).insert_update hash _⟩
  · have same : d.getInstantSendLockByHash hash =
        ({ d with islockCache := (d.islockCache.get hash).1 }, d.db.locks.lookup hash) := by
      simp [getInstantSendLockByHash, value, cached]
    rw [same]
    refine ⟨rfl, rfl, rfl, rfl, fun caches other v found => ?_⟩
    rw [lookup_get] at found
    by_cases isHash : other = hash
    · subst isHash
      rw [cached] at found
      rw [update_self]
      exact (Option.some.inj found).symm
    · rw [update_of_ne isHash]
      exact caches _ _ found

variable {after : CInstantSendDb}

theorem ReadLock.coherent {islock : Option CInstantSendLock}
    (read : ReadLock d hash after islock) (coherent : d.Cached) : after.Coherent after.db := by
  rw [read.db]
  refine ⟨?_, read.txids ▸ coherent.txids, read.outpoints ▸ coherent.outpoints⟩
  have caches := read.islocks coherent.islocks
  rwa [update_eq_self] at caches

structure Query (d after : CInstantSendDb) : Prop where
  db : after.db = d.db
  coherent : after.Coherent after.db

theorem ReadLock.query {islock : Option CInstantSendLock}
    (read : ReadLock d hash after islock) (coherent : d.Cached) : Query d after :=
  ⟨read.db, read.coherent coherent⟩

theorem Query.trans {middle : CInstantSendDb} (first : Query d middle) (second : Query middle after) :
    Query d after :=
  ⟨second.db.trans first.db, second.coherent⟩

section
variable (coherent : d.Cached)
include coherent

theorem getInstantSendLockHashByTxid_spec (txid : Uint256) :
    (d.getInstantSendLockHashByTxid txid).2 = (d.db.byTxid.lookup txid).getD 0 ∧
      (d.getInstantSendLockHashByTxid txid).1.db = d.db ∧ (d.getInstantSendLockHashByTxid txid).1.Coherent d.db := by
  have value := d.txidCache.get_value txid
  rcases coherent.txids.lookup_eq txid with missing | cached
  · have same : d.getInstantSendLockHashByTxid txid =
        ({ d with txidCache := (d.txidCache.get txid).1.insert txid ((d.db.byTxid.lookup txid).getD 0) },
          (d.db.byTxid.lookup txid).getD 0) := by
      simp [getInstantSendLockHashByTxid, value, missing]
    have caches := (coherent.txids.get txid).insert_update txid ((d.db.byTxid.lookup txid).getD 0)
    rw [update_eq_self_iff.mpr rfl] at caches
    rw [same]
    exact ⟨rfl, rfl, coherent.islocks, caches, coherent.outpoints⟩
  · have same : d.getInstantSendLockHashByTxid txid =
        ({ d with txidCache := (d.txidCache.get txid).1 }, (d.db.byTxid.lookup txid).getD 0) := by
      simp [getInstantSendLockHashByTxid, value, cached]
    rw [same]
    exact ⟨rfl, rfl, coherent.islocks, coherent.txids.get txid, coherent.outpoints⟩

theorem getInstantSendLockByTxid_query (txid : Uint256) : Query d (d.getInstantSendLockByTxid txid).1 := by
  obtain ⟨-, db, after⟩ := getInstantSendLockHashByTxid_spec coherent txid
  have first : Query d (d.getInstantSendLockHashByTxid txid).1 := ⟨db, db ▸ after⟩
  by_cases null : (d.getInstantSendLockHashByTxid txid).2 = 0
  · simpa [getInstantSendLockByTxid, null] using first
  · have same : d.getInstantSendLockByTxid txid = (d.getInstantSendLockHashByTxid txid).1.getInstantSendLockByHash
        (d.getInstantSendLockHashByTxid txid).2 := by
      simp [getInstantSendLockByTxid, null]
    rw [same]
    exact first.trans ((getInstantSendLockByHash_read first.coherent _).query first.coherent)

theorem getInstantSendLockByInput_spec (outpoint : COutPoint) : Query d (d.getInstantSendLockByInput outpoint).1 ∧
      (d.db.byInput.lookup outpoint ≠ some 0 → (d.getInstantSendLockByInput outpoint).2 =
          (d.db.byInput.lookup outpoint).bind fun hash => d.db.locks.lookup hash) := by
  have value := d.outpointCache.get_value outpoint
  have got := coherent.outpoints.get outpoint
  rcases coherent.outpoints.lookup_eq outpoint with missing | cached
  · have caches := got.insert_update outpoint ((d.db.byInput.lookup outpoint).getD 0)
    rw [update_eq_self_iff.mpr rfl] at caches
    let middle : CInstantSendDb :=
      { d with outpointCache := (d.outpointCache.get outpoint).1.insert outpoint ((d.db.byInput.lookup outpoint).getD 0) }
    have first : Query d middle := ⟨rfl, coherent.islocks, coherent.txids, caches⟩
    cases entry : d.db.byInput.lookup outpoint with
    | none =>
      have same : d.getInstantSendLockByInput outpoint = (middle, none) := by
        simp [getInstantSendLockByInput, value, missing, middle, entry]
      rw [same]
      exact ⟨first, fun _ => rfl⟩
    | some islockHash =>
      have same : d.getInstantSendLockByInput outpoint = middle.getInstantSendLockByHash islockHash := by
        simp [getInstantSendLockByInput, value, missing, middle, entry]
      have read := getInstantSendLockByHash_read first.coherent islockHash
      rw [same]
      exact ⟨first.trans (read.query first.coherent), fun _ => read.found⟩
  · let middle : CInstantSendDb := { d with outpointCache := (d.outpointCache.get outpoint).1 }
    have first : Query d middle := ⟨rfl, coherent.islocks, coherent.txids, got⟩
    by_cases null : (d.db.byInput.lookup outpoint).getD 0 = 0
    · have same : d.getInstantSendLockByInput outpoint = (middle, none) := by
        simp [getInstantSendLockByInput, value, cached, middle, null]
      rw [same]
      refine ⟨first, fun known => ?_⟩
      cases entry : d.db.byInput.lookup outpoint with
      | none => rfl
      | some islockHash => simp_all
    · have same : d.getInstantSendLockByInput outpoint =
          middle.getInstantSendLockByHash ((d.db.byInput.lookup outpoint).getD 0) := by
        simp [getInstantSendLockByInput, value, cached, middle, null]
      have read := getInstantSendLockByHash_read first.coherent ((d.db.byInput.lookup outpoint).getD 0)
      rw [same]
      refine ⟨first.trans (read.query first.coherent), fun _ => ?_⟩
      cases entry : d.db.byInput.lookup outpoint with
      | none => simp [entry] at null
      | some islockHash =>
        rw [entry] at read
        exact read.found

open Tables

theorem writeNewInstantSendLock_coherent (hash : Uint256) (islock : CInstantSendLock) :
    (d.writeNewInstantSendLock hash islock).Cached := by
  refine ⟨?_, ?_, ?_⟩
  · intro other v found
    have value := coherent.islocks.insert_update hash (some islock) other v found
    by_cases same : other = hash
    · simpa [writeNewInstantSendLock, locks_writeLock, same] using value
    · simpa [writeNewInstantSendLock, locks_writeLock, same] using value
  · intro txid v found
    have value := coherent.txids.insert_update islock.txid hash txid v found
    by_cases same : txid = islock.txid
    · simpa [writeNewInstantSendLock, byTxid_writeLock, same] using value
    · simpa [writeNewInstantSendLock, byTxid_writeLock, same] using value
  · intro outpoint v found
    have value := coherent.outpoints.insertAll islock.inputs hash outpoint v found
    by_cases member : outpoint ∈ islock.inputs
    · simpa [writeNewInstantSendLock, byInput_writeLock, member] using value
    · simpa [writeNewInstantSendLock, byInput_writeLock, member] using value

end

/-! ### Removal -/

/-- While an operation collects a batch, what is cached agrees with the tables as they are and as they will be, and
    the batch erases whole locks. -/
structure Underway (tables : Tables) (d : CInstantSendDb) (batch : CDBBatch) : Prop where
  db : d.db = tables
  now : d.Coherent tables
  later : d.Coherent (tables.writeBatch batch)
  whole : tables.Whole batch

theorem underway_start (coherent : d.Cached) : Underway d.db d [] :=
  ⟨rfl, coherent, coherent, ⟨by simp, by simp, by simp⟩⟩

def Neutral : Change → Prop
  | .eraseLock _ => False
  | .eraseTxid _ => False
  | .eraseInput _ => False
  | _ => True

theorem Underway.neutral {added : CDBBatch} (underway : Underway tables d batch)
    (neutral : ∀ change ∈ added, Neutral change) : Underway tables d (batch ++ added) := by
  have kept : ∀ change, ¬Neutral change → (change ∈ batch ++ added ↔ change ∈ batch) := fun change erases =>
    ⟨fun member => (mem_append.mp member).resolve_right fun new => erases (neutral _ new), mem_append_left _⟩
  have locks := fun hash => kept (.eraseLock hash) id
  have txids := fun txid => kept (.eraseTxid txid) id
  have inputs := fun input => kept (.eraseInput input) id
  refine ⟨underway.db, underway.now, underway.later.of_eq rfl rfl rfl ?_ ?_ ?_, ?_⟩
  · intro hash
    simp [Tables.locks_writeBatch, locks]
  · intro txid
    simp [Tables.byTxid_writeBatch, txids]
  · intro outpoint
    simp [Tables.byInput_writeBatch, inputs]
  · refine ⟨fun erased => ?_, fun erased => ?_, fun erased => ?_⟩
    · obtain ⟨islock, stored, txid, all⟩ := underway.whole.lock ((locks _).mp erased)
      exact ⟨islock, stored, (txids _).mpr txid, fun input member => (inputs _).mpr (all input member)⟩
    · obtain ⟨hash, islock, lock, rest⟩ := underway.whole.txid ((txids _).mp erased)
      exact ⟨hash, islock, (locks _).mpr lock, rest⟩
    · obtain ⟨hash, islock, lock, rest⟩ := underway.whole.input ((inputs _).mp erased)
      exact ⟨hash, islock, (locks _).mpr lock, rest⟩

theorem mem_erasures {change : Change} : change ∈ erasures hash islock ↔
      change = .eraseLock hash ∨ change = .eraseTxid islock.txid ∨ ∃ input ∈ islock.inputs, .eraseInput input = change := by
  simp [erasures]

theorem whole_append_erasures (whole : tables.Whole batch) (stored : tables.locks.lookup hash = some islock) :
    tables.Whole (batch ++ erasures hash islock) where
  lock := by
    intro other erased
    rcases mem_append.mp erased with old | new
    · obtain ⟨otherLock, otherStored, txid, inputs⟩ := whole.lock old
      exact ⟨otherLock, otherStored, mem_append_left _ txid,
        fun input member => mem_append_left _ (inputs input member)⟩
    · obtain rfl : other = hash := by simpa [mem_erasures] using new
      refine ⟨islock, stored, mem_append_right _ ?_, fun input member => mem_append_right _ ?_⟩
      · simp [mem_erasures]
      · simp [mem_erasures, member]
  txid := by
    intro txid erased
    rcases mem_append.mp erased with old | new
    · obtain ⟨other, otherLock, lock, rest⟩ := whole.txid old
      exact ⟨other, otherLock, mem_append_left _ lock, rest⟩
    · exact ⟨hash, islock, mem_append_right _ (by simp [mem_erasures]), stored,
        by simpa [mem_erasures, eq_comm] using new⟩
  input := by
    intro input erased
    rcases mem_append.mp erased with old | new
    · obtain ⟨other, otherLock, lock, rest⟩ := whole.input old
      exact ⟨other, otherLock, mem_append_left _ lock, rest⟩
    · exact ⟨hash, islock, mem_append_right _ (by simp [mem_erasures]), stored,
        by simpa [mem_erasures] using new⟩

section
variable (underway : Underway tables d batch)
include underway

theorem Underway.found (hash : Uint256) : (d.getInstantSendLockByHash hash).2 = tables.locks.lookup hash := by
  obtain ⟨rfl, now, -, -⟩ := underway
  exact (getInstantSendLockByHash_read now hash).found

theorem Underway.readNone
    (missing : tables.locks.lookup hash = none) : Underway tables (d.getInstantSendLockByHash hash).1 batch := by
  obtain ⟨rfl, now, later, whole⟩ := underway
  have read := getInstantSendLockByHash_read now hash
  refine ⟨read.db, read.db ▸ read.coherent now, ⟨?_, read.txids ▸ later.txids, read.outpoints ▸ later.outpoints⟩, whole⟩
  have caches := read.islocks later.islocks
  have same : d.db.locks.lookup hash = (d.db.writeBatch batch).locks.lookup hash := by
    simp [Tables.locks_writeBatch, missing]
  rwa [same, update_eq_self_iff.mpr rfl] at caches

theorem Underway.remove (stored : tables.locks.lookup hash = some islock) :
    Underway tables ((d.getInstantSendLockByHash hash).1.eraseCached hash islock) (batch ++ erasures hash islock) := by
  obtain ⟨rfl, now, later, whole⟩ := underway
  have read := getInstantSendLockByHash_read now hash
  have nowRead := read.db ▸ read.coherent now
  refine ⟨read.db, ⟨?_, ?_, ?_⟩, ⟨?_, ?_, ?_⟩, whole_append_erasures whole stored⟩
  · exact nowRead.islocks.eraseAll [hash] fun _ _ => rfl
  · exact nowRead.txids.eraseAll [islock.txid] fun _ _ => rfl
  · exact nowRead.outpoints.eraseAll islock.inputs fun _ _ => rfl
  · refine (read.islocks later.islocks).eraseAll [hash] fun other outside => ?_
    have apart : other ≠ hash := by simpa using outside
    simp [Tables.locks_writeBatch, mem_erasures, apart]
  · refine (read.txids ▸ later.txids).eraseAll [islock.txid] fun txid outside => ?_
    have apart : txid ≠ islock.txid := by simpa using outside
    simp [Tables.byTxid_writeBatch, mem_erasures, apart]
  · refine (read.outpoints ▸ later.outpoints).eraseAll islock.inputs fun outpoint outside => ?_
    simp [Tables.byInput_writeBatch, mem_erasures, outside]

theorem Underway.written : (d.writeBatch batch).Cached := by
  obtain ⟨rfl, -, later, -⟩ := underway
  exact { later with }

end

variable {p : Pending}

def confirmedBatch (tables : Tables) (keys : List (Nat × Uint256)) : CDBBatch :=
  keys.flatMap fun key => (tables.locks.lookup key.2).elim [] (erasures key.2) ++
    [.writeArchived key.1 key.2, .eraseMined key.1 key.2]

def children (tables : Tables) (txid : Uint256) : List (Uint256 × CInstantSendLock) :=
  (tables.locksByParent txid).filterMap fun hash => (tables.locks.lookup hash).map (hash, ·)

def chainedBatch (nHeight : Nat) (locks : List (Uint256 × CInstantSendLock)) : CDBBatch :=
  locks.flatMap fun lock => erasures lock.1 lock.2 ++ [.writeArchived nHeight lock.1]

theorem removeChild_fold (nHeight : Nat) (hashes : List Uint256) (underway : Underway tables p.d p.batch) :
    Underway tables (hashes.foldl (removeChild nHeight) p).d (hashes.foldl (removeChild nHeight) p).batch ∧
      (hashes.foldl (removeChild nHeight) p).locks =
        p.locks ++ hashes.filterMap (fun hash => (tables.locks.lookup hash).map (hash, ·)) ∧
      (hashes.foldl (removeChild nHeight) p).batch =
        p.batch ++ chainedBatch nHeight (hashes.filterMap fun hash => (tables.locks.lookup hash).map (hash, ·)) := by
  induction hashes generalizing p with
  | nil => simp [underway, chainedBatch]
  | cons hash rest ih =>
    have found := underway.found hash
    rw [foldl_cons]
    cases stored : tables.locks.lookup hash with
    | none =>
      rw [stored] at found
      have same : removeChild nHeight p hash = { p with d := (p.d.getInstantSendLockByHash hash).1 } := by
        simp [removeChild, found]
      rw [same]
      obtain ⟨after, locks, batch⟩ := ih (p := { p with d := (p.d.getInstantSendLockByHash hash).1 })
        (underway.readNone stored)
      exact ⟨after, by rw [locks]; simp [stored], by rw [batch]; simp [stored]⟩
    | some islock =>
      rw [stored] at found
      have same : removeChild nHeight p hash =
          ⟨(p.d.getInstantSendLockByHash hash).1.eraseCached hash islock,
            p.batch ++ erasures hash islock ++ [.writeArchived nHeight hash], p.locks ++ [(hash, islock)]⟩ := by
        simp [removeChild, found, removeInstantSendLock]
      have archived : ∀ change ∈ [Change.writeArchived nHeight hash], Neutral change := by simp [Neutral]
      have next := (underway.remove stored).neutral archived
      obtain ⟨after, locks, batch⟩ := ih (p := removeChild nHeight p hash) (same ▸ next)
      refine ⟨after, ?_, ?_⟩
      · rw [locks, same]
        simp [stored]
      · rw [batch, same]
        simp [stored, chainedBatch]

theorem mem_children {txid : Uint256} {lock : Uint256 × CInstantSendLock} : lock ∈ children tables txid ↔
      (∃ n, tables.byInput.lookup ⟨txid, n⟩ = some lock.1) ∧ tables.locks.lookup lock.1 = some lock.2 := by
  obtain ⟨hash, islock⟩ := lock
  have parent : hash ∈ tables.locksByParent txid ↔ ∃ n, tables.byInput.lookup ⟨txid, n⟩ = some hash := by
    simp only [Tables.locksByParent, mem_map, mem_filter, decide_eq_true_eq]
    constructor
    · rintro ⟨⟨⟨parent, n⟩, named⟩, ⟨member, rfl⟩, rfl⟩
      exact ⟨n, AList.mem_lookup_iff.mpr member⟩
    · rintro ⟨n, entry⟩
      exact ⟨⟨⟨txid, n⟩, hash⟩, ⟨AList.mem_lookup_iff.mp entry, rfl⟩, rfl⟩
  simp only [children, mem_filterMap, Option.map_eq_some_iff, Prod.mk.injEq]
  constructor
  · rintro ⟨named, listed, stored, found, rfl, rfl⟩
    exact ⟨parent.mp listed, found⟩
  · rintro ⟨listed, stored⟩
    exact ⟨hash, parent.mpr listed, islock, stored, rfl, rfl⟩

/-- The locks that build on a transaction: those that spend an output of it, or of what one of them locks. -/
def Chained (tables : Tables) (txid : Uint256) (lock : Uint256 × CInstantSendLock) : Prop :=
  ∃ parent, Worklist.Reach (children tables) (·.2.txid) txid parent ∧ lock ∈ children tables parent

/-- The batch of `RemoveChainedInstantSendLocks` once its loop has met the locks of a list. -/
def removalBatch (tables : Tables) (nHeight : Nat) (islockHash : Uint256) (chained : List (Uint256 × CInstantSendLock)) :
    CDBBatch :=
  chainedBatch nHeight chained ++ (tables.locks.lookup islockHash).elim [] (erasures islockHash) ++
    [.writeArchived nHeight islockHash]

/-- What the loop of `RemoveChainedInstantSendLocks` keeps, with the locks it has met. -/
def ChainedSoFar (tables : Tables) (nHeight : Nat) (s : CInstantSendDb × CDBBatch)
    (chained : List (Uint256 × CInstantSendLock)) : Prop :=
  Underway tables s.1 s.2 ∧ s.2 = chainedBatch nHeight chained

theorem removeChildren_chainedSoFar {nHeight : Nat} {s : CInstantSendDb × CDBBatch}
    {chained : List (Uint256 × CInstantSendLock)} (parent : Uint256) (soFar : ChainedSoFar tables nHeight s chained) :
    ChainedSoFar tables nHeight (removeChildren nHeight s parent).1 (chained ++ (removeChildren nHeight s parent).2) ∧
      (removeChildren nHeight s parent).2 = children tables parent := by
  obtain ⟨middle, batch⟩ := s
  obtain ⟨underway, rfl⟩ := soFar
  obtain ⟨after, locks, batches⟩ := removeChild_fold (p := ⟨middle, _, []⟩) nHeight (middle.db.locksByParent parent)
    underway
  have same : middle.db = tables := underway.db
  have found : (removeChildren nHeight (middle, chainedBatch nHeight chained) parent).2 = children tables parent := by
    simpa [removeChildren, children, same] using locks
  refine ⟨⟨after, ?_⟩, found⟩
  rw [found]
  simpa [removeChildren, chainedBatch, children, same] using batches

variable (coherent : d.Cached)
include coherent

theorem removeConfirmedInstantSendLocks_spec (nUntilHeight : Nat) :
    let batch := confirmedBatch d.db (d.db.mined.filter fun curKey => decide (curKey.1 ≤ nUntilHeight))
    (d.removeConfirmedInstantSendLocks nUntilHeight).1.db = d.db.writeBatch batch ∧ d.db.Whole batch ∧
      (d.removeConfirmedInstantSendLocks nUntilHeight).1.Cached := by
  have loop : ∀ (keys : List (Nat × Uint256)) (p : Pending), Underway d.db p.d p.batch →
      Underway d.db (keys.foldl confirmOne p).d (keys.foldl confirmOne p).batch ∧
        (keys.foldl confirmOne p).batch = p.batch ++ confirmedBatch d.db keys := by
    intro keys
    induction keys with
    | nil => intro p underway; exact ⟨underway, (append_nil _).symm⟩
    | cons key rest ih =>
      intro p underway
      have found := underway.found key.2
      have neutral : ∀ change ∈ [Change.writeArchived key.1 key.2, .eraseMined key.1 key.2], Neutral change := by
        simp [Neutral]
      cases stored : d.db.locks.lookup key.2 with
      | none =>
        rw [stored] at found
        obtain ⟨after, batch⟩ := ih (confirmOne p key) (by
          simp only [confirmOne, found]
          exact (underway.readNone stored).neutral neutral)
        exact ⟨after, batch.trans (by simp [confirmOne, found, confirmedBatch, stored])⟩
      | some islock =>
        rw [stored] at found
        obtain ⟨after, batch⟩ := ih (confirmOne p key) (by
          simp only [confirmOne, found, removeInstantSendLock]
          exact (underway.remove stored).neutral neutral)
        exact ⟨after, batch.trans (by simp [confirmOne, found, confirmedBatch, stored, removeInstantSendLock])⟩
  obtain ⟨underway, batch⟩ := loop (d.db.mined.filter fun curKey => decide (curKey.1 ≤ nUntilHeight)) ⟨d, [], []⟩
    (underway_start coherent)
  rw [nil_append] at batch
  refine ⟨?_, batch ▸ underway.whole, underway.written⟩
  rw [← batch]
  exact congrArg (Tables.writeBatch · _) underway.db

theorem removeChainedInstantSendLocks_spec (islockHash txid : Uint256) (nHeight : Nat) : ∃ after chained,
      d.removeChainedInstantSendLocks islockHash txid nHeight = some (after, chained.map Prod.fst ++ [islockHash]) ∧
      (∀ lock, lock ∈ chained ↔ Chained d.db txid lock) ∧
      after.db = d.db.writeBatch (removalBatch d.db nHeight islockHash chained) ∧
      d.db.Whole (removalBatch d.db nHeight islockHash chained) ∧ after.Cached := by
  have inside : ∀ parent, ∀ lock ∈ children d.db parent,
      lock.2.txid ∈ (d.db.locks.entries.map fun entry => entry.2.txid).toFinset := by
    intro parent lock member
    have stored := AList.mem_lookup_iff.mp (mem_children.mp member).2
    simp only [mem_toFinset, mem_map]
    exact ⟨_, stored, rfl⟩
  have enough : (d.db.locks.entries.map fun entry => entry.2.txid).toFinset.card + 1 ≤ d.getInstantSendLockCount + 1 := by
    have bound := toFinset_card_le (d.db.locks.entries.map fun entry => entry.2.txid)
    rw [length_map] at bound
    exact Nat.succ_le_succ bound
  have start : ChainedSoFar d.db nHeight (d, []) [] := ⟨underway_start coherent, rfl⟩
  obtain ⟨⟨middle, batch⟩, chained, searched, ⟨underway, rfl⟩, members⟩ :=
    Worklist.search_progress (fun parent soFar => removeChildren_chainedSoFar parent soFar) inside
      (Worklist.progress_start _ _ txid) start (show _ ≤ d.getInstantSendLockCount + 1 by simpa using enough)
  -- The lock itself goes last.
  have found := underway.found islockHash
  have archived : ∀ change ∈ [Change.writeArchived nHeight islockHash], Neutral change := by simp [Neutral]
  have last : Underway d.db (middle.removeInstantSendLock (chainedBatch nHeight chained) islockHash none).1
        (removalBatch d.db nHeight islockHash chained) ∧
      (middle.removeInstantSendLock (chainedBatch nHeight chained) islockHash none).2 ++
        [.writeArchived nHeight islockHash] = removalBatch d.db nHeight islockHash chained := by
    cases stored : d.db.locks.lookup islockHash with
    | none =>
      simp only [removeInstantSendLock, found, removalBatch, stored, Option.elim_none, append_nil, and_true]
      exact (underway.readNone stored).neutral archived
    | some islock =>
      simp only [removeInstantSendLock, found, removalBatch, stored, Option.elim_some, and_true]
      exact (underway.remove stored).neutral archived
  refine ⟨_, chained, ?_, members, congrArg (Tables.writeBatch · _) last.1.db, last.1.whole, last.1.written⟩
  simp [removeChainedInstantSendLocks, searched, last.2]

theorem conflictingLock_query (txid : Uint256) (prevouts : List COutPoint) :
    Query d (conflictingLock txid d prevouts).1 := by
  induction prevouts generalizing d with
  | nil => exact ⟨rfl, coherent⟩
  | cons prevout rest ih =>
    have first := (getInstantSendLockByInput_spec coherent prevout).1
    rw [conflictingLock]
    cases found : (d.getInstantSendLockByInput prevout).2 with
    | none => exact first.trans (ih first.coherent)
    | some otherIsLock =>
      by_cases other : otherIsLock.txid ≠ txid
      · simpa [other] using first
      · simpa [other] using first.trans (ih first.coherent)

theorem removeChainLockConflictingLock_spec (hash : Uint256) (islock : CInstantSendLock) (tipHeight : Nat) :
    ∃ chained, (∀ lock, lock ∈ chained ↔ Chained d.db islock.txid lock) ∧
      (d.removeChainLockConflictingLock hash islock tipHeight).db =
        d.db.writeBatch (removalBatch d.db tipHeight hash chained) ∧
      d.db.Whole (removalBatch d.db tipHeight hash chained) ∧
      (d.removeChainLockConflictingLock hash islock tipHeight).Cached := by
  obtain ⟨after, chained, removed, members, db, whole, coherentAfter⟩ :=
    removeChainedInstantSendLocks_spec coherent hash islock.txid tipHeight
  have same : d.removeChainLockConflictingLock hash islock tipHeight = after := by
    simp [removeChainLockConflictingLock, removed]
  rw [same]
  exact ⟨chained, members, db, whole, coherentAfter⟩

end

end CInstantSendDb

end Cspn.InstantSendDb
