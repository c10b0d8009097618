import Cspn.Folds
import Cspn.InstantSendDb

/-!
Runs of the InstantSend manager on its database. Every entry names a stored lock that has its transaction or its
input, and the caches agree with the tables. Its entries name a stored lock throughout a run exactly if no lock is
written that shares one: the manager only logs such a lock.
-/
namespace Cspn.LockIndex
open Primitives InstantSendDb InstantSendDb.CInstantSendDb List

/-- What `CInstantSendManager` does with its database. Locks are stored under their hash. -/
inductive Op where
  | processInstantSendLock (islock : CInstantSendLock) (pindexMined : Option Nat)
  | syncTransaction (txid : Uint256) (pindex : Option Nat) (isDisconnect : Bool)
  | handleFullyConfirmedBlock (nHeight : Nat)
  | removeChainLockConflictingLock (islock : CInstantSendLock) (tipHeight : Nat)
  | getConflictingLock (tx : CTransaction)
  | getInstantSendLockByHash (hash : Uint256)
  | isLocked (txHash : Uint256)

variable {tables after : Tables} {hash : Uint256}

section
variable (serializeHash : CInstantSendLock → Uint256)

def apply (d : CInstantSendDb) : Op → CInstantSendDb
  | .processInstantSendLock islock pindexMined => d.processInstantSendLock (serializeHash islock) islock pindexMined
  | .syncTransaction txid pindex isDisconnect => d.syncMined txid pindex isDisconnect
  | .handleFullyConfirmedBlock nHeight => d.confirmBlock nHeight
  | .removeChainLockConflictingLock islock tipHeight =>
    d.removeChainLockConflictingLock (serializeHash islock) islock tipHeight
  | .getConflictingLock tx => (d.getConflictingLock tx).1
  | .getInstantSendLockByHash hash => (d.getInstantSendLockByHash hash).1
  | .isLocked txHash => (d.getInstantSendLockByTxid txHash).1

def run (ops : List Op) : CInstantSendDb := ops.foldl (apply serializeHash) .empty

structure Integrity (d : CInstantSendDb) : Prop where
  named : d.db.Named
  refers : d.db.Refers
  coherent : d.Coherent d.db

structure SameIndex (tables tables' : Tables) : Prop where
  locks : tables'.locks = tables.locks
  byTxid : tables'.byTxid = tables.byTxid
  byInput : tables'.byInput = tables.byInput

def Op.IsNew (tables : Tables) : Op → Prop
  | .processInstantSendLock islock _ => tables.locks.lookup (serializeHash islock) = none
  | _ => False

inductive Effect (tables : Tables) : Op → Tables → Prop
  | erased {op after} (known : ¬ op.IsNew serializeHash tables) (batch : CDBBatch) (whole : tables.Whole batch)
      (same : SameIndex (tables.writeBatch batch) after) : Effect tables op after
  | wrote {islock pindexMined after} (new : tables.locks.lookup (serializeHash islock) = none)
      (same : SameIndex (tables.writeLock (serializeHash islock) islock) after) :
      Effect tables (.processInstantSendLock islock pindexMined) after

variable {serializeHash} {d : CInstantSendDb}

section
variable {tables' : Tables} (same : SameIndex tables tables')
include same

theorem SameIndex.trans {after : Tables} (later : SameIndex tables' after) : SameIndex tables after :=
  ⟨later.locks.trans same.locks, later.byTxid.trans same.byTxid, later.byInput.trans same.byInput⟩

theorem SameIndex.named_iff : tables'.Named ↔ tables.Named := by
  simp [Tables.Named, same.locks, same.byTxid, same.byInput]

theorem SameIndex.refers (refers : tables.Refers) : tables'.Refers := by
  constructor
  · simpa [same.locks, same.byTxid] using refers.txid
  · simpa [same.locks, same.byInput] using refers.input

theorem SameIndex.coherent (coherent : d.Coherent tables) : d.Coherent tables' :=
  coherent.of_eq rfl rfl rfl (fun _ => by rw [same.locks]) (fun _ => by rw [same.byTxid]) fun _ => by rw [same.byInput]

end

variable {op : Op}

theorem effect_same (known : ¬ op.IsNew serializeHash tables)
    (same : SameIndex tables after) : Effect serializeHash tables op after :=
  .erased known [] ⟨by simp, by simp, by simp⟩ same

theorem effect_of_query {after : CInstantSendDb} (known : ¬ op.IsNew serializeHash d.db)
    (query : Query d after) : Effect serializeHash d.db op after.db ∧ after.Cached :=
  ⟨effect_same known (query.db ▸ ⟨rfl, rfl, rfl⟩), query.coherent⟩

section
variable (coherent : d.Cached)
include coherent

theorem inputs_query (inputs : List COutPoint) :
    Query d (inputs.foldl (fun d input => (d.getInstantSendLockByInput input).1) d) :=
  foldlRecOn inputs _ ⟨rfl, coherent⟩ fun _ query input _ =>
    query.trans (getInstantSendLockByInput_spec query.coherent input).1

theorem processInstantSendLock_known {old : CInstantSendLock}
    (stored : d.db.locks.lookup hash = some old) (islock : CInstantSendLock) (pindexMined : Option Nat) :
    Query d (d.processInstantSendLock hash islock pindexMined) := by
  have read := getInstantSendLockByHash_read coherent hash
  have found := read.found.trans stored
  simpa [processInstantSendLock, found] using read.query coherent

theorem processInstantSendLock_new
    (missing : d.db.locks.lookup hash = none) (islock : CInstantSendLock) (pindexMined : Option Nat) :
    (d.processInstantSendLock hash islock pindexMined).db = { d.db.writeLock hash islock with
          mined := pindexMined.elim d.db.mined fun nHeight => d.db.mined.insert (nHeight, hash) } ∧
      (d.processInstantSendLock hash islock pindexMined).Cached := by
  have read := getInstantSendLockByHash_read coherent hash
  have found := read.found.trans missing
  have first := read.query coherent
  have second := first.trans (getInstantSendLockByTxid_query first.coherent islock.txid)
  have third := second.trans (inputs_query second.coherent islock.inputs)
  -- What has been looked up for the log leaves the tables as they were.
  have written := writeNewInstantSendLock_coherent third.coherent hash islock
  cases pindexMined with
  | none =>
    simp only [processInstantSendLock, found, Option.isSome_none]
    exact ⟨congrArg (Tables.writeLock · hash islock) third.db, written⟩
  | some nHeight =>
    simp only [processInstantSendLock, found, Option.isSome_none]
    refine ⟨?_, { written with }⟩
    exact congrArg (fun tables => { Tables.writeLock tables hash islock with
      mined := tables.mined.insert (nHeight, hash) }) third.db

theorem syncMined_index (txid : Uint256) (pindex : Option Nat) (isDisconnect : Bool) :
    SameIndex d.db (d.syncMined txid pindex isDisconnect).db ∧ (d.syncMined txid pindex isDisconnect).Cached := by
  obtain ⟨-, db, after⟩ := getInstantSendLockHashByTxid_spec coherent txid
  have query : SameIndex d.db (d.getInstantSendLockHashByTxid txid).1.db ∧
      (d.getInstantSendLockHashByTxid txid).1.Cached := by
    rw [Cached, db]
    exact ⟨⟨rfl, rfl, rfl⟩, after⟩
  cases pindex with
  | none => exact query
  | some nHeight =>
    by_cases null : (d.getInstantSendLockHashByTxid txid).2 = 0
    · simpa [syncMined, null] using query
    · obtain ⟨⟨locks, byTxid, byInput⟩, ⟨islocks, txids, outpoints⟩⟩ := query
      simp only [syncMined, null]
      cases isDisconnect <;> exact ⟨⟨locks, byTxid, byInput⟩, ⟨islocks, txids, outpoints⟩⟩

end

theorem eraseArchived_sameIndex (tables : Tables) (keys : List (Nat × Uint256)) :
    SameIndex tables (tables.writeBatch (keys.map fun curKey => .eraseArchived curKey.1 curKey.2)) := by
  induction keys generalizing tables with
  | nil => exact ⟨rfl, rfl, rfl⟩
  | cons key rest ih =>
    exact { ih (tables.apply (.eraseArchived key.1 key.2)) with }

theorem apply_effect (coherent : d.Cached) (op : Op) :
    Effect serializeHash d.db op (apply serializeHash d op).db ∧
      (apply serializeHash d op).Cached := by
  cases op with
  | processInstantSendLock islock pindexMined =>
    cases stored : d.db.locks.lookup (serializeHash islock) with
    | some old =>
      have known : ¬ (Op.processInstantSendLock islock pindexMined).IsNew serializeHash d.db := by
        simp [Op.IsNew, stored]
      exact effect_of_query known (processInstantSendLock_known coherent stored islock pindexMined)
    | none =>
      obtain ⟨db, after⟩ := processInstantSendLock_new coherent stored islock pindexMined
      exact ⟨.wrote stored (db ▸ ⟨rfl, rfl, rfl⟩), after⟩
  | syncTransaction txid pindex isDisconnect =>
    obtain ⟨index, after⟩ := syncMined_index coherent txid pindex isDisconnect
    exact ⟨effect_same id index, after⟩
  | handleFullyConfirmedBlock nHeight =>
    obtain ⟨db, whole, after⟩ := removeConfirmedInstantSendLocks_spec coherent nHeight
    simp only [apply]
    by_cases deep : nHeight > 100
    · have index := eraseArchived_sameIndex (d.removeConfirmedInstantSendLocks nHeight).1.db
        ((d.removeConfirmedInstantSendLocks nHeight).1.db.archived.filter fun curKey =>
          decide (curKey.1 ≤ nHeight - 100))
      have same : d.confirmBlock nHeight =
          (d.removeConfirmedInstantSendLocks nHeight).1.removeArchivedInstantSendLocks (nHeight - 100) := by
        simp [confirmBlock, deep]
      obtain ⟨islocks, txids, outpoints⟩ := index.coherent after
      rw [same]
      exact ⟨.erased id _ whole (db ▸ index), ⟨islocks, txids, outpoints⟩⟩
    · simp only [confirmBlock, deep]
      exact ⟨.erased id _ whole (db ▸ ⟨rfl, rfl, rfl⟩), after⟩
  | removeChainLockConflictingLock islock tipHeight =>
    obtain ⟨chained, -, db, whole, after⟩ :=
      removeChainLockConflictingLock_spec coherent (serializeHash islock) islock tipHeight
    exact ⟨.erased id _ whole (db ▸ ⟨rfl, rfl, rfl⟩), after⟩
  | getConflictingLock tx => exact effect_of_query id (conflictingLock_query coherent tx.hash _)
  | getInstantSendLockByHash hash =>
    exact effect_of_query id ((getInstantSendLockByHash_read coherent hash).query coherent)
  | isLocked txHash => exact effect_of_query id (getInstantSendLockByTxid_query coherent txHash)

theorem Effect.refers (effect : Effect serializeHash tables op after) (refers : tables.Refers) : after.Refers := by
  cases effect with
  | erased known batch whole same => exact same.refers (refers.writeBatch whole)
  | @wrote islock pindexMined after new same => exact same.refers (refers.writeLock islock new)

variable (serializeHash)

def Op.Apart (tables : Tables) (op : Op) : Prop :=
  ∀ islock pindexMined, op = .processInstantSendLock islock pindexMined → op.IsNew serializeHash tables →
    tables.Apart islock

theorem run_append (done : List Op) (op : Op) :
    run serializeHash (done ++ [op]) = apply serializeHash (run serializeHash done) op := by
  simp [run]

theorem run_refers_coherent (ops : List Op) :
    (run serializeHash ops).db.Refers ∧ (run serializeHash ops).Cached := by
  induction ops using reverseRecOn with
  | nil => exact ⟨⟨by simp [run, empty, Tables.empty], by simp [run, empty, Tables.empty]⟩, coherent_empty _⟩
  | append_singleton done op ih =>
    obtain ⟨effect, coherent⟩ := apply_effect ih.2 op
    rw [run_append]
    exact ⟨effect.refers ih.1, coherent⟩

variable {serializeHash}

/-- An operation keeps the stored locks named exactly if the lock it may write is apart from them. -/
theorem Effect.named_iff (effect : Effect serializeHash tables op after)
    (named : tables.Named) : after.Named ↔ op.Apart serializeHash tables := by
  cases effect with
  | erased known batch whole same =>
    refine ⟨fun _ islock pindexMined isOp new => absurd new known, fun _ => ?_⟩
    exact same.named_iff.mpr (named.writeBatch whole)
  | wrote new same =>
    rw [same.named_iff, Tables.named_writeLock_iff named new]
    constructor
    · rintro apart islock pindexMined ⟨⟩ -
      exact apart
    · intro apart
      exact apart _ _ rfl new

/-- Along a run the indexes and caches are right exactly if each lock that is written shares neither its transaction
    nor an input with a lock that is stored then. -/
theorem integrity_iff_apart (serializeHash : CInstantSendLock → Uint256) (ops : List Op) :
    (∀ done, done <+: ops → Integrity (run serializeHash done)) ↔
      ∀ done op, done ++ [op] <+: ops → op.Apart serializeHash (run serializeHash done).db := by
  have integrity_iff : ∀ done, Integrity (run serializeHash done) ↔ (run serializeHash done).db.Named := fun done =>
    ⟨fun integrity => integrity.named, fun named =>
      ⟨named, (run_refers_coherent serializeHash done).1, (run_refers_coherent serializeHash done).2⟩⟩
  refine Folds.throughout_iff ?_ (fun done op before => ?_) ops
  · rw [integrity_iff]
    simp [run, empty, Tables.empty, Tables.Named]
  · rw [integrity_iff, run_append]
    exact (apply_effect before.coherent op).1.named_iff before.named

end

/-- Two locks with the same transaction and input that differ in their signature. -/
private def twice (signature : UInt8) : CInstantSendLock := ⟨[⟨7, 0⟩], 8, [signature]⟩

private def byte (islock : CInstantSendLock) : Uint256 := 1 + (islock.sig.headD 0).toNat

/-- The second lock takes over the entries of the first, which stays stored. -/
theorem not_integrity_twice :
    let d := run byte [.processInstantSendLock (twice 1) none, .processInstantSendLock (twice 2) none]
    d.db.locks.lookup (byte (twice 1)) = some (twice 1) ∧ d.db.byTxid.lookup 8 = some (byte (twice 2)) ∧
      ¬ Integrity d := by
  intro d
  have stored : d.db.locks.lookup (byte (twice 1)) = some (twice 1) := by decide +kernel
  have entry : d.db.byTxid.lookup 8 = some (byte (twice 2)) := by decide +kernel
  refine ⟨stored, entry, fun integrity => ?_⟩
  have named := (integrity.named _ _ stored).1
  exact absurd named (by decide)

/-! ### Removal -/

theorem archived_writeBatch {batch : CDBBatch} {nHeight : Nat} (keeps : ∀ n h, Change.eraseArchived n h ∉ batch)
    (archives : hash ∈ tables.archivedHashes ∨ .writeArchived nHeight hash ∈ batch) :
    hash ∈ (tables.writeBatch batch).archivedHashes := by
  induction batch generalizing tables with
  | nil => exact archives.resolve_right (by simp)
  | cons change rest ih =>
    refine ih (fun n h later => keeps n h (.tail _ later)) ?_
    cases change with
    | eraseArchived n h => exact absurd (.head _) (keeps n h)
    | writeArchived n h =>
      simp only [mem_cons, Change.writeArchived.injEq] at archives
      simp only [Tables.apply, mem_insert_iff]
      tauto
    | _ => simpa [Tables.apply] using archives

/-! ### Locks under construction

A transaction is given by its hash. A pointer is the number of a map node, which is never given again. -/

namespace Creating
open Function

/-- The maps of the manager; of the elements only the node and `txid` are read. -/
structure Locks where
  creatingInstantSendLocks : Uint256 → Option (Nat × Uint256) := fun _ => none
  txToCreatingInstantSendLocks : Uint256 → Option Nat := fun _ => none
  nodes : Nat := 0

inductive Event where
  /-- `signed`: every input has its recovered signature and the lock has none yet. -/
  | trySign (txid : Uint256) (signed : Bool)
  | recoveredSig (id msgHash : Uint256) (chainLocked : Bool)
  | process (inputs : List COutPoint) (txid : Uint256) (chainLocked : Bool)

section
variable (getRequestId : List COutPoint → Uint256) (vin : Uint256 → List COutPoint) (s : Locks)

def Locks.erase (id txid : Uint256) : Locks :=
  { s with
    creatingInstantSendLocks := update s.creatingInstantSendLocks id none
    txToCreatingInstantSendLocks := update s.txToCreatingInstantSendLocks txid none }

def trySignInstantSendLock (txid : Uint256) (signed : Bool) : Locks :=
  let id := getRequestId (vin txid)
  if !signed || (s.creatingInstantSendLocks id).isSome then s
  else
    { creatingInstantSendLocks := update s.creatingInstantSendLocks id (some (s.nodes, txid))
      -- `emplace` keeps a pointer that is there
      txToCreatingInstantSendLocks := update s.txToCreatingInstantSendLocks txid
        ((s.txToCreatingInstantSendLocks txid).or (some s.nodes))
      nodes := s.nodes + 1 }

def processInstantSendLock (inputs : List COutPoint) (txid : Uint256) (chainLocked : Bool) : Locks :=
  if chainLocked then s else s.erase (getRequestId inputs) txid

def handleNewInstantSendLockRecoveredSig (id msgHash : Uint256) (chainLocked : Bool) : Locks :=
  match s.creatingInstantSendLocks id with
  | none => s
  | some (_, txid) =>
    if txid ≠ msgHash then s.erase id txid
    else processInstantSendLock getRequestId (s.erase id txid) (vin txid) txid chainLocked

def apply : Event → Locks
  | .trySign txid signed => trySignInstantSendLock getRequestId vin s txid signed
  | .recoveredSig id msgHash chainLocked => handleNewInstantSendLockRecoveredSig getRequestId vin s id msgHash chainLocked
  | .process inputs txid chainLocked => processInstantSendLock getRequestId s inputs txid chainLocked

def run (events : List Event) : Locks := events.foldl (apply getRequestId vin) {}

/-- The pointers are those to the elements, under their transactions. -/
def Consistent : Prop :=
  ∀ txid node, s.txToCreatingInstantSendLocks txid = some node ↔ ∃ id, s.creatingInstantSendLocks id = some (node, txid)

def Keyed : Prop := ∀ id node txid, s.creatingInstantSendLocks id = some (node, txid) → getRequestId (vin txid) = id

/-- An element has the id of a lock that is processed exactly if it has its transaction. -/
def Own : Event → Prop
  | .process inputs txid false => ∀ id node t, s.creatingInstantSendLocks id = some (node, t) →
      (id = getRequestId inputs ↔ t = txid)
  | _ => True

end

section
variable {getRequestId : List COutPoint → Uint256} {vin : Uint256 → List COutPoint} {s : Locks}
  (keyed : Keyed getRequestId vin s)
include keyed

theorem Keyed.apply (event : Event) : Keyed getRequestId vin (apply getRequestId vin s event) := by
  intro id node t
  cases event with
  | trySign txid signed =>
    simp only [Creating.apply, trySignInstantSendLock]
    split_ifs <;> grind [Keyed, update_apply]
  | recoveredSig sigId msgHash chainLocked =>
    simp only [Creating.apply, handleNewInstantSendLockRecoveredSig, processInstantSendLock, Locks.erase]
    split
    · exact keyed id node t
    · split_ifs <;> grind [Keyed, update_apply]
  | process inputs txid chainLocked =>
    simp only [Creating.apply, processInstantSendLock, Locks.erase]
    split_ifs <;> grind [Keyed, update_apply]

variable (consistent : Consistent s)
include consistent

theorem consistent_erase (id txid : Uint256) : Consistent (s.erase id txid) ↔
    ∀ id' node t, s.creatingInstantSendLocks id' = some (node, t) → (id' = id ↔ t = txid) := by
  simp only [Consistent, Locks.erase, update_apply] at consistent ⊢
  constructor
  · intro after id' node t live
    have pointer := (consistent t node).mpr ⟨id', live⟩
    have left := after t node
    grind [Keyed]
  · intro together t node
    have before := consistent t node
    grind [Keyed]

theorem consistent_apply (event : Event) :
    Consistent (apply getRequestId vin s event) ↔ Own getRequestId s event := by
  cases event with
  | trySign txid signed =>
    refine iff_of_true ?_ trivial
    simp only [apply, trySignInstantSendLock]
    split_ifs
    · exact consistent
    have absent : s.creatingInstantSendLocks (getRequestId (vin txid)) = none := by simp_all
    have noPointer : s.txToCreatingInstantSendLocks txid = none := by
      by_contra some
      obtain ⟨node, pointer⟩ := Option.ne_none_iff_exists'.mp some
      obtain ⟨id, live⟩ := (consistent txid node).mp pointer
      rw [keyed id node txid live, live] at absent
      cases absent
    intro t node
    have before := consistent t node
    simp only [update_apply, noPointer]
    grind [Keyed]
  | process inputs txid chainLocked =>
    cases chainLocked with
    | true => exact iff_of_true consistent trivial
    | false => exact consistent_erase keyed consistent _ _
  | recoveredSig id msgHash chainLocked =>
    refine iff_of_true ?_ trivial
    simp only [apply, handleNewInstantSendLockRecoveredSig]
    split
    · exact consistent
    next node txid live =>
      have key := keyed id node txid live
      have dropped : Consistent (s.erase id txid) := by
        refine (consistent_erase keyed consistent _ _).mpr fun id' node' t present => ?_
        have other := keyed id' node' t present
        grind
      -- a second removal finds neither of the two
      have twice : (s.erase id txid).erase id txid = s.erase id txid := by simp [Locks.erase]
      unfold processInstantSendLock
      split_ifs
      · exact dropped
      · exact dropped
      · rwa [key, twice]

end

variable (getRequestId : List COutPoint → Uint256) (vin : Uint256 → List COutPoint)

/-- The maps agree throughout a run exactly if every lock processed is that of the element it removes. -/
theorem consistent_iff_own (events : List Event) :
    (∀ done, done <+: events → Consistent (run getRequestId vin done)) ↔
      ∀ done event, done ++ [event] <+: events → Own getRequestId (run getRequestId vin done) event := by
  have keyed : ∀ done, Keyed getRequestId vin (run getRequestId vin done) := by
    intro done
    refine foldlRecOn done _ (fun _ _ _ present => by cases present) ?_
    intro s keyed event _
    exact keyed.apply event
  refine Folds.throughout_iff (by simp [run, Consistent]) ?_ events
  intro done event consistent
  rw [run, foldl_append]
  exact consistent_apply (keyed done) consistent event

/-- The lock of a transaction with the same inputs comes first and leaves the own pointer dangling. -/
theorem not_consistent_conflicting :
    ¬ Consistent (run length (fun _ => [⟨7, 0⟩]) [.trySign 1 true, .process [⟨7, 0⟩] 2 false]) := by
  intro consistent
  obtain ⟨id, live⟩ := (consistent 1 0).mp rfl
  by_cases here : id = 1 <;> simp [run, apply, trySignInstantSendLock, processInstantSendLock, Locks.erase, here] at live

end Creating

end Cspn.LockIndex
