import Cspn.LockIndex

/-!
How `ConnectBlock` filters a block by InstantSend locks. A transaction that conflicts with a lock makes the block
invalid, unless the block has a ChainLock: then the first conflicting lock is removed with those that build on it, and
the code asserts that none is left.
-/
namespace Cspn.LockFilter
open Primitives InstantSendDb InstantSendDb.CInstantSendDb LockIndex List Option

structure Params where
  serializeHash : CInstantSendLock → Uint256
  fInstantSendEnabled : Bool
  fBlockFiltering : Bool
  hasChainLock : Bool
  tipHeight : Nat

/-- `aborted` is the failed assertion. -/
inductive Filtered where
  | passed (d : CInstantSendDb)
  | invalid (reason : String)
  | aborted
deriving DecidableEq

section
variable (params : Params)

def getConflictingLock (d : CInstantSendDb) (tx : CTransaction) : CInstantSendDb × Option CInstantSendLock :=
  if params.fInstantSendEnabled then d.getConflictingLock tx else (d, none)

def filterTx (d : CInstantSendDb) (tx : CTransaction) : Filtered :=
  if tx.vin.isEmpty then .passed d
  else
    let got := getConflictingLock params d tx
    match got.2 with
    | none => .passed got.1
    | some conflictLock =>
      if params.hasChainLock then
        let removed :=
          got.1.removeChainLockConflictingLock (params.serializeHash conflictLock) conflictLock params.tipHeight
        let again := getConflictingLock params removed tx
        if again.2.isNone then .passed again.1 else .aborted
      else .invalid "conflict-tx-lock"

def filterTxs : CInstantSendDb → List CTransaction → Filtered
  | d, [] => .passed d
  | d, tx :: rest =>
    match filterTx params d tx with
    | .passed d => filterTxs d rest
    | stopped => stopped

def filterBlock (d : CInstantSendDb) (vtx : List CTransaction) : Filtered :=
  if params.fBlockFiltering then filterTxs params d vtx else .passed d

end

variable (tables : Tables) (tx : CTransaction)

def lockOf (prevout : COutPoint) : Option CInstantSendLock :=
  (tables.byInput.lookup prevout).bind fun hash => tables.locks.lookup hash

def conflictAt (prevout : COutPoint) : Option CInstantSendLock :=
  (lockOf tables prevout).filter fun islock => islock.txid ≠ tx.hash

def firstConflict : Option CInstantSendLock :=
  (tx.vin.map CTxIn.prevout).findSome? (conflictAt tables tx)

/-- Every input with a conflicting lock is an input of the first such lock or of one that builds on it. -/
def Covered : Prop :=
  ∀ first, firstConflict tables tx = some first →
    ∀ prevout ∈ tx.vin.map CTxIn.prevout, (conflictAt tables tx prevout).isSome →
      prevout ∈ first.inputs ∨ ∃ lock, Chained tables first.txid lock ∧ prevout ∈ lock.2.inputs

/-! ### Reachable databases -/

def Reachable (serializeHash : CInstantSendLock → Uint256) (d : CInstantSendDb) : Prop :=
  ∃ ops, d = run serializeHash ops

variable {d : CInstantSendDb} {hash : Uint256} {tx : CTransaction}

section
variable {serializeHash : CInstantSendLock → Uint256}

section
variable (reachable : Reachable serializeHash d)
include reachable

theorem Reachable.apply (op : Op) : Reachable serializeHash (apply serializeHash d op) := by
  obtain ⟨ops, rfl⟩ := reachable
  exact ⟨ops ++ [op], (run_append serializeHash ops op).symm⟩

theorem Reachable.refers : d.db.Refers := by
  obtain ⟨ops, rfl⟩ := reachable
  exact (run_refers_coherent serializeHash ops).1

theorem Reachable.coherent : d.Cached := by
  obtain ⟨ops, rfl⟩ := reachable
  exact (run_refers_coherent serializeHash ops).2

theorem Reachable.hash_eq {islock : CInstantSendLock}
    (stored : d.db.locks.lookup hash = some islock) : serializeHash islock = hash := by
  obtain ⟨ops, rfl⟩ := reachable
  induction ops using reverseRecOn generalizing hash islock with
  | nil => simp [run, empty, Tables.empty] at stored
  | append_singleton done op ih =>
    rw [run_append] at stored
    have effect : Effect serializeHash (run serializeHash done).db op _ :=
      (apply_effect (run_refers_coherent serializeHash done).2 op).1
    generalize (LockIndex.apply serializeHash (run serializeHash done) op).db = after at effect stored
    cases effect with
    | erased known batch whole same =>
      rw [same.locks, Tables.locks_writeBatch] at stored
      split at stored
      · cases stored
      · exact ih stored
    | wrote new same =>
      rw [same.locks, Tables.locks_writeLock] at stored
      split at stored
      next isNew => cases stored; exact isNew.symm
      next => exact ih stored

end

variable {tables : Tables}

theorem lockOf_writeBatch {batch : CDBBatch} (refers : tables.Refers) (whole : tables.Whole batch)
    (prevout : COutPoint) :
    lockOf (tables.writeBatch batch) prevout = if .eraseInput prevout ∈ batch then none else lockOf tables prevout := by
  rw [lockOf, Tables.byInput_writeBatch]
  by_cases erased : Change.eraseInput prevout ∈ batch
  · simp [erased]
  · rw [if_neg erased, if_neg erased, lockOf]
    cases entry : tables.byInput.lookup prevout with
    | none => rfl
    | some hash =>
      obtain ⟨islock, stored, member⟩ := refers.input prevout hash entry
      have kept : Change.eraseLock hash ∉ batch := by
        intro erasedLock
        obtain ⟨other, otherStored, -, inputs⟩ := whole.lock erasedLock
        rw [stored] at otherStored
        cases otherStored
        exact erased (inputs prevout member)
      simp [Tables.locks_writeBatch, kept]

variable {first : CInstantSendLock}

theorem conflictingLock_found {prevouts : List COutPoint} (coherent : d.Cached)
    (known : ∀ prevout, d.db.byInput.lookup prevout ≠ some 0) :
    (conflictingLock tx.hash d prevouts).2 = prevouts.findSome? (conflictAt d.db tx) := by
  induction prevouts generalizing d with
  | nil => rfl
  | cons prevout rest ih =>
    obtain ⟨query, answer⟩ := getInstantSendLockByInput_spec coherent prevout
    have found : (d.getInstantSendLockByInput prevout).2 = lockOf d.db prevout := answer (known prevout)
    have later := ih query.coherent (query.db ▸ known)
    rw [query.db] at later
    rw [conflictingLock, findSome?_cons, conflictAt, found]
    cases lock : lockOf d.db prevout with
    | none => exact later
    | some otherIsLock =>
      by_cases other : otherIsLock.txid ≠ tx.hash
      · simp [other, Option.filter]
      · simpa [other, Option.filter] using later

variable (reachable : Reachable serializeHash d)
include reachable

theorem Reachable.getConflictingLock_found (nonNull : ∀ islock, serializeHash islock ≠ 0) (tx : CTransaction) :
    (d.getConflictingLock tx).2 = firstConflict d.db tx := by
  refine conflictingLock_found reachable.coherent fun prevout entry => ?_
  obtain ⟨islock, stored, -⟩ := reachable.refers.input prevout 0 entry
  exact nonNull islock (reachable.hash_eq stored)

theorem Reachable.none_left_iff (conflict : firstConflict d.db tx = some first) (tipHeight : Nat) :
    firstConflict (d.removeChainLockConflictingLock (serializeHash first) first tipHeight).db tx = none ↔
      Covered d.db tx := by
  obtain ⟨_, -, found⟩ := exists_of_findSome?_eq_some conflict
  obtain ⟨hash, -, stored⟩ := bind_eq_some_iff.mp (filter_eq_some_iff.mp found).1
  rw [← reachable.hash_eq stored] at stored
  obtain ⟨chained, members, db, whole, -⟩ :=
    removeChainLockConflictingLock_spec reachable.coherent (serializeHash first) first tipHeight
  have erased (prevout : COutPoint) : .eraseInput prevout ∈ removalBatch d.db tipHeight (serializeHash first) chained ↔
      prevout ∈ first.inputs ∨ ∃ lock, Chained d.db first.txid lock ∧ prevout ∈ lock.2.inputs := by
    simp only [removalBatch, stored, elim_some, chainedBatch, mem_append, mem_flatMap, mem_erasures]
    constructor
    · rintro ((⟨lock, member, (own | archived)⟩ | own) | archived)
      · exact .inr ⟨lock, (members lock).mp member, by simpa using own⟩
      · simp at archived
      · exact .inl (by simpa using own)
      · simp at archived
    · rintro (own | ⟨lock, member, input⟩)
      · exact .inl (.inr (by simpa using own))
      · exact .inl (.inl ⟨lock, (members lock).mpr member, .inl (by simpa using input)⟩)
  rw [db, firstConflict, findSome?_eq_none_iff]
  simp only [conflictAt, lockOf_writeBatch reachable.refers whole]
  constructor
  · intro left other isFirst prevout member conflicting
    rw [conflict] at isFirst
    cases isFirst
    by_contra uncovered
    have gone := left prevout member
    rw [if_neg (mt (erased prevout).mp uncovered)] at gone
    rw [conflictAt, gone] at conflicting
    cases conflicting
  · intro covered prevout member
    by_cases goes : prevout ∈ first.inputs ∨ ∃ lock, Chained d.db first.txid lock ∧ prevout ∈ lock.2.inputs
    · rw [if_pos ((erased prevout).mpr goes), filter_none]
    · rw [if_neg (mt (erased prevout).mp goes)]
      by_contra left
      exact goes (covered first conflict prevout member (isSome_iff_ne_none.mpr left))

end

/-! ### The assertion -/

section
variable {params : Params}

/-- Before each transaction, as those before it left the locks, the first conflicting lock covers the others. -/
def AllCovered (params : Params) (d : CInstantSendDb) (vtx : List CTransaction) : Prop :=
  ∀ done tx rest before, vtx = done ++ tx :: rest → filterTxs params d done = .passed before → Covered before.db tx

theorem allCovered_cons {rest : List CTransaction} {after : CInstantSendDb}
    (passed : filterTx params d tx = .passed after) :
    AllCovered params d (tx :: rest) ↔ Covered d.db tx ∧ AllCovered params after rest := by
  constructor
  · intro covered
    refine ⟨covered [] tx rest d rfl rfl, fun done next later before split filtered => ?_⟩
    refine covered (tx :: done) next later before (by simp [split]) ?_
    simpa [filterTxs, passed] using filtered
  · rintro ⟨first, others⟩ done next later before split filtered
    cases done with
    | nil =>
      cases split
      cases filtered
      exact first
    | cons head done =>
      cases split
      refine others done next later before rfl ?_
      simpa [filterTxs, passed] using filtered

section
variable (nonNull : ∀ islock, params.serializeHash islock ≠ 0) (chainLocked : params.hasChainLock = true)
  (enabled : params.fInstantSendEnabled = true) (reachable : Reachable params.serializeHash d)
include nonNull chainLocked enabled reachable

theorem filterTx_cases (tx : CTransaction) :
    (Covered d.db tx ∧ ∃ after, filterTx params d tx = .passed after ∧ Reachable params.serializeHash after) ∨
      (¬ Covered d.db tx ∧ filterTx params d tx = .aborted) := by
  by_cases empty : tx.vin.isEmpty
  · refine .inl ⟨?_, d, by simp [filterTx, empty], reachable⟩
    intro first conflict
    simp [firstConflict, isEmpty_iff.mp empty] at conflict
  · have found := reachable.getConflictingLock_found nonNull tx
    have queried : Reachable params.serializeHash (d.getConflictingLock tx).1 := reachable.apply (.getConflictingLock tx)
    have db : (d.getConflictingLock tx).1.db = d.db := (conflictingLock_query reachable.coherent tx.hash _).db
    cases conflict : firstConflict d.db tx with
    | none =>
      refine .inl ⟨fun first isFirst => by simp [conflict] at isFirst, (d.getConflictingLock tx).1, ?_, queried⟩
      simp [filterTx, empty, getConflictingLock, enabled, found, conflict]
    | some first =>
      let removed :=
        (d.getConflictingLock tx).1.removeChainLockConflictingLock (params.serializeHash first) first params.tipHeight
      have removedReachable : Reachable params.serializeHash removed :=
        queried.apply (.removeChainLockConflictingLock first params.tipHeight)
      have again := removedReachable.getConflictingLock_found nonNull tx
      have left := queried.none_left_iff (db ▸ conflict) params.tipHeight
      rw [db] at left
      have result : filterTx params d tx =
          if (firstConflict removed.db tx).isNone then .passed (removed.getConflictingLock tx).1 else .aborted := by
        simp [filterTx, empty, getConflictingLock, enabled, found, conflict, chainLocked, removed, again]
      by_cases covered : Covered d.db tx
      · refine .inl ⟨covered, (removed.getConflictingLock tx).1, ?_, removedReachable.apply (.getConflictingLock tx)⟩
        rw [result, left.mpr covered]
        rfl
      · refine .inr ⟨covered, ?_⟩
        rw [result, if_neg]
        intro none
        exact covered (left.mp (isNone_iff_eq_none.mp none))

theorem filterTxs_ne_aborted_iff (vtx : List CTransaction) :
    filterTxs params d vtx ≠ .aborted ↔ AllCovered params d vtx := by
  induction vtx generalizing d with
  | nil => simp [filterTxs, AllCovered]
  | cons tx rest ih =>
    rcases filterTx_cases nonNull chainLocked enabled reachable tx with
      ⟨covered, after, passed, reachableAfter⟩ | ⟨uncovered, aborted⟩
    · rw [allCovered_cons passed, ← ih reachableAfter]
      simp [filterTxs, passed, covered]
    · refine iff_of_false (by simp [filterTxs, aborted]) fun covered => ?_
      exact uncovered (covered [] tx rest d rfl rfl)

end

theorem filterTxs_disabled (disabled : params.fInstantSendEnabled = false) (d : CInstantSendDb)
    (vtx : List CTransaction) : filterTxs params d vtx = .passed d := by
  induction vtx with
  | nil => rfl
  | cons tx rest ih =>
    by_cases empty : tx.vin.isEmpty <;> simp [filterTxs, filterTx, empty, getConflictingLock, disabled, ih]

/-- For every database that the manager can reach and every ChainLocked block, the assertion holds exactly if the sporks
    switch the check off or, transaction by transaction, the first conflicting lock covers the others. -/
theorem filterBlock_ne_aborted_iff (params : Params) (nonNull : ∀ islock, params.serializeHash islock ≠ 0)
    (chainLocked : params.hasChainLock = true) (ops : List Op) (vtx : List CTransaction) :
    filterBlock params (run params.serializeHash ops) vtx ≠ .aborted ↔
      (params.fBlockFiltering = true → params.fInstantSendEnabled = true →
        AllCovered params (run params.serializeHash ops) vtx) := by
  cases filtering : params.fBlockFiltering with
  | false => simp [filterBlock, filtering]
  | true =>
    cases enabled : params.fInstantSendEnabled with
    | false => simp [filterBlock, filtering, filterTxs_disabled enabled]
    | true =>
      simpa [filterBlock, filtering] using filterTxs_ne_aborted_iff nonNull chainLocked enabled ⟨ops, rfl⟩ vtx

end

private def lockedParams : Params := ⟨fun islock => islock.txid + 1, true, true, true, 50⟩

/-- A lock for transaction 10 that spends an output of 1, and one for 11 that spends one of `parent`. -/
private def twoLocks (parent : Uint256) : List Op :=
  [.processInstantSendLock ⟨[⟨1, 0⟩], 10, []⟩ none, .processInstantSendLock ⟨[⟨parent, 0⟩], 11, []⟩ none]

private def spendsBoth (parent : Uint256) : CTransaction :=
  { vin := [{ prevout := ⟨1, 0⟩ }, { prevout := ⟨parent, 0⟩ }], vout := [⟨1, [0x51]⟩], hash := 12 }

/-- The second lock builds on the first. -/
theorem filterBlock_ne_aborted_chained :
    (∀ islock, lockedParams.serializeHash islock ≠ 0) ∧ lockedParams.hasChainLock = true ∧
      filterBlock lockedParams (run lockedParams.serializeHash (twoLocks 10)) [spendsBoth 10] ≠ .aborted := by
  have nonNull : ∀ islock, lockedParams.serializeHash islock ≠ 0 := fun islock => Nat.succ_ne_zero _
  refine ⟨nonNull, rfl, (filterBlock_ne_aborted_iff lockedParams nonNull rfl _ _).mpr fun _ _ => ?_⟩
  intro done tx rest before split passed first conflict prevout member _
  cases done with
  | cons head done => simp at split
  | nil =>
    cases split
    cases passed
    have isFirst : firstConflict (run lockedParams.serializeHash (twoLocks 10)).db (spendsBoth 10) =
        some ⟨[⟨1, 0⟩], 10, []⟩ := by decide +kernel
    obtain rfl := some.inj (conflict.symm.trans isFirst)
    have which : prevout = ⟨1, 0⟩ ∨ prevout = ⟨10, 0⟩ := by simpa [spendsBoth] using member
    rcases which with rfl | rfl
    · exact .inl (by decide)
    · refine .inr ⟨(12, ⟨[⟨10, 0⟩], 11, []⟩), ⟨10, .refl, ?_⟩, by decide⟩
      decide +kernel

/-- The locks have nothing to do with each other. -/
theorem filterBlock_aborted_unrelated :
    filterBlock lockedParams (run lockedParams.serializeHash (twoLocks 2)) [spendsBoth 2] = .aborted := by
  decide +kernel

end Cspn.LockFilter
