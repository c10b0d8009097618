import Mathlib

/-!
The layered transactions of dbwrapper.h. A `CDBTransaction` keeps pending writes and
deletes over a parent; those of a stack stand one over the other, the lowest over the
database. A key is the serialized one, and is read with the type it was written with.
-/
namespace Cspn.DbTransaction
open List Option Function AList
variable {K V : Type} [DecidableEq K]

/-- A key is never both written and deleted. -/
structure CDBTransaction (K V : Type) [DecidableEq K] where
  writes : AList fun _ : K => V := ∅
  deletes : AList fun _ : K => Unit := ∅
  memoryUsage : Int := 0
  apart : ∀ k ∈ deletes, writes.lookup k = none := by simp

structure Sizes (K V : Type) where
  key : K → Nat
  value : V → Nat

namespace CDBTransaction
variable (sizes : Sizes K V)

def held {W : Type} (cost : K → W → Nat) (m : AList fun _ : K => W) (ssKey : K) : Nat :=
  ((m.lookup ssKey).map (cost ssKey)).getD 0

variable (tx : CDBTransaction K V) (ssKey : K)

def writeCost (v : V) : Nat := sizes.key ssKey + sizes.value v
def deleteCost (_ : Unit) : Nat := sizes.key ssKey

def write (v : V) : CDBTransaction K V where
  deletes := tx.deletes.erase ssKey
  writes := tx.writes.insert ssKey v
  memoryUsage := tx.memoryUsage - held (deleteCost sizes) tx.deletes ssKey - held (writeCost sizes) tx.writes ssKey
    + writeCost sizes ssKey v
  apart k deleted := by
    obtain ⟨other, before⟩ := mem_erase.mp deleted
    rw [lookup_insert_ne other]
    exact tx.apart k before

def erase : CDBTransaction K V where
  writes := tx.writes.erase ssKey
  deletes := tx.deletes.insert ssKey ()
  memoryUsage := tx.memoryUsage - held (writeCost sizes) tx.writes ssKey
    + (if ssKey ∈ tx.deletes then 0 else deleteCost sizes ssKey ())
  apart k deleted := by
    by_cases same : k = ssKey
    · rw [same, lookup_erase]
    · rw [lookup_erase_ne same]
      exact tx.apart k ((mem_insert _).mp deleted |>.resolve_left same)

def isClean : Bool := tx.writes.entries.isEmpty && tx.deletes.entries.isEmpty

def getMemoryUsage : Nat := if tx.memoryUsage < 0 then 0 else tx.memoryUsage.toNat

def commitTo {Target : Type} (eraseIn : Target → K → Target) (writeIn : Target → K → V → Target)
    (tx : CDBTransaction K V) (commitTarget : Target) : Target :=
  tx.writes.entries.foldl (fun target p => writeIn target p.1 p.2) (tx.deletes.keys.foldl eraseIn commitTarget)

def read (parent : K → Option V) (ssKey : K) : Option V :=
  if ssKey ∈ tx.deletes then none else
  match tx.writes.lookup ssKey with
  | some value => some value
  | none => parent ssKey

def exists_ (parent : K → Bool) (ssKey : K) : Bool :=
  if ssKey ∈ tx.deletes then false else
  if ssKey ∈ tx.writes then true else parent ssKey

end CDBTransaction
open CDBTransaction

/-- The parent of the first transaction is the database, that of each other one the one before. -/
structure Stack (K V : Type) [DecidableEq K] where
  db : K → Option V
  level : Nat → CDBTransaction K V := fun _ => {}

inductive Op (K V : Type) where
  | write (level : Nat) (ssKey : K) (v : V)
  | erase (level : Nat) (ssKey : K)
  | clear (level : Nat)
  | commit (level : Nat)

namespace Stack
variable (sizes : Sizes K V)

def set (s : Stack K V) (level : Nat) (tx : CDBTransaction K V) : Stack K V :=
  { s with level := update s.level level tx }

/-- The lowest transaction commits to a batch, which is then written to the database. -/
def commit (s : Stack K V) : Nat → Stack K V
  | 0 => { s.set 0 {} with
      db := (s.level 0).commitTo (fun db k => update db k none) (fun db k v => update db k (some v)) s.db }
  | n + 1 => (s.set n ((s.level (n + 1)).commitTo (erase sizes) (write sizes) (s.level n))).set (n + 1) {}

def step (s : Stack K V) : Op K V → Stack K V
  | .write n ssKey v => s.set n ((s.level n).write sizes ssKey v)
  | .erase n ssKey => s.set n ((s.level n).erase sizes ssKey)
  | .clear n => s.set n {}
  | .commit n => s.commit sizes n

def run (s : Stack K V) (ops : List (Op K V)) : Stack K V := ops.foldl (step sizes) s

/-- `Read` with `n` transactions in use: in the database for 0, in the last of them otherwise. -/
def read (s : Stack K V) : Nat → K → Option V
  | 0 => s.db
  | n + 1 => (s.level n).read (s.read n)

def exists_ (s : Stack K V) : Nat → K → Bool
  | 0, ssKey => (s.db ssKey).isSome
  | n + 1, ssKey => (s.level n).exists_ (s.exists_ n) ssKey

end Stack

inductive Assertion where
  | notClean
  | finished

structure CScopedDBTransaction where
  dbTransaction : Nat
  didCommitOrRollback : Bool := false

namespace CScopedDBTransaction
variable (sizes : Sizes K V) (scope : CScopedDBTransaction) (s : Stack K V)

def begin (dbTx : Nat) : Except Assertion CScopedDBTransaction :=
  if (s.level dbTx).isClean then .ok { dbTransaction := dbTx } else .error .notClean

def finish (op : Nat → Op K V) : Except Assertion (CScopedDBTransaction × Stack K V) :=
  if scope.didCommitOrRollback then .error .finished
  else .ok ({ scope with didCommitOrRollback := true }, s.step sizes (op scope.dbTransaction))

def commit : Except Assertion (CScopedDBTransaction × Stack K V) := scope.finish sizes s .commit
def rollback : Except Assertion (CScopedDBTransaction × Stack K V) := scope.finish sizes s .clear

def destroy : Except Assertion (Stack K V) :=
  if scope.didCommitOrRollback then .ok s else Prod.snd <$> scope.rollback sizes s

end CScopedDBTransaction

/-- Writes and erasures in the order they were made. -/
abbrev Log (K V : Type) := List (K × Option V)

def applyLog (log : Log K V) (m : K → Option V) : K → Option V :=
  log.foldl (fun m change => update m change.1 change.2) m

/-- The logs of the database and of the transactions over it. A commit moves a log down. -/
def Op.log (logs : Nat → Log K V) : Op K V → Nat → Log K V
  | .write n ssKey v => update logs (n + 1) (logs (n + 1) ++ [(ssKey, some v)])
  | .erase n ssKey => update logs (n + 1) (logs (n + 1) ++ [(ssKey, none)])
  | .clear n => update logs (n + 1) []
  | .commit n => update (update logs n (logs n ++ logs (n + 1))) (n + 1) []

def map (base : K → Option V) (logs : Nat → Log K V) : Nat → K → Option V
  | 0 => applyLog (logs 0) base
  | n + 1 => applyLog (logs (n + 1)) (map base logs n)

/-! ### One transaction -/

namespace CDBTransaction
variable (sizes : Sizes K V) (tx : CDBTransaction K V) (parent : K → Option V) (ssKey : K)

theorem read_write (v : V) : (tx.write sizes ssKey v).read parent = update (tx.read parent) ssKey (some v) := by
  funext k
  by_cases same : k = ssKey
  · subst same
    simp [read, write, mem_erase]
  · simp [read, write, same, mem_erase, lookup_insert_ne same]

theorem read_erase : (tx.erase sizes ssKey).read parent = update (tx.read parent) ssKey none := by
  funext k
  by_cases same : k = ssKey
  · simp [read, erase, same]
  · simp [read, erase, same, lookup_erase_ne same]

variable {Target : Type}

theorem foldl_writes {put : Target → (_ : K) × V → Target} {shown : Target → K → Option V}
    (puts : ∀ target p, shown (put target p) = update (shown target) p.1 (some p.2))
    {entries : List ((_ : K) × V)} (distinct : entries.NodupKeys) (target : Target) :
    shown (entries.foldl put target) ssKey = (entries.dlookup ssKey).or (shown target ssKey) := by
  induction entries generalizing target with
  | nil => simp
  | cons p rest ih =>
    obtain ⟨k, v⟩ := p
    obtain ⟨absent, rest_distinct⟩ := nodupKeys_cons.mp distinct
    rw [foldl_cons, ih rest_distinct, puts]
    by_cases same : ssKey = k
    · subst same
      simp [dlookup_eq_none.mpr absent]
    · simp [same]

theorem foldl_deletes {remove : Target → K → Target} {shown : Target → K → Option V}
    (removes : ∀ target k, shown (remove target k) = update (shown target) k none) (keys : List K) (target : Target) :
    shown (keys.foldl remove target) ssKey = if ssKey ∈ keys then none else shown target ssKey := by
  induction keys generalizing target with
  | nil => simp
  | cons k rest ih =>
    rw [foldl_cons, ih, removes]
    by_cases same : ssKey = k <;> simp [same]

/-- A commit gives the target what the transaction reads over it. -/
theorem shown_commitTo {eraseIn : Target → K → Target} {writeIn : Target → K → V → Target}
    (shown : Target → K → Option V) (erases : ∀ target k, shown (eraseIn target k) = update (shown target) k none)
    (writes : ∀ target k v, shown (writeIn target k v) = update (shown target) k (some v))
    (target : Target) : shown (tx.commitTo eraseIn writeIn target) = tx.read (shown target) := by
  funext k
  rw [commitTo, foldl_writes k (fun target p => writes target p.1 p.2) tx.writes.nodupKeys, foldl_deletes k erases]
  change (tx.writes.lookup k).or _ = _
  simp only [← AList.mem_keys]
  by_cases deleted : k ∈ tx.deletes
  · simp [read, deleted, tx.apart k deleted]
  · cases written : tx.writes.lookup k <;> simp [read, deleted, written]

/-! The memory of the pending entries -/

section
variable {W : Type} (cost : K → W → Nat) (m : AList fun _ : K => W)

def total : Nat := (m.entries.map fun p => cost p.1 p.2).sum

theorem total_erase : total cost (m.erase ssKey) + held cost m ssKey = total cost m := by
  cases found : m.lookup ssKey with
  | none =>
    have erased : (m.erase ssKey).entries = m.entries := kerase_of_notMem_keys (dlookup_eq_none.mp found)
    simp [total, held, found, erased]
  | some w =>
    have present : ssKey ∈ m.entries.keys := dlookup_isSome.mp (isSome_of_mem found)
    obtain ⟨w', before, after, absent, entries, erased⟩ := exists_of_kerase present
    have same : m.lookup ssKey = some w' := by
      rw [AList.lookup, entries, dlookup_append, dlookup_eq_none.mpr absent]
      simp
    rw [total, show (m.erase ssKey).entries = before ++ after from erased, total, entries]
    simp [held, same]
    omega

theorem total_insert (w : W) : total cost (m.insert ssKey w) + held cost m ssKey = total cost m + cost ssKey w := by
  have erased := total_erase ssKey cost m
  have split : total cost (m.insert ssKey w) = cost ssKey w + total cost (m.erase ssKey) := by
    simp [total, AList.erase]
  omega

end

def Accounted : Prop := tx.memoryUsage = total (writeCost sizes) tx.writes + total (deleteCost sizes) tx.deletes

variable {sizes} {tx}

theorem accounted_empty : Accounted sizes ({} : CDBTransaction K V) := rfl

section
variable (accounted : tx.Accounted sizes)
include accounted

theorem Accounted.write (v : V) : (tx.write sizes ssKey v).Accounted sizes := by
  have writes := total_insert ssKey (writeCost sizes) tx.writes v
  have deletes := total_erase ssKey (deleteCost sizes) tx.deletes
  simp only [Accounted, CDBTransaction.write] at accounted ⊢
  omega

theorem Accounted.erase : (tx.erase sizes ssKey).Accounted sizes := by
  have writes := total_erase ssKey (writeCost sizes) tx.writes
  have deletes := total_insert ssKey (deleteCost sizes) tx.deletes ()
  have present : held (deleteCost sizes) tx.deletes ssKey = if ssKey ∈ tx.deletes then deleteCost sizes ssKey () else 0 := by
    cases found : tx.deletes.lookup ssKey with
    | none => simp [held, found, lookup_eq_none.mp found]
    | some _ => simp [held, found, lookup_isSome.mp (isSome_of_mem found)]
  simp only [Accounted, CDBTransaction.erase] at accounted ⊢
  split at present
  case isTrue deleted => simp only [if_pos deleted]; omega
  case isFalse absent => simp only [if_neg absent]; omega

theorem Accounted.commitTo (child : CDBTransaction K V) :
    (child.commitTo (CDBTransaction.erase sizes) (CDBTransaction.write sizes) tx).Accounted sizes := by
  refine foldlRecOn _ _ (foldlRecOn _ _ accounted ?_) ?_
  · exact fun target before k _ => before.erase k
  · exact fun target before p _ => before.write p.1 p.2

theorem Accounted.clean (clean : tx.isClean = true) : tx.getMemoryUsage = 0 := by
  simp only [isClean, Bool.and_eq_true, List.isEmpty_iff] at clean
  have zero : tx.memoryUsage = 0 := by
    rw [accounted]
    simp [total, clean.1, clean.2]
  simp [getMemoryUsage, zero]

end

theorem read_empty (parent : K → Option V) : ({} : CDBTransaction K V).read parent = parent := by
  funext k
  simp [read]

end CDBTransaction

/-! ### The stack -/

namespace Stack
variable (sizes : Sizes K V) {s : Stack K V} {logs : Nat → Log K V} {base : K → Option V}

/-- Each transaction reads what its log describes, over any parent. -/
structure Refines (s : Stack K V) (base : K → Option V) (logs : Nat → Log K V) : Prop where
  db : s.db = applyLog (logs 0) base
  level : ∀ n parent, (s.level n).read parent = applyLog (logs (n + 1)) parent

section
variable (refines : Refines s base logs)
include refines

theorem Refines.read (n : Nat) : s.read n = map base logs n := by
  induction n with
  | zero => exact refines.db
  | succ n ih => rw [Stack.read, map, refines.level, ih]

theorem Refines.set {n : Nat} {tx : CDBTransaction K V} {log : Log K V}
    (same : ∀ parent, tx.read parent = applyLog log parent) :
    Refines (s.set n tx) base (update logs (n + 1) log) where
  db := by
    exact refines.db
  level other parent := by
    by_cases here : other = n
    · subst here
      simp [Stack.set, same]
    · simp [Stack.set, here, refines.level]

theorem Refines.step (op : Op K V) : Refines (s.step sizes op) base (op.log logs) := by
  cases op with
  | write n ssKey v => exact refines.set fun parent => by simp [read_write, refines.level, applyLog]
  | erase n ssKey => exact refines.set fun parent => by simp [read_erase, refines.level, applyLog]
  | clear n => exact refines.set read_empty
  | commit n =>
    cases n with
    | zero =>
      refine ⟨(shown_commitTo _ id (fun _ _ => rfl) (fun _ _ _ => rfl) s.db).trans ?_, fun n parent => ?_⟩
      · simp [Op.log, refines.level, refines.db, applyLog]
      · have cleared := (refines.set (n := 0) (show ∀ m, CDBTransaction.read {} m = applyLog [] m from read_empty)).level
        refine (cleared n parent).trans ?_
        simp [Op.log, update_apply]
    | succ n =>
      refine Refines.set (refines.set fun parent => ?_) read_empty
      rw [shown_commitTo _ (CDBTransaction.read · parent) (fun tx k => read_erase sizes tx parent k)
        (fun tx k v => read_write sizes tx parent k v), refines.level, refines.level]
      simp [applyLog]

theorem Refines.run (ops : List (Op K V)) : Refines (s.run sizes ops) base (ops.foldl Op.log logs) := by
  induction ops generalizing s logs with
  | nil => exact refines
  | cons op rest ih => exact ih (refines.step sizes op)

end

theorem exists_read (n : Nat) (ssKey : K) : s.exists_ n ssKey = (s.read n ssKey).isSome := by
  induction n with
  | zero => rfl
  | succ n ih =>
    by_cases deleted : ssKey ∈ (s.level n).deletes
    · simp [exists_, read, CDBTransaction.exists_, CDBTransaction.read, deleted]
    · cases written : (s.level n).writes.lookup ssKey with
      | none =>
        simp [exists_, read, CDBTransaction.exists_, CDBTransaction.read, deleted, written, lookup_eq_none.mp written, ih]
      | some v =>
        have present := lookup_isSome.mp (isSome_of_mem written)
        simp [exists_, read, CDBTransaction.exists_, CDBTransaction.read, deleted, written, present]

/-- The operation is on the transaction or on one above it, and is not its commit. -/
def Within (n : Nat) : Op K V → Prop
  | .write m _ _ | .erase m _ | .clear m => n ≤ m
  | .commit m => n < m

theorem read_step {op : Op K V} {n lower : Nat} (within : Within n op) (le : lower ≤ n) :
    (s.step sizes op).read lower = s.read lower := by
  have kept : (s.step sizes op).db = s.db ∧ ∀ m < n, (s.step sizes op).level m = s.level m := by
    cases op with
    | commit m =>
      simp only [Within] at within
      obtain ⟨m, rfl⟩ : ∃ e, m = e + 1 := ⟨m - 1, by omega⟩
      refine ⟨rfl, fun e less => ?_⟩
      simp [step, Stack.commit, set, show e ≠ m + 1 by omega, show e ≠ m by omega]
    | _ m =>
      simp only [Within] at within
      refine ⟨rfl, fun e less => ?_⟩
      simp [step, set, show e ≠ m by omega]
  induction lower with
  | zero => exact kept.1
  | succ lower ih => rw [read, read, kept.2 lower (by omega), ih (by omega)]

theorem read_run {ops : List (Op K V)} {n lower : Nat} (within : ∀ op ∈ ops, Within n op) (le : lower ≤ n) :
    (s.run sizes ops).read lower = s.read lower := by
  induction ops generalizing s with
  | nil => rfl
  | cons op rest ih =>
    exact (ih fun other member => within other (mem_cons_of_mem op member)).trans
      (read_step sizes (within op (.head _)) le)

theorem read_clear (n : Nat) : (s.step sizes (.clear n)).read (n + 1) = s.read n := by
  rw [read, read_step sizes (show Within n (.clear n) from le_rfl) le_rfl]
  simp [step, set, read_empty]

theorem read_commit (n : Nat) : (s.step sizes (.commit n)).read n = s.read (n + 1) := by
  cases n with
  | zero => exact shown_commitTo _ id (fun _ _ => rfl) (fun _ _ _ => rfl) s.db
  | succ n =>
    have target : (s.step sizes (.commit (n + 1))).level n
        = (s.level (n + 1)).commitTo (erase sizes) (write sizes) (s.level n) := by
      simp [step, Stack.commit, set]
    rw [read, read_step sizes (show Within n (.commit (n + 1)) from n.lt_succ_self) le_rfl, target]
    exact shown_commitTo _ (CDBTransaction.read · (s.read n)) (fun tx k => read_erase sizes tx _ k)
      (fun tx k v => read_write sizes tx _ k v) (s.level n)

theorem accounted_set (accounted : ∀ n, (s.level n).Accounted sizes) {tx : CDBTransaction K V}
    (fits : tx.Accounted sizes) (n m : Nat) : ((s.set n tx).level m).Accounted sizes := by
  by_cases here : m = n <;> simp [Stack.set, here, fits, accounted]

theorem accounted_run (accounted : ∀ n, (s.level n).Accounted sizes) (ops : List (Op K V)) (m : Nat) :
    ((s.run sizes ops).level m).Accounted sizes := by
  induction ops generalizing s with
  | nil => exact accounted m
  | cons op rest ih =>
    refine ih fun other => ?_
    cases op with
    | write n ssKey v => exact accounted_set sizes accounted ((accounted n).write ssKey v) n other
    | erase n ssKey => exact accounted_set sizes accounted ((accounted n).erase ssKey) n other
    | clear n => exact accounted_set sizes accounted accounted_empty n other
    | commit n =>
      cases n with
      | zero => exact accounted_set sizes accounted accounted_empty 0 other
      | succ n =>
        refine accounted_set sizes (fun between => ?_) accounted_empty (n + 1) other
        exact accounted_set sizes accounted ((accounted n).commitTo _) n between

structure Behaves (s : Stack K V) (base : K → Option V) (logs : Nat → Log K V) : Prop where
  read : ∀ n, s.read n = map base logs n
  exists_ : ∀ n ssKey, s.exists_ n ssKey = (map base logs n ssKey).isSome
  commit : ∀ n, (s.step sizes (.commit n)).read n = s.read (n + 1)
  clear : ∀ n, (s.step sizes (.clear n)).read (n + 1) = s.read n
  /-- What is done in the scope of a transaction that is then destroyed leaves everything below as it was. -/
  scope : ∀ n scope ops, CScopedDBTransaction.begin s n = .ok scope → (∀ op ∈ ops, Within n op) →
    ∃ after, scope.destroy sizes (s.run sizes ops) = .ok after ∧ ∀ lower ≤ n, after.read lower = s.read lower
  noUnderflow : ∀ n, 0 ≤ (s.level n).memoryUsage
  emptied : ∀ n, (s.level n).isClean = true → (s.level n).getMemoryUsage = 0

end Stack

end Cspn.DbTransaction
