import Cspn.Folds
import Cspn.Primitives

/-!
The index of transactions that are not locked yet. A transaction is held under its id with those that spend its
outputs, a mere parent has an empty place, and a second map goes from outpoints to spenders. The index is exact as
long as transactions come and go in the order of their spending.
-/
namespace Cspn.NonLocked
open Primitives List AList CTxIn

structure NonLockedTxInfo where
  tx : Option CTransaction := none
  children : List Uint256 := []

/-- The part of `CInstantSendManager` that keeps track of transactions without a lock. -/
structure Manager where
  nonLockedTxs : AList fun _ : Uint256 => NonLockedTxInfo
  nonLockedTxsByInputs : List (COutPoint × Uint256)
  pendingRetryTxs : List Uint256
  inputRequestIds : List Uint256

namespace Manager

def empty : Manager := ⟨∅, [], [], []⟩

variable (txid : Uint256) (m : Manager)

def addChild (txin : CTxIn) : Manager :=
  let info := (m.nonLockedTxs.lookup txin.prevout.hash).getD {}
  { m with
    nonLockedTxs := m.nonLockedTxs.insert txin.prevout.hash { info with children := info.children.insert txid } }

def addNonLockedTx (tx : CTransaction) : Manager :=
  let known := m.nonLockedTxs.lookup tx.hash
  let info := known.getD {}
  let m :=
    if info.tx.isSome then m
    else
      tx.vin.foldl (addChild tx.hash)
        { m with nonLockedTxs := m.nonLockedTxs.insert tx.hash { info with tx := some tx } }
  if known.isNone then
    { m with
      nonLockedTxsByInputs := m.nonLockedTxsByInputs ++ tx.vin.map fun txin => (txin.prevout, tx.hash) }
  else m

/-- The parent of a removed transaction; a place without a transaction goes with its last child. -/
def dropChild (info : NonLockedTxInfo) : Option NonLockedTxInfo :=
  let children := info.children.filter (· ≠ txid)
  if info.tx.isNone && children.isEmpty then none else some { info with children }

/-- One input in the loop of `RemoveNonLockedTx`. Every entry of the outpoint goes, whoever spends it. -/
def dropInput (txin : CTxIn) : Manager :=
  let nonLockedTxs :=
    match m.nonLockedTxs.lookup txin.prevout.hash with
    | none => m.nonLockedTxs
    | some info =>
      match dropChild txid info with
      | none => m.nonLockedTxs.erase txin.prevout.hash
      | some info => m.nonLockedTxs.insert txin.prevout.hash info
  { m with
    nonLockedTxs
    nonLockedTxsByInputs := m.nonLockedTxsByInputs.filter fun entry => entry.1 ≠ txin.prevout }

def removeNonLockedTx (txid : Uint256) (retryChildren : Bool) : Manager :=
  match m.nonLockedTxs.lookup txid with
  | none => m
  | some info =>
    let m :=
      if retryChildren then
        { m with pendingRetryTxs := info.children.foldl (fun txs childTxid => txs.insert childTxid) m.pendingRetryTxs }
      else m
    let m :=
      match info.tx with
      | none => m
      | some tx => tx.vin.foldl (dropInput txid) m
    { m with nonLockedTxs := m.nonLockedTxs.erase txid }

/-- `RemoveConflictedTx`. The request id is hashed over the whole input. -/
def removeConflictedTx (inputRequestId : CTxIn → Uint256) (m : Manager) (tx : CTransaction) : Manager :=
  let m := m.removeNonLockedTx tx.hash false
  { m with
    inputRequestIds := tx.vin.foldl (fun ids txin => ids.filter (· ≠ inputRequestId txin)) m.inputRequestIds }

end Manager

open Manager

inductive Op where
  | addNonLockedTx (tx : CTransaction)
  | removeNonLockedTx (txid : Uint256) (retryChildren : Bool)
  | removeConflictedTx (tx : CTransaction)

section
variable (inputRequestId : CTxIn → Uint256)

def apply (m : Manager) : Op → Manager
  | .addNonLockedTx tx => m.addNonLockedTx tx
  | .removeNonLockedTx txid retryChildren => m.removeNonLockedTx txid retryChildren
  | .removeConflictedTx tx => m.removeConflictedTx inputRequestId tx

def run (ops : List Op) : Manager := ops.foldl (apply inputRequestId) .empty

end

namespace Manager

def spends (m : Manager) (txid : Uint256) : List COutPoint :=
  ((m.nonLockedTxs.lookup txid).bind NonLockedTxInfo.tx).elim [] fun tx => tx.vin.map prevout

def SpendsOutputOf (m : Manager) (child parent : Uint256) : Prop := ∃ outpoint ∈ m.spends child, outpoint.hash = parent

/-- The map by inputs has the entries of the held transactions, one for each input, and an entry has as children the
    held transactions that spend its outputs. -/
structure Exact (m : Manager) : Prop where
  byInputs : ∀ outpoint txid, m.nonLockedTxsByInputs.count (outpoint, txid) = (m.spends txid).count outpoint
  children : ∀ txid info, m.nonLockedTxs.lookup txid = some info →
    ∀ child, child ∈ info.children ↔ m.SpendsOutputOf child txid

/-- What keeps the index exact: a new transaction with inputs has no place as a parent, and neither it nor a parent
    that gets a place has a child that is held. -/
def AddOk (m : Manager) (tx : CTransaction) : Prop :=
  match m.nonLockedTxs.lookup tx.hash with
  | some info => info.tx.isNone → tx.vin = []
  | none =>
    (∀ child, ¬ m.SpendsOutputOf child tx.hash) ∧
      ∀ txin ∈ tx.vin, m.nonLockedTxs.lookup txin.prevout.hash = none →
        ∀ child, ¬ m.SpendsOutputOf child txin.prevout.hash

/-- No other held transaction spends an input of the one that is removed. -/
def RemoveOk (m : Manager) (txid : Uint256) : Prop :=
  ∀ outpoint ∈ m.spends txid, ∀ other, other ≠ txid → outpoint ∉ m.spends other

end Manager

def Op.Ok (m : Manager) : Op → Prop
  | .addNonLockedTx tx => m.AddOk tx
  | .removeNonLockedTx txid _ => m.RemoveOk txid
  | .removeConflictedTx tx => m.RemoveOk tx.hash

/-! ### What the functions do -/

namespace Manager

variable (txid : Uint256) (place : Option NonLockedTxInfo)

def withChild : NonLockedTxInfo :=
  { place.getD {} with children := (place.getD {}).children.insert txid }

def spendsOf : List COutPoint :=
  (place.bind NonLockedTxInfo.tx).elim [] fun tx => tx.vin.map prevout

theorem spends_eq (m : Manager) (txid : Uint256) : m.spends txid = spendsOf (m.nonLockedTxs.lookup txid) := rfl

@[simp] theorem spendsOf_withChild : spendsOf (some (withChild txid place)) = spendsOf place := by
  cases place <;> rfl

variable {txid : Uint256}

theorem lookup_addChildren (m : Manager) (txid : Uint256) (vin : List CTxIn) (hash : Uint256) :
    (vin.foldl (addChild txid) m).nonLockedTxs.lookup hash =
      if hash ∈ vin.map (·.prevout.hash) then some (withChild txid (m.nonLockedTxs.lookup hash))
      else m.nonLockedTxs.lookup hash := by
  induction vin generalizing m with
  | nil => rfl
  | cons txin rest ih =>
    rw [foldl_cons, ih]
    by_cases same : hash = txin.prevout.hash
    · subst same
      have first : (m.addChild txid txin).nonLockedTxs.lookup txin.prevout.hash =
          some (withChild txid (m.nonLockedTxs.lookup txin.prevout.hash)) := by
        simp [addChild, withChild]
      have twice : withChild txid (some (withChild txid (m.nonLockedTxs.lookup txin.prevout.hash))) =
          withChild txid (m.nonLockedTxs.lookup txin.prevout.hash) := by
        simp [withChild]
      rw [first, twice]
      simp
    · have other : (m.addChild txid txin).nonLockedTxs.lookup hash = m.nonLockedTxs.lookup hash := by
        simp [addChild, lookup_insert_ne same]
      rw [other]
      simp [same]

theorem byInputs_addChildren (m : Manager) (txid : Uint256) (vin : List CTxIn) :
    (vin.foldl (addChild txid) m).nonLockedTxsByInputs = m.nonLockedTxsByInputs := by
  induction vin generalizing m with
  | nil => rfl
  | cons txin rest ih => exact ih _

def held (tx : CTransaction) (place : Option NonLockedTxInfo) : NonLockedTxInfo := { place.getD {} with tx := some tx }

theorem count_entries (vin : List CTxIn) (hash txid : Uint256) (outpoint : COutPoint) :
    (vin.map fun txin => (txin.prevout, hash)).count (outpoint, txid) =
      if txid = hash then (vin.map prevout).count outpoint else 0 := by
  induction vin with
  | nil => simp
  | cons txin rest ih =>
    rw [map_cons, count_cons, ih]
    by_cases same : txid = hash
    · subst same
      simp [count_cons]
    · simp [same, Ne.symm same]

section
variable {m : Manager} {tx : CTransaction} {info : NonLockedTxInfo} {hash : Uint256}

section
variable (notHeld : ((m.nonLockedTxs.lookup tx.hash).getD {}).tx = none)
include notHeld

theorem lookup_addNonLockedTx (hash : Uint256) : (m.addNonLockedTx tx).nonLockedTxs.lookup hash =
      let place := if hash = tx.hash then some (held tx (m.nonLockedTxs.lookup tx.hash)) else m.nonLockedTxs.lookup hash
      if hash ∈ tx.vin.map (·.prevout.hash) then some (withChild tx.hash place) else place := by
  have placed : (m.nonLockedTxs.insert tx.hash (held tx (m.nonLockedTxs.lookup tx.hash))).lookup hash =
      if hash = tx.hash then some (held tx (m.nonLockedTxs.lookup tx.hash)) else m.nonLockedTxs.lookup hash := by
    by_cases same : hash = tx.hash
    · subst same
      simp
    · simp [same]
  have children := lookup_addChildren
    { m with nonLockedTxs := m.nonLockedTxs.insert tx.hash (held tx (m.nonLockedTxs.lookup tx.hash)) } tx.hash tx.vin hash
  rw [placed] at children
  rw [← children]
  by_cases known : (m.nonLockedTxs.lookup tx.hash).isNone = true
  · simp [addNonLockedTx, notHeld, known, held]
  · simp [addNonLockedTx, notHeld, known, held]

theorem byInputs_addNonLockedTx : (m.addNonLockedTx tx).nonLockedTxsByInputs =
      if (m.nonLockedTxs.lookup tx.hash).isNone then
        m.nonLockedTxsByInputs ++ tx.vin.map fun txin => (txin.prevout, tx.hash) else m.nonLockedTxsByInputs := by
  by_cases known : (m.nonLockedTxs.lookup tx.hash).isNone = true
  · simp [addNonLockedTx, notHeld, known, byInputs_addChildren]
  · simp [addNonLockedTx, notHeld, known, byInputs_addChildren]

theorem spends_of_not_held : m.spends tx.hash = [] := by
  rw [spends_eq, spendsOf]
  cases found : m.nonLockedTxs.lookup tx.hash with
  | none => rfl
  | some info =>
    rw [found] at notHeld
    have none : info.tx = none := notHeld
    simp [none]

theorem spends_addNonLockedTx (txid : Uint256) :
    (m.addNonLockedTx tx).spends txid = if txid = tx.hash then tx.vin.map prevout else m.spends txid := by
  have place : (m.addNonLockedTx tx).spends txid =
      spendsOf (if txid = tx.hash then some (held tx (m.nonLockedTxs.lookup tx.hash)) else m.nonLockedTxs.lookup txid) := by
    rw [spends_eq, lookup_addNonLockedTx notHeld]
    by_cases parent : txid ∈ tx.vin.map (·.prevout.hash)
    · simp [parent]
    · simp [parent]
  rw [place]
  by_cases same : txid = tx.hash
  · simp [same, spendsOf, held]
  · simp [same, spends_eq]

theorem spendsOutputOf_addNonLockedTx (child parent : Uint256) : (m.addNonLockedTx tx).SpendsOutputOf child parent ↔
      (child = tx.hash ∧ parent ∈ tx.vin.map (·.prevout.hash)) ∨ m.SpendsOutputOf child parent := by
  rw [SpendsOutputOf, SpendsOutputOf, spends_addNonLockedTx notHeld]
  by_cases same : child = tx.hash
  · simp [same, spends_of_not_held notHeld]
  · simp [same]

theorem mem_children_addNonLockedTx (place : (m.addNonLockedTx tx).nonLockedTxs.lookup hash = some info)
    (child : Uint256) : child ∈ info.children ↔ (child = tx.hash ∧ hash ∈ tx.vin.map (·.prevout.hash)) ∨
      child ∈ ((m.nonLockedTxs.lookup hash).getD {}).children := by
  have before : ((if hash = tx.hash then some (held tx (m.nonLockedTxs.lookup tx.hash))
      else m.nonLockedTxs.lookup hash).getD {}).children = ((m.nonLockedTxs.lookup hash).getD {}).children := by
    by_cases same : hash = tx.hash
    · subst same
      simp [held]
    · simp [same]
  rw [lookup_addNonLockedTx notHeld] at place
  rw [← before]
  by_cases parent : hash ∈ tx.vin.map (·.prevout.hash)
  · simp only [parent, if_true, Option.some.injEq] at place
    rw [← place, withChild, mem_insert_iff]
    simp [parent]
  · simp only [parent, if_false] at place
    rw [place]
    simp [parent]

theorem new_place_addNonLockedTx (absent : m.nonLockedTxs.lookup hash = none) :
    (∃ info, (m.addNonLockedTx tx).nonLockedTxs.lookup hash = some info) ↔
      hash = tx.hash ∨ hash ∈ tx.vin.map (·.prevout.hash) := by
  rw [lookup_addNonLockedTx notHeld]
  by_cases same : hash = tx.hash
  · by_cases parent : hash ∈ tx.vin.map (·.prevout.hash)
    · simp [parent]
    · simp only [parent, if_false]
      simp [same]
  · by_cases parent : hash ∈ tx.vin.map (·.prevout.hash)
    · simp [parent]
    · simp [parent, absent]

end

theorem lookup_dropInput (m : Manager) (txid : Uint256) (txin : CTxIn) (hash : Uint256) :
    (m.dropInput txid txin).nonLockedTxs.lookup hash =
      if hash = txin.prevout.hash then (m.nonLockedTxs.lookup hash).bind (dropChild txid)
      else m.nonLockedTxs.lookup hash := by
  rw [dropInput]
  by_cases same : hash = txin.prevout.hash
  · subst same
    cases place : m.nonLockedTxs.lookup txin.prevout.hash with
    | none => simp [place]
    | some info => cases dropped : dropChild txid info <;> simp [dropped]
  · cases m.nonLockedTxs.lookup txin.prevout.hash with
    | none => simp [same]
    | some info =>
      cases dropped : dropChild txid info <;> simp [dropped, same]

theorem dropChild_cases (txid : Uint256) (info : NonLockedTxInfo) :
    dropChild txid info = some { info with children := info.children.filter (· ≠ txid) } ∨
      dropChild txid info = none ∧ info.tx = none := by
  rw [dropChild]
  by_cases goes : (info.tx.isNone && (info.children.filter (· ≠ txid)).isEmpty) = true
  · exact Or.inr ⟨if_pos goes, Option.isNone_iff_eq_none.mp (Bool.and_eq_true_iff.mp goes).1⟩
  · exact Or.inl (if_neg goes)

theorem dropChild_twice (txid : Uint256) (place : Option NonLockedTxInfo) :
    (place.bind (dropChild txid)).bind (dropChild txid) = place.bind (dropChild txid) := by
  cases place with
  | none => rfl
  | some info =>
    rw [Option.bind_some]
    rcases dropChild_cases txid info with kept | ⟨gone, _⟩
    · rw [kept, Option.bind_some]
      simpa [dropChild] using kept
    · rw [gone, Option.bind_none]

theorem lookup_dropInputs (m : Manager) (txid : Uint256) (vin : List CTxIn) (hash : Uint256) :
    (vin.foldl (dropInput txid) m).nonLockedTxs.lookup hash =
      if hash ∈ vin.map (·.prevout.hash) then (m.nonLockedTxs.lookup hash).bind (dropChild txid)
      else m.nonLockedTxs.lookup hash := by
  induction vin generalizing m with
  | nil => rfl
  | cons txin rest ih =>
    rw [foldl_cons, ih, lookup_dropInput]
    by_cases same : hash = txin.prevout.hash
    · rw [if_pos same, dropChild_twice]
      simp [same]
    · simp [same]

theorem byInputs_dropInputs (m : Manager) (txid : Uint256) (vin : List CTxIn) :
    (vin.foldl (dropInput txid) m).nonLockedTxsByInputs =
      m.nonLockedTxsByInputs.filter fun entry => entry.1 ∉ vin.map prevout := by
  induction vin generalizing m with
  | nil => simp
  | cons txin rest ih =>
    rw [foldl_cons, ih, dropInput, filter_filter]
    refine filter_congr fun entry _ => ?_
    by_cases same : entry.1 = txin.prevout <;> simp [same]

theorem removeNonLockedTx_eq (m : Manager) (txid : Uint256) (retryChildren : Bool) :
    ∃ vin : List CTxIn, m.spends txid = vin.map prevout ∧
      ∃ before, before.nonLockedTxs = m.nonLockedTxs ∧
        before.nonLockedTxsByInputs = m.nonLockedTxsByInputs ∧ m.removeNonLockedTx txid retryChildren =
          let after := vin.foldl (dropInput txid) before
          { after with nonLockedTxs := after.nonLockedTxs.erase txid } := by
  cases found : m.nonLockedTxs.lookup txid with
  | none =>
    have erased : m.nonLockedTxs.erase txid = m.nonLockedTxs :=
      ext (kerase_of_notMem_keys (lookup_eq_none.mp found))
    refine ⟨[], by simp [spends, found], m, rfl, rfl, ?_⟩
    simp [removeNonLockedTx, found, erased]
  | some info =>
    let before := if retryChildren then
      { m with pendingRetryTxs := info.children.foldl (fun txs childTxid => txs.insert childTxid) m.pendingRetryTxs }
      else m
    refine ⟨(info.tx.map CTransaction.vin).getD [], ?_, before, ?_, ?_, ?_⟩
    · cases held : info.tx <;> simp [spends, found, held]
    · cases retryChildren <;> rfl
    · cases retryChildren <;> rfl
    · rw [removeNonLockedTx, found]
      cases held : info.tx <;> simp [before, held]

theorem lookup_removeNonLockedTx (m : Manager) (txid : Uint256) (retryChildren : Bool) (hash : Uint256) :
    (m.removeNonLockedTx txid retryChildren).nonLockedTxs.lookup hash = if hash = txid then none
      else if hash ∈ (m.spends txid).map COutPoint.hash then (m.nonLockedTxs.lookup hash).bind (dropChild txid)
      else m.nonLockedTxs.lookup hash := by
  obtain ⟨vin, spends, before, places, _, removed⟩ := removeNonLockedTx_eq m txid retryChildren
  rw [removed, spends, ← places, map_map]
  by_cases own : hash = txid
  · subst own
    simp
  · rw [if_neg own]
    exact (lookup_erase_ne own).trans (lookup_dropInputs before txid vin hash)

theorem byInputs_removeNonLockedTx (m : Manager) (txid : Uint256) (retryChildren : Bool) :
    (m.removeNonLockedTx txid retryChildren).nonLockedTxsByInputs =
      m.nonLockedTxsByInputs.filter fun entry => entry.1 ∉ m.spends txid := by
  obtain ⟨vin, spends, before, _, byInputs, removed⟩ := removeNonLockedTx_eq m txid retryChildren
  rw [removed, spends, ← byInputs]
  exact byInputs_dropInputs before txid vin

theorem spendsOf_dropChild (txid : Uint256) (place : Option NonLockedTxInfo) :
    spendsOf (place.bind (dropChild txid)) = spendsOf place := by
  cases place with
  | none => rfl
  | some info =>
    rw [Option.bind_some]
    rcases dropChild_cases txid info with kept | ⟨gone, noTx⟩
    · rw [kept]
      rfl
    · rw [gone]
      simp [spendsOf, noTx]

theorem spends_removeNonLockedTx (m : Manager) (txid : Uint256) (retryChildren : Bool) (other : Uint256) :
    (m.removeNonLockedTx txid retryChildren).spends other = if other = txid then [] else m.spends other := by
  rw [spends_eq, lookup_removeNonLockedTx]
  by_cases own : other = txid
  · simp [own, spendsOf]
  · simp only [own, if_false]
    by_cases parent : other ∈ (m.spends txid).map COutPoint.hash
    · rw [if_pos parent, spendsOf_dropChild, spends_eq]
    · rw [if_neg parent, spends_eq]

theorem count_filter_fst (entries : List (COutPoint × Uint256)) (gone : List COutPoint) (outpoint : COutPoint)
    (txid : Uint256) : (entries.filter fun entry => entry.1 ∉ gone).count (outpoint, txid) =
      if outpoint ∈ gone then 0 else entries.count (outpoint, txid) := by
  by_cases mem : outpoint ∈ gone
  · rw [if_pos mem, count_eq_zero]
    simp [mem]
  · rw [if_neg mem, count_filter (by simpa using mem)]

variable (exact : m.Exact)
include exact

section
variable (notHeld : ((m.nonLockedTxs.lookup tx.hash).getD {}).tx = none)
include notHeld

theorem children_addNonLockedTx_iff :
    (∀ hash info, (m.addNonLockedTx tx).nonLockedTxs.lookup hash = some info →
      ∀ child, child ∈ info.children ↔ (m.addNonLockedTx tx).SpendsOutputOf child hash) ↔
      ∀ hash, m.nonLockedTxs.lookup hash = none → hash = tx.hash ∨ hash ∈ tx.vin.map (·.prevout.hash) →
        ∀ child, ¬ m.SpendsOutputOf child hash := by
  constructor
  · intro after hash absent new child spends
    obtain ⟨info, place⟩ := (new_place_addNonLockedTx notHeld absent).mpr new
    have isChild := (after hash info place child).mpr
      ((spendsOutputOf_addNonLockedTx notHeld child hash).mpr (Or.inr spends))
    rw [mem_children_addNonLockedTx notHeld place, absent] at isChild
    rcases isChild with ⟨same, _⟩ | none
    · rw [same, SpendsOutputOf, spends_of_not_held notHeld] at spends
      simp at spends
    · exact absurd none not_mem_nil
  · intro childless hash info place child
    rw [mem_children_addNonLockedTx notHeld place, spendsOutputOf_addNonLockedTx notHeld]
    apply or_congr Iff.rfl
    cases before : m.nonLockedTxs.lookup hash with
    | some old => exact exact.children hash old before child
    | none =>
      have new := (new_place_addNonLockedTx notHeld before).mp ⟨info, place⟩
      exact iff_of_false not_mem_nil (childless hash before new child)

theorem byInputs_addNonLockedTx_iff :
    (∀ outpoint txid, (m.addNonLockedTx tx).nonLockedTxsByInputs.count (outpoint, txid) =
      ((m.addNonLockedTx tx).spends txid).count outpoint) ↔
      ((m.nonLockedTxs.lookup tx.hash).isSome → tx.vin = []) := by
  have entries := byInputs_addNonLockedTx notHeld
  cases place : m.nonLockedTxs.lookup tx.hash with
  | none =>
    rw [place, if_pos Option.isNone_none] at entries
    refine iff_of_true (fun outpoint txid => ?_) (by simp)
    rw [entries, count_append, exact.byInputs, count_entries, spends_addNonLockedTx notHeld]
    by_cases same : txid = tx.hash
    · simp [same, spends_of_not_held notHeld]
    · simp [same]
  | some info =>
    rw [place, if_neg (by simp)] at entries
    constructor
    · intro after _
      match inputs : tx.vin with
      | [] => rfl
      | txin :: rest =>
        have counts := after txin.prevout tx.hash
        rw [entries, exact.byInputs, spends_of_not_held notHeld, spends_addNonLockedTx notHeld, inputs] at counts
        simp at counts
    · intro empty outpoint txid
      rw [entries, exact.byInputs, spends_addNonLockedTx notHeld, empty rfl]
      by_cases same : txid = tx.hash
      · simp [same, spends_of_not_held notHeld]
      · simp [same]

end

theorem exact_addNonLockedTx_iff (tx : CTransaction) : (m.addNonLockedTx tx).Exact ↔ m.AddOk tx := by
  by_cases isHeld : ((m.nonLockedTxs.lookup tx.hash).getD {}).tx = none
  · have both : (m.addNonLockedTx tx).Exact ↔ _ ∧ _ :=
      ⟨fun after => ⟨after.byInputs, after.children⟩, fun both => ⟨both.1, both.2⟩⟩
    rw [both, byInputs_addNonLockedTx_iff exact isHeld, children_addNonLockedTx_iff exact isHeld, AddOk]
    cases place : m.nonLockedTxs.lookup tx.hash with
    | none =>
      simp only [Option.isSome_none, Bool.false_eq_true, false_imp_iff, true_and]
      constructor
      · intro childless
        refine ⟨childless tx.hash place (Or.inl rfl), fun txin mem absent => ?_⟩
        exact childless _ absent (Or.inr (mem_map_of_mem (f := (·.prevout.hash)) mem))
      · rintro ⟨own, parents⟩ hash absent (rfl | parent)
        · exact own
        · obtain ⟨txin, mem, rfl⟩ := mem_map.mp parent
          exact parents txin mem absent
    | some info =>
      have noTx : info.tx = none := by simpa [place] using isHeld
      simp only [Option.isSome_some, noTx, Option.isNone_none, true_imp_iff, and_iff_left_iff_imp]
      rintro none hash absent (rfl | parent)
      · simp [place] at absent
      · simp [none] at parent
  · cases place : m.nonLockedTxs.lookup tx.hash with
    | none => simp [place] at isHeld
    | some info =>
      have isSome : info.tx.isSome = true := by simpa [place, Option.isSome_iff_ne_none] using isHeld
      rw [show m.addNonLockedTx tx = m by simp [addNonLockedTx, place, isSome], AddOk, place]
      refine iff_of_true exact fun none => ?_
      simp [Option.isNone_iff_eq_none.mp none] at isSome

theorem children_removeNonLockedTx {retryChildren : Bool} {after : NonLockedTxInfo}
    (place : (m.removeNonLockedTx txid retryChildren).nonLockedTxs.lookup hash = some after)
    (child : Uint256) : child ∈ after.children ↔ child ≠ txid ∧ m.SpendsOutputOf child hash := by
  rw [lookup_removeNonLockedTx] at place
  by_cases own : hash = txid
  · simp [own] at place
  · rw [if_neg own] at place
    by_cases parent : hash ∈ (m.spends txid).map COutPoint.hash
    · rw [if_pos parent] at place
      obtain ⟨info, found, dropped⟩ := Option.bind_eq_some_iff.mp place
      rw [← exact.children hash info found]
      rcases dropChild_cases txid info with kept | ⟨gone, _⟩
      · rw [kept, Option.some.injEq] at dropped
        rw [← dropped]
        simp [and_comm]
      · simp [gone] at dropped
    · rw [if_neg parent] at place
      rw [exact.children hash after place]
      refine ⟨fun spends => ⟨?_, spends⟩, And.right⟩
      rintro rfl
      exact parent (mem_map.mpr spends)

theorem exact_removeNonLockedTx_iff (txid : Uint256) (retryChildren : Bool) :
    (m.removeNonLockedTx txid retryChildren).Exact ↔ m.RemoveOk txid := by
  constructor
  · intro after outpoint mem other ne spent
    have counts := after.byInputs outpoint other
    rw [byInputs_removeNonLockedTx, count_filter_fst, if_pos mem, spends_removeNonLockedTx, if_neg ne] at counts
    exact count_eq_zero.mp counts.symm spent
  · intro ok
    refine ⟨fun outpoint other => ?_, fun hash info place child => ?_⟩
    · rw [byInputs_removeNonLockedTx, count_filter_fst, spends_removeNonLockedTx, exact.byInputs]
      by_cases own : other = txid
      · by_cases mem : outpoint ∈ m.spends txid
        · simp [own, mem]
        · simp [own, count_eq_zero.mpr mem]
      · by_cases mem : outpoint ∈ m.spends txid
        · simp [own, count_eq_zero.mpr (ok outpoint mem other own)]
        · simp [own, mem]
    · rw [children_removeNonLockedTx exact place, SpendsOutputOf, SpendsOutputOf, spends_removeNonLockedTx]
      by_cases own : child = txid <;> simp [own]

end

end Manager

section
variable {inputRequestId : CTxIn → Uint256} {m : Manager}

theorem exact_apply_iff (exact : m.Exact) (op : Op) : (apply inputRequestId m op).Exact ↔ op.Ok m := by
  cases op with
  | addNonLockedTx tx => exact exact_addNonLockedTx_iff exact tx
  | removeNonLockedTx txid retryChildren => exact exact_removeNonLockedTx_iff exact txid retryChildren
  | removeConflictedTx tx =>
    -- The request ids that go are no part of the index.
    have same : (apply inputRequestId m (.removeConflictedTx tx)).Exact ↔ (m.removeNonLockedTx tx.hash false).Exact :=
      ⟨fun after => ⟨after.byInputs, after.children⟩, fun after => ⟨after.byInputs, after.children⟩⟩
    exact same.trans (exact_removeNonLockedTx_iff exact tx.hash false)

theorem run_append (inputRequestId : CTxIn → Uint256) (done : List Op) (op : Op) :
    run inputRequestId (done ++ [op]) = apply inputRequestId (run inputRequestId done) op := by
  simp [run]

/-- The index is exact along a run exactly if each step meets its condition in the state it finds. -/
theorem exact_iff_ok (inputRequestId : CTxIn → Uint256) (ops : List Op) :
    (∀ done, done <+: ops → (run inputRequestId done).Exact) ↔
      ∀ done op, done ++ [op] <+: ops → op.Ok (run inputRequestId done) := by
  have start : empty.Exact := ⟨by simp [empty, spends], by simp [empty]⟩
  refine Folds.throughout_iff start (fun done op before => ?_) ops
  rw [run_append]
  exact exact_apply_iff before op

end

private def parent : CTransaction := { vin := [{ prevout := ⟨1, 0⟩ }], vout := [⟨5, []⟩], hash := 2 }

private def child : CTransaction := { vin := [{ prevout := ⟨2, 0⟩ }], vout := [⟨5, []⟩], hash := 3 }

/-- A parent that comes after its child is held, and nothing leads from its input to it. -/
theorem not_exact_child_first :
    let m := run (fun txin => txin.prevout.hash) [.addNonLockedTx child, .addNonLockedTx parent]
    m.spends 2 = [⟨1, 0⟩] ∧ m.nonLockedTxsByInputs = [(⟨2, 0⟩, 3)] ∧ ¬ m.Exact := by
  intro m
  have spends : m.spends 2 = [⟨1, 0⟩] := by decide +kernel
  have byInputs : m.nonLockedTxsByInputs = [(⟨2, 0⟩, 3)] := by decide +kernel
  refine ⟨spends, byInputs, fun exact => ?_⟩
  have counts := exact.byInputs ⟨1, 0⟩ 2
  exact absurd counts (by decide)

end Cspn.NonLocked
