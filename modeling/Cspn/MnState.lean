import Cspn.Primitives

/-!
The state of a deterministic masternode and the difference of two states. The
source writes the difference with one macro line per field; here the fields are an
enumeration and the lines are one loop over it.
-/
namespace Cspn.MnState
open Primitives

structure CDeterministicMNState where
  nRegisteredHeight : Int := -1
  nLastPaidHeight : Int := 0
  nPoSePenalty : Int := 0
  nPoSeRevivedHeight : Int := -1
  nPoSeBanHeight : Int := -1
  nRevocationReason : Nat := REASON_NOT_SPECIFIED
  confirmedHash : Uint256 := 0
  confirmedHashWithProRegTxHash : Uint256 := 0
  keyIDOwner : CKeyID := 0
  pubKeyOperator : CBLSPublicKey := none
  keyIDVoting : CKeyID := 0
  addr : CService := {}
  scriptPayout : CScript := []
  scriptOperatorPayout : CScript := []
deriving DecidableEq

namespace CDeterministicMNState

def ofProRegTx (proTx : CProRegTx) : CDeterministicMNState :=
  { keyIDOwner := proTx.keyIDOwner
    pubKeyOperator := proTx.pubKeyOperator
    keyIDVoting := proTx.keyIDVoting
    addr := proTx.addr
    scriptPayout := proTx.scriptPayout }

section
variable (state : CDeterministicMNState)

def resetOperatorFields : CDeterministicMNState :=
  { state with
    pubKeyOperator := none
    addr := {}
    scriptOperatorPayout := []
    nRevocationReason := REASON_NOT_SPECIFIED }

def banIfNotBanned (height : Int) : CDeterministicMNState :=
  if state.nPoSeBanHeight = -1 then { state with nPoSeBanHeight := height } else state

@[simp] theorem keyIDOwner_banIfNotBanned (height : Int) :
    (state.banIfNotBanned height).keyIDOwner = state.keyIDOwner := by
  unfold banIfNotBanned
  split <;> rfl

end

end CDeterministicMNState

/-! ### Differences of states -/

inductive Field where
  | nRegisteredHeight
  | nLastPaidHeight
  | nPoSePenalty
  | nPoSeRevivedHeight
  | nPoSeBanHeight
  | nRevocationReason
  | confirmedHash
  | confirmedHashWithProRegTxHash
  | keyIDOwner
  | pubKeyOperator
  | keyIDVoting
  | addr
  | scriptPayout
  | scriptOperatorPayout
deriving DecidableEq

namespace Field

def all : List Field :=
  [nRegisteredHeight, nLastPaidHeight, nPoSePenalty, nPoSeRevivedHeight, nPoSeBanHeight, nRevocationReason,
    confirmedHash, confirmedHashWithProRegTxHash, keyIDOwner, pubKeyOperator, keyIDVoting, addr, scriptPayout,
    scriptOperatorPayout]

def bit : Field → Nat
  | nRegisteredHeight => 0
  | nLastPaidHeight => 1
  | nPoSePenalty => 2
  | nPoSeRevivedHeight => 3
  | nPoSeBanHeight => 4
  | nRevocationReason => 5
  | confirmedHash => 6
  | confirmedHashWithProRegTxHash => 7
  | keyIDOwner => 8
  | pubKeyOperator => 9
  | keyIDVoting => 10
  | addr => 11
  | scriptPayout => 12
  | scriptOperatorPayout => 13

variable (source a b : CDeterministicMNState) (f : Field)

def mask : Nat := 2 ^ f.bit

def copy (target : CDeterministicMNState) : Field → CDeterministicMNState
  | nRegisteredHeight => { target with nRegisteredHeight := source.nRegisteredHeight }
  | nLastPaidHeight => { target with nLastPaidHeight := source.nLastPaidHeight }
  | nPoSePenalty => { target with nPoSePenalty := source.nPoSePenalty }
  | nPoSeRevivedHeight => { target with nPoSeRevivedHeight := source.nPoSeRevivedHeight }
  | nPoSeBanHeight => { target with nPoSeBanHeight := source.nPoSeBanHeight }
  | nRevocationReason => { target with nRevocationReason := source.nRevocationReason }
  | confirmedHash => { target with confirmedHash := source.confirmedHash }
  | confirmedHashWithProRegTxHash =>
    { target with confirmedHashWithProRegTxHash := source.confirmedHashWithProRegTxHash }
  | keyIDOwner => { target with keyIDOwner := source.keyIDOwner }
  | pubKeyOperator => { target with pubKeyOperator := source.pubKeyOperator }
  | keyIDVoting => { target with keyIDVoting := source.keyIDVoting }
  | addr => { target with addr := source.addr }
  | scriptPayout => { target with scriptPayout := source.scriptPayout }
  | scriptOperatorPayout => { target with scriptOperatorPayout := source.scriptOperatorPayout }

def same : Field → Bool
  | nRegisteredHeight => decide (a.nRegisteredHeight = b.nRegisteredHeight)
  | nLastPaidHeight => decide (a.nLastPaidHeight = b.nLastPaidHeight)
  | nPoSePenalty => decide (a.nPoSePenalty = b.nPoSePenalty)
  | nPoSeRevivedHeight => decide (a.nPoSeRevivedHeight = b.nPoSeRevivedHeight)
  | nPoSeBanHeight => decide (a.nPoSeBanHeight = b.nPoSeBanHeight)
  | nRevocationReason => decide (a.nRevocationReason = b.nRevocationReason)
  | confirmedHash => decide (a.confirmedHash = b.confirmedHash)
  | confirmedHashWithProRegTxHash =>
    decide (a.confirmedHashWithProRegTxHash = b.confirmedHashWithProRegTxHash)
  | keyIDOwner => decide (a.keyIDOwner = b.keyIDOwner)
  | pubKeyOperator => decide (a.pubKeyOperator = b.pubKeyOperator)
  | keyIDVoting => decide (a.keyIDVoting = b.keyIDVoting)
  | addr => decide (a.addr = b.addr)
  | scriptPayout => decide (a.scriptPayout = b.scriptPayout)
  | scriptOperatorPayout => decide (a.scriptOperatorPayout = b.scriptOperatorPayout)

theorem mem_all : f ∈ all := by cases f <;> decide

theorem bit_injective {f g : Field} (eq : f.bit = g.bit) : f = g := by
  cases f <;> cases g <;> first | rfl | cases eq

theorem same_refl : same a a f = true := by
  cases f <;> simp [same]

theorem same_copy_self : same (copy source a f) b f = same source b f := by
  cases f <;> rfl

theorem same_copy_other {f g : Field} (other : f ≠ g) (source a b : CDeterministicMNState) :
    same (copy source a g) b f = same a b f := by
  cases f <;> cases g <;> first | rfl | exact absurd rfl other

theorem eq_of_same {a b : CDeterministicMNState} (agree : ∀ f, same a b f = true) : a = b := by
  cases a
  cases b
  simp only [CDeterministicMNState.mk.injEq]
  exact ⟨of_decide_eq_true (agree nRegisteredHeight), of_decide_eq_true (agree nLastPaidHeight),
    of_decide_eq_true (agree nPoSePenalty), of_decide_eq_true (agree nPoSeRevivedHeight),
    of_decide_eq_true (agree nPoSeBanHeight), of_decide_eq_true (agree nRevocationReason),
    of_decide_eq_true (agree confirmedHash), of_decide_eq_true (agree confirmedHashWithProRegTxHash),
    of_decide_eq_true (agree keyIDOwner), of_decide_eq_true (agree pubKeyOperator),
    of_decide_eq_true (agree keyIDVoting), of_decide_eq_true (agree addr), of_decide_eq_true (agree scriptPayout),
    of_decide_eq_true (agree scriptOperatorPayout)⟩

end Field

open Cspn.MnState.Field

structure CDeterministicMNStateDiff where
  fields : Nat := 0
  /-- Only the members noted in `fields` are meant. -/
  state : CDeterministicMNState := {}
deriving DecidableEq

namespace CDeterministicMNStateDiff

def record (a b : CDeterministicMNState) (diff : CDeterministicMNStateDiff) (f : Field) : CDeterministicMNStateDiff :=
  if f.same a b then diff else { fields := diff.fields ||| f.mask, state := f.copy b diff.state }

def ofStates (a b : CDeterministicMNState) : CDeterministicMNStateDiff := all.foldl (record a b) {}

def hasField (diff : CDeterministicMNStateDiff) (f : Field) : Bool := decide (diff.fields &&& f.mask ≠ 0)

def applyToState (diff : CDeterministicMNStateDiff) (target : CDeterministicMNState) : CDeterministicMNState :=
  all.foldl (fun state f => if diff.hasField f then f.copy diff.state state else state) target

theorem hasField_eq (diff : CDeterministicMNStateDiff) (f : Field) : diff.hasField f = diff.fields.testBit f.bit := by
  rw [hasField, mask, Nat.and_two_pow]
  cases diff.fields.testBit f.bit <;> simp

private theorem apply_fold (diff : CDeterministicMNStateDiff) (b : CDeterministicMNState) (f : Field) (fs : List Field)
    (target : CDeterministicMNState) (recorded : diff.hasField f = true → f.same diff.state b = true)
    (kept : diff.hasField f = false ∨ f ∉ fs → f.same target b = true) :
    f.same (fs.foldl (fun state g => if diff.hasField g then g.copy diff.state state else state) target) b = true := by
  induction fs generalizing target with
  | nil => exact kept (.inr (by simp))
  | cons g rest ih =>
    rw [List.foldl_cons]
    apply ih
    intro outside
    by_cases here : f = g
    · subst here
      by_cases has : diff.hasField f = true
      · rw [if_pos has, same_copy_self]
        exact recorded has
      · simp only [has, Bool.false_eq_true, ↓reduceIte]
        exact kept (.inl (by simpa using has))
    · have unchanged : f.same (if diff.hasField g then g.copy diff.state target else target) b = f.same target b := by
        split
        · exact same_copy_other here _ _ _
        · rfl
      rw [unchanged]
      apply kept
      simpa [here] using outside

variable (a b : CDeterministicMNState)
include a b

private theorem record_fold (f : Field) (fs : List Field) (diff : CDeterministicMNStateDiff) :
    (fs.foldl (record a b) diff).fields.testBit f.bit =
        (diff.fields.testBit f.bit || (decide (f ∈ fs) && !f.same a b)) ∧
      ((f ∈ fs ∧ f.same a b = false) ∨ f.same diff.state b = true →
        f.same (fs.foldl (record a b) diff).state b = true) := by
  induction fs generalizing diff with
  | nil => simp
  | cons g rest ih =>
    obtain ⟨bits, values⟩ := ih (record a b diff g)
    rw [List.foldl_cons]
    by_cases here : f = g
    · subst here
      by_cases agree : f.same a b = true
      · have unchanged : record a b diff f = diff := by simp [record, agree]
        rw [unchanged] at bits values ⊢
        exact ⟨by simp [bits, agree], fun holds => values (by simpa [agree] using holds)⟩
      · have recorded : record a b diff f = { fields := diff.fields ||| f.mask, state := f.copy b diff.state } := by
          simp [record, agree]
        rw [recorded] at bits values ⊢
        refine ⟨?_, fun _ => values (.inr ?_)⟩
        · rw [bits]
          simp [agree, mask]
        · rw [same_copy_self, same_refl]
    · have apart : g.bit ≠ f.bit := fun eq => here (bit_injective eq).symm
      have bit : (record a b diff g).fields.testBit f.bit = diff.fields.testBit f.bit := by
        unfold record
        split
        · rfl
        · simp [Nat.testBit_or, mask, apart]
      have value : f.same (record a b diff g).state b = f.same diff.state b := by
        unfold record
        split
        · rfl
        · exact same_copy_other here _ _ _
      refine ⟨by simp [bits, bit, here], fun holds => values ?_⟩
      rw [value]
      simpa [here] using holds

theorem hasField_ofStates (f : Field) : (ofStates a b).hasField f = !f.same a b := by
  have bits := (record_fold a b f all {}).1
  rw [hasField_eq, ofStates, bits]
  simp [mem_all]

/-- Applying the difference of two states to the first gives the second. -/
theorem applyToState_ofStates : (ofStates a b).applyToState a = b := by
  apply eq_of_same
  intro f
  apply apply_fold
  · intro has
    rw [hasField_ofStates, Bool.not_eq_true'] at has
    exact (record_fold a b f all {}).2 (.inl ⟨mem_all f, has⟩)
  · intro outside
    simpa [hasField_ofStates, mem_all] using outside

theorem fields_ofStates_eq_zero : (ofStates a b).fields = 0 ↔ a = b := by
  constructor
  · intro none
    apply eq_of_same
    intro f
    have bit := hasField_ofStates a b f
    rw [hasField_eq, none, Nat.zero_testBit] at bit
    simpa using bit.symm
  · rintro rfl
    apply Nat.eq_of_testBit_eq
    intro i
    rw [ofStates, List.foldl_fixed' fun f => by simp [record, same_refl]]

end CDeterministicMNStateDiff

end Cspn.MnState
