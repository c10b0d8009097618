import Cspn.Growth
import Cspn.ProviderTx

/-!
The three lists of transaction types: those that `CheckTransaction` lets through, those
for which `CheckSpecialTx` has a checker, and those on which `BuildNewListFromBlock`
acts.
-/
namespace Cspn.TxTypes
open Primitives Index MnList MnBuild Validation Env TxCheck SpecialTx List
  ProviderTx Growth

inductive Checker where
  | checkCbTx
  | checkProRegTx
  | checkProUpServTx
  | checkProUpRegTx
  | checkProUpRevTx
  | checkLLMQCommitment

def cases : List (Int × Checker) :=
  [(TRANSACTION_COINBASE, .checkCbTx), (TRANSACTION_PROVIDER_REGISTER, .checkProRegTx),
    (TRANSACTION_PROVIDER_UPDATE_SERVICE, .checkProUpServTx),
    (TRANSACTION_PROVIDER_UPDATE_REGISTRAR, .checkProUpRegTx), (TRANSACTION_PROVIDER_UPDATE_REVOKE, .checkProUpRevTx),
    (TRANSACTION_QUORUM_COMMITMENT, .checkLLMQCommitment)]

/-- The checker to which `CheckSpecialTx` hands a version 2 transaction. Normal transactions and coinstakes never
    reach the switch. -/
def checkerOf (nType : Int) : Option Checker := cases.lookup nType

variable {nType : Int}

theorem checkerOf_eq_some {checker : Checker} (has : checkerOf nType = some checker) : (nType, checker) ∈ cases := by
  obtain ⟨before, after, split, -⟩ := lookup_eq_some_iff.mp has
  rw [split]
  simp

theorem checkerOf_eq_none :
    checkerOf nType = none ↔ nType ∉ TRANSACTION_COINBASE :: TRANSACTION_QUORUM_COMMITMENT :: providerTypes := by
  simp only [checkerOf, lookup_eq_none_iff, cases, providerTypes, mem_cons, not_mem_nil, or_false,
    forall_eq_or_imp, forall_eq, bne_iff_ne, not_or]
  grind

section
variable (params : Params) (ext : Externals) (env : ProviderEnv) (front : Option (Wallet env.hash160)) (g : Globals)
  (pindexPrev : CBlockIndex) (tx : CTransaction)

def Checker.run : Checker → Result Unit
  | .checkCbTx => SpecialTx.checkCbTx tx pindexPrev
  | .checkProRegTx => ProviderTx.checkProRegTx env ext.hashing front g.getUTXOCoin (g.getListForBlock pindexPrev) tx
  | .checkProUpServTx => ProviderTx.checkProUpServTx env ext.hashing (g.getListForBlock pindexPrev) tx
  | .checkProUpRegTx => ProviderTx.checkProUpRegTx env ext.hashing g.getUTXOCoin (g.getListForBlock pindexPrev) tx
  | .checkProUpRevTx => ProviderTx.checkProUpRevTx env (g.getListForBlock pindexPrev) tx
  | .checkLLMQCommitment => SpecialTx.checkLLMQCommitment params (withProviders env ext front) g.mapBlockIndex tx pindexPrev

theorem checkSpecialTx_eq_run {checker : Checker} (version : 2 ≤ tx.nVersion) (has : checkerOf tx.nType = some checker) :
    checkSpecialTx params (withProviders env ext front) g pindexPrev tx =
      checker.run params ext env front g pindexPrev tx := by
  have listed := checkerOf_eq_some has
  simp only [cases, mem_cons, not_mem_nil, or_false, Prod.mk.injEq] at listed
  rcases listed with ⟨type, rfl⟩ | ⟨type, rfl⟩ | ⟨type, rfl⟩ | ⟨type, rfl⟩ | ⟨type, rfl⟩ | ⟨type, rfl⟩
  all_goals
    have special : ¬isPlain tx = true := by
      simp only [isPlain, type, decide_eq_true_eq]
      rintro (low | plain | plain)
      · omega
      · exact absurd plain (by decide)
      · exact absurd plain (by decide)
    rw [checkSpecialTx, if_neg special, type]
    simp only [withProviders, checkProviderTx, type]
    rfl

theorem checkSpecialTx_eq_of_none (version : 2 ≤ tx.nVersion) (none : checkerOf tx.nType = none) :
    checkSpecialTx params (withProviders env ext front) g pindexPrev tx =
      if tx.nType = TRANSACTION_NORMAL ∨ tx.nType = TRANSACTION_STAKE then .ok () else consensus "bad-tx-type-check" := by
  rw [checkerOf_eq_none] at none
  simp only [mem_cons, not_or] at none
  obtain ⟨coinbase, commitment, provider⟩ := none
  by_cases plain : tx.nType = TRANSACTION_NORMAL ∨ tx.nType = TRANSACTION_STAKE
  · rw [checkSpecialTx, if_pos (by simp [isPlain, plain]), if_pos plain]
  · have special : ¬isPlain tx = true := by
      simp only [isPlain, decide_eq_true_eq, plain, or_false]
      omega
    rw [checkSpecialTx, if_neg special, if_neg coinbase, if_neg (by simpa using provider), if_neg commitment, if_neg plain]

end

def badType : Failure := .invalid .CONSENSUS "bad-txns-type"

/-- The checks of `CheckTransaction` in front of its type filter. -/
def reachesFilter (ext : Externals) (tx : CTransaction) : Bool :=
  let allowEmptyTxInOut := decide (tx.nType = TRANSACTION_QUORUM_COMMITMENT)
  (allowEmptyTxInOut || !tx.vin.isEmpty) && (allowEmptyTxInOut || !tx.vout.isEmpty) &&
    decide (ext.serializeSizeTx tx * WITNESS_SCALE_FACTOR ≤ MAX_BLOCK_WEIGHT) &&
    decide (ext.payloadSize tx ≤ MAX_TX_EXTRA_PAYLOAD)

theorem checkOutputs_badType (outs : List CTxOut) (nValueOut : Int) : Avoids badType (checkOutputs nValueOut outs) := by
  induction outs generalizing nValueOut with
  | nil => exact .ok ()
  | cons out rest ih =>
    rw [checkOutputs]
    split
    · exact .consensus (by decide)
    split
    · exact .consensus (by decide)
    split
    · exact ih _
    · exact .consensus (by decide)

/-- The conditions around the filter: those in front of it must hold and its own must not. -/
private theorem filter_iff {a b c d e f : Bool} {rest : Unit → Result Unit} (later : Avoids badType (rest ())) :
    (checks .CONSENSUS
      [(a, "bad-txns-vin-empty"), (b, "bad-txns-vout-empty"), (c, "bad-txns-oversize"), (d, "bad-txns-payload-oversize"),
        (e, "bad-txns-type"), (f, "bad-txns-cb-type")]).bind rest = .error badType ↔
      (a && b && c && d) = true ∧ e = false := by
  by_cases reaches : (a && b && c && d) = true
  · simp only [Bool.and_eq_true] at reaches
    obtain ⟨⟨⟨rfl, rfl⟩, rfl⟩, rfl⟩ := reaches
    cases e with
    | false => simp [checks, Except.bind, badType]
    | true =>
      cases f with
      | false => simp [checks, Except.bind, badType]
      | true => simpa [checks, Except.bind, Avoids] using later
  · -- the first of the four that fails is the reason given
    refine iff_of_false ?_ (by simp [reaches])
    cases a <;> cases b <;> cases c <;> cases d <;> first | exact absurd rfl reaches | simp [checks, Except.bind, badType]

/-- A version 2 transaction is rejected for its type exactly when it reaches the filter and its type is not listed
    there. -/
theorem checkTransaction_badType_iff {ext : Externals} {tx : CTransaction} (version : tx.nVersion = 2) :
    checkTransaction ext tx = .error badType ↔ reachesFilter ext tx = true ∧ tx.nType ∉ allowedTypes := by
  have later : Avoids badType ((checkOutputs 0 tx.vout).bind fun _ =>
      (checks .CONSENSUS [(decide (tx.vin.map CTxIn.prevout).Nodup, "bad-txns-inputs-duplicate")]).bind fun _ =>
      checkInputShape tx) := by
    refine (checkOutputs_badType _ _).bind fun _ _ => Avoids.bind (.checks (by simp [badType])) fun _ _ => ?_
    unfold checkInputShape
    split <;> exact .checks (by simp [badType])
  exact (filter_iff later).trans (by simp [reachesFilter, version])

/-- No version 2 transaction of the type is rejected for its type. -/
def LetsThrough (nType : Int) : Prop :=
  ∀ (ext : Externals) (tx : CTransaction), tx.nVersion = 2 → tx.nType = nType → checkTransaction ext tx ≠ .error badType

def typedTx (nType : Int) : CTransaction where
  vin := [{ prevout := ⟨1, 0⟩ }]
  vout := [⟨1, []⟩]
  nType
  hash := 2
  noPayload := fun _ => rfl

theorem letsThrough_iff : LetsThrough nType ↔ nType ∈ allowedTypes := by
  constructor
  · intro lets
    by_contra unlisted
    exact lets (permissive 0) (typedTx nType) rfl rfl ((checkTransaction_badType_iff rfl).mpr ⟨by simp [reachesFilter, typedTx,
      permissive, WITNESS_SCALE_FACTOR, MAX_BLOCK_WEIGHT, MAX_TX_EXTRA_PAYLOAD], unlisted⟩)
  · rintro listed ext tx version rfl rejected
    exact ((checkTransaction_badType_iff version).mp rejected).2 listed

/-- On some transaction of the type `BuildNewListFromBlock` does something: it changes the list or stops. -/
def Handled (nType : Int) : Prop :=
  ∃ (env : BuildEnv) (pindexPrev : CBlockIndex) (list : CDeterministicMNList) (tx : CTransaction),
    tx.nVersion = 2 ∧ tx.nType = nType ∧ processProTx env pindexPrev list tx ≠ .ok list

theorem Handled.mem (handled : Handled nType) : nType ∈ TRANSACTION_QUORUM_COMMITMENT :: providerTypes := by
  obtain ⟨env, pindexPrev, list, tx, version, rfl, acts⟩ := handled
  by_contra unlisted
  simp only [providerTypes, mem_cons, not_mem_nil, or_false, not_or] at unlisted
  obtain ⟨commitment, register, service, registrar, revoke⟩ := unlisted
  refine acts ?_
  unfold processProTx
  rw [if_neg (by simp [version]), if_neg register, if_neg service, if_neg registrar, if_neg revoke, if_neg commitment]

/-- The three lists agree beside the registrar update: the filter adds normal transactions and coinstakes, which need
    no checker, and what the list builder handles is both let through and checked. -/
theorem letsThrough_iff_checked (nType : Int) (other : nType ≠ TRANSACTION_PROVIDER_UPDATE_REGISTRAR) :
    (LetsThrough nType ↔ nType = TRANSACTION_NORMAL ∨ nType = TRANSACTION_STAKE ∨ (checkerOf nType).isSome) ∧
      (Handled nType → LetsThrough nType ∧ (checkerOf nType).isSome) := by
  have checked : (checkerOf nType).isSome ↔ nType ∈ TRANSACTION_COINBASE :: TRANSACTION_QUORUM_COMMITMENT :: providerTypes := by
    rw [Option.isSome_iff_ne_none, ne_eq, checkerOf_eq_none, not_not]
  rw [letsThrough_iff, checked]
  constructor
  · simp only [allowedTypes, providerTypes, mem_cons, not_mem_nil, or_false, other, false_or]
    grind
  · intro handled
    have member := handled.mem
    refine ⟨?_, .tail _ member⟩
    simp only [allowedTypes, providerTypes, mem_cons, not_mem_nil, or_false, other, false_or] at member ⊢
    grind

theorem letsThrough_register : LetsThrough TRANSACTION_PROVIDER_REGISTER :=
  (letsThrough_iff_checked TRANSACTION_PROVIDER_REGISTER (by decide)).1.mpr (.inr (.inr (by decide)))

/-- Coinstakes and normal transactions pass the filter without a checker. -/
theorem letsThrough_unchecked : (LetsThrough TRANSACTION_STAKE ∧ checkerOf TRANSACTION_STAKE = none) ∧
      (LetsThrough TRANSACTION_NORMAL ∧ checkerOf TRANSACTION_NORMAL = none) :=
  ⟨⟨letsThrough_iff.mpr (by decide), by decide⟩, ⟨letsThrough_iff.mpr (by decide), by decide⟩⟩

end Cspn.TxTypes
