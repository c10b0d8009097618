import Cspn.Env

/-!
The checks of a single transaction: `CheckTransaction` without context,
`CheckTxInputs` against a coin view, and the finality of lock times.
-/
namespace Cspn.TxCheck
open Primitives Coins Validation Env List CTransaction

def WITNESS_SCALE_FACTOR : Nat := 4
def MAX_BLOCK_WEIGHT : Nat := 4000000
def MAX_TX_EXTRA_PAYLOAD : Nat := 10000
def COINBASE_MATURITY : Int := 10
def LOCKTIME_THRESHOLD : Nat := 500000000
def SEQUENCE_FINAL : Nat := 0xffffffff

def allowedTypes : List Int :=
  [TRANSACTION_NORMAL, TRANSACTION_COINBASE, TRANSACTION_PROVIDER_REGISTER, TRANSACTION_PROVIDER_UPDATE_SERVICE,
    TRANSACTION_PROVIDER_UPDATE_REVOKE, TRANSACTION_QUORUM_COMMITMENT, TRANSACTION_STAKE]

def checkOutputs (nValueOut : Int) : List CTxOut → Result Unit
  | [] => .ok ()
  | txout :: rest =>
    if txout.nValue < 0 then consensus "bad-txns-vout-negative"
    else if MAX_MONEY < txout.nValue then consensus "bad-txns-vout-toolarge"
    else if moneyRange (nValueOut + txout.nValue) then checkOutputs (nValueOut + txout.nValue) rest
    else consensus "bad-txns-txouttotal-toolarge"

def checkInputShape (tx : CTransaction) : Result Unit :=
  if tx.isCoinBase then
    checks .CONSENSUS [(tx.vin.all fun txin => decide (1 ≤ txin.scriptSig.length ∧ txin.scriptSig.length ≤ 100), "bad-cb-length")]
  else checks .CONSENSUS [(tx.vin.all fun txin => !txin.prevout.isNull, "bad-txns-prevout-null")]

def checkTransaction (ext : Externals) (tx : CTransaction) : Result Unit :=
  let allowEmptyTxInOut := decide (tx.nType = TRANSACTION_QUORUM_COMMITMENT)
  (checks .CONSENSUS
    [(allowEmptyTxInOut || !tx.vin.isEmpty, "bad-txns-vin-empty"),
      (allowEmptyTxInOut || !tx.vout.isEmpty, "bad-txns-vout-empty"),
      (decide (ext.serializeSizeTx tx * WITNESS_SCALE_FACTOR ≤ MAX_BLOCK_WEIGHT), "bad-txns-oversize"),
      (decide (ext.payloadSize tx ≤ MAX_TX_EXTRA_PAYLOAD), "bad-txns-payload-oversize"),
      (!decide (2 ≤ tx.nVersion) || allowedTypes.contains tx.nType, "bad-txns-type"),
      (!(tx.isCoinBase && decide (2 ≤ tx.nVersion)) || decide (tx.nType = TRANSACTION_COINBASE),
        "bad-txns-cb-type")]).bind fun _ =>
  (checkOutputs 0 tx.vout).bind fun _ =>
  (checks .CONSENSUS [(decide (tx.vin.map CTxIn.prevout).Nodup, "bad-txns-inputs-duplicate")]).bind fun _ =>
  checkInputShape tx

structure TxOk (tx : CTransaction) : Prop where
  inputs : tx.nType ≠ TRANSACTION_QUORUM_COMMITMENT → tx.vin ≠ []
  types : 2 ≤ tx.nVersion → tx.nType ∈ allowedTypes
  coinbaseType : tx.isCoinBase = true → 2 ≤ tx.nVersion → tx.nType = TRANSACTION_COINBASE
  values : ∀ out ∈ tx.vout, moneyRange out.nValue = true
  total : moneyRange tx.valueOut = true ∧ tx.getValueOut = some tx.valueOut
  distinct : (tx.vin.map CTxIn.prevout).Nodup
  prevouts : tx.isCoinBase = false → ∀ txin ∈ tx.vin, txin.prevout.isNull = false

variable {nValueOut : Int} {outs : List CTxOut} {tx : CTransaction} {inputs : CCoinsView} {nSpendHeight : Nat}

theorem checkOutputs_ok (start : moneyRange nValueOut = true) (passed : checkOutputs nValueOut outs = .ok ()) :
    moneyRange (nValueOut + (outs.map CTxOut.nValue).sum) = true ∧ (∀ out ∈ outs, moneyRange out.nValue = true) ∧
      getValueOutFrom nValueOut outs = some (nValueOut + (outs.map CTxOut.nValue).sum) := by
  induction outs generalizing nValueOut with
  | nil => simpa [getValueOutFrom] using start
  | cons out rest ih =>
    rw [checkOutputs] at passed
    split at passed
    · cases passed
    split at passed
    · cases passed
    split at passed
    next nonneg small inRange =>
      obtain ⟨total, values, summed⟩ := ih inRange passed
      have value : moneyRange out.nValue = true := by simp; omega
      simp only [map_cons, sum_cons, ← Int.add_assoc]
      refine ⟨total, forall_mem_cons.mpr ⟨value, values⟩, ?_⟩
      rw [getValueOutFrom, value, inRange]
      exact summed
    next => cases passed

theorem checkOutputs_of_range (start : 0 ≤ nValueOut)
    (nonneg : ∀ out ∈ outs, 0 ≤ out.nValue) (total : nValueOut + (outs.map CTxOut.nValue).sum ≤ MAX_MONEY) :
    checkOutputs nValueOut outs = .ok () := by
  induction outs generalizing nValueOut with
  | nil => rfl
  | cons out rest ih =>
    obtain ⟨here, others⟩ := forall_mem_cons.mp nonneg
    have left : 0 ≤ (rest.map CTxOut.nValue).sum := sum_nonneg fun value member => by
      obtain ⟨out, inside, rfl⟩ := mem_map.mp member
      exact others out inside
    rw [map_cons, sum_cons] at total
    rw [checkOutputs, if_neg (by omega), if_neg (by omega), if_pos ((moneyRange_iff _).mpr (by omega))]
    exact ih (by omega) others (by omega)

theorem checkTransaction_ok {ext : Externals} (passed : checkTransaction ext tx = .ok ()) : TxOk tx := by
  obtain ⟨shape, rest⟩ := then_eq_ok.mp passed
  obtain ⟨outputs, rest⟩ := then_eq_ok.mp rest
  obtain ⟨distinct, inputs⟩ := then_eq_ok.mp rest
  simp only [checks_cons, checks_nil, and_true, Bool.or_eq_true, decide_eq_true_eq,
    isEmpty_eq_false_iff, Bool.not_eq_eq_eq_not, Bool.not_true, decide_eq_false_iff_not,
    Bool.and_eq_false_iff] at shape distinct
  obtain ⟨vin, _, _, _, types, coinbase⟩ := shape
  obtain ⟨total, values, summed⟩ := checkOutputs_ok (by decide) outputs
  rw [Int.zero_add] at total summed
  refine ⟨vin.resolve_left, fun two => ?_, fun isCoinBase two => ?_, values, ⟨total, summed⟩, distinct, fun notCoinBase => ?_⟩
  · simpa using types.resolve_left (fun low => low two)
  · exact coinbase.resolve_left (by simp [isCoinBase, two])
  · simpa [checkInputShape, notCoinBase] using inputs

def mature (coin : Coin) (nSpendHeight : Nat) : Bool :=
  !((coin.fCoinBase || coin.fCoinStake) && decide ((nSpendHeight : Int) - coin.nHeight < COINBASE_MATURITY))

def sumInputs (inputs : CCoinsView) (nSpendHeight : Nat) (nValueIn : Int) : List CTxIn → Result Int
  | [] => .ok nValueIn
  | txin :: rest =>
    let coin := inputs.accessCoin txin.prevout
    if coin.isSpent then .error .aborted
    else if !mature coin nSpendHeight then
      .error (.invalid .TX_PREMATURE_SPEND "bad-txns-premature-spend-of-coinbase")
    else if moneyRange coin.out.nValue && moneyRange (nValueIn + coin.out.nValue) then
      sumInputs inputs nSpendHeight (nValueIn + coin.out.nValue) rest
    else consensus "bad-txns-inputvalues-outofrange"

/-- `CheckTxInputs`, with the fee it reports; a coinstake reports none. -/
def checkTxInputs (tx : CTransaction) (inputs : CCoinsView) (nSpendHeight : Nat) : Result Int :=
  if inputs.haveInputs tx then
    (sumInputs inputs nSpendHeight 0 tx.vin).bind fun nValueIn =>
    (assertSome tx.getValueOut).bind fun value_out =>
    if tx.isCoinStake then .ok 0
    else if nValueIn < value_out then consensus "bad-txns-in-belowout"
    else if moneyRange (nValueIn - value_out) then .ok (nValueIn - value_out)
    else consensus "bad-txns-fee-outofrange"
  else .error (.invalid .TX_MISSING_INPUTS "bad-txns-inputs-missingorspent")

structure InputsOk (tx : CTransaction) (inputs : CCoinsView) (nSpendHeight : Nat) (txfee : Int) : Prop where
  present : inputs.haveInputs tx = true
  ripe : ∀ txin ∈ tx.vin, mature (inputs.accessCoin txin.prevout) nSpendHeight = true
  values : ∀ txin ∈ tx.vin, moneyRange (inputs.accessCoin txin.prevout).out.nValue = true
  total : moneyRange (tx.vin.map fun txin => (inputs.accessCoin txin.prevout).out.nValue).sum = true
  fee : txfee = if tx.isCoinStake then 0
    else (tx.vin.map fun txin => (inputs.accessCoin txin.prevout).out.nValue).sum - tx.valueOut
  inRange : moneyRange txfee = true

theorem sumInputs_ok {nValueIn total : Int} {vin : List CTxIn}
    (start : moneyRange nValueIn = true) (passed : sumInputs inputs nSpendHeight nValueIn vin = .ok total) :
    total = nValueIn + (vin.map fun txin => (inputs.accessCoin txin.prevout).out.nValue).sum ∧
      moneyRange total = true ∧ ∀ txin ∈ vin, mature (inputs.accessCoin txin.prevout) nSpendHeight = true ∧
        moneyRange (inputs.accessCoin txin.prevout).out.nValue = true := by
  induction vin generalizing nValueIn with
  | nil => cases passed; simpa using start
  | cons txin rest ih =>
    simp only [sumInputs] at passed
    split at passed
    · cases passed
    split at passed
    · cases passed
    split at passed
    next ripe inRange =>
      rw [Bool.and_eq_true] at inRange
      obtain ⟨sum, final, others⟩ := ih inRange.2 passed
      refine ⟨by rw [sum, map_cons, sum_cons, Int.add_assoc], final, ?_⟩
      refine forall_mem_cons.mpr ⟨⟨by simpa using ripe, inRange.1⟩, others⟩
    next => cases passed

theorem checkTxInputs_ok {txfee : Int}
    (passed : checkTxInputs tx inputs nSpendHeight = .ok txfee) : InputsOk tx inputs nSpendHeight txfee := by
  unfold checkTxInputs at passed
  split at passed
  next present =>
    obtain ⟨nValueIn, summed, rest⟩ := bind_eq_ok.mp passed
    obtain ⟨value_out, valueOut, rest⟩ := bind_eq_ok.mp rest
    obtain ⟨total, inRange, each⟩ := sumInputs_ok (by decide) summed
    rw [Int.zero_add] at total
    have outIs := getValueOut_eq (assertSome_eq_ok.mp valueOut)
    refine ⟨present, fun txin member => (each txin member).1, fun txin member => (each txin member).2, total ▸ inRange, ?_, ?_⟩
    · split at rest
      next stake => cases rest; rw [if_pos stake]
      next ordinary =>
        rw [if_neg ordinary, ← total, ← outIs]
        split at rest
        · cases rest
        split at rest
        · cases rest; rfl
        · cases rest
    · split at rest
      · cases rest; decide
      split at rest
      · cases rest
      split at rest
      next fee => cases rest; exact fee
      next => cases rest
  next => cases passed

def isFinalTx (tx : CTransaction) (nBlockHeight nBlockTime : Nat) : Bool :=
  decide (tx.nLockTime = 0) ||
    decide (tx.nLockTime < if tx.nLockTime < LOCKTIME_THRESHOLD then nBlockHeight else nBlockTime) ||
    tx.vin.all fun txin => decide (txin.nSequence = SEQUENCE_FINAL)

end Cspn.TxCheck
