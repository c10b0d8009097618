import Mathlib

/-!
Amounts, outpoints, special-transaction payloads, transactions, blocks and block index entries, under the names of the
source. A hash is an opaque number: the code compares, orders and tests hashes for null. A transaction carries its id
as the memory-only field the constructor fills in.
-/
namespace Cspn.Primitives

/-! ### Amounts -/

abbrev Uint256 := Nat
abbrev CKeyID := Nat
abbrev CScript := List UInt8

def COIN : Int := 100000000
def MAX_MONEY : Int := 13370000 * COIN

def moneyRange (nValue : Int) : Bool := decide (0 ≤ nValue ∧ nValue ≤ MAX_MONEY)

@[simp] theorem moneyRange_iff (nValue : Int) : moneyRange nValue = true ↔ 0 ≤ nValue ∧ nValue ≤ MAX_MONEY := by
  simp [moneyRange]

def OP_RETURN : UInt8 := 0x6a
def MAX_SCRIPT_SIZE : Nat := 10000

/-- Outputs with such a script never enter the coin view. -/
def isUnspendable (script : CScript) : Bool :=
  decide (script.head? = some OP_RETURN) || decide (MAX_SCRIPT_SIZE < script.length)

/-! ### Outpoints, inputs and outputs -/

structure COutPoint where
  hash : Uint256
  n : Nat
deriving DecidableEq

namespace COutPoint

def NULL_INDEX : Nat := 0xffffffff

def null : COutPoint := ⟨0, NULL_INDEX⟩

def isNull (o : COutPoint) : Bool := decide (o = null)

end COutPoint

structure CTxIn where
  prevout : COutPoint
  scriptSig : CScript := []
  nSequence : Nat := 0xffffffff
  scriptWitness : List (List UInt8) := []
deriving DecidableEq

structure CTxOut where
  nValue : Int
  scriptPubKey : CScript
deriving DecidableEq

namespace CTxOut

def null : CTxOut := ⟨-1, []⟩

def isNull (out : CTxOut) : Bool := decide (out.nValue = -1)

/-- The marker output of a coinstake and the coinbase output of a stake block. -/
def isEmpty (out : CTxOut) : Bool := decide (out.nValue = 0) && out.scriptPubKey.isEmpty

end CTxOut

/-! ### Payloads of special transactions -/

/-- A network address with its port; `CService()` is the all-zero one. -/
structure CService where
  ip : Nat := 0
  port : Nat := 0
deriving DecidableEq

/-- A BLS key or signature; `none` is one for which `IsValid()` is false. -/
abbrev CBLSPublicKey := Option Nat
abbrev CBLSSignature := Option Nat

structure CCbTx where
  nVersion : Nat := 2
  nHeight : Int := 0
  merkleRootMNList : Uint256 := 0
  merkleRootQuorums : Uint256 := 0
deriving DecidableEq

structure CProRegTx where
  nVersion : Nat := 1
  nType : Nat := 0
  nMode : Nat := 0
  /-- A null hash refers to an output of the registering transaction itself. -/
  collateralOutpoint : COutPoint := COutPoint.null
  addr : CService := {}
  keyIDOwner : CKeyID := 0
  pubKeyOperator : CBLSPublicKey := none
  keyIDVoting : CKeyID := 0
  nOperatorReward : Nat := 0
  scriptPayout : CScript := []
  inputsHash : Uint256 := 0
  vchSig : List UInt8 := []
deriving DecidableEq

structure CProUpServTx where
  nVersion : Nat := 1
  proTxHash : Uint256 := 0
  addr : CService := {}
  scriptOperatorPayout : CScript := []
  inputsHash : Uint256 := 0
  sig : CBLSSignature := none
deriving DecidableEq

structure CProUpRegTx where
  nVersion : Nat := 1
  proTxHash : Uint256 := 0
  nMode : Nat := 0
  pubKeyOperator : CBLSPublicKey := none
  keyIDVoting : CKeyID := 0
  scriptPayout : CScript := []
  inputsHash : Uint256 := 0
  vchSig : List UInt8 := []
deriving DecidableEq

def REASON_NOT_SPECIFIED : Nat := 0
def REASON_LAST : Nat := 3

structure CProUpRevTx where
  nVersion : Nat := 1
  proTxHash : Uint256 := 0
  nReason : Nat := REASON_NOT_SPECIFIED
  inputsHash : Uint256 := 0
  sig : CBLSSignature := none
deriving DecidableEq

structure CFinalCommitment where
  nVersion : Nat := 1
  llmqType : Nat := 0
  quorumHash : Uint256 := 0
  signers : List Bool := []
  validMembers : List Bool := []
  quorumPublicKey : CBLSPublicKey := none
  quorumVvecHash : Uint256 := 0
  quorumSig : CBLSSignature := none
  membersSig : CBLSSignature := none
deriving DecidableEq

def CFinalCommitment.isNull (qc : CFinalCommitment) : Bool :=
  !qc.signers.contains true && !qc.validMembers.contains true && qc.quorumPublicKey.isNone &&
    decide (qc.quorumVvecHash = 0) && qc.membersSig.isNone && qc.quorumSig.isNone

structure CFinalCommitmentTxPayload where
  nVersion : Nat := 1
  nHeight : Nat := 0xffffffff
  commitment : CFinalCommitment := {}
deriving DecidableEq

/-- What the bytes of the extra payload parse to. `GetTxPayload` asks for one kind, so a payload that parses as none
    stays raw. -/
inductive ExtraPayload where
  | raw (bytes : List UInt8)
  | cbTx (payload : CCbTx)
  | proRegTx (payload : CProRegTx)
  | proUpServTx (payload : CProUpServTx)
  | proUpRegTx (payload : CProUpRegTx)
  | proUpRevTx (payload : CProUpRevTx)
  | quorumCommitment (payload : CFinalCommitmentTxPayload)
deriving DecidableEq

/-! ### Transactions -/

def TRANSACTION_COINBASE : Int := 0
def TRANSACTION_NORMAL : Int := 1
def TRANSACTION_PROVIDER_REGISTER : Int := 2
def TRANSACTION_PROVIDER_UPDATE_SERVICE : Int := 3
def TRANSACTION_PROVIDER_UPDATE_REGISTRAR : Int := 4
def TRANSACTION_PROVIDER_UPDATE_REVOKE : Int := 5
def TRANSACTION_QUORUM_COMMITMENT : Int := 6
def TRANSACTION_STAKE : Int := 7

theorem raw_noPayload (nType : Int) :
    ¬((2 : Int) ≤ 2 ∧ nType ≠ TRANSACTION_NORMAL) → ExtraPayload.raw [] = .raw [] := fun _ => rfl

/-- What the id commits to, with the witnesses, and the id itself. -/
structure CTransaction where
  vin : List CTxIn
  vout : List CTxOut
  nVersion : Int := 2
  nType : Int := TRANSACTION_NORMAL
  nLockTime : Nat := 0
  vExtraPayload : ExtraPayload := .raw []
  hash : Uint256
  /-- The payload is read from the wire only for these transactions. -/
  noPayload : ¬(2 ≤ nVersion ∧ nType ≠ TRANSACTION_NORMAL) → vExtraPayload = .raw [] := by
    first | exact raw_noPayload _ | decide
deriving DecidableEq

namespace CTransaction

variable (tx : CTransaction)

def isCoinBase : Bool :=
  match tx.vin with
  | [txin] => txin.prevout.isNull && decide (1 ≤ tx.vout.length)
  | _ => false

def isCoinStake : Bool :=
  match tx.vin, tx.vout with
  | txin :: _, first :: _ :: _ => !txin.prevout.isNull && first.isEmpty
  | _, _ => false

theorem isCoinStake_of_isCoinBase (coinbase : tx.isCoinBase = true) : tx.isCoinStake = false := by
  unfold isCoinBase at coinbase
  unfold isCoinStake
  split at coinbase
  next txin single =>
    rw [single]
    simp only [Bool.and_eq_true] at coinbase
    split
    next first _ same _ => cases same; simp [coinbase.1]
    next => rfl
  next => cases coinbase

def outpoint (n : Nat) : COutPoint := ⟨tx.hash, n⟩

def getValueOutFrom (total : Int) : List CTxOut → Option Int
  | [] => some total
  | out :: rest =>
    if moneyRange out.nValue && moneyRange (total + out.nValue) then getValueOutFrom (total + out.nValue) rest
    else none

def getValueOut : Option Int := getValueOutFrom 0 tx.vout

def valueOut : Int := (tx.vout.map CTxOut.nValue).sum

theorem getValueOutFrom_eq {outs : List CTxOut} {total value : Int}
    (summed : getValueOutFrom total outs = some value) : value = total + (outs.map CTxOut.nValue).sum := by
  induction outs generalizing total with
  | nil => simp_all [getValueOutFrom]
  | cons out rest ih =>
    rw [getValueOutFrom] at summed
    split at summed
    · rw [ih summed]
      simp only [List.map_cons, List.sum_cons]
      omega
    · cases summed

theorem getValueOut_eq {tx : CTransaction} {value : Int} (summed : tx.getValueOut = some value) :
    value = tx.valueOut := by
  simpa [valueOut] using getValueOutFrom_eq summed

end CTransaction

structure CBlockHeader where
  nVersion : Int := 4
  hashPrevBlock : Uint256 := 0
  hashMerkleRoot : Uint256 := 0
  nTime : Nat := 0
  nBits : Nat := 0
  nNonce : Nat := 0
deriving DecidableEq

structure CBlock extends CBlockHeader where
  vtx : List CTransaction
  vchBlockSig : List UInt8 := []
  /-- Header hash, which `GetHash` computes. -/
  hash : Uint256
deriving DecidableEq

namespace CBlock

def isProofOfStake (block : CBlock) : Bool :=
  match block.vtx with
  | _ :: second :: _ => second.isCoinStake
  | _ => false

def isProofOfWork (block : CBlock) : Bool := !block.isProofOfStake

end CBlock

end Cspn.Primitives
