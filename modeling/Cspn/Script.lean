import Cspn.Primitives

/-!
The script forms that name a destination: the templates `Solver` recognises and the
destination `ExtractDestination` reads off them. Bare multisig and data outputs name
none. Hashing a public key is left to a parameter.
-/
namespace Cspn.Script
open Primitives

def OP_0 : UInt8 := 0x00
def OP_1 : UInt8 := 0x51
def OP_16 : UInt8 := 0x60
def OP_DUP : UInt8 := 0x76
def OP_EQUAL : UInt8 := 0x87
def OP_EQUALVERIFY : UInt8 := 0x88
def OP_HASH160 : UInt8 := 0xa9
def OP_CHECKSIG : UInt8 := 0xac

/-- The alternatives of the variant, less `CNoDestination`: `ExtractDestination` never returns it. -/
inductive CTxDestination where
  | pkHash (id : CKeyID)
  | scriptHash (id : Nat)
  | witnessV0ScriptHash (id : Uint256)
  | witnessV0KeyHash (id : CKeyID)
  | witnessUnknown (version : Nat) (program : List UInt8)
deriving DecidableEq

/-- The number whose bytes, least significant first, are given. -/
def uintOfBytes (bytes : List UInt8) : Nat := bytes.foldr (fun byte n => byte.toNat + 256 * n) 0

variable (script : CScript)

def isPayToPublicKeyHash : Bool :=
  decide (script.length = 25 ∧ script[0]? = some OP_DUP ∧ script[1]? = some OP_HASH160 ∧ script[2]? = some 0x14 ∧
    script[23]? = some OP_EQUALVERIFY ∧ script[24]? = some OP_CHECKSIG)

def isPayToScriptHash : Bool :=
  decide (script.length = 23 ∧ script[0]? = some OP_HASH160 ∧ script[1]? = some 0x14 ∧ script[22]? = some OP_EQUAL)

def decodeOP_N (opcode : UInt8) : Nat := if opcode = OP_0 then 0 else opcode.toNat - (OP_1.toNat - 1)

def isWitnessProgram : Option (Nat × List UInt8) :=
  match script with
  | version :: size :: program =>
    if script.length < 4 ∨ 42 < script.length then none
    else if version ≠ OP_0 ∧ (version < OP_1 ∨ OP_16 < version) then none
    else if size.toNat + 2 = script.length then some (decodeOP_N version, program)
    else none
  | _ => none

def PUBLIC_KEY_SIZE : Nat := 65
def COMPRESSED_PUBLIC_KEY_SIZE : Nat := 33

def getLen (chHeader : UInt8) : Nat :=
  if chHeader = 2 ∨ chHeader = 3 then COMPRESSED_PUBLIC_KEY_SIZE
  else if chHeader = 4 ∨ chHeader = 6 ∨ chHeader = 7 then PUBLIC_KEY_SIZE
  else 0

def validSize (vch : List UInt8) : Bool := vch.head?.any fun header => decide (getLen header = vch.length)

def isPushChecksig (size : Nat) (script : CScript) : Bool :=
  decide (script.length = size + 2 ∧ script.head?.map UInt8.toNat = some size ∧ script.getLast? = some OP_CHECKSIG)

def matchPayToPubkey : Option (List UInt8) :=
  if isPushChecksig PUBLIC_KEY_SIZE script then (some ((script.drop 1).take PUBLIC_KEY_SIZE)).filter validSize
  else if isPushChecksig COMPRESSED_PUBLIC_KEY_SIZE script then
    (some ((script.drop 1).take COMPRESSED_PUBLIC_KEY_SIZE)).filter validSize
  else none

def extractDestination (hash160 : List UInt8 → Nat) (script : CScript) : Option CTxDestination :=
  if isPayToScriptHash script then some (.scriptHash (uintOfBytes ((script.drop 2).take 20)))
  else
    match isWitnessProgram script with
    | some (0, program) =>
      if program.length = 20 then some (.witnessV0KeyHash (uintOfBytes program))
      else if program.length = 32 then some (.witnessV0ScriptHash (uintOfBytes program))
      else none
    | some (version + 1, program) => some (.witnessUnknown (version + 1) program)
    | none =>
      match matchPayToPubkey script with
      | some pubkey => some (.pkHash (hash160 pubkey))
      | none =>
        if isPayToPublicKeyHash script then some (.pkHash (uintOfBytes ((script.drop 3).take 20))) else none

variable {script : CScript}

private theorem spendable_of_head (short : script.length ≤ 100)
    (head : script[0]? ≠ some OP_RETURN) : isUnspendable script = false := by
  have first : script.head? ≠ some OP_RETURN := by rwa [List.head?_eq_getElem?]
  have size : ¬MAX_SCRIPT_SIZE < script.length := by simp only [MAX_SCRIPT_SIZE]; omega
  simp [isUnspendable, first, size]

theorem isPushChecksig_spendable {size : Nat} (small : size ≤ PUBLIC_KEY_SIZE)
    (matched : isPushChecksig size script = true) : isUnspendable script = false := by
  simp only [isPushChecksig, decide_eq_true_eq] at matched
  obtain ⟨length, head, -⟩ := matched
  refine spendable_of_head (by simp only [PUBLIC_KEY_SIZE] at small; omega) ?_
  intro returns
  rw [List.head?_eq_getElem?, returns] at head
  have size : size = 0x6a := (Option.some.inj head).symm
  simp only [PUBLIC_KEY_SIZE] at small
  omega

theorem isWitnessProgram_spendable (matched : (isWitnessProgram script).isSome) : isUnspendable script = false := by
  unfold isWitnessProgram at matched
  split at matched
  next version size program =>
    split at matched
    · cases matched
    next lengths =>
      split at matched
      · cases matched
      next versions =>
        refine spendable_of_head (by omega) ?_
        intro returns
        have version : version = OP_RETURN := Option.some.inj returns
        exact versions (by subst version; decide)
  next => cases matched

theorem extractDestination_spendable {hash160 : List UInt8 → Nat} {dest : CTxDestination}
    (extracted : extractDestination hash160 script = some dest) : isUnspendable script = false := by
  unfold extractDestination at extracted
  by_cases p2sh : isPayToScriptHash script = true
  · simp only [isPayToScriptHash, decide_eq_true_eq] at p2sh
    refine spendable_of_head (by omega) ?_
    rw [p2sh.2.1]
    decide
  rw [if_neg p2sh] at extracted
  by_cases witness : (isWitnessProgram script).isSome
  · exact isWitnessProgram_spendable witness
  rw [Option.not_isSome_iff_eq_none.mp witness] at extracted
  unfold matchPayToPubkey at extracted
  by_cases long : isPushChecksig PUBLIC_KEY_SIZE script = true
  · exact isPushChecksig_spendable (Nat.le_refl _) long
  by_cases compressed : isPushChecksig COMPRESSED_PUBLIC_KEY_SIZE script = true
  · exact isPushChecksig_spendable (by decide) compressed
  rw [if_neg long, if_neg compressed] at extracted
  dsimp only at extracted
  split at extracted
  next p2pkh =>
    simp only [isPayToPublicKeyHash, decide_eq_true_eq] at p2pkh
    refine spendable_of_head (by omega) ?_
    rw [p2pkh.2.1]
    decide
  next => cases extracted

end Cspn.Script
