import Cspn.Serialize

/-!
The wire format of transactions. Version and type share the first word. An empty vector
in the place of the inputs announces the extended format, in which the witness stacks
follow the outputs. The payload comes last, for the versions and types that have one.
-/
namespace Cspn.TxWire
open Format Serialize List Reader

structure COutPoint where
  hash : BitVec 256
  n : BitVec 32
deriving DecidableEq

structure CTxIn where
  prevout : COutPoint
  scriptSig : List UInt8 := []
  nSequence : BitVec 32 := 0xffffffff
  /-- Only serialised through the transaction. -/
  scriptWitness : List (List UInt8) := []
deriving DecidableEq

structure CTxOut where
  nValue : BitVec 64
  scriptPubKey : List UInt8 := []
deriving DecidableEq

structure CMutableTransaction where
  vin : List CTxIn := []
  vout : List CTxOut := []
  nVersion : BitVec 16
  nType : BitVec 16
  nLockTime : BitVec 32 := 0
  vExtraPayload : List UInt8 := []
deriving DecidableEq

def outPoint : Codec COutPoint := (uint256.pair uint32).image (fun v => ⟨v.1, v.2⟩) (fun o => (o.hash, o.n)) fun _ => rfl

def txIn : Codec CTxIn :=
  (outPoint.pair (bytes.pair uint32)).image (fun v => { prevout := v.1, scriptSig := v.2.1, nSequence := v.2.2 })
    (fun txin => (txin.prevout, txin.scriptSig, txin.nSequence)) fun _ => rfl

def txOut : Codec CTxOut :=
  (uint64.pair bytes).image (fun v => ⟨v.1, v.2⟩) (fun out => (out.nValue, out.scriptPubKey)) fun _ => rfl

def witnessStack : Codec (List (List UInt8)) := vector bytes

variable (vin : List CTxIn) (nVersion nType : BitVec 16) (fAllowWitness : Bool) (tx : CMutableTransaction)

def n32bitVersion : BitVec 32 := nVersion.signExtend 32 ||| (nType.signExtend 32 <<< 16)

def versionOf (word : BitVec 32) : BitVec 16 := (word &&& 0xffff#32).setWidth 16

def typeOf (word : BitVec 32) : BitVec 16 := ((word.sshiftRight 16) &&& 0xffff#32).setWidth 16

def TRANSACTION_NORMAL : BitVec 16 := 1

namespace CMutableTransaction

def hasWitness (tx : CMutableTransaction) : Bool := tx.vin.any fun txin => !txin.scriptWitness.isEmpty

end CMutableTransaction

/-- The format has a payload for these. -/
def carriesPayload : Bool := decide (2 ≤ nVersion.toInt) && decide (nType ≠ TRANSACTION_NORMAL)

def serializeBody : List UInt8 :=
  let flags : BitVec 8 := if fAllowWitness && tx.hasWitness then 1 else 0
  (if flags ≠ 0 then (vector txIn).write [] ++ uint8.write flags else []) ++
    (vector txIn).write tx.vin ++ (vector txOut).write tx.vout ++
    (if flags &&& 1 ≠ 0 then tx.vin.flatMap fun txin => witnessStack.write txin.scriptWitness else []) ++
    uint32.write tx.nLockTime ++
    (if carriesPayload tx.nVersion tx.nType then bytes.write tx.vExtraPayload else [])

def serializeTransaction : List UInt8 :=
  uint32.write (n32bitVersion tx.nVersion tx.nType) ++ serializeBody fAllowWitness tx

def readInsOuts : Reader (BitVec 8 × List CTxIn × List CTxOut) := do
  let vin ← (vector txIn).read
  if vin.length = 0 ∧ fAllowWitness = true then
    -- a dummy or an empty vin
    let flags ← uint8.read
    if flags ≠ 0 then
      let vin ← (vector txIn).read
      let vout ← (vector txOut).read
      pure (flags, vin, vout)
    else pure (flags, [], [])
  else
    let vout ← (vector txOut).read
    pure (0, vin, vout)

def readStacks : List CTxIn → Reader (List CTxIn)
  | [] => pure []
  | txin :: rest => do
    let stack ← witnessStack.read
    let others ← readStacks rest
    pure ({ txin with scriptWitness := stack } :: others)

def readWitness (flags : BitVec 8) (vin : List CTxIn) : Reader (BitVec 8 × List CTxIn) :=
  if flags &&& 1 ≠ 0 ∧ fAllowWitness = true then do
    let vin ← readStacks vin
    if vin.any fun txin => !txin.scriptWitness.isEmpty then pure (flags ^^^ 1, vin)
    else fail "Superfluous witness record"
  else pure (flags, vin)

/-- A payload that the format does not have is left as it was. -/
def readPayload (vExtraPayload : List UInt8) : Reader (List UInt8) :=
  if carriesPayload nVersion nType then bytes.read else pure vExtraPayload

def readParts : Reader (List CTxIn × List CTxOut) := do
  let read ← readInsOuts fAllowWitness
  let witnessed ← readWitness fAllowWitness read.1 read.2.1
  if witnessed.1 ≠ 0 then fail "Unknown transaction optional data" else pure (witnessed.2, read.2.2)

def unserializeTransaction : Reader CMutableTransaction := do
  let word ← uint32.read
  let parts ← readParts fAllowWitness
  let nLockTime ← uint32.read
  let vExtraPayload ← readPayload (versionOf word) (typeOf word) tx.vExtraPayload
  pure
    { vin := parts.1
      vout := parts.2
      nVersion := versionOf word
      nType := typeOf word
      nLockTime
      vExtraPayload }

/-! ### The first word -/

/-- The sign of a negative version covers the type, unless that is -1 anyway. -/
def KeepsType : Prop := 0 ≤ nVersion.toInt ∨ nType = -1

section
variable {nVersion nType : BitVec 16} {word : BitVec 32} {i : Nat}

section
variable (small : i < 16)
include small

theorem getLsbD_mask : (0xffff#32).getLsbD i = true := by
  rw [show 0xffff#32 = (BitVec.allOnes 16).setWidth 32 by decide, BitVec.getLsbD_setWidth, BitVec.getLsbD_allOnes]
  simp [small]
  omega

theorem getLsbD_versionOf : (versionOf word).getLsbD i = word.getLsbD i := by
  simp only [versionOf, BitVec.getLsbD_setWidth, BitVec.getLsbD_and, getLsbD_mask small, small, decide_true, Bool.true_and,
    Bool.and_true]

theorem getLsbD_typeOf : (typeOf word).getLsbD i = word.getLsbD (16 + i) := by
  have inside : 16 + i < 32 := by omega
  have below : ¬ 32 ≤ i := by omega
  simp only [typeOf, BitVec.getLsbD_setWidth, BitVec.getLsbD_and, getLsbD_mask small, small, decide_true, Bool.true_and,
    Bool.and_true, BitVec.getLsbD_sshiftRight, inside, below, decide_false, Bool.not_false, ↓reduceIte]

theorem getLsbD_n32bitVersion_low : (n32bitVersion nVersion nType).getLsbD i = nVersion.getLsbD i := by
  have inside : i < 32 := by omega
  simp only [n32bitVersion, BitVec.getLsbD_or, BitVec.getLsbD_shiftLeft, BitVec.getLsbD_signExtend, small, inside,
    decide_true, Bool.not_true, Bool.and_false, Bool.false_and, Bool.or_false, Bool.true_and, ↓reduceIte]

theorem getLsbD_n32bitVersion_high :
    (n32bitVersion nVersion nType).getLsbD (16 + i) = (nVersion.msb || nType.getLsbD i) := by
  have inside : 16 + i < 32 := by omega
  have above : ¬ 16 + i < 16 := by omega
  have here : i < 32 := by omega
  simp only [n32bitVersion, BitVec.getLsbD_or, BitVec.getLsbD_shiftLeft, BitVec.getLsbD_signExtend, small, inside, above,
    here, Nat.add_sub_cancel_left, decide_true, decide_false, Bool.not_false, Bool.true_and, ↓reduceIte]

end

theorem KeepsType.getLsbD (keeps : KeepsType nVersion nType) (small : i < 16) :
    (nVersion.msb || nType.getLsbD i) = nType.getLsbD i := by
  rcases keeps with positive | rfl
  · rw [BitVec.msb_eq_toInt, decide_eq_false (by omega), Bool.false_or]
  · rw [show (-1 : BitVec 16) = BitVec.allOnes 16 by decide, BitVec.getLsbD_allOnes, decide_eq_true small, Bool.or_true]

theorem versionOf_n32bitVersion (nVersion nType : BitVec 16) : versionOf (n32bitVersion nVersion nType) = nVersion := by
  apply BitVec.eq_of_getLsbD_eq
  intro i small
  rw [getLsbD_versionOf small, getLsbD_n32bitVersion_low small]

theorem typeOf_n32bitVersion (keeps : KeepsType nVersion nType) : typeOf (n32bitVersion nVersion nType) = nType := by
  apply BitVec.eq_of_getLsbD_eq
  intro i small
  rw [getLsbD_typeOf small, getLsbD_n32bitVersion_high small, keeps.getLsbD small]

theorem n32bitVersion_of_word (keeps : KeepsType (versionOf word) (typeOf word)) :
    n32bitVersion (versionOf word) (typeOf word) = word := by
  apply BitVec.eq_of_getLsbD_eq
  intro i inside
  by_cases small : i < 16
  · rw [getLsbD_n32bitVersion_low small, getLsbD_versionOf small]
  · obtain ⟨j, rfl⟩ := Nat.exists_eq_add_of_le (Nat.le_of_not_lt small)
    have high : j < 16 := by omega
    rw [getLsbD_n32bitVersion_high high, keeps.getLsbD high, getLsbD_typeOf high]

end

/-! ### Inputs and witnesses -/

def stripWitness : List CTxIn := vin.map fun txin => { txin with scriptWitness := [] }

@[simp] theorem stripWitness_cons (txin : CTxIn) (others : List CTxIn) :
    stripWitness (txin :: others) = { txin with scriptWitness := [] } :: stripWitness others := rfl

theorem txIn_fits {txin : CTxIn} : txIn.Fits txin ↔ txin.scriptSig.length ≤ MAX_SIZE ∧ txin.scriptWitness = [] := by
  constructor
  · rintro ⟨⟨-, fits, -⟩, same⟩
    exact ⟨bytes_fits.mp fits, by rw [← same]⟩
  · rintro ⟨fits, none⟩
    exact ⟨⟨⟨⟨trivial, trivial⟩, rfl⟩, bytes_fits.mpr fits, trivial⟩, by rw [← none]⟩

theorem txOut_fits {out : CTxOut} : txOut.Fits out ↔ out.scriptPubKey.length ≤ MAX_SIZE := by
  constructor
  · rintro ⟨⟨-, fits⟩, -⟩
    exact bytes_fits.mp fits
  · exact fun fits => ⟨⟨trivial, bytes_fits.mpr fits⟩, rfl⟩

theorem witnessStack_fits {stack : List (List UInt8)} :
    witnessStack.Fits stack ↔ stack.length ≤ MAX_SIZE ∧ ∀ element ∈ stack, element.length ≤ MAX_SIZE := by
  simp [witnessStack, vector_fits, bytes_fits]

theorem write_stripWitness : (vector txIn).write (stripWitness vin) = (vector txIn).write vin := by
  change compactSize.write _ ++ (stripWitness vin).flatMap txIn.write = compactSize.write _ ++ vin.flatMap txIn.write
  rw [stripWitness, length_map, flatMap_map]
  rfl

variable {vin : List CTxIn} {input rest : List UInt8}

theorem stripWitness_fits :
    (vector txIn).Fits (stripWitness vin) ↔ vin.length ≤ MAX_SIZE ∧ ∀ txin ∈ vin, txin.scriptSig.length ≤ MAX_SIZE := by
  simp [vector_fits, stripWitness, txIn_fits]

theorem stripWitness_of_none (none : ∀ txin ∈ vin, txin.scriptWitness = []) : stripWitness vin = vin := by
  have same : ∀ txin ∈ vin, { txin with scriptWitness := [] } = txin := by
    intro txin member
    rw [← none txin member]
  exact (map_congr_left same).trans (map_id vin)

theorem noWitness_of_fits (fits : (vector txIn).Fits vin) : ∀ txin ∈ vin, txin.scriptWitness = [] :=
  fun txin member => (txIn_fits.mp ((vector_fits.mp fits).2 txin member)).2

theorem readStacks_write (fits : ∀ txin ∈ vin, witnessStack.Fits txin.scriptWitness) (rest : List UInt8) :
    readStacks (stripWitness vin) ((vin.flatMap fun txin => witnessStack.write txin.scriptWitness) ++ rest) =
      .ok (vin, rest) := by
  induction vin with
  | nil => rfl
  | cons txin others ih =>
    obtain ⟨here, later⟩ := forall_mem_cons.mp fits
    rw [stripWitness_cons, readStacks, flatMap_cons, append_assoc,
      bind_of_ok (witnessStack.read_write here _), bind_of_ok (ih later)]
    rfl

theorem readStacks_ok {read : List CTxIn} (witnesses : readStacks vin input = .ok (read, rest)) :
    input = (read.flatMap fun txin => witnessStack.write txin.scriptWitness) ++ rest ∧
      stripWitness read = stripWitness vin ∧ ∀ txin ∈ read, witnessStack.Fits txin.scriptWitness := by
  induction vin generalizing read input with
  | nil =>
    cases pure_eq_ok.mp witnesses
    exact ⟨rfl, rfl, by simp⟩
  | cons txin others ih =>
    obtain ⟨stack, middle, first, witnesses⟩ := bind_eq_ok.mp witnesses
    obtain ⟨later, last, follow, witnesses⟩ := bind_eq_ok.mp witnesses
    cases pure_eq_ok.mp witnesses
    obtain ⟨same, stripped, fits⟩ := ih follow
    refine ⟨?_, ?_, forall_mem_cons.mpr ⟨witnessStack.fits_of_read first, fits⟩⟩
    · rw [witnessStack.canonical first, same, flatMap_cons, append_assoc]
    · rw [stripWitness_cons, stripWitness_cons, stripped]

/-! ### Whole transactions -/

structure WithinLimits (tx : CMutableTransaction) : Prop where
  vin : tx.vin.length ≤ MAX_SIZE
  scriptSig : ∀ txin ∈ tx.vin, txin.scriptSig.length ≤ MAX_SIZE
  scriptWitness : ∀ txin ∈ tx.vin, witnessStack.Fits txin.scriptWitness
  vout : tx.vout.length ≤ MAX_SIZE
  scriptPubKey : ∀ out ∈ tx.vout, out.scriptPubKey.length ≤ MAX_SIZE
  vExtraPayload : carriesPayload tx.nVersion tx.nType = true → tx.vExtraPayload.length ≤ MAX_SIZE

def serializeParts (vin : List CTxIn) (vout : List CTxOut) : List UInt8 :=
  if vin.any fun txin => !txin.scriptWitness.isEmpty then
    (vector txIn).write [] ++ uint8.write 1 ++ (vector txIn).write vin ++ (vector txOut).write vout ++
      vin.flatMap fun txin => witnessStack.write txin.scriptWitness
  else (vector txIn).write vin ++ (vector txOut).write vout

theorem serializeBody_eq (tx : CMutableTransaction) :
    serializeBody true tx = serializeParts tx.vin tx.vout ++ uint32.write tx.nLockTime ++
      (if carriesPayload tx.nVersion tx.nType then bytes.write tx.vExtraPayload else []) := by
  unfold serializeBody serializeParts CMutableTransaction.hasWitness
  cases tx.vin.any fun txin => !txin.scriptWitness.isEmpty with
  | true => simp
  | false => simp

section
variable {vout : List CTxOut}

theorem vector_fits_nil : (vector txIn).Fits [] := vector_fits.mpr ⟨Nat.zero_le _, by simp⟩

theorem readParts_write (fitsIn : (vector txIn).Fits (stripWitness vin))
    (fitsStacks : ∀ txin ∈ vin, witnessStack.Fits txin.scriptWitness) (fitsOut : (vector txOut).Fits vout)
    (shape : vin = [] → vout = []) (rest : List UInt8) :
    readParts true (serializeParts vin vout ++ rest) = .ok ((vin, vout), rest) := by
  unfold serializeParts
  split
  next witness =>
    have insOuts : readInsOuts true ((vector txIn).write [] ++ (uint8.write 1 ++ ((vector txIn).write vin ++
        ((vector txOut).write vout ++ ((vin.flatMap fun txin => witnessStack.write txin.scriptWitness) ++ rest))))) =
          .ok ((1, stripWitness vin, vout), (vin.flatMap fun txin => witnessStack.write txin.scriptWitness) ++ rest) := by
      rw [← write_stripWitness vin, readInsOuts, bind_of_ok ((vector txIn).read_write vector_fits_nil _),
        if_pos ⟨rfl, rfl⟩, bind_of_ok (uint8.read_write trivial _), if_pos (by decide),
        bind_of_ok ((vector txIn).read_write fitsIn _), bind_of_ok ((vector txOut).read_write fitsOut _)]
      rfl
    have witnesses : readWitness true 1 (stripWitness vin)
        ((vin.flatMap fun txin => witnessStack.write txin.scriptWitness) ++ rest) = .ok ((0, vin), rest) := by
      rw [readWitness, if_pos ⟨by decide, rfl⟩, bind_of_ok (readStacks_write fitsStacks rest), if_pos witness]
      rfl
    rw [readParts, append_assoc, append_assoc, append_assoc, append_assoc, bind_of_ok insOuts,
      bind_of_ok witnesses]
    rfl
  next noWitness =>
    rw [stripWitness_of_none (by simpa using noWitness)] at fitsIn
    have insOuts : readInsOuts true ((vector txIn).write vin ++ ((vector txOut).write vout ++ rest)) =
        .ok ((0, vin, vout), rest) := by
      rw [readInsOuts, bind_of_ok ((vector txIn).read_write fitsIn _)]
      cases vin with
      | nil =>
        -- the empty vector of outputs is read as flags
        rw [shape rfl, if_pos ⟨rfl, rfl⟩]
        rfl
      | cons txin others =>
        rw [if_neg (by simp), bind_of_ok ((vector txOut).read_write fitsOut _)]
        rfl
    have noStacks : readWitness true 0 vin rest = .ok ((0, vin), rest) := by
      rfl
    rw [readParts, append_assoc, bind_of_ok insOuts, bind_of_ok noStacks]
    rfl

theorem readInsOuts_ok {flags : BitVec 8} (read : readInsOuts true input = .ok ((flags, vin, vout), rest)) :
    (flags = 0 ∧ vin = [] ∧ vout = [] ∧ input = (vector txIn).write [] ++ (vector txOut).write [] ++ rest) ∨
      (vector txIn).Fits vin ∧ (vector txOut).Fits vout ∧
        (flags ≠ 0 ∧ input = (vector txIn).write [] ++ uint8.write flags ++ (vector txIn).write vin ++
            (vector txOut).write vout ++ rest ∨
          flags = 0 ∧ vin ≠ [] ∧ input = (vector txIn).write vin ++ (vector txOut).write vout ++ rest) := by
  obtain ⟨first, afterFirst, readFirst, read⟩ := bind_eq_ok.mp read
  have before := (vector txIn).canonical readFirst
  split at read
  next empty =>
    obtain rfl := eq_nil_of_length_eq_zero empty.1
    obtain ⟨flags, afterFlags, readFlags, read⟩ := bind_eq_ok.mp read
    rw [uint8.canonical readFlags] at before
    split at read
    next set =>
      obtain ⟨vin, afterIn, readIn, read⟩ := bind_eq_ok.mp read
      obtain ⟨vout, afterOut, readOut, read⟩ := bind_eq_ok.mp read
      cases pure_eq_ok.mp read
      rw [(vector txIn).canonical readIn, (vector txOut).canonical readOut] at before
      exact .inr ⟨(vector txIn).fits_of_read readIn, (vector txOut).fits_of_read readOut,
        .inl ⟨set, by simpa using before⟩⟩
    next unset =>
      cases pure_eq_ok.mp read
      rw [not_not.mp unset] at before
      exact .inl ⟨not_not.mp unset, rfl, rfl, by rw [append_assoc]; exact before⟩
  next filled =>
    obtain ⟨vout, afterOut, readOut, read⟩ := bind_eq_ok.mp read
    cases pure_eq_ok.mp read
    rw [(vector txOut).canonical readOut] at before
    have some : vin ≠ [] := by
      rintro rfl
      exact filled ⟨rfl, rfl⟩
    exact .inr ⟨(vector txIn).fits_of_read readFirst, (vector txOut).fits_of_read readOut,
      .inr ⟨rfl, some, by rw [append_assoc]; exact before⟩⟩

theorem readParts_ok (read : readParts true input = .ok ((vin, vout), rest)) :
    input = serializeParts vin vout ++ rest ∧ (vector txIn).Fits (stripWitness vin) ∧
      (∀ txin ∈ vin, witnessStack.Fits txin.scriptWitness) ∧ (vector txOut).Fits vout := by
  obtain ⟨⟨flags, bare, outs⟩, afterOuts, insOuts, read⟩ := bind_eq_ok.mp read
  obtain ⟨⟨left, witnessed⟩, afterStacks, witnesses, read⟩ := bind_eq_ok.mp read
  split at read
  · cases read
  next known =>
    cases pure_eq_ok.mp read
    obtain rfl : left = 0 := not_not.mp known
    unfold readWitness at witnesses
    split at witnesses
    next extended =>
      -- the witness flag is the only one
      obtain ⟨vin, afterStacks, readVin, witnesses⟩ := bind_eq_ok.mp witnesses
      split at witnesses
      · next witness =>
        obtain ⟨same, rfl⟩ := Prod.mk.inj (pure_eq_ok.mp witnesses)
        obtain ⟨only, rfl⟩ := Prod.mk.inj same
        obtain rfl : flags = 1 := BitVec.xor_eq_zero_iff.mp only
        obtain ⟨bytesOfStacks, stripped, fits⟩ := readStacks_ok readVin
        rcases readInsOuts_ok insOuts with ⟨zero, -⟩ | ⟨fitsIn, fitsOut, ⟨-, bytesOfParts⟩ | ⟨zero, -⟩⟩
        · cases zero
        · rw [stripWitness_of_none (noWitness_of_fits fitsIn)] at stripped
          refine ⟨?_, by rw [stripped]; exact fitsIn, fits, fitsOut⟩
          rw [bytesOfParts, bytesOfStacks, serializeParts, if_pos witness, ← stripped, write_stripWitness]
          simp
        · cases zero
      · cases witnesses
    next plain =>
      cases pure_eq_ok.mp witnesses
      rcases readInsOuts_ok insOuts with ⟨-, rfl, rfl, bytesOfParts⟩ | ⟨fitsIn, fitsOut, ⟨set, -⟩ | ⟨-, -, bytesOfParts⟩⟩
      · exact ⟨bytesOfParts, vector_fits_nil, by simp, vector_fits.mpr ⟨Nat.zero_le _, by simp⟩⟩
      · exact absurd rfl set
      · have none := noWitness_of_fits fitsIn
        refine ⟨?_, by rw [stripWitness_of_none none]; exact fitsIn, ?_, fitsOut⟩
        · rw [bytesOfParts, serializeParts, if_neg]
          simpa using none
        · intro txin member
          rw [none txin member]
          exact witnessStack_fits.mpr ⟨Nat.zero_le _, by simp⟩

end

section
variable {old tx : CMutableTransaction}

theorem unserializeTransaction_ok (read : unserializeTransaction true old input = .ok (tx, rest)) :
    WithinLimits tx ∧ ∃ word, tx.nVersion = versionOf word ∧ tx.nType = typeOf word ∧
      input = uint32.write word ++ serializeBody true tx ++ rest := by
  obtain ⟨word, afterWord, readWord, read⟩ := bind_eq_ok.mp read
  obtain ⟨⟨vin, vout⟩, afterParts, parts, read⟩ := bind_eq_ok.mp read
  obtain ⟨nLockTime, afterTime, readTime, read⟩ := bind_eq_ok.mp read
  obtain ⟨vExtraPayload, afterPayload, payload, read⟩ := bind_eq_ok.mp read
  cases pure_eq_ok.mp read
  obtain ⟨bytesOfParts, fitsIn, fitsStacks, fitsOut⟩ := readParts_ok parts
  have tail : afterTime = (if carriesPayload (versionOf word) (typeOf word) then bytes.write vExtraPayload else []) ++ rest ∧
      (carriesPayload (versionOf word) (typeOf word) = true → vExtraPayload.length ≤ MAX_SIZE) := by
    unfold readPayload at payload
    split at payload
    next carried => rw [if_pos carried]; exact ⟨bytes.canonical payload, fun _ => bytes_fits.mp (bytes.fits_of_read payload)⟩
    next missing =>
      cases pure_eq_ok.mp payload
      rw [if_neg missing]
      exact ⟨rfl, fun carried => absurd carried missing⟩
  refine ⟨?_, word, rfl, rfl, ?_⟩
  · obtain ⟨inputs, scripts⟩ := stripWitness_fits.mp fitsIn
    obtain ⟨outputs, outScripts⟩ := vector_fits.mp fitsOut
    exact ⟨inputs, scripts, fitsStacks, outputs, fun out member => txOut_fits.mp (outScripts out member), tail.2⟩
  · rw [uint32.canonical readWord, bytesOfParts, uint32.canonical readTime, tail.1, serializeBody_eq]
    simp

/-- What a transaction becomes when it is read into `old`: the format may have no payload. -/
def readInto (old tx : CMutableTransaction) : CMutableTransaction :=
  { tx with vExtraPayload := if carriesPayload tx.nVersion tx.nType then tx.vExtraPayload else old.vExtraPayload }

def RoundTrips (tx : CMutableTransaction) : Prop :=
  ∀ old rest, unserializeTransaction true old (serializeTransaction true tx ++ rest) = .ok (readInto old tx, rest)

theorem WithinLimits.roundTrips (limits : WithinLimits tx) (keeps : KeepsType tx.nVersion tx.nType)
    (shape : tx.vin = [] → tx.vout = []) : RoundTrips tx := by
  intro old rest
  have parts := readParts_write (stripWitness_fits.mpr ⟨limits.vin, limits.scriptSig⟩) limits.scriptWitness
    (vector_fits.mpr ⟨limits.vout, fun out member => txOut_fits.mpr (limits.scriptPubKey out member)⟩) shape
  have payload : readPayload tx.nVersion tx.nType old.vExtraPayload
      ((if carriesPayload tx.nVersion tx.nType then bytes.write tx.vExtraPayload else []) ++ rest) =
        .ok ((readInto old tx).vExtraPayload, rest) := by
    unfold readPayload readInto
    split
    next carried => exact bytes.read_write (bytes_fits.mpr (limits.vExtraPayload carried)) rest
    next => rfl
  rw [serializeTransaction, serializeBody_eq, unserializeTransaction]
  simp only [append_assoc]
  rw [bind_of_ok (uint32.read_write trivial _), versionOf_n32bitVersion, typeOf_n32bitVersion keeps,
    bind_of_ok (parts _), bind_of_ok (uint32.read_write trivial _), bind_of_ok payload]
  rfl

end

def sampleTx : CMutableTransaction where
  vin := [{ prevout := ⟨5, 0⟩, scriptSig := [1, 2], scriptWitness := [[3], []] }, { prevout := ⟨6, 1⟩ }]
  vout := [⟨1000, [0x51]⟩]
  nVersion := 2
  nType := 2
  vExtraPayload := [7, 8, 9]

def plainTx (nVersion : BitVec 16) (scriptPubKey : List UInt8) : CMutableTransaction where
  vin := [{ prevout := ⟨5, 0⟩ }]
  vout := [⟨1000, scriptPubKey⟩]
  nVersion
  nType := TRANSACTION_NORMAL

/-- A transaction whose type is not covered by the sign of its version is read back exactly when its vectors are
    within the limits, and only from the bytes it is written as. -/
theorem transaction_wire_format :
    (∀ tx, KeepsType tx.nVersion tx.nType → (tx.vin = [] → tx.vout = []) →
      (RoundTrips tx ↔ WithinLimits tx)) ∧
    ∀ (old tx : CMutableTransaction) (input rest : List UInt8), unserializeTransaction true old input = .ok (tx, rest) →
      KeepsType tx.nVersion tx.nType → input = serializeTransaction true tx ++ rest := by
  constructor
  · intro tx keeps shape
    refine ⟨fun roundTrips => ?_, fun limits => limits.roundTrips keeps shape⟩
    have same : readInto tx tx = tx := by simp [readInto]
    have read := roundTrips tx []
    rw [same] at read
    exact (unserializeTransaction_ok read).1
  · intro old tx input rest read keeps
    obtain ⟨-, word, version, type, same⟩ := unserializeTransaction_ok read
    rw [version, type] at keeps
    rw [same, serializeTransaction, version, type, n32bitVersion_of_word keeps]

theorem transaction_wire_format_sample :
    RoundTrips sampleTx ∧ ∃ tx rest, unserializeTransaction true (plainTx 1 []) (serializeTransaction true sampleTx ++ [0]) =
      .ok (tx, rest) ∧ serializeTransaction true sampleTx ++ [0] = serializeTransaction true tx ++ rest := by
  have limits : WithinLimits sampleTx := by
    refine ⟨by decide, by decide, ?_, by decide, by decide, fun _ => by decide⟩
    simp only [witnessStack_fits]
    decide
  have trips := (transaction_wire_format.1 sampleTx (.inl (by decide)) (by decide)).mpr limits
  exact ⟨trips, _, _, trips _ _, transaction_wire_format.2 _ _ _ _ (trips _ _) (.inl (by decide))⟩

/-- A negative version makes the type -1, on a transaction and on bytes with another type; a script that is too long is
    written and not read. -/
theorem transaction_wire_format_fails : ¬ RoundTrips (plainTx (-1) []) ∧
      (∃ input tx, unserializeTransaction true (plainTx 1 []) input = .ok (tx, []) ∧ tx = plainTx (-1) [] ∧
        input ≠ serializeTransaction true tx) ∧ ¬ RoundTrips (plainTx 1 (replicate (MAX_SIZE + 1) 0)) := by
  refine ⟨?_, ?_, ?_⟩
  · intro trips
    exact absurd (trips (plainTx 1 []) []) (by decide +kernel)
  · refine ⟨uint32.write 0x0001ffff ++ serializeBody true (plainTx (-1) []), plainTx (-1) [], ?_, rfl, ?_⟩
    · decide +kernel
    · decide +kernel
  · intro trips
    have same := trips (plainTx 1 (replicate (MAX_SIZE + 1) 0)) []
    have long := (unserializeTransaction_ok same).1.scriptPubKey ⟨1000, replicate (MAX_SIZE + 1) 0⟩
      (by simp [readInto, plainTx])
    rw [length_replicate] at long
    omega

end Cspn.TxWire
