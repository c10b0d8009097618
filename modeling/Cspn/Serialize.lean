import Cspn.Format

/-!
The formats that all serialised objects are made of: integers, sizes and vectors. A
size is written in one of four forms, the shortest that holds it. A reader refuses a
longer form, and a size above `MAX_SIZE`.
-/
namespace Cspn.Serialize
open Format Reader

def endOfData : String := "CDataStream::read(): end of data"

def uint8 : Codec (BitVec 8) := uint endOfData 8 1 (by decide)
def uint32 : Codec (BitVec 32) := uint endOfData 32 4 (by decide)
def uint64 : Codec (BitVec 64) := uint endOfData 64 8 (by decide)
def uint256 : Codec (BitVec 256) := uint endOfData 256 32 (by decide)

def MAX_SIZE : Nat := 0x02000000

def writeCompactSize (nSize : BitVec 64) : List UInt8 :=
  let n := nSize.toNat
  if n < 253 then [UInt8.ofNat n]
  else if n ≤ 0xffff then 253 :: leBytes 2 n
  else if n ≤ 0xffffffff then 254 :: leBytes 4 n
  else 255 :: leBytes 8 n

/-- The number in a longer form, which a shorter one must not hold. -/
def readLongSize (k least : Nat) : Reader Nat := do
  let n ← readLE endOfData k
  if n < least then fail "non-canonical ReadCompactSize()" else pure n

def readSizeAfter (chSize : UInt8) : Reader Nat :=
  if chSize < 253 then pure chSize.toNat
  else if chSize = 253 then readLongSize 2 253
  else if chSize = 254 then readLongSize 4 0x10000
  else readLongSize 8 0x100000000

def readCompactSize : Reader (BitVec 64) := do
  let chSize ← byte endOfData
  let nSizeRet ← readSizeAfter chSize
  if nSizeRet > MAX_SIZE then fail "ReadCompactSize(): size too large" else pure (BitVec.ofNat 64 nSizeRet)

theorem readLongSize_leBytes {k least n : Nat} (enough : least ≤ n) (small : n < 256 ^ k) (rest : List UInt8) :
    readLongSize k least (leBytes k n ++ rest) = .ok (n, rest) := by
  rw [readLongSize, bind_of_ok (readLE_leBytes small rest), if_neg (by omega), pure_apply]

theorem readLongSize_ok {k least n : Nat} {bytes rest : List UInt8} (read : readLongSize k least bytes = .ok (n, rest)) :
    bytes = leBytes k n ++ rest ∧ least ≤ n ∧ n < 256 ^ k := by
  obtain ⟨m, middle, number, read⟩ := bind_eq_ok.mp read
  split at read
  · cases read
  next enough =>
    cases pure_eq_ok.mp read
    obtain ⟨same, small⟩ := leBytes_of_readLE number
    exact ⟨same, by omega, small⟩

theorem readCompactSize_write (nSize : BitVec 64) (rest : List UInt8) :
    readCompactSize (writeCompactSize nSize ++ rest) =
      if nSize.toNat > MAX_SIZE then .error "ReadCompactSize(): size too large" else .ok (nSize, rest) := by
  have finish : ∀ {first : UInt8} {tail : List UInt8}, readSizeAfter first (tail ++ rest) = .ok (nSize.toNat, rest) →
      readCompactSize (first :: tail ++ rest) =
        if nSize.toNat > MAX_SIZE then .error "ReadCompactSize(): size too large" else .ok (nSize, rest) := by
    intro first tail read
    rw [readCompactSize, List.cons_append, bind_of_ok (byte_eq_ok.mpr rfl), bind_of_ok read]
    split
    · rfl
    · rw [pure_apply, BitVec.ofNat_toNat, BitVec.setWidth_eq]
  unfold writeCompactSize
  dsimp only
  split
  next short =>
    have value : (UInt8.ofNat nSize.toNat).toNat = nSize.toNat := by simp; omega
    refine finish ?_
    rw [readSizeAfter, if_pos (UInt8.lt_iff_toNat_lt.mpr (by rw [value]; exact short)), value]
    rfl
  next long =>
    split
    next => exact finish (readLongSize_leBytes (by omega) (by omega) rest)
    next =>
      split
      next => exact finish (readLongSize_leBytes (by omega) (by omega) rest)
      next => exact finish (readLongSize_leBytes (by omega) (by omega) rest)

theorem readCompactSize_ok {nSize : BitVec 64} {bytes rest : List UInt8} (read : readCompactSize bytes = .ok (nSize, rest)) :
    bytes = writeCompactSize nSize ++ rest ∧ nSize.toNat ≤ MAX_SIZE := by
  obtain ⟨first, middle, byteRead, read⟩ := bind_eq_ok.mp read
  obtain ⟨n, last, number, read⟩ := bind_eq_ok.mp read
  split at read
  · cases read
  next small =>
    cases pure_eq_ok.mp read
    have value : (BitVec.ofNat 64 n).toNat = n := by
      rw [BitVec.toNat_ofNat, Nat.mod_eq_of_lt (by unfold MAX_SIZE at small; omega)]
    refine ⟨?_, by rw [value]; omega⟩
    rw [byte_eq_ok.mp byteRead, writeCompactSize, value]
    unfold readSizeAfter at number
    split at number
    next short =>
      cases pure_eq_ok.mp number
      have short : first.toNat < 253 := UInt8.lt_iff_toNat_lt.mp short
      rw [if_pos short, UInt8.ofNat_toNat]
      rfl
    next =>
      split at number
      next form =>
        obtain ⟨rfl, least, most⟩ := readLongSize_ok number
        rw [form, if_neg (by omega), if_pos (by omega), List.cons_append]
      next =>
        split at number
        next form =>
          obtain ⟨rfl, least, most⟩ := readLongSize_ok number
          rw [form, if_neg (by omega), if_neg (by omega), if_pos (by omega), List.cons_append]
        next =>
          obtain ⟨rfl, least, most⟩ := readLongSize_ok number
          unfold MAX_SIZE at small
          omega

def compactSize : Codec (BitVec 64) where
  write := writeCompactSize
  read := readCompactSize
  Fits nSize := nSize.toNat ≤ MAX_SIZE
  read_write := by
    intro nSize fits rest
    rw [readCompactSize_write, if_neg (by omega)]
  refused := by
    intro nSize unfit rest
    rw [readCompactSize_write, if_pos (by omega)]
    exact fun wrong => by cases wrong
  canonical read := (readCompactSize_ok read).1

def unsignedChar : Codec UInt8 where
  write b := [b]
  read := byte endOfData
  Fits _ := True
  read_write := fun _ _ => rfl
  refused unfit := absurd trivial unfit
  canonical := byte_eq_ok.mp

section
variable {α : Type}

def vector (c : Codec α) : Codec (List α) := counted c compactSize

theorem vector_fits {c : Codec α} {xs : List α} : (vector c).Fits xs ↔ xs.length ≤ MAX_SIZE ∧ ∀ x ∈ xs, c.Fits x := by
  have size : xs.length < 2 ^ 64 → (BitVec.ofNat 64 xs.length).toNat = xs.length := by
    intro small
    rw [BitVec.toNat_ofNat, Nat.mod_eq_of_lt small]
  constructor
  · rintro ⟨small, fits, each⟩
    exact ⟨size small ▸ fits, each⟩
  · rintro ⟨fits, each⟩
    have small : xs.length < 2 ^ 64 := by unfold MAX_SIZE at fits; omega
    refine ⟨small, ?_, each⟩
    change (BitVec.ofNat 64 xs.length).toNat ≤ MAX_SIZE
    rw [size small]
    exact fits

/-- Vectors of bytes: scripts, payloads, elements of witness stacks. -/
def bytes : Codec (List UInt8) := vector unsignedChar

theorem bytes_fits {xs : List UInt8} : bytes.Fits xs ↔ xs.length ≤ MAX_SIZE := by
  rw [bytes, vector_fits]
  exact and_iff_left fun _ _ => trivial

end

end Cspn.Serialize
