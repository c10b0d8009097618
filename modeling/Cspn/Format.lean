import Mathlib

/-!
Binary formats. A reader takes a value off the front of its input or fails with a message. A codec is a writer with a
reader that reads nothing but what the writer writes, so that a value has one encoding; the accepted values are known
exactly. Codecs are built from fixed-width integers, pairs and counted lists.
-/
namespace Cspn.Format
open List

def Reader (α : Type) : Type := List UInt8 → Except String (α × List UInt8)

variable {bytes rest : List UInt8} {k n : Nat}

namespace Reader
variable {α β : Type}

instance : Monad Reader where
  pure x := fun bytes => .ok (x, bytes)
  bind r f := fun bytes => (r bytes).bind fun result => f result.1 result.2

def fail (message : String) : Reader α := fun _ => .error message

theorem pure_apply (x : α) (bytes : List UInt8) : (pure x : Reader α) bytes = .ok (x, bytes) := rfl

@[simp] theorem pure_eq_ok {x : α} {result : α × List UInt8} :
    (pure x : Reader α) bytes = .ok result ↔ (x, bytes) = result := by
  rw [pure_apply, Except.ok.injEq]

theorem bind_of_ok {r : Reader α} {f : α → Reader β} {x : α} (read : r bytes = .ok (x, rest)) :
    (r >>= f) bytes = f x rest := by
  change (r bytes).bind _ = _
  rw [read]
  rfl

theorem bind_eq_ok {r : Reader α} {f : α → Reader β} {result : β × List UInt8} :
    (r >>= f) bytes = .ok result ↔ ∃ x rest, r bytes = .ok (x, rest) ∧ f x rest = .ok result := by
  change (r bytes).bind _ = _ ↔ _
  cases read : r bytes with
  | error message => simp [Except.bind]
  | ok first => exact ⟨fun later => ⟨first.1, first.2, rfl, later⟩, by rintro ⟨x, rest, same, later⟩; cases same; exact later⟩

end Reader

open Reader

structure Codec (α : Type) where
  write : α → List UInt8
  read : Reader α
  /-- The values the reader accepts. -/
  Fits : α → Prop
  read_write : ∀ {x : α}, Fits x → ∀ rest, read (write x ++ rest) = .ok (x, rest)
  refused : ∀ {x : α}, ¬ Fits x → ∀ rest, read (write x ++ rest) ≠ .ok (x, rest)
  canonical : ∀ {bytes rest : List UInt8} {x : α}, read bytes = .ok (x, rest) → bytes = write x ++ rest

namespace Codec
variable {α β : Type}

theorem fits_of_read (c : Codec α) {x : α} (read : c.read bytes = .ok (x, rest)) : c.Fits x := by
  rw [c.canonical read] at read
  by_contra unfit
  exact c.refused unfit _ read

def pair (a : Codec α) (b : Codec β) : Codec (α × β) where
  write v := a.write v.1 ++ b.write v.2
  read := do
    let x ← a.read
    let y ← b.read
    pure (x, y)
  Fits v := a.Fits v.1 ∧ b.Fits v.2
  read_write := by
    rintro ⟨x, y⟩ ⟨fitsX, fitsY⟩ rest
    rw [append_assoc, bind_of_ok (a.read_write fitsX _), bind_of_ok (b.read_write fitsY _)]
    rfl
  refused := by
    rintro ⟨x, y⟩ unfit rest read
    rw [append_assoc] at read
    obtain ⟨x', middle, readX, read⟩ := bind_eq_ok.mp read
    obtain ⟨y', last, readY, read⟩ := bind_eq_ok.mp read
    cases pure_eq_ok.mp read
    exact unfit ⟨a.fits_of_read readX, b.fits_of_read readY⟩
  canonical := by
    rintro bytes rest ⟨x, y⟩ read
    obtain ⟨x', middle, readX, read⟩ := bind_eq_ok.mp read
    obtain ⟨y', last, readY, read⟩ := bind_eq_ok.mp read
    cases pure_eq_ok.mp read
    rw [a.canonical readX, b.canonical readY, append_assoc]

def image (c : Codec α) (make : α → β) (back : β → α) (inverse : ∀ x, back (make x) = x) : Codec β where
  write y := c.write (back y)
  read := do
    let x ← c.read
    pure (make x)
  Fits y := c.Fits (back y) ∧ make (back y) = y
  read_write := by
    rintro y ⟨fits, same⟩ rest
    rw [bind_of_ok (c.read_write fits _), same]
    rfl
  refused := by
    rintro y unfit rest read
    obtain ⟨x, last, readX, read⟩ := bind_eq_ok.mp read
    cases pure_eq_ok.mp read
    exact unfit ⟨by rw [inverse]; exact c.fits_of_read readX, by rw [inverse]⟩
  canonical := by
    rintro bytes rest y read
    obtain ⟨x, last, readX, read⟩ := bind_eq_ok.mp read
    cases pure_eq_ok.mp read
    rw [inverse]
    exact c.canonical readX

end Codec

/-- The lowest `k` bytes, lowest first. -/
def leBytes : Nat → Nat → List UInt8
  | 0, _ => []
  | k + 1, n => UInt8.ofNat (n % 256) :: leBytes k (n / 256)

section
-- what a reader says at the end of its input
variable (endOfData : String)

def byte : Reader UInt8
  | [] => .error endOfData
  | b :: rest => .ok (b, rest)

def readLE : Nat → Reader Nat
  | 0 => pure 0
  | k + 1 => do
    let low ← byte endOfData
    let high ← readLE k
    pure (low.toNat + 256 * high)

variable {endOfData}

theorem byte_eq_ok {b : UInt8} : byte endOfData bytes = .ok (b, rest) ↔ bytes = b :: rest := by
  cases bytes with
  | nil => simp [byte]
  | cons first others => simp [byte]

theorem readLE_leBytes (small : n < 256 ^ k) (rest : List UInt8) :
    readLE endOfData k (leBytes k n ++ rest) = .ok (n, rest) := by
  induction k generalizing n with
  | zero =>
    obtain rfl : n = 0 := by simpa using small
    rfl
  | succ k ih =>
    have high : n / 256 < 256 ^ k := Nat.div_lt_of_lt_mul (by rw [Nat.pow_succ'] at small; exact small)
    have low : (UInt8.ofNat (n % 256)).toNat = n % 256 := by simp
    rw [leBytes, cons_append, readLE, bind_of_ok (byte_eq_ok.mpr rfl), bind_of_ok (ih high),
      pure_apply, low, Nat.mod_add_div]

theorem leBytes_append_inj {m : Nat} {rest' : List UInt8} (small : n < 256 ^ k) (small' : m < 256 ^ k)
    (same : leBytes k n ++ rest = leBytes k m ++ rest') : n = m ∧ rest = rest' := by
  have reads := congrArg (readLE "" k) same
  rw [readLE_leBytes small, readLE_leBytes small'] at reads
  simpa using reads

theorem leBytes_of_readLE (read : readLE endOfData k bytes = .ok (n, rest)) :
    bytes = leBytes k n ++ rest ∧ n < 256 ^ k := by
  induction k generalizing n bytes with
  | zero =>
    cases pure_eq_ok.mp read
    exact ⟨rfl, by simp⟩
  | succ k ih =>
    obtain ⟨low, middle, first, read⟩ := bind_eq_ok.mp read
    obtain ⟨high, last, others, read⟩ := bind_eq_ok.mp read
    cases pure_eq_ok.mp read
    obtain ⟨same, small⟩ := ih others
    have bound : low.toNat < 256 := low.toNat_lt
    have digit : (low.toNat + 256 * high) % 256 = low.toNat := by omega
    have carry : (low.toNat + 256 * high) / 256 = high := by omega
    constructor
    · rw [byte_eq_ok.mp first, same, leBytes, digit, carry, UInt8.ofNat_toNat, cons_append]
    · rw [Nat.pow_succ']
      omega

variable (endOfData)

/-- An integer of `w` bits in `k` bytes. -/
def uint (w k : Nat) (width : 2 ^ w = 256 ^ k) : Codec (BitVec w) where
  write x := leBytes k x.toNat
  read := do
    let n ← readLE endOfData k
    pure (BitVec.ofNat w n)
  Fits _ := True
  read_write := by
    intro x _ rest
    rw [bind_of_ok (readLE_leBytes (width ▸ x.isLt) rest), BitVec.ofNat_toNat, BitVec.setWidth_eq]
    rfl
  refused unfit := absurd trivial unfit
  canonical := by
    intro bytes rest x read
    obtain ⟨n, last, number, read⟩ := bind_eq_ok.mp read
    cases pure_eq_ok.mp read
    obtain ⟨same, small⟩ := leBytes_of_readLE number
    rw [BitVec.toNat_ofNat, Nat.mod_eq_of_lt (width ▸ small)]
    exact same

end

section
variable {α : Type}

def readMany (read : Reader α) : Nat → Reader (List α)
  | 0 => pure []
  | n + 1 => do
    let x ← read
    let xs ← readMany read n
    pure (x :: xs)

variable (c : Codec α)

theorem readMany_write {xs : List α} (fits : ∀ x ∈ xs, c.Fits x) (rest : List UInt8) :
    readMany c.read xs.length (xs.flatMap c.write ++ rest) = .ok (xs, rest) := by
  induction xs with
  | nil => rfl
  | cons x xs ih =>
    obtain ⟨here, later⟩ := forall_mem_cons.mp fits
    rw [length_cons, readMany, flatMap_cons, append_assoc, bind_of_ok (c.read_write here _),
      bind_of_ok (ih later)]
    rfl

theorem readMany_canonical {xs : List α} (read : readMany c.read n bytes = .ok (xs, rest)) :
    bytes = xs.flatMap c.write ++ rest ∧ xs.length = n ∧ ∀ x ∈ xs, c.Fits x := by
  induction n generalizing xs bytes with
  | zero =>
    cases pure_eq_ok.mp read
    exact ⟨rfl, rfl, by simp⟩
  | succ n ih =>
    obtain ⟨x, middle, first, read⟩ := bind_eq_ok.mp read
    obtain ⟨others, last, later, read⟩ := bind_eq_ok.mp read
    cases pure_eq_ok.mp read
    obtain ⟨same, length, fits⟩ := ih later
    refine ⟨?_, by rw [length_cons, length], forall_mem_cons.mpr ⟨c.fits_of_read first, fits⟩⟩
    rw [c.canonical first, same, flatMap_cons, append_assoc]

def counted (size : Codec (BitVec 64)) : Codec (List α) where
  write xs := size.write (BitVec.ofNat 64 xs.length) ++ xs.flatMap c.write
  read := do
    let n ← size.read
    readMany c.read n.toNat
  Fits xs := xs.length < 2 ^ 64 ∧ size.Fits (BitVec.ofNat 64 xs.length) ∧ ∀ x ∈ xs, c.Fits x
  read_write := by
    rintro xs ⟨small, fitsSize, fits⟩ rest
    rw [append_assoc, bind_of_ok (size.read_write fitsSize _), BitVec.toNat_ofNat, Nat.mod_eq_of_lt small]
    exact readMany_write c fits rest
  refused := by
    rintro xs unfit rest read
    obtain ⟨n, middle, readSize, read⟩ := bind_eq_ok.mp read
    obtain ⟨-, length, fits⟩ := readMany_canonical c read
    have number : BitVec.ofNat 64 xs.length = n := by rw [length, BitVec.ofNat_toNat, BitVec.setWidth_eq]
    exact unfit ⟨length ▸ n.isLt, number ▸ size.fits_of_read readSize, fits⟩
  canonical := by
    rintro bytes rest xs read
    obtain ⟨n, middle, readSize, read⟩ := bind_eq_ok.mp read
    obtain ⟨same, length, -⟩ := readMany_canonical c read
    rw [size.canonical readSize, same, length, BitVec.ofNat_toNat, BitVec.setWidth_eq, append_assoc]

end

end Cspn.Format
