import Cspn.Index

/-!
The target of the next stake block. The retargeting multiplies in 256 bits by a number of 32 bits, and both can wrap.
-/
namespace Cspn.Difficulty
open Index Index.CBlockIndex

def powLimit : Nat := 2 ^ 236 - 1
def nPosTargetSpacing : Nat := 60
def nPosTargetTimespan : Nat := 60 * 40
def nInterval : Nat := nPosTargetTimespan / nPosTargetSpacing

def setCompact (nCompact : Nat) : Nat :=
  let nSize := nCompact / 2 ^ 24
  let nWord := nCompact % 2 ^ 23
  if nSize ≤ 3 then nWord / 256 ^ (3 - nSize) else nWord * 256 ^ (nSize - 3) % 2 ^ 256

def bits (bn : Nat) : Nat := if bn = 0 then 0 else bn.log2 + 1

def getCompact (bn : Nat) : Nat :=
  let nSize := (bits bn + 7) / 8
  let nCompact := if nSize ≤ 3 then bn * 256 ^ (3 - nSize) else bn / 256 ^ (nSize - 3)
  -- the bit 0x00800000 denotes the sign
  if 2 ^ 23 ≤ nCompact then nCompact / 256 + (nSize + 1) * 2 ^ 24 else nCompact + nSize * 2 ^ 24

def actualSpacing : CBlockIndex → Nat
  | genesis _ => 0
  | next pprev fields => if fields.nTime < pprev.getBlockTime then 1 else fields.nTime - pprev.getBlockTime

def multiplier (nActualSpacing : Nat) : Nat := (nInterval - 1) * nPosTargetSpacing + nActualSpacing + nActualSpacing
def divisor : Nat := (nInterval + 1) * nPosTargetSpacing

/-- The product with the multiplier, an `int64_t` that the operator takes as a `uint32_t`. -/
def product (old nActualSpacing : Nat) : Nat := old * (multiplier nActualSpacing % 2 ^ 32) % 2 ^ 256

def bnNew (old nActualSpacing : Nat) : Nat :=
  let bnNew := product old nActualSpacing / divisor
  if bnNew ≤ 0 ∨ powLimit < bnNew then powLimit else bnNew

def getNextRequiredPoS : Option CBlockIndex → Nat
  | none => getCompact powLimit
  | some pindexLast => getCompact (bnNew (setCompact pindexLast.fields.nBits) (actualSpacing pindexLast))

def ideal (old nActualSpacing : Nat) : Nat := old * multiplier nActualSpacing / divisor

def Wraps (old nActualSpacing : Nat) : Prop :=
  2 ^ 32 ≤ multiplier nActualSpacing ∨ 2 ^ 256 ≤ old * multiplier nActualSpacing

variable {old actual : Nat}

theorem product_of_wraps (positive : 1 ≤ old) (wraps : Wraps old actual) :
    product old actual + 2 ^ 32 ≤ old * multiplier actual := by
  unfold product
  by_cases wide : 2 ^ 32 ≤ multiplier actual
  · have reduced : multiplier actual % 2 ^ 32 + 2 ^ 32 ≤ multiplier actual := by omega
    have scaled := Nat.mul_le_mul_left old reduced
    rw [Nat.mul_add] at scaled
    have := Nat.mod_le (old * (multiplier actual % 2 ^ 32)) (2 ^ 256)
    omega
  · have large := wraps.resolve_left wide
    rw [Nat.mod_eq_of_lt (by omega : multiplier actual < 2 ^ 32)]
    omega

theorem bnNew_range (old actual : Nat) : 1 ≤ bnNew old actual ∧ bnNew old actual ≤ powLimit := by
  unfold bnNew
  dsimp only
  split
  · exact ⟨by decide, Nat.le_refl _⟩
  · omega

theorem bnNew_eq (fits : ¬ Wraps old actual) (positive : 0 < ideal old actual) :
    bnNew old actual = min (ideal old actual) powLimit := by
  obtain ⟨narrow, small⟩ := not_or.mp fits
  have same : product old actual / divisor = ideal old actual := by
    rw [product, Nat.mod_eq_of_lt (Nat.lt_of_not_le narrow), Nat.mod_eq_of_lt (Nat.lt_of_not_le small), ideal]
  unfold bnNew
  rw [same]
  dsimp only
  split <;> omega

theorem bnNew_ne_exact (positive : 1 ≤ old) (wraps : Wraps old actual) (below : ideal old actual < powLimit) :
    bnNew old actual ≠ ideal old actual := by
  have less := product_of_wraps positive wraps
  unfold bnNew ideal divisor nInterval nPosTargetTimespan nPosTargetSpacing at *
  dsimp only
  split <;> omega

/-- An entry at the limit, this long after its predecessor. -/
def spaced (nActualSpacing : Nat) : CBlockIndex :=
  .next (.genesis { phashBlock := 1 }) { phashBlock := 2, nTime := nActualSpacing, nBits := 0x1e0fffff }

end Cspn.Difficulty
