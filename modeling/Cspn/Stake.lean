import Cspn.SpecialTx

/-!
The proof-of-stake checks of a block: the kernel of its coinstake, the look at the
stakes seen before, and the stake fields written to the index entry. The stakes seen
are those of every block accepted, on any branch.
-/
namespace Cspn.Stake
open Primitives Index Env Kernel

/-- A 64-bit signed integer after arithmetic that may have left its range. -/
def wrap64 (x : Int) : Int := Int.bmod x (2 ^ 64)

variable (params : Params) (ext : Externals) (g : Globals)

/-- `bnCoinDayWeight * bnTargetPerCoinDay`, in 256 bits. -/
def kernelTarget (nBits : Nat) (nValueIn : Int) (nTimeWeight : Nat) : Nat :=
  let bnCoinDayWeight := (Int.tdiv (Int.tdiv (wrap64 (nValueIn * nTimeWeight)) COIN) 200 % 2 ^ 64).toNat
  bnCoinDayWeight * ext.setCompact nBits % 2 ^ 256

/-- `CheckStakeKernelHash`, with the hash it computes; `pindexFrom` is the block of `txPrev`. -/
def checkStakeKernelHash (nBits : Nat) (pindexPrev pindexFrom : CBlockIndex)
    (txPrev : CTransaction) (prevout : COutPoint) (nTimeTx : Nat) : Option Uint256 :=
  let fHardenedChecks := decide (params.nStakeEnforcement < pindexPrev.nHeight + 1)
  let nTimeBlockFrom := pindexFrom.getBlockTime
  if nTimeTx < nTimeBlockFrom ∨ nTimeTx < nTimeBlockFrom + params.nStakeMinAge then none
  else
    (txPrev.vout[prevout.n]?).bind fun out =>
    if out.nValue < params.nMinStakeAmount ∧ fHardenedChecks then none
    else
      match (getKernelStakeModifierV03 params.nModifierInterval g.mapBlockIndex g.chainActive pindexPrev
          pindexFrom.getBlockHash).outcome with
      | .found nStakeModifier _ _ =>
        let nTimeWeight := min (nTimeTx - nTimeBlockFrom) (params.nStakeMaxAge - params.nStakeMinAge)
        let hashProofOfStake := ext.stakeHash nStakeModifier nTimeBlockFrom nTimeBlockFrom prevout.n nTimeTx
        if kernelTarget ext nBits out.nValue nTimeWeight < hashProofOfStake then none else some hashProofOfStake
      | _ => none

def checkProofOfStake (block : CBlock) (pindexPrev : CBlockIndex) : Option Uint256 :=
  let fHardenedChecks := decide (params.nStakeEnforcement < pindexPrev.nHeight + 1)
  (block.vtx[1]?).bind fun tx =>
  if !tx.isCoinStake then none
  else
    (tx.vin.head?).bind fun txin =>
    (g.getTransaction txin.prevout.hash).bind fun found =>
    (g.mapBlockIndex.find found.2).bind fun pindexFrom =>
    if fHardenedChecks && (decide (pindexFrom.nHeight = 0) ||
        decide ((pindexPrev.nHeight : Int) + 1 - pindexFrom.nHeight < params.nMinStakeHistory)) then none
    else
      (found.1.vout[txin.prevout.n]?).bind fun prevOut =>
      if !ext.verifyKernelScript tx prevOut then none
      else checkStakeKernelHash params ext g block.nBits pindexPrev pindexFrom found.1 txin.prevout block.nTime

structure StakeFields where
  hashProofOfStake : Uint256
  nStakeModifier : Nat
  fGeneratedStakeModifier : Bool
  nStakeModifierChecksum : Nat

/-- `PoSContextualBlockChecks` with the fields to write. No network has modifier checkpoints. -/
def posContextualBlockChecks (block : CBlock) (pindexPrev : CBlockIndex) : Option StakeFields :=
  (if block.isProofOfStake then checkProofOfStake params ext g block pindexPrev else some 0).bind fun hashProofOfStake =>
  if params.nStakeEnforcement ≤ pindexPrev.nHeight + 1 ∧ hashProofOfStake ∈ g.m_pos_index then none
  else
    (ext.computeNextStakeModifier pindexPrev block.nTime).map fun modifier =>
      { hashProofOfStake
        nStakeModifier := modifier.1
        fGeneratedStakeModifier := modifier.2
        nStakeModifierChecksum := ext.getStakeModifierChecksum pindexPrev block hashProofOfStake modifier.1 modifier.2 }

def insertPoSIndex (m_pos_index : List Uint256) (hash : Uint256) : List Uint256 :=
  if hash = 0 ∨ hash ∈ m_pos_index then m_pos_index else m_pos_index ++ [hash]

def StakeFields.write (stake : StakeFields) (fields : IndexFields) : IndexFields :=
  { fields with
    hashProofOfStake := stake.hashProofOfStake
    nStakeModifier := stake.nStakeModifier
    fGeneratedStakeModifier := stake.fGeneratedStakeModifier
    nStakeModifierChecksum := stake.nStakeModifierChecksum }

end Cspn.Stake
