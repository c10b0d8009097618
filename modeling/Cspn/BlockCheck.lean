import Cspn.TxCheck

/-!
The checks of a block: `CheckBlock` without context and `ContextualCheckBlock` on its
parent. A block that `CheckBlock` has passed in full is marked and passes at once the
next time; the model runs the checks again.
-/
namespace Cspn.BlockCheck
open Primitives Index Validation Env TxCheck List

def MAX_BLOCK_SIGOPS_COST : Nat := 80000
def MAX_FUTURE_BLOCK_TIME : Nat := 180

def checkEach {α : Type} (check : α → Result Unit) : List α → Result Unit
  | [] => .ok ()
  | a :: rest => (check a).bind fun _ => checkEach check rest

theorem checkEach_ok {α : Type} {check : α → Result Unit} {list : List α} :
    checkEach check list = .ok () ↔ ∀ a ∈ list, check a = .ok () := by
  induction list with
  | nil => simp [checkEach]
  | cons a rest ih => rw [checkEach, then_eq_ok, ih, forall_mem_cons]

theorem checkEach_congr {α : Type} {check other : α → Result Unit} {list : List α}
    (same : ∀ a ∈ list, check a = other a) : checkEach check list = checkEach other list := by
  induction list with
  | nil => rfl
  | cons a rest ih =>
    obtain ⟨first, others⟩ := forall_mem_cons.mp same
    rw [checkEach, checkEach, first, ih others]

/-- The empty marker output of a stake block's coinbase; only the first output is looked at. -/
def coinbaseMarked (block : CBlock) : Bool :=
  !block.isProofOfStake || block.vtx.head?.any fun coinbase => coinbase.vout.head?.any CTxOut.isEmpty

def checkBlock (ext : Externals) (block : CBlock) (fCheckPOW fCheckMerkleRoot : Bool) : Result Unit :=
  let merkle := ext.blockMerkleRoot block.vtx
  (checks .BLOCK_INVALID_HEADER
    [(!(fCheckPOW && block.isProofOfWork) || ext.checkProofOfWork block.hash block.nBits, "high-hash")]).bind fun _ =>
  (checks .BLOCK_MUTATED
    [(!fCheckMerkleRoot || decide (block.hashMerkleRoot = merkle.1), "bad-txnmrklroot"),
      (!fCheckMerkleRoot || !merkle.2, "bad-txns-duplicate")]).bind fun _ =>
  (checks .CONSENSUS
    [(!block.vtx.isEmpty && decide (block.vtx.length * WITNESS_SCALE_FACTOR ≤ MAX_BLOCK_WEIGHT) &&
        decide (ext.serializeSize block * WITNESS_SCALE_FACTOR ≤ MAX_BLOCK_WEIGHT), "bad-blk-length"),
      (block.vtx.head?.any CTransaction.isCoinBase, "bad-cb-missing"),
      (block.vtx.tail.all fun tx => !tx.isCoinBase, "bad-cb-multiple"),
      (block.vtx.tail.tail.all fun tx => !tx.isCoinStake, "bad-cs-missing"),
      (coinbaseMarked block, "bad-cb-notempty"),
      (decide (block.nTime ≤ ext.getAdjustedTime + MAX_FUTURE_BLOCK_TIME), "bad-cb-time")]).bind fun _ =>
  (checkEach (checkTransaction ext) block.vtx).bind fun _ =>
  checks .CONSENSUS
    [(decide ((block.vtx.map ext.getLegacySigOpCount).sum * WITNESS_SCALE_FACTOR ≤ MAX_BLOCK_SIGOPS_COST),
        "bad-blk-sigops"),
      (!(block.isProofOfStake && fCheckMerkleRoot) || ext.checkBlockSignature block, "bad-blk-sign")]

/-- What a block that passes `CheckBlock` is known to be. -/
structure BlockOk (block : CBlock) (coinbase : CTransaction) (rest : List CTransaction) : Prop where
  vtx : block.vtx = coinbase :: rest
  isCoinBase : coinbase.isCoinBase = true
  others : ∀ tx ∈ rest, tx.isCoinBase = false
  stakes : ∀ tx ∈ rest.tail, tx.isCoinStake = false
  txs : ∀ tx ∈ block.vtx, TxOk tx

theorem BlockOk.isProofOfStake {block : CBlock} {coinbase : CTransaction} {rest : List CTransaction}
    (ok : BlockOk block coinbase rest) :
    block.isProofOfStake = true ↔ ∃ coinstake others, rest = coinstake :: others ∧ coinstake.isCoinStake = true := by
  rw [CBlock.isProofOfStake, ok.vtx]
  cases rest <;> simp

def nMedianTimeSpan : Nat := 11

def getMedianTimePast (pindex : CBlockIndex) : Nat :=
  let times := ((pindex.path.take nMedianTimeSpan).map CBlockIndex.getBlockTime).insertionSort (· ≤ ·)
  times.getD (times.length / 2) 0

def hasWitness (tx : CTransaction) : Bool := tx.vin.any fun txin => !txin.scriptWitness.isEmpty

def contextualCheckBlock (ext : Externals) (block : CBlock) (pindexPrev : CBlockIndex) : Result Unit :=
  let nHeight := pindexPrev.nHeight + 1
  let nLockTimeCutoff := if ext.csvActive pindexPrev then getMedianTimePast pindexPrev else block.nTime
  (checks .CONSENSUS
    [(block.vtx.all fun tx => isFinalTx tx nHeight nLockTimeCutoff, "bad-txns-nonfinal")]).bind fun _ =>
  match ext.witnessCommitment block pindexPrev with
  | .error strRejectReason => .error (.invalid .BLOCK_MUTATED strRejectReason)
  | .ok fHaveWitness =>
    (checks .BLOCK_MUTATED
      [(fHaveWitness || block.vtx.all fun tx => !hasWitness tx, "unexpected-witness")]).bind fun _ =>
    checks .CONSENSUS
      [(decide (ext.getBlockWeight block ≤ MAX_BLOCK_WEIGHT), "bad-blk-weight"),
        (block.vtx.head?.any fun coinbase => decide (coinbase.nType = TRANSACTION_COINBASE), "bad-cb-type")]

end Cspn.BlockCheck
