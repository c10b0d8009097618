import Cspn.Kernel
import Cspn.MnBuild

/-!
What block validation reads beside the block, its index entry and the coin view. `Params` are the constants of the
network. `Externals` are computations that the model leaves out (hashes, signatures, scripts, sizes) and state that
stays put meanwhile (sporks, clock, locks, governance). `Globals` change as blocks arrive.
-/
namespace Cspn.Env
open Primitives Index Coins MnList MnBuild

structure LLMQParams where
  type : Nat
  dkgInterval : Nat
  dkgMiningWindowStart : Nat
  dkgMiningWindowEnd : Nat
deriving DecidableEq

structure Params where
  /-- `NetworkIDString() == "regtest"`. -/
  fRegtest : Bool := false
  hashGenesisBlock : Uint256
  nLastPoWBlock : Nat
  nStakeEnforcement : Nat
  nMinStakeHistory : Int
  nMinStakeAmount : Int
  nStakeMinAge : Nat
  nStakeMaxAge : Nat
  nModifierInterval : Nat
  nBudgetPaymentsStartBlock : Nat
  nSuperblockStartBlock : Nat
  nSuperblockCycle : Nat
  nMasternodeMinimumConfirmations : Int
  nLLMQActivationHeight : Nat
  llmqs : List LLMQParams := []

def Params.llmq (params : Params) (type : Nat) : Option LLMQParams := params.llmqs.find? fun p => p.type == type

structure Externals where
  -- serialised sizes and weights
  serializeSizeTx : CTransaction → Nat
  payloadSize : CTransaction → Nat
  serializeSize : CBlock → Nat
  getBlockWeight : CBlock → Nat
  -- hashes and signatures
  hashing : Hashing
  checkProofOfWork : Uint256 → Nat → Bool
  /-- The root and whether the tree repeats transactions. -/
  blockMerkleRoot : List CTransaction → Uint256 × Bool
  checkBlockSignature : CBlock → Bool
  stakeHash : Nat → Nat → Nat → Nat → Nat → Uint256
  setCompact : Nat → Nat
  getStakeModifierChecksum : CBlockIndex → CBlock → Uint256 → Nat → Bool → Nat
  computeNextStakeModifier : CBlockIndex → Nat → Option (Nat × Bool)
  -- scripts
  getLegacySigOpCount : CTransaction → Nat
  getBlockScriptFlags : Uint256 → CBlockIndex → Nat
  getTransactionSigOpCost : CTransaction → List Coin → Nat → Nat
  verifyInputs : CTransaction → List Coin → Nat → Bool
  verifyKernelScript : CTransaction → CTxOut → Bool
  nScriptCheckThreads : Nat
  -- version bits, lock times and witnesses
  csvActive : CBlockIndex → Bool
  sequenceLocks : CTransaction → Bool → List Nat → CBlockIndex → Bool
  /-- Whether the block commits to its witnesses, or the reject string of a wrong commitment. -/
  witnessCommitment : CBlock → CBlockIndex → Except String Bool
  -- clock, sporks, locks and governance
  getAdjustedTime : Nat
  hasConflictingChainLock : Nat → Uint256 → Bool
  hasChainLock : Nat → Uint256 → Bool
  fInstantSendFiltering : Bool
  getConflictingLock : CTransaction → Bool
  fLiteMode : Bool
  fSynced : Bool
  fSuperblocksEnabled : Bool
  isSuperblockTriggered : Nat → Bool
  getBestSuperblock : Nat → Option (List CTxOut)
  /-- `blockValue * 0.76` in floating point. -/
  masternodeShare : Int → Int
  -- special transactions
  /-- `CheckProRegTx` and its siblings, against the coin tip and the list of the parent block. -/
  checkProviderTx : (COutPoint → Option Coin) → CDeterministicMNList → CTransaction → CBlockIndex →
    Validation.Result Unit
  verifyNull : CFinalCommitment → Bool
  verifyCommitment : CFinalCommitment → CBlockIndex → Bool → Bool
  getAllQuorumMembers : Nat → CBlockIndex → List CDeterministicMN
  merkleRootMNList : CDeterministicMNList → Uint256

/-- `GetTransaction`: the memory pool and the transaction index. -/
abbrev TxSource := Uint256 → Option (CTransaction × Uint256)

structure Globals where
  mapBlockIndex : BlockMap
  chainActive : CChain
  pcoinsTip : CCoinsView
  m_pos_index : List Uint256
  getTransaction : TxSource
  hashBestSpecial : Option Uint256
  getListForBlock : CBlockIndex → CDeterministicMNList
  hasMinedCommitment : Nat → Uint256 → Bool
  calcCbTxMerkleRootQuorums : CBlock → CBlockIndex → Option Uint256

def Globals.getUTXOCoin (g : Globals) (outpoint : COutPoint) : Option Coin := g.pcoinsTip.coins outpoint

def buildEnv (params : Params) (ext : Externals) (g : Globals) : BuildEnv where
  hashing := ext.hashing
  nMasternodeMinimumConfirmations := params.nMasternodeMinimumConfirmations
  getUTXOCoin := g.getUTXOCoin
  dkgInterval type := (params.llmq type).map LLMQParams.dkgInterval
  getAllQuorumMembers := ext.getAllQuorumMembers

end Cspn.Env
