import Cspn.Chain

/-!
Chains of any length on the main network. The first block pays out the old supply as sixty equal coins, the other work
blocks pay what the plan says, and then the coins are staked in turn, every sixty blocks. A block creates `mint` of its
height, and a stake block `extra` more in its coinbase.
-/
namespace Cspn.Growth
open Primitives Index Coins Coins.CCoinsView Validation Env TxCheck BlockCheck List Int Nat
  Payments SpecialTx Stake MnList MnBuild Connect Conservation Chain
open CDeterministicMNList CTransaction

def llmq50_60 : LLMQParams := ⟨1, 24, 10, 18⟩
def llmq400_60 : LLMQParams := ⟨2, 288, 20, 28⟩
def llmq400_85 : LLMQParams := ⟨3, 576, 20, 48⟩

@[irreducible] def hashGenesis : Nat := 0x0000098e30a3d29ee06c8f371e9e1fc516c8218b1be2615b7b0ec31649ed12e3

def mainParams : Params where
  hashGenesisBlock := hashGenesis
  nLastPoWBlock := 1500
  nStakeEnforcement := 7001
  nMinStakeHistory := 60
  nMinStakeAmount := 150 * COIN
  nStakeMinAge := 3600
  nStakeMaxAge := 86400
  nModifierInterval := 60
  nBudgetPaymentsStartBlock := 10000
  nSuperblockStartBlock := 12000
  nSuperblockCycle := 20571
  nMasternodeMinimumConfirmations := 16
  nLLMQActivationHeight := 50
  llmqs := [llmq50_60, llmq400_60, llmq400_85]

/-- Every signature, script, size and proof of work passes; no locks, no superblocks, a node in lite mode. -/
def permissive (getAdjustedTime : Nat) : Externals where
  serializeSizeTx _ := 250
  payloadSize _ := 100
  serializeSize _ := 1000
  getBlockWeight _ := 4000
  hashing := ⟨fun _ => 0, fun _ _ => 0⟩
  checkProofOfWork _ _ := true
  blockMerkleRoot _ := (0, false)
  checkBlockSignature _ := true
  stakeHash _ _ _ _ _ := 0
  setCompact nBits := nBits
  getStakeModifierChecksum _ _ _ _ _ := 1
  computeNextStakeModifier _ _ := some (1, true)
  getLegacySigOpCount _ := 1
  getBlockScriptFlags _ _ := 0
  getTransactionSigOpCost _ _ _ := 0
  verifyInputs _ _ _ := true
  verifyKernelScript _ _ := true
  nScriptCheckThreads := 0
  csvActive _ := true
  sequenceLocks _ _ _ _ := true
  witnessCommitment _ _ := .ok false
  getAdjustedTime
  hasConflictingChainLock _ _ := false
  hasChainLock _ _ := false
  fInstantSendFiltering := false
  getConflictingLock _ := false
  fLiteMode := true
  fSynced := true
  fSuperblocksEnabled := false
  isSuperblockTriggered _ := false
  getBestSuperblock _ := none
  masternodeShare _ := 0
  checkProviderTx _ _ _ _ := .ok ()
  verifyNull _ := true
  verifyCommitment _ _ _ := true
  getAllQuorumMembers _ _ := []
  merkleRootMNList _ := 0

/-! ### The blocks of a plan -/

def createdAt (mint : Nat → Int) (extra : Int) (nHeight : Nat) : Int :=
  mint nHeight + if nHeight ≤ 1500 then 0 else extra

def issuedAt (mint : Nat → Int) (extra : Int) : Nat → Int
  | 0 => 0
  | n + 1 => issuedAt mint extra n + createdAt mint extra (n + 1)

def supplyTip (nMoneySupply : Int) : CChain := ⟨some (.genesis { phashBlock := 0, nMoneySupply })⟩

structure Plan where
  mint : Nat → Int
  extra : Int
  first : mint 1 = 3093000 * COIN
  nonneg : ∀ n, 0 ≤ mint n
  small : ∀ n, n ≠ 1 → mint n ≤ 1000 * COIN
  inRange : moneyRange extra = true
  /-- A block creates at most the subsidy on its parent, the extra output aside. -/
  within : ∀ n, mint (n + 1) ≤ getBlockSubsidy mainParams (supplyTip (wrap64 (issuedAt mint extra n))) (n + 1) false

def stakeValue : Int := 51550 * COIN

def OP_TRUE : UInt8 := 0x51

variable {n j nHeight : Nat} {tx : CTransaction} {view : CCoinsView} {o : COutPoint} {coin : Coin} {tally : Tally}

namespace Plan
variable (plan : Plan)

def issued : Nat → Int := issuedAt plan.mint plan.extra
def created : Nat → Int := createdAt plan.mint plan.extra

def hashAt (n : Nat) : Nat := hashGenesis + n

/-- The entry after connecting; its stake fields are older. -/
def fieldsAt (n : Nat) : IndexFields where
  phashBlock := hashAt n
  nTime := 60 * n
  nMint := plan.created n
  nMoneySupply := wrap64 (plan.issued n)
  nStakeModifierChecksum := 1

def indexAt : Nat → CBlockIndex
  | 0 => .genesis { phashBlock := hashAt 0 }
  | n + 1 => .next (indexAt n) (plan.fieldsAt (n + 1))

def coinbaseOuts (n : Nat) : List CTxOut :=
  if n = 1 then replicate 60 ⟨stakeValue, [OP_TRUE]⟩
  else if n ≤ 1500 then [⟨plan.mint n, [OP_TRUE]⟩]
  else [⟨0, []⟩, ⟨plan.extra, [OP_TRUE]⟩]

def coinbaseAt (n : Nat) : CTransaction where
  vin := [{ prevout := COutPoint.null, scriptSig := [OP_TRUE] }]
  vout := plan.coinbaseOuts n
  nType := TRANSACTION_COINBASE
  vExtraPayload := .cbTx { nHeight := n }
  hash := 8 * n
  noPayload := fun no => absurd ⟨by decide, by decide⟩ no

/-- The coin that block `n` stakes: one of the sixty, or the stake of sixty blocks before. -/
def stakedAt (n : Nat) : COutPoint := if n ≤ 1560 then ⟨8, n % 60⟩ else ⟨8 * (n - 60) + 1, 1⟩

def coinstakeAt (n : Nat) : CTransaction where
  vin := [{ prevout := stakedAt n }]
  vout := [⟨0, []⟩, ⟨stakeValue, [OP_TRUE]⟩, ⟨plan.mint n, [OP_TRUE]⟩]
  nType := TRANSACTION_STAKE
  hash := 8 * n + 1

/-- The null commitment for the session of a quorum type that block `n` falls in. -/
def nullCommitment (n : Nat) (llmq : LLMQParams) : CFinalCommitment where
  llmqType := llmq.type
  quorumHash := hashAt (n - n % llmq.dkgInterval)

def commitmentAt (n : Nat) (llmq : LLMQParams) : CTransaction where
  vin := []
  vout := []
  nType := TRANSACTION_QUORUM_COMMITMENT
  vExtraPayload := .quorumCommitment { nHeight := n, commitment := nullCommitment n llmq }
  hash := 8 * n + 1 + llmq.type
  noPayload := fun no => absurd ⟨by decide, by decide⟩ no

def dueAt (n : Nat) : List LLMQParams :=
  if n < mainParams.nLLMQActivationHeight then [] else mainParams.llmqs.filter fun llmq => isMiningPhase llmq n

def stakesAt (n : Nat) : List CTransaction := if n ≤ 1500 then [] else [plan.coinstakeAt n]

def blockAt (n : Nat) : CBlock where
  hashPrevBlock := hashAt (n - 1)
  nTime := 60 * n
  vtx := plan.coinbaseAt n :: (plan.stakesAt n ++ (dueAt n).map (commitmentAt n))
  hash := hashAt n

/-! ### The index -/

@[simp] theorem nHeight_indexAt (n : Nat) : (plan.indexAt n).nHeight = n := by
  induction n with
  | zero => rfl
  | succ n ih => rw [indexAt, CBlockIndex.nHeight_next, ih]

@[simp] theorem getBlockHash_indexAt (n : Nat) : (plan.indexAt n).getBlockHash = hashAt n := by
  cases n <;> rfl

theorem nMoneySupply_indexAt (n : Nat) : (plan.indexAt n).fields.nMoneySupply = wrap64 (plan.issued n) := by
  cases n <;> rfl

variable {k : Nat}

theorem getAncestor_indexAt (le : k ≤ n) : (plan.indexAt n).getAncestor k = some (plan.indexAt k) := by
  induction n with
  | zero => rw [le_zero.mp le]; rfl
  | succ n ih =>
    rw [indexAt, CBlockIndex.getAncestor, nHeight_indexAt]
    split
    next top => rw [top]; rfl
    next below => exact ih (by omega)

theorem exists_hashAt {hash : Uint256} (low : hashAt 0 ≤ hash) : ∃ k, hash = hashAt k :=
  ⟨hash - hashAt 0, (Nat.add_sub_cancel' low).symm⟩

@[simp] theorem hashAt_sub (k : Nat) : hashAt k - hashAt 0 = k := Nat.add_sub_cancel_left _ _

@[simp] theorem hashAt_le : hashAt k ≤ hashAt n ↔ k ≤ n := Nat.add_le_add_iff_left

def mapAt (n : Nat) : BlockMap where
  find (hash : Nat) :=
    if hashAt 0 ≤ hash ∧ hash ≤ hashAt n then some (plan.indexAt (hash - hashAt 0)) else none
  keyed := by
    intro hash p found
    split at found
    next range =>
      obtain ⟨k, rfl⟩ := exists_hashAt range.1
      cases found
      rw [getBlockHash_indexAt, hashAt_sub]
    next => cases found
  closed := by
    intro hash pprev fields found
    split at found
    next range =>
      obtain ⟨k, rfl⟩ := exists_hashAt range.1
      rw [hashAt_sub] at found
      cases k with
      | zero => cases found
      | succ k =>
        cases found
        have low := hashAt_le.mp range.2
        rw [getBlockHash_indexAt, hashAt_sub, if_pos ⟨hashAt_le.mpr (zero_le k), hashAt_le.mpr (by omega)⟩]
    next => cases found

/-- The state of the node before block `n + 1`, with the coins at the tip. -/
def globalsAt (n : Nat) (pcoinsTip : CCoinsView) : Globals where
  mapBlockIndex := plan.mapAt n
  chainActive := ⟨some (plan.indexAt n)⟩
  pcoinsTip
  m_pos_index := []
  getTransaction _ := none
  hashBestSpecial := some (hashAt n)
  getListForBlock _ := {}
  hasMinedCommitment _ _ := false
  calcCbTxMerkleRootQuorums _ _ := some 0

/-! ### The transactions -/

theorem mint_le (n : Nat) : plan.mint n ≤ 3093000 * COIN := by
  by_cases one : n = 1
  · rw [one, plan.first]
  · exact le_trans (plan.small n one) (by decide)

theorem coinbaseOuts_nonneg (n : Nat) : ∀ out ∈ plan.coinbaseOuts n, 0 ≤ out.nValue := by
  have extra := (moneyRange_iff _).mp plan.inRange
  have mint := plan.nonneg n
  intro out member
  unfold coinbaseOuts at member
  split at member
  · rw [eq_of_mem_replicate member]; decide
  split at member
  · rw [mem_singleton.mp member]; exact mint
  · simp only [mem_cons, not_mem_nil, or_false] at member
    rcases member with rfl | rfl
    · exact le_refl 0
    · exact extra.1

theorem valueOut_coinbaseAt (n : Nat) :
    (plan.coinbaseAt n).valueOut = if n ≤ 1500 then plan.mint n else plan.extra := by
  rw [valueOut, coinbaseAt, coinbaseOuts]
  by_cases one : n = 1
  · rw [if_pos one, if_pos (by omega), one, plan.first]
    decide
  · rw [if_neg one]
    split <;> simp

theorem valueOut_coinstakeAt (n : Nat) : (plan.coinstakeAt n).valueOut = stakeValue + plan.mint n := by
  simp [valueOut, coinstakeAt]

theorem isCoinBase_coinbaseAt (n : Nat) : (plan.coinbaseAt n).isCoinBase = true := by
  simp only [isCoinBase, coinbaseAt, coinbaseOuts]
  split
  · decide
  split <;> rfl

@[simp] theorem isNull_stakedAt (n : Nat) : (stakedAt n).isNull = false := by
  unfold stakedAt
  split <;> simp [COutPoint.isNull, COutPoint.null]

@[simp] theorem isCoinBase_coinstakeAt (n : Nat) : (plan.coinstakeAt n).isCoinBase = false := by
  simp [isCoinBase, coinstakeAt]

@[simp] theorem isCoinStake_coinstakeAt (n : Nat) : (plan.coinstakeAt n).isCoinStake = true := by
  simp [isCoinStake, coinstakeAt, CTxOut.isEmpty]

@[simp] theorem isCoinBase_commitmentAt (n : Nat) (llmq : LLMQParams) : (commitmentAt n llmq).isCoinBase = false := rfl

@[simp] theorem isCoinStake_commitmentAt (n : Nat) (llmq : LLMQParams) : (commitmentAt n llmq).isCoinStake = false := rfl

theorem checkTransaction_permissive (now : Nat)
    (filled : tx.nType = TRANSACTION_QUORUM_COMMITMENT ∨ tx.vin ≠ [] ∧ tx.vout ≠ []) (type : tx.nType ∈ allowedTypes)
    (coinbase : tx.isCoinBase = true → tx.nType = TRANSACTION_COINBASE) (nonneg : ∀ out ∈ tx.vout, 0 ≤ out.nValue)
    (total : tx.valueOut ≤ MAX_MONEY) (distinct : (tx.vin.map CTxIn.prevout).Nodup)
    (shape : checkInputShape tx = .ok ()) : checkTransaction (permissive now) tx = .ok () := by
  have outputs := checkOutputs_of_range (le_refl 0) nonneg (by rwa [zero_add])
  refine then_eq_ok.mpr ⟨?_, then_eq_ok.mpr ⟨outputs, then_eq_ok.mpr ⟨by simpa using distinct, shape⟩⟩⟩
  simp only [checks_cons, checks_nil, and_true, permissive, WITNESS_SCALE_FACTOR, MAX_BLOCK_WEIGHT,
    MAX_TX_EXTRA_PAYLOAD, Bool.or_eq_true, decide_eq_true_eq, Bool.not_eq_true', isEmpty_eq_false_iff,
    contains_iff_mem, Bool.and_eq_false_iff, decide_eq_false_iff_not]
  refine ⟨filled.imp_right And.left, filled.imp_right And.right, by simp, by simp, .inr type, ?_⟩
  by_cases isCoinBase : tx.isCoinBase = true
  · exact .inr (coinbase isCoinBase)
  · exact .inl (.inl (by simpa using isCoinBase))

theorem checkTransaction_coinbaseAt (now n : Nat) : checkTransaction (permissive now) (plan.coinbaseAt n) = .ok () := by
  have isCoinBase := plan.isCoinBase_coinbaseAt n
  refine checkTransaction_permissive now (.inr ⟨by simp [coinbaseAt], ?_⟩) (by simp [coinbaseAt, allowedTypes])
    (fun _ => rfl) (plan.coinbaseOuts_nonneg n) ?_ (by simp [coinbaseAt]) ?_
  · simp only [coinbaseAt, coinbaseOuts]
    split
    · decide
    split <;> simp
  · rw [valueOut_coinbaseAt]
    split
    · exact le_trans (plan.mint_le n) (by decide)
    · exact ((moneyRange_iff _).mp plan.inRange).2
  · rw [checkInputShape, if_pos isCoinBase]
    rfl

theorem checkTransaction_coinstakeAt (now n : Nat) :
    checkTransaction (permissive now) (plan.coinstakeAt n) = .ok () := by
  have mint := plan.mint_le n
  have nonneg := plan.nonneg n
  refine checkTransaction_permissive now (.inr ⟨by simp [coinstakeAt], by simp [coinstakeAt]⟩) ?_ ?_ ?_ ?_
    (by simp [coinstakeAt]) ?_
  · simp [coinstakeAt, allowedTypes]
  · simp
  · simp only [coinstakeAt, forall_mem_cons, not_mem_nil, false_imp_iff, implies_true, and_true]
    exact ⟨le_refl 0, by decide, nonneg⟩
  · rw [valueOut_coinstakeAt]
    exact le_trans (Int.add_le_add_left mint stakeValue) (by decide)
  · rw [checkInputShape, if_neg (by simp)]
    simp [coinstakeAt]

theorem checkTransaction_commitmentAt (now n : Nat) (llmq : LLMQParams) :
    checkTransaction (permissive now) (commitmentAt n llmq) = .ok () :=
  checkTransaction_permissive now (.inl rfl) (by simp [commitmentAt, allowedTypes]) (by simp) (by simp [commitmentAt])
    (by simp [commitmentAt, valueOut]; decide) (by simp [commitmentAt]) rfl

/-! ### Before the transactions -/

theorem mem_tail_blockAt (member : tx ∈ (plan.blockAt n).vtx.tail) :
    tx = plan.coinstakeAt n ∧ 1500 < n ∨ ∃ llmq ∈ dueAt n, tx = commitmentAt n llmq := by
  simp only [blockAt, tail_cons, stakesAt, mem_append, mem_map] at member
  rcases member with stake | ⟨llmq, due, rfl⟩
  · split at stake
    · cases stake
    · exact .inl ⟨mem_singleton.mp stake, by omega⟩
  · exact .inr ⟨llmq, due, rfl⟩

theorem mem_blockAt (member : tx ∈ (plan.blockAt n).vtx) :
    tx = plan.coinbaseAt n ∨ tx = plan.coinstakeAt n ∧ 1500 < n ∨ ∃ llmq ∈ dueAt n, tx = commitmentAt n llmq :=
  (mem_cons.mp member).imp_right plan.mem_tail_blockAt

theorem vtx_work (work : n ≤ 1500) : (plan.blockAt n).vtx = plan.coinbaseAt n :: (dueAt n).map (commitmentAt n) := by
  rw [blockAt, stakesAt, if_pos work, nil_append]

theorem vtx_stake (stake : 1500 < n) :
    (plan.blockAt n).vtx = plan.coinbaseAt n :: plan.coinstakeAt n :: (dueAt n).map (commitmentAt n) := by
  rw [blockAt, stakesAt, if_neg (by omega), singleton_append]

theorem isProofOfStake_blockAt (n : Nat) : (plan.blockAt n).isProofOfStake = decide (1500 < n) := by
  by_cases work : n ≤ 1500
  · rw [CBlock.isProofOfStake, vtx_work plan work, decide_eq_false (by omega)]
    cases dueAt n <;> simp
  · rw [CBlock.isProofOfStake, vtx_stake plan (by omega), decide_eq_true (by omega)]
    simp

theorem length_blockAt (n : Nat) : (plan.blockAt n).vtx.length ≤ 5 := by
  have due : (dueAt n).length ≤ 3 := by
    unfold dueAt
    split
    · exact zero_le 3
    · exact length_filter_le _ _
  simp only [blockAt, stakesAt, length_cons, length_append, length_map]
  split <;> simp <;> omega

theorem checkBlock_blockAt (n : Nat) (fCheckPOW fCheckMerkleRoot : Bool) :
    checkBlock (permissive (60 * n)) (plan.blockAt n) fCheckPOW fCheckMerkleRoot = .ok () := by
  have length := plan.length_blockAt n
  have isCoinBase := plan.isCoinBase_coinbaseAt n
  refine then_eq_ok.mpr ⟨by simp [permissive], then_eq_ok.mpr ⟨by simp [permissive, blockAt], then_eq_ok.mpr ⟨?_,
    then_eq_ok.mpr ⟨checkEach_ok.mpr ?_, ?_⟩⟩⟩⟩
  · simp only [checks_cons, checks_nil, and_true]
    refine ⟨?_, by simp [blockAt, isCoinBase], ?_, ?_, ?_, by simp [blockAt, permissive]⟩
    · have some : (plan.blockAt n).vtx ≠ [] := by simp [blockAt]
      simp [permissive, WITNESS_SCALE_FACTOR, MAX_BLOCK_WEIGHT, some]
      exact decide_eq_true (by omega)
    · refine all_eq_true.mpr fun tx member => ?_
      rcases plan.mem_tail_blockAt member with ⟨rfl, -⟩ | ⟨llmq, -, rfl⟩ <;> simp
    · simp only [blockAt, stakesAt, tail_cons]
      split
      · cases dueAt n <;> simp
      · simp
    · rw [coinbaseMarked, isProofOfStake_blockAt]
      by_cases work : n ≤ 1500
      · simp [work]
      · simp [work, blockAt, coinbaseAt, coinbaseOuts, show n ≠ 1 by omega, CTxOut.isEmpty]
  · intro tx member
    rcases plan.mem_blockAt member with rfl | ⟨rfl, -⟩ | ⟨llmq, -, rfl⟩
    · exact plan.checkTransaction_coinbaseAt _ n
    · exact plan.checkTransaction_coinstakeAt _ n
    · exact checkTransaction_commitmentAt _ n llmq
  · simp [permissive, WITNESS_SCALE_FACTOR, MAX_BLOCK_SIGOPS_COST]
    omega

def Slot (view : CCoinsView) (k : Nat) : Prop :=
  ∃ coin, view.coins (stakedAt k) = some coin ∧ coin.out.nValue = stakeValue ∧
    coin.nHeight = if k ≤ 1560 then 1 else k - 60

structure Ready (n : Nat) (view : CCoinsView) : Prop where
  best : view.hashBlock = hashAt n
  below : ∀ {o coin}, view.coins o = some coin → o.hash < 8 * (n + 1)
  slots : 1 ≤ n → ∀ k, n < k → k ≤ n + 60 → Slot view k

variable {tip : CCoinsView}

theorem beforeTxs_blockAt (ready : Ready n view) (fJustCheck : Bool) :
    beforeTxs mainParams (permissive (60 * (n + 1))) (plan.globalsAt n tip) (plan.blockAt (n + 1)) (plan.indexAt n)
      view fJustCheck = .ok () := by
  have fresh : bip30Ok (plan.blockAt (n + 1)) view = true := by
    simp only [bip30Ok, all_eq_true, Bool.not_eq_true', haveCoin]
    intro tx member o inside
    refine Option.isSome_eq_false_iff.mpr (Option.isNone_iff_eq_none.mpr (Option.eq_none_iff_forall_ne_some.mpr ?_))
    intro coin found
    have below := ready.below found
    have high : 8 * (n + 1) ≤ tx.hash := by
      rcases plan.mem_blockAt member with rfl | ⟨rfl, -⟩ | ⟨llmq, -, rfl⟩
      · simp [coinbaseAt]
      · simp [coinstakeAt]
      · simp only [commitmentAt]; omega
    exact absurd below (not_lt.mpr high)
  have again : checkBlockAgain (permissive (60 * (n + 1))) (plan.blockAt (n + 1)) fJustCheck = .ok () := by
    rw [checkBlockAgain, checkBlock_blockAt]
  refine then_eq_ok.mpr ⟨again, then_eq_ok.mpr ⟨by simp [permissive], ?_⟩⟩
  rw [if_neg (by simp [ready.best])]
  refine bind_eq_ok.mpr ⟨true, by simp [verifyBestBlock, globalsAt], ?_⟩
  simp [fresh, CBlock.isProofOfWork, isProofOfStake_blockAt, mainParams]
  omega

/-! ### The coins after a block -/

theorem spentBy_coinstakeAt (n : Nat) : spentBy (plan.coinstakeAt n) = [stakedAt n] := by
  rw [spentBy, if_neg (by simp)]
  rfl

theorem hash_stakedAt_lt (positive : 1 ≤ n) (near : k ≤ n + 60) : (stakedAt k).hash < 8 * (n + 1) := by
  unfold stakedAt Uint256
  split <;> simp only <;> omega

section
variable {plan} {after : CCoinsView} {vprevout : List Coin}

theorem coinbaseAt_below (ready : Ready n view)
    (updates : Updates view (plan.coinbaseAt (n + 1)) nHeight vprevout after)
    (found : after.coins o = some coin) : o.hash ≤ 8 * (n + 1) := by
  rcases updates.coins_cases found with new | ⟨old, -⟩
  · obtain ⟨_, _, -, -, same⟩ := mem_newCoins.mp new
    cases same
    exact le_refl _
  · exact le_of_lt (ready.below old)

theorem coinbaseAt_keeps (updates : Updates view (plan.coinbaseAt (n + 1)) nHeight vprevout after)
    (old : o.hash < 8 * (n + 1)) : after.coins o = view.coins o := by
  rw [updates.coins_other (fun same => absurd old (by simp [same, coinbaseAt])), spentBy,
    if_pos (plan.isCoinBase_coinbaseAt _), Journal.without_nil]

theorem slots_first (updates : Updates view (plan.coinbaseAt 1) 1 vprevout after) (k : Nat) (near : k ≤ 61) :
    Slot after k := by
  have out : (plan.coinbaseAt 1).vout[k % 60]? = some ⟨stakeValue, [OP_TRUE]⟩ := by
    rw [coinbaseAt, coinbaseOuts, if_pos rfl, getElem?_replicate, if_pos (mod_lt k (by decide))]
  have new := updates.coins_new out (by decide)
  refine ⟨coinOf (plan.coinbaseAt 1) 1 ⟨stakeValue, [OP_TRUE]⟩, ?_, rfl, ?_⟩
  · rw [stakedAt, if_pos (by omega)]
    exact new
  · rw [if_pos (by omega)]
    rfl

theorem slots_stake {middle : CCoinsView} {spent : List Coin} (ready : Ready n view) (stake : 1500 < n + 1)
    (updates : Updates view (plan.coinbaseAt (n + 1)) (n + 1) vprevout middle)
    (stakes : Updates middle (plan.coinstakeAt (n + 1)) (n + 1) spent after) (k : Nat) (next : n + 1 < k)
    (near : k ≤ n + 61) : Slot after k := by
  by_cases last : k = n + 61
  · have new := stakes.coins_new (show (plan.coinstakeAt (n + 1)).vout[1]? = some ⟨stakeValue, [OP_TRUE]⟩ from rfl)
      (by decide)
    refine ⟨coinOf (plan.coinstakeAt (n + 1)) (n + 1) ⟨stakeValue, [OP_TRUE]⟩, ?_, rfl, ?_⟩
    · rw [stakedAt, if_neg (by omega), last]
      exact new
    · rw [if_neg (by omega), last]
      rfl
  · obtain ⟨coin, found, rest⟩ := ready.slots (by omega) k (by omega) (by omega)
    have old := hash_stakedAt_lt (k := k) (show 1 ≤ n by omega) (by omega)
    have other : stakedAt k ≠ stakedAt (n + 1) := by
      unfold stakedAt
      split <;> split <;> simp only [ne_eq, COutPoint.mk.injEq, Uint256] <;> omega
    refine ⟨coin, ?_, rest⟩
    rw [stakes.coins_other (fun same => absurd old (by simp [same, coinstakeAt])), spentBy_coinstakeAt,
      Journal.without, if_neg (by simpa using other), coinbaseAt_keeps updates old, found]

end

structure Clean (tally : Tally) : Prop where
  fees : tally.nFees = 0
  sigops : tally.nSigOpsCost = 0
  scripts : tally.fChecksPass = true

section
variable (now i : Nat) (block : CBlock) (pindexPrev : CBlockIndex)

theorem connectTx_clean (clean : Clean tally) (checked : checkTransaction (permissive now) tx = .ok ())
    (inputs : checkInputsOf (permissive now) pindexPrev tally tx = .ok 0) (present : tally.view.haveInputs tx = true) :
    ∃ after, connectTx (permissive now) block pindexPrev i tally tx = .ok after ∧ Clean after := by
  have ok := checkTransaction_ok checked
  have value := ok.total.2
  have real : ∀ out ∈ tx.vout, out.isNull = false := fun out member => by
    have range := (moneyRange_iff _).mp (ok.values out member)
    simp only [CTxOut.isNull, decide_eq_false_iff_not]
    omega
  obtain ⟨updated, update⟩ := updateCoins_isSome (pindexPrev.nHeight + 1) ok.distinct present real
  refine ⟨_, bind_eq_ok.mpr ⟨0, inputs, then_eq_ok.mpr ⟨?_, bind_eq_ok.mpr
    ⟨if tx.isCoinStake || tx.isCoinBase then tx.valueOut else 0, ?_,
      bind_eq_ok.mpr ⟨updated, assertSome_eq_ok.mpr update, rfl⟩⟩⟩⟩, ?_⟩
  · simp [permissive, clean.sigops]
  · rw [assertSome_eq_ok]
    split
    · exact value
    · rfl
  · exact ⟨rfl, by simp [permissive, clean.sigops], by simp [permissive, clean.scripts]⟩

theorem checkInputsOf_clean (clean : Clean tally) (spends : tx.isCoinBase = false)
    (checked : checkTxInputs tx tally.view (pindexPrev.nHeight + 1) = .ok 0) :
    checkInputsOf (permissive now) pindexPrev tally tx = .ok 0 := by
  rw [checkInputsOf, if_neg (by simp [spends]), checked]
  refine bind_eq_ok.mpr ⟨0, rfl, then_eq_ok.mpr ⟨?_, ?_⟩⟩
  · simp [clean.fees, permissive]
    decide
  · simp [clean.fees]

theorem connectTx_coinbaseAt (plan : Plan) (n : Nat) (clean : Clean tally) :
    ∃ after, connectTx (permissive now) block pindexPrev i tally (plan.coinbaseAt n) = .ok after ∧ Clean after := by
  have isCoinBase := plan.isCoinBase_coinbaseAt n
  refine connectTx_clean now i block pindexPrev clean (plan.checkTransaction_coinbaseAt now n) ?_ (by simp [haveInputs, isCoinBase])
  rw [checkInputsOf, if_pos isCoinBase, clean.fees]

theorem connectTx_coinstakeAt (plan : Plan) (clean : Clean tally)
    (found : tally.view.coins (stakedAt n) = some coin) (value : coin.out.nValue = stakeValue)
    (ripe : coin.nHeight + 10 ≤ pindexPrev.nHeight + 1) :
    ∃ after, connectTx (permissive now) block pindexPrev i tally (plan.coinstakeAt n) = .ok after ∧ Clean after := by
  have present : tally.view.haveInputs (plan.coinstakeAt n) = true := by
    simp [haveInputs, haveCoin, coinstakeAt, found]
  refine connectTx_clean now i block pindexPrev clean (plan.checkTransaction_coinstakeAt now n)
    (checkInputsOf_clean now pindexPrev clean (by simp) ?_) present
  have access := accessCoin_of_coins found
  have unspent : coin.isSpent = false := (tally.view.live found).unspent
  have mature : mature coin (pindexPrev.nHeight + 1) = true := by
    have old : ¬ ((pindexPrev.nHeight + 1 : Nat) : Int) - coin.nHeight < COINBASE_MATURITY := by
      unfold COINBASE_MATURITY
      omega
    rw [mature, decide_eq_false old, Bool.and_false]
    rfl
  have summed : sumInputs tally.view (pindexPrev.nHeight + 1) 0 (plan.coinstakeAt n).vin = .ok stakeValue := by
    simp only [coinstakeAt, sumInputs, access, unspent, mature, value]
    decide
  have total := (checkTransaction_ok (plan.checkTransaction_coinstakeAt now n)).total.2
  rw [checkTxInputs, if_pos present]
  refine bind_eq_ok.mpr ⟨_, summed, bind_eq_ok.mpr ⟨_, assertSome_eq_ok.mpr total, ?_⟩⟩
  rw [if_pos (by simp)]

theorem connectTxs_commitments (n : Nat) (due : List LLMQParams) (clean : Clean tally) :
    ∃ final, connectTxs (permissive now) block pindexPrev i (due.map (commitmentAt n)) tally = .ok final ∧ Clean final ∧
      final.view = tally.view ∧ final.nValueOut = tally.nValueOut ∧ final.nValueIn = tally.nValueIn := by
  induction due generalizing i tally with
  | nil => exact ⟨tally, rfl, clean, rfl, rfl, rfl⟩
  | cons llmq rest ih =>
    obtain ⟨after, first, clean⟩ := connectTx_clean now i block pindexPrev clean
      (checkTransaction_commitmentAt now n llmq) (checkInputsOf_clean now pindexPrev clean rfl rfl) rfl
    obtain ⟨final, others, clean, view, out, inn⟩ := ih (i + 1) clean
    have step := connectTx_ok first
    obtain ⟨_, updated, -⟩ := step.updated
    have same := (Prod.mk.inj (Option.some.inj updated)).2
    refine ⟨final, connectTxs_cons.mpr ⟨after, first, others⟩, clean, view.trans same.symm, ?_, ?_⟩
    · rw [out, step.nValueOut]; simp
    · rw [inn, step.nValueIn]; simp

end

/-! ### Quorum commitments -/

variable {llmq : LLMQParams}

theorem mem_dueAt : llmq ∈ dueAt n ↔ 50 ≤ n ∧ llmq ∈ mainParams.llmqs ∧ isMiningPhase llmq n = true := by
  rw [dueAt]
  split
  next low => simp only [mainParams] at low; simp; omega
  next high => simp only [mainParams] at high; simp [show 50 ≤ n by omega]

theorem nodup_dueAt (n : Nat) : ((dueAt n).map LLMQParams.type).Nodup := by
  rw [dueAt]
  split
  · simp
  · have all : (mainParams.llmqs.map LLMQParams.type).Nodup := by decide
    exact all.sublist (filter_sublist.map _)

@[simp] theorem isNull_nullCommitment (n : Nat) (llmq : LLMQParams) : (nullCommitment n llmq).isNull = true := rfl

theorem foldlM_addCommitment {due : List LLMQParams} (distinct : (due.map LLMQParams.type).Nodup)
    (qcs : List CFinalCommitment) (apart : ∀ qc ∈ qcs, ∀ llmq ∈ due, qc.llmqType ≠ llmq.type) :
    (due.map (commitmentAt n)).foldlM addCommitment qcs = .ok (qcs ++ due.map (nullCommitment n)) := by
  induction due generalizing qcs with
  | nil => simp [pure, Except.pure]
  | cons llmq rest ih =>
    simp only [map_cons, nodup_cons] at distinct
    have fresh : (qcs.any fun qc => decide (qc.llmqType = llmq.type)) = false := by
      simpa using fun qc member => apart qc member llmq (.head _)
    have first : addCommitment qcs (commitmentAt n llmq) = .ok (qcs ++ [nullCommitment n llmq]) := by
      simp [addCommitment, commitmentAt, commitmentPayload, nullCommitment] at fresh ⊢
      intro qc member same
      exact absurd same (fresh qc member)
    rw [map_cons, foldlM_cons, first]
    show (rest.map (commitmentAt n)).foldlM addCommitment _ = _
    rw [ih distinct.2, map_cons, append_assoc, singleton_append]
    intro qc member other later
    rcases mem_append.mp member with old | new
    · exact apart qc old other (.tail _ later)
    · rw [mem_singleton.mp new]
      exact fun same => distinct.1 (mem_map.mpr ⟨other, later, same.symm⟩)

theorem getCommitmentsFromBlock_blockAt (n : Nat) :
    getCommitmentsFromBlock mainParams (plan.blockAt n) n = .ok ((dueAt n).map (nullCommitment n)) := by
  have folded : (plan.blockAt n).vtx.foldlM addCommitment [] = .ok ((dueAt n).map (nullCommitment n)) := by
    have commitments := foldlM_addCommitment (n := n) (nodup_dueAt n) [] (by simp)
    have stakes : (plan.stakesAt n).foldlM addCommitment [] = .ok [] := by
      unfold stakesAt
      split <;> rfl
    show (plan.stakesAt n ++ _).foldlM addCommitment [] = _
    rw [foldlM_append, stakes]
    exact commitments
  rw [getCommitmentsFromBlock, folded]
  refine bind_eq_ok.mpr ⟨_, rfl, if_neg ?_⟩
  rintro ⟨low, some⟩
  refine some (map_eq_nil_iff.mpr (eq_nil_iff_forall_not_mem.mpr fun llmq member => ?_))
  have := (mem_dueAt.mp member).1
  simp only [mainParams] at low
  omega

theorem hashAt_ne_zero (n : Nat) : hashAt n ≠ 0 := by
  unfold hashAt hashGenesis
  omega

section
variable (member : llmq ∈ mainParams.llmqs)
include member

theorem llmq_mainParams : mainParams.llmq llmq.type = some llmq ∧ 1 ≤ llmq.dkgMiningWindowStart := by
  simp only [mainParams, mem_cons, not_mem_nil, or_false] at member
  rcases member with rfl | rfl | rfl <;> decide

theorem session_le (phase : isMiningPhase llmq (n + 1) = true) : n + 1 - (n + 1) % llmq.dkgInterval ≤ n := by
  have start := (llmq_mainParams member).2
  simp only [isMiningPhase, Bool.and_eq_true, decide_eq_true_eq] at phase
  omega

theorem getQuorumBlockHash_globalsAt (phase : isMiningPhase llmq (n + 1) = true) :
    getQuorumBlockHash llmq (plan.globalsAt n tip).chainActive (n + 1) =
      hashAt (n + 1 - (n + 1) % llmq.dkgInterval) := by
  have found := plan.getAncestor_indexAt (session_le member phase)
  simp [getQuorumBlockHash, globalsAt, CChain.get, found]

theorem isCommitmentRequired_globalsAt :
    isCommitmentRequired llmq (plan.globalsAt n tip) (n + 1) = isMiningPhase llmq (n + 1) := by
  have unmined : ∀ quorumHash, (plan.globalsAt n tip).hasMinedCommitment llmq.type quorumHash = false := fun _ => rfl
  simp only [isCommitmentRequired, unmined, Bool.and_false, Bool.not_false, Bool.and_true]
  cases phase : isMiningPhase llmq (n + 1) with
  | false => rw [Bool.and_false]
  | true => rw [getQuorumBlockHash_globalsAt plan member phase, decide_eq_true (hashAt_ne_zero _)]; rfl

end

variable {now : Nat}

theorem quorumProcessBlock_blockAt (now n : Nat) (tip : CCoinsView) :
    quorumProcessBlock mainParams (permissive now) (plan.globalsAt n tip) (plan.blockAt (n + 1)) (n + 1) = .ok () := by
  unfold quorumProcessBlock
  split
  · rfl
  next active =>
    refine bind_eq_ok.mpr ⟨_, plan.getCommitmentsFromBlock_blockAt (n + 1), then_eq_ok.mpr
      ⟨checkEach_ok.mpr fun llmq member => ?_, checkEach_ok.mpr fun qc member => ?_⟩⟩
    · have held : ((dueAt (n + 1)).map (nullCommitment (n + 1))).any (fun qc => decide (qc.llmqType = llmq.type)) =
          isMiningPhase llmq (n + 1) := by
        rw [Bool.eq_iff_iff, any_map, any_eq_true]
        constructor
        · rintro ⟨other, due, same⟩
          obtain ⟨-, inList, phase⟩ := mem_dueAt.mp due
          have found := (llmq_mainParams inList).1
          rw [show other.type = llmq.type from of_decide_eq_true same, (llmq_mainParams member).1] at found
          exact Option.some.inj found ▸ phase
        · intro phase
          exact ⟨llmq, mem_dueAt.mpr ⟨by simpa [mainParams] using active, member, phase⟩, by simp [nullCommitment]⟩
      simp only [commitmentExpected, held, isCommitmentRequired_globalsAt plan member]
      cases isMiningPhase llmq (n + 1) <;> rfl
    · obtain ⟨llmq, due, rfl⟩ := mem_map.mp ((perm_insertionSort _ _).mem_iff.mp member)
      obtain ⟨-, member, phase⟩ := mem_dueAt.mp due
      refine bind_eq_ok.mpr ⟨llmq, assertSome_eq_ok.mpr (llmq_mainParams member).1, then_eq_ok.mpr ⟨?_, ?_⟩⟩
      · rw [getQuorumBlockHash_globalsAt plan member phase]
        simp [hashAt_ne_zero, nullCommitment]
      · rw [if_pos (isNull_nullCommitment _ _)]
        simp [permissive]

theorem buildNewListFromBlock_empty {env : BuildEnv} {block : CBlock} {pindexPrev : CBlockIndex}
    (quiet : ∀ tx ∈ block.vtx.tail, ∀ list, processProTx env pindexPrev list tx = .ok list) :
    buildNewListFromBlock env block pindexPrev {} = .ok { nHeight := pindexPrev.nHeight + 1 } := by
  have unowned : ∀ nHeight prevout,
      getMNByCollateral env.hashing { nHeight := nHeight } prevout = none := by
    intro nHeight prevout
    simp [getMNByCollateral, getUniquePropertyMN]
  let list : CDeterministicMNList := { nHeight := pindexPrev.nHeight + 1 }
  have confirmed : ((({} : CDeterministicMNList).forEachMN false).foldlM (confirmMN env pindexPrev) list) = some list := by
    rfl
  have decreased : decreasePoSePenalties env.hashing list = some list := by
    rfl
  have processed : block.vtx.tail.foldlM (processProTx env pindexPrev) list = .ok list :=
    Folds.foldlM_fixed fun tx member => quiet tx member _
  have spent : (block.vtx.tail.flatMap fun tx => tx.vin.map CTxIn.prevout).foldlM
      (spendCollateral env {} (pindexPrev.nHeight + 1)) list = some list :=
    Folds.foldlM_fixed fun prevout _ => by rw [spendCollateral, unowned]; rfl
  have paid : payMN env {} (pindexPrev.nHeight + 1) list = some list := by
    rfl
  simp only [list] at confirmed decreased processed spent paid
  simp [buildNewListFromBlock, confirmed, decreased, processed, spent, paid, assertSome, Except.bind]

theorem processSpecialTxsInBlock_blockAt (now n : Nat) (tip : CCoinsView) :
    processSpecialTxsInBlock mainParams (permissive now) (plan.globalsAt n tip) (plan.blockAt (n + 1))
      (plan.indexAt n) = .ok () := by
  have quorums := plan.quorumProcessBlock_blockAt now n tip
  refine then_eq_ok.mpr ⟨checkEach_ok.mpr fun tx member => then_eq_ok.mpr ?_, then_eq_ok.mpr
    ⟨by rwa [nHeight_indexAt], bind_eq_ok.mpr ⟨_, buildNewListFromBlock_empty fun tx member list => ?_, ?_⟩⟩⟩
  · rcases plan.mem_blockAt member with rfl | ⟨rfl, -⟩ | ⟨llmq, due, rfl⟩
    · have isCoinBase := plan.isCoinBase_coinbaseAt (n + 1)
      have payload : cbTxPayload (plan.coinbaseAt (n + 1)) = some { nHeight := (n + 1 : Nat) } := rfl
      have type : (plan.coinbaseAt (n + 1)).nType = TRANSACTION_COINBASE := rfl
      rw [checkSpecialTx, if_neg (by simp [isPlain, coinbaseAt]; decide), if_pos type, checkCbTx,
        if_neg (by simp [coinbaseAt])]
      refine ⟨then_eq_ok.mpr ⟨by simp [isCoinBase]; rfl, ?_⟩, rfl⟩
      simp [payload, CBTX_CURRENT_VERSION]
    · exact ⟨rfl, rfl⟩
    · obtain ⟨-, member, phase⟩ := mem_dueAt.mp due
      have low := session_le member phase
      have found : (plan.globalsAt n tip).mapBlockIndex.find (nullCommitment (n + 1) llmq).quorumHash =
          some (plan.indexAt (n + 1 - (n + 1) % llmq.dkgInterval)) := by
        simp [globalsAt, mapAt, nullCommitment, low]
      have known : (mainParams.llmq (nullCommitment (n + 1) llmq).llmqType).isSome = true := by
        rw [show (nullCommitment (n + 1) llmq).llmqType = llmq.type from rfl, (llmq_mainParams member).1]
        rfl
      have type : (commitmentAt (n + 1) llmq).nType = TRANSACTION_QUORUM_COMMITMENT := rfl
      rw [checkSpecialTx, if_neg (by simp [isPlain, commitmentAt]; decide), if_neg (by simp [commitmentAt]; decide),
        if_neg (by simp [commitmentAt]; decide), if_pos type]
      refine ⟨then_eq_ok.mpr ⟨by simp [COMMITMENT_CURRENT_VERSION], ?_⟩, rfl⟩
      simp only [found]
      refine then_eq_ok.mpr ⟨?_, ?_⟩
      · simp [known, plan.getAncestor_indexAt low]
      · rw [verifyQuorum, if_pos (isNull_nullCommitment _ _)]
        simp [permissive]
  · rcases plan.mem_tail_blockAt member with ⟨rfl, -⟩ | ⟨llmq, -, rfl⟩ <;> rfl
  · split
    · rfl
    · rfl

/-! ### Connecting a block -/

theorem mint_le_subsidy (n : Nat) (tip : CCoinsView) :
    plan.mint (n + 1) ≤ getBlockSubsidy mainParams (plan.globalsAt n tip).chainActive (n + 1) false := by
  have same : tipSupply (plan.globalsAt n tip).chainActive = tipSupply (supplyTip (wrap64 (plan.issued n))) :=
    plan.nMoneySupply_indexAt n
  rw [getBlockSubsidy, same]
  exact plan.within n

section
variable {plan}

theorem Ready.ripe (ready : Ready n view) (stake : 1500 < n + 1) :
    ∃ coin, view.coins (stakedAt (n + 1)) = some coin ∧ coin.out.nValue = stakeValue ∧ coin.nHeight + 10 ≤ n + 1 := by
  obtain ⟨coin, found, value, height⟩ := ready.slots (by omega) (n + 1) (by omega) (by omega)
  refine ⟨coin, found, value, ?_⟩
  rw [height]
  split <;> omega

def Advances (plan : Plan) (n : Nat) (view : CCoinsView) (now : Nat) : Prop :=
  ∃ tally, connectTxs (permissive now) (plan.blockAt (n + 1)) (plan.indexAt n) 0 (plan.blockAt (n + 1)).vtx { view } =
      .ok tally ∧ Clean tally ∧ tally.nValueOut - tally.nValueIn = plan.created (n + 1) ∧
    Ready (n + 1) (tally.view.setBestBlock (hashAt (n + 1)))

theorem connectTxs_work (ready : Ready n view) (now : Nat) (work : n + 1 ≤ 1500) : Advances plan n view now := by
  have start : Clean { view } := ⟨rfl, rfl, rfl⟩
  obtain ⟨first, head, clean⟩ := connectTx_coinbaseAt now 0 (plan.blockAt (n + 1)) (plan.indexAt n) plan (n + 1) start
  obtain ⟨final, tail, clean, same, out, inn⟩ :=
    connectTxs_commitments now 1 (plan.blockAt (n + 1)) (plan.indexAt n) (n + 1) (dueAt (n + 1)) clean
  have step := connectTx_ok head
  obtain ⟨vprevout, updated, -⟩ := step.updated
  have updates := updateCoins_updates updated
  have isCoinBase := plan.isCoinBase_coinbaseAt (n + 1)
  refine ⟨final, ?_, clean, ?_, rfl, fun found => ?_, fun _ k next near => ?_⟩
  · rw [vtx_work plan work]
    exact connectTxs_cons.mpr ⟨first, head, tail⟩
  · rw [out, inn, step.nValueOut, step.nValueIn, isCoinStake_of_isCoinBase _ isCoinBase, isCoinBase,
      valueOut_coinbaseAt, if_pos work, created, createdAt, if_pos work]
    simp
  · rw [coins_setBestBlock, same] at found
    exact Nat.lt_of_le_of_lt (coinbaseAt_below ready updates found) (by omega)
  · rw [Slot, coins_setBestBlock, same]
    by_cases zero : n = 0
    · subst zero
      exact slots_first updates k (by omega)
    · have later : 1 ≤ n := by omega
      obtain ⟨j, afterJ, nearJ, sameSlot⟩ : ∃ j, n < j ∧ j ≤ n + 60 ∧ stakedAt k = stakedAt j := by
        by_cases last : k = n + 61
        · refine ⟨n + 1, by omega, by omega, ?_⟩
          rw [stakedAt, stakedAt, if_pos (by omega), if_pos (by omega), last, show n + 61 = n + 1 + 60 by omega,
            add_mod_right]
        · exact ⟨k, by omega, by omega, rfl⟩
      obtain ⟨coin, found, value, height⟩ := ready.slots later j afterJ nearJ
      rw [sameSlot, coinbaseAt_keeps updates (hash_stakedAt_lt later nearJ), found]
      refine ⟨coin, rfl, value, ?_⟩
      rw [height, if_pos (by omega), if_pos (by omega)]

theorem connectTxs_stake (ready : Ready n view) (now : Nat) (stake : 1500 < n + 1) : Advances plan n view now := by
  have start : Clean { view } := ⟨rfl, rfl, rfl⟩
  obtain ⟨first, head, clean⟩ := connectTx_coinbaseAt now 0 (plan.blockAt (n + 1)) (plan.indexAt n) plan (n + 1) start
  have step := connectTx_ok head
  obtain ⟨vprevout, updated, -⟩ := step.updated
  have updates := updateCoins_updates updated
  rw [nHeight_indexAt] at updates
  obtain ⟨coin, found, value, ripe⟩ := ready.ripe stake
  have old := hash_stakedAt_lt (show 1 ≤ n by omega) (show n + 1 ≤ n + 60 by omega)
  rw [← coinbaseAt_keeps updates old] at found
  obtain ⟨second, next, clean⟩ := connectTx_coinstakeAt now 1 (plan.blockAt (n + 1)) (plan.indexAt n) plan clean found
    value (by simpa using ripe)
  have stakeStep := connectTx_ok next
  obtain ⟨spent, stakeUpdated, -⟩ := stakeStep.updated
  have stakes := updateCoins_updates stakeUpdated
  rw [nHeight_indexAt] at stakes
  obtain ⟨final, tail, clean, same, out, inn⟩ :=
    connectTxs_commitments now 2 (plan.blockAt (n + 1)) (plan.indexAt n) (n + 1) (dueAt (n + 1)) clean
  have isCoinBase := plan.isCoinBase_coinbaseAt (n + 1)
  have late : ¬ n + 1 ≤ 1500 := by omega
  have valueIn : first.view.getValueIn (plan.coinstakeAt (n + 1)) = stakeValue := by
    rw [getValueIn, if_neg (by simp)]
    simp [coinstakeAt, accessCoin_of_coins found, value]
  refine ⟨final, ?_, clean, ?_, rfl, fun found => ?_, fun _ k next near => ?_⟩
  · rw [vtx_stake plan stake]
    exact connectTxs_cons.mpr ⟨first, head, connectTxs_cons.mpr ⟨second, next, tail⟩⟩
  · rw [out, inn, stakeStep.nValueOut, stakeStep.nValueIn, step.nValueOut, step.nValueIn,
      isCoinStake_of_isCoinBase _ isCoinBase, isCoinBase, valueOut_coinbaseAt, if_neg late, valueIn,
      valueOut_coinstakeAt, isCoinStake_coinstakeAt, created, createdAt, if_neg late]
    simp
    omega
  · rw [coins_setBestBlock, same] at found
    rcases stakes.coins_cases found with new | ⟨earlier, -⟩
    · obtain ⟨_, _, -, -, is⟩ := mem_newCoins.mp new
      cases is
      simp only [outpoint, coinstakeAt, Uint256]
      omega
    · exact Nat.lt_of_le_of_lt (coinbaseAt_below ready updates earlier) (by omega)
  · rw [Slot, coins_setBestBlock, same]
    exact slots_stake ready stake updates stakes k next (by omega)

variable (plan) in
theorem connectTxs_blockAt (ready : Ready n view) (now : Nat) : Advances plan n view now := by
  by_cases work : n + 1 ≤ 1500
  · exact connectTxs_work ready now work
  · exact connectTxs_stake ready now (by omega)

theorem afterTxs_blockAt (ready : Ready n view) (clean : Clean tally) :
    afterTxs mainParams (permissive now) (plan.globalsAt n view) (plan.blockAt (n + 1)) (plan.indexAt n) tally =
      .ok () := by
  have pays := plan.mint_le_subsidy n view
  have stakeBlock := plan.isProofOfStake_blockAt (n + 1)
  simp only [afterTxs, clean.fees, zero_add, nHeight_indexAt]
  generalize getBlockSubsidy mainParams (plan.globalsAt n view).chainActive (n + 1) false = reward at pays
  have value : isBlockValueValid mainParams (permissive now) (plan.globalsAt n view) (plan.blockAt (n + 1)) (n + 1)
      reward = true := by
    by_cases work : n + 1 ≤ 1500
    · rw [decide_eq_false (by omega)] at stakeBlock
      have rewards : rewardTx (plan.blockAt (n + 1)) = some (plan.coinbaseAt (n + 1)) := by
        rw [rewardTx, stakeBlock, vtx_work plan work]; rfl
      exact isBlockValueValid_of_le rfl rewards (by simpa [stakeBlock, valueOut_coinbaseAt, work] using pays)
    · rw [decide_eq_true (by omega)] at stakeBlock
      obtain ⟨coin, found, inValue, -⟩ := ready.ripe (by omega)
      have rewards : rewardTx (plan.blockAt (n + 1)) = some (plan.coinstakeAt (n + 1)) := by
        rw [rewardTx, stakeBlock, vtx_stake plan (by omega)]; rfl
      have valueIn : (plan.globalsAt n view).pcoinsTip.getValueIn (plan.coinstakeAt (n + 1)) = stakeValue := by
        rw [getValueIn, if_neg (by simp)]
        simp [coinstakeAt, globalsAt, accessCoin_of_coins found, inValue]
      exact isBlockValueValid_of_le rfl rewards
        (by simpa [stakeBlock, valueOut_coinstakeAt, valueIn] using pays)
  have within : coinbaseWithin (plan.blockAt (n + 1)) reward = true := by
    by_cases work : n + 1 ≤ 1500
    · simpa [coinbaseWithin, vtx_work plan work, valueOut_coinbaseAt, work] using .inr pays
    · simp [coinbaseWithin, CBlock.isProofOfWork, stakeBlock]; omega
  have unlocked : instantSendOk (permissive now) (plan.blockAt (n + 1)) (n + 1) = true := rfl
  refine then_eq_ok.mpr ⟨?_, then_eq_ok.mpr ⟨?_, plan.processSpecialTxsInBlock_blockAt now n view⟩⟩
  · simp [within, clean.scripts, value, unlocked]
  · unfold payeeCheck
    split
    next stake =>
      rw [stakeBlock, decide_eq_true_eq] at stake
      refine bind_eq_ok.mpr ⟨plan.coinstakeAt (n + 1), ?_, bind_eq_ok.mpr ⟨true, rfl, rfl⟩⟩
      rw [assertSome_eq_ok, rewardTx, stakeBlock, vtx_stake plan stake, decide_eq_true stake]
      rfl
    next => rfl

/-- The entry when the block is accepted, before it is connected. -/
def acceptedAt (plan : Plan) (n : Nat) : IndexFields :=
  { plan.fieldsAt n with
    nMint := 0
    nMoneySupply := 0 }

theorem wrap64_add_wrap64 (a b : Int) : wrap64 (wrap64 a + b) = wrap64 (a + b) := bmod_add_bmod

variable (plan) in
theorem connectBlock_blockAt (ready : Ready n view) (fJustCheck : Bool) :
    ∃ c, connectBlock mainParams (permissive (60 * (n + 1))) (plan.globalsAt n view) (plan.blockAt (n + 1))
        (plan.indexAt n) (plan.acceptedAt (n + 1)) view fJustCheck = .ok c ∧
      c.fields = plan.fieldsAt (n + 1) ∧ (fJustCheck = false → Ready (n + 1) c.view) ∧
      netIssuance (n + 1) view (plan.blockAt (n + 1)).vtx = plan.created (n + 1) := by
  obtain ⟨tally, txs, clean, sums, next⟩ := plan.connectTxs_blockAt ready (60 * (n + 1))
  have net := connectTxs_net txs
  have checked : connectChecked mainParams (permissive (60 * (n + 1))) (plan.globalsAt n view) (plan.blockAt (n + 1))
      (plan.indexAt n) (plan.acceptedAt (n + 1)) view fJustCheck = .ok _ :=
    then_eq_ok.mpr ⟨plan.beforeTxs_blockAt ready fJustCheck, bind_eq_ok.mpr ⟨tally, txs,
      then_eq_ok.mpr ⟨afterTxs_blockAt ready clean, rfl⟩⟩⟩
  have named : ¬ (plan.acceptedAt (n + 1)).phashBlock ≠ (plan.blockAt (n + 1)).hash := fun other => other rfl
  refine ⟨_, (if_neg named).trans (bind_eq_ok.mpr ⟨(plan.acceptedAt (n + 1), []), rfl, checked⟩), ?_, ?_, ?_⟩
  · rw [clean.fees, sums, nMoneySupply_indexAt, sub_zero, wrap64_add_wrap64]
    rfl
  · rintro rfl
    exact next
  · rw [clean.fees, nHeight_indexAt] at net
    simp only at net
    omega

end

theorem hash_blockAt (member : tx ∈ (plan.blockAt n).vtx) :
    tx = plan.coinbaseAt n ∧ tx.hash = 8 * n ∨ tx = plan.coinstakeAt n ∧ tx.hash = 8 * n + 1 ∨
      ∃ llmq ∈ mainParams.llmqs, tx = commitmentAt n llmq ∧ tx.hash = 8 * n + 1 + llmq.type := by
  rcases plan.mem_blockAt member with rfl | ⟨rfl, -⟩ | ⟨llmq, due, rfl⟩
  · exact .inl ⟨rfl, rfl⟩
  · exact .inr (.inl ⟨rfl, rfl⟩)
  · exact .inr (.inr ⟨llmq, (mem_dueAt.mp due).2.1, rfl, rfl⟩)

theorem eq_of_hash {other : CTransaction} (inTx : tx ∈ (plan.blockAt j).vtx)
    (inOther : other ∈ (plan.blockAt k).vtx) (equal : tx.hash = other.hash) : tx = other := by
  have types : ∀ llmq ∈ mainParams.llmqs, 1 ≤ llmq.type ∧ llmq.type ≤ 3 := by decide
  unfold Uint256 at equal
  rcases plan.hash_blockAt inTx with ⟨rfl, hash⟩ | ⟨rfl, hash⟩ | ⟨llmq, known, rfl, hash⟩ <;>
    rcases plan.hash_blockAt inOther with ⟨rfl, hash'⟩ | ⟨rfl, hash'⟩ | ⟨llmq', known', rfl, hash'⟩ <;>
    unfold Uint256 at hash hash'
  · obtain rfl : j = k := by omega
    rfl
  · omega
  · have := types llmq' known'; omega
  · omega
  · obtain rfl : j = k := by omega
    rfl
  · have := types llmq' known'; omega
  · have := types llmq known; omega
  · have := types llmq known; omega
  · have one := types llmq known
    have two := types llmq' known'
    obtain rfl : j = k := by omega
    have type : llmq.type = llmq'.type := by omega
    have found := (llmq_mainParams known).1
    rw [type, (llmq_mainParams known').1] at found
    rw [Option.some.inj found]

theorem exists_chain (n : Nat) :
    ∃ view links, IsChain mainParams (plan.indexAt n) view links ∧ Ready n view ∧ issuedBy links = plan.issued n ∧
      ∀ link ∈ links, ∃ k, link.block = plan.blockAt (k + 1) ∧ link.pindexPrev = plan.indexAt k ∧
        link.created = plan.created (k + 1) := by
  induction n with
  | zero =>
    have coins : ∀ {o coin}, (empty (hashAt 0)).coins o = some coin → o.hash < 8 * (0 + 1) := by
      intro o coin found
      cases found
    exact ⟨_, [], .genesis { phashBlock := hashAt 0 } rfl rfl, ⟨rfl, coins, fun positive => by omega⟩, rfl, by simp⟩
  | succ n ih =>
    obtain ⟨view, links, chain, ready, sum, each⟩ := ih
    obtain ⟨c, connected, fields, next, net⟩ := plan.connectBlock_blockAt ready false
    have longer := IsChain.connect (g := plan.globalsAt n view) chain rfl rfl connected
    have here : Link.created ⟨plan.blockAt (n + 1), plan.indexAt n, view⟩ = plan.created (n + 1) := by
      rw [Link.created, Link.nHeight, nHeight_indexAt, net]
    rw [fields] at longer
    refine ⟨c.view, _, longer, next rfl, ?_, forall_mem_cons.mpr ⟨⟨n, rfl, rfl, here⟩, each⟩⟩
    rw [issuedBy_cons, here, sum]
    exact add_comm _ _

end Plan

/-! ### Two plans -/

theorem cappedSubsidy_le (nHeight : Nat) (nMoneySupply : Int) : cappedSubsidy nHeight nMoneySupply ≤ 280000000 := by
  have schedule := scheduledSubsidy_range nHeight
  unfold cappedSubsidy tailSubsidy
  split
  · decide
  split <;> omega

theorem getBlockSubsidy_small (chainActive : CChain) (later : nHeight ≠ 1) :
    getBlockSubsidy mainParams chainActive nHeight false ≤ 280000000 := by
  have capped := cappedSubsidy_le nHeight (tipSupply chainActive)
  have part := superblockPart_range (cappedSubsidy_nonneg nHeight (tipSupply chainActive))
  simp only [getBlockSubsidy, mainParams, Bool.false_eq_true, ↓reduceIte, if_neg later]
  split
  · decide
  · by_cases budget : 10000 ≤ nHeight <;> simp only [budget, ↓reduceIte] <;> omega

/-- After the first block nothing is minted; the stake blocks pay only their extra output. -/
def idlePlan (extra : Int) (inRange : moneyRange extra = true) : Plan where
  mint n := if n = 1 then 3093000 * COIN else 0
  extra
  first := rfl
  nonneg n := by split <;> decide
  small n later := by rw [if_neg later]; decide
  inRange
  within n := by
    split
    next one => rw [one]; exact le_refl _
    next => exact getBlockSubsidy_nonneg _ _ _ _

theorem issued_idlePlan (extra : Int) (inRange : moneyRange extra = true) (n : Nat) :
    (idlePlan extra inRange).issued (n + 1) = 3093000 * COIN + (n + 1 - 1500 : Nat) * extra := by
  induction n with
  | zero => simp [Plan.issued, issuedAt, createdAt, idlePlan]
  | succ n ih =>
    have step : (idlePlan extra inRange).issued (n + 2) = (idlePlan extra inRange).issued (n + 1) +
        ((if n + 2 = 1 then 3093000 * COIN else 0) + if n + 2 ≤ 1500 then 0 else extra) := rfl
    rw [step, ih, if_neg (by omega)]
    by_cases work : n + 2 ≤ 1500
    · rw [if_pos work, show n + 1 - 1500 = 0 by omega, show n + 1 + 1 - 1500 = 0 by omega]
      omega
    · rw [if_neg work, show n + 1 + 1 - 1500 = (n + 1 - 1500) + 1 by omega, natCast_add, add_mul]
      omega

def idle : Plan := idlePlan 0 (by decide)

def inflating : Plan := idlePlan MAX_MONEY (by decide)

def fullSupply : Nat → Int
  | 0 => 0
  | n + 1 => fullSupply n + getBlockSubsidy mainParams (supplyTip (wrap64 (fullSupply n))) (n + 1) false

def fullMint : Nat → Int
  | 0 => 0
  | n + 1 => getBlockSubsidy mainParams (supplyTip (wrap64 (fullSupply n))) (n + 1) false

theorem issuedAt_fullMint (n : Nat) : issuedAt fullMint 0 n = fullSupply n := by
  induction n with
  | zero => rfl
  | succ n ih => rw [issuedAt, ih, createdAt, fullSupply, fullMint, ite_self, add_zero]

def fullPlan : Plan where
  mint := fullMint
  extra := 0
  first := rfl
  nonneg n := by
    cases n
    · exact le_refl 0
    · exact getBlockSubsidy_nonneg _ _ _ _
  small n later := by
    cases n
    · decide
    · exact le_trans (getBlockSubsidy_small _ later) (by decide)
  inRange := by decide
  within n := by rw [issuedAt_fullMint, fullMint]

theorem fullSupply_range (n : Nat) : 0 ≤ fullSupply n ∧ fullSupply n ≤ 3093000 * COIN + 280000000 * n := by
  induction n with
  | zero => decide
  | succ n ih =>
    have nonneg := getBlockSubsidy_nonneg mainParams (supplyTip (wrap64 (fullSupply n))) (n + 1) false
    rw [fullSupply]
    cases n with
    | zero => decide
    | succ n =>
      have small := getBlockSubsidy_small (supplyTip (wrap64 (fullSupply (n + 1)))) (show n + 1 + 1 ≠ 1 by omega)
      omega

theorem wrap64_fullSupply (height : n < 2 ^ 31) : wrap64 (fullSupply n) = fullSupply n := by
  have range := fullSupply_range n
  simp only [COIN] at range
  rw [wrap64, bmod_eq_of_le] <;> omega

def gap (n : Nat) : Int := MAX_MONEY - fullSupply n

/-- With the budget part withheld, a block takes at least 1.425 coins from a gap above the schedule, divides a
    smaller one by twenty, and adds the tail emission to none. -/
theorem gap_step (budget : 9999 ≤ n) (height : n < 2 ^ 31) : gap (n + 1) ≤
      if gap n ≤ 0 then gap n - 9500 else if gap n ≤ scheduledSubsidy (n + 1) then gap n / 20
      else gap n - 142500000 := by
  have schedule := scheduledSubsidy_range (n + 1)
  have supply : tipSupply (supplyTip (wrap64 (fullSupply n))) = fullSupply n := wrap64_fullSupply height
  have subsidy : getBlockSubsidy mainParams (supplyTip (wrap64 (fullSupply n))) (n + 1) false =
      cappedSubsidy (n + 1) (fullSupply n) - cappedSubsidy (n + 1) (fullSupply n) / 20 := by
    rw [getBlockSubsidy, supply, ← tdiv_eq_ediv_of_nonneg (cappedSubsidy_nonneg _ _)]
    have late : 10000 ≤ n + 1 := by omega
    simp only [mainParams, Bool.false_eq_true, ↓reduceIte, if_neg (show n + 1 ≠ 1 by omega),
      if_neg (show ¬ n + 1 ≤ 7500 by omega), late]
  rw [gap, gap, fullSupply, subsidy, cappedSubsidy]
  generalize fullSupply n = s at *
  generalize scheduledSubsidy (n + 1) = r at *
  unfold tailSubsidy
  split <;> split <;> (try split) <;> (try split) <;> omega

theorem gap_slow (k : Nat) (height : 9999 + k < 2 ^ 31) : gap (9999 + k) ≤ max (MAX_MONEY - 142500000 * k) 280000000 := by
  induction k with
  | zero =>
    have range := fullSupply_range (9999 + 0)
    unfold gap
    omega
  | succ k ih =>
    have step := gap_step (n := 9999 + k) (by omega) (by omega)
    rw [show 9999 + (k + 1) = 9999 + k + 1 by omega]
    split at step
    · omega
    split at step <;> omega

theorem gap_fast {bound : Int} (budget : 9999 ≤ n) (nonneg : 0 ≤ bound) (small : bound ≤ 150000000)
    (within : gap n ≤ bound) (j : Nat) (height : n + j < 2 ^ 31) : gap (n + j) ≤ bound / 20 ^ j := by
  induction j with
  | zero => simpa using within
  | succ j ih =>
    have step := gap_step (n := n + j) (by omega) (by omega)
    have positive : (0 : Int) < 20 ^ j := Int.pow_pos (by decide)
    have less := ediv_le_self (20 ^ j) nonneg
    have next : bound / 20 ^ (j + 1) = bound / 20 ^ j / 20 := by
      rw [pow_succ, ediv_ediv_of_nonneg (le_of_lt positive)]
    rw [next, ← add_assoc]
    split at step
    · omega
    split at step <;> omega

theorem fullSupply_exceeds : MAX_MONEY < fullSupply (9392463 + 1) := by
  have start : gap 9392455 ≤ 280000000 := le_trans (gap_slow 9382456 (by decide)) (by decide)
  have one : gap (9392455 + 1) ≤ 137500000 := by
    have step := gap_step (n := 9392455) (by decide) (by decide)
    split at step
    · omega
    split at step <;> omega
  have closed : gap 9392463 ≤ 0 := le_trans (gap_fast (by decide) (by decide) (by decide) one 7 (by decide)) (by decide)
  have last := gap_step (n := 9392463) (by decide) (by decide)
  rw [if_pos closed, gap] at last
  omega

end Cspn.Growth
