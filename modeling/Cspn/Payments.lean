import Cspn.BlockCheck

/-!
What a block may pay: the subsidy, the superblock allowance, and the checks of value and payees. `GetBlockSubsidy`
reads the money supply at the tip of the active chain, `IsBlockValueValid` the coins there, and the payee check the
masternode list at a height of the active chain.
-/
namespace Cspn.Payments
open Primitives Index MnBuild Env Int

/-! ### Subsidy -/

variable (params : Params) (chainActive : CChain) (nHeight : Nat) (fSuperblockPartOnly : Bool)

def scheduledSubsidy : Int :=
  if nHeight ≤ 291300 then 280000000
  else if nHeight ≤ 816900 then 261000000
  else if nHeight ≤ 1342500 then 244000000
  else if nHeight ≤ 1868100 then 227000000
  else if nHeight ≤ 2393700 then 212000000
  else if nHeight ≤ 2919300 then 198000000
  else if nHeight ≤ 3444900 then 185000000
  else if nHeight ≤ 3970500 then 172000000
  else if nHeight ≤ 4496100 then 161000000
  else 150000000

/-- The reward once the recorded supply has reached `MAX_MONEY`. -/
def tailSubsidy : Int := 10000

def cappedSubsidy (nMoneySupply : Int) : Int :=
  if MAX_MONEY ≤ nMoneySupply then tailSubsidy
  else if MAX_MONEY ≤ nMoneySupply + scheduledSubsidy nHeight then MAX_MONEY - nMoneySupply
  else scheduledSubsidy nHeight

def tipSupply : Int := (chainActive.tip.map fun tip => tip.fields.nMoneySupply).getD 0

def getBlockSubsidy : Int :=
  if params.fRegtest then 50 * COIN
  else if nHeight = 1 then 3093000 * COIN
  else if nHeight ≤ 7500 then 0
  else
    let nSubsidy := cappedSubsidy nHeight (tipSupply chainActive)
    let nSuperblockPart := if params.nBudgetPaymentsStartBlock ≤ nHeight then tdiv nSubsidy 20 else 0
    if fSuperblockPartOnly then nSuperblockPart else nSubsidy - nSuperblockPart

theorem scheduledSubsidy_range : 150000000 ≤ scheduledSubsidy nHeight ∧ scheduledSubsidy nHeight ≤ 280000000 := by
  unfold scheduledSubsidy
  repeat' split
  all_goals omega

theorem cappedSubsidy_nonneg (nMoneySupply : Int) : 0 ≤ cappedSubsidy nHeight nMoneySupply := by
  have := scheduledSubsidy_range nHeight
  unfold cappedSubsidy tailSubsidy
  split
  · omega
  split <;> omega

theorem superblockPart_range {nSubsidy : Int} (nonneg : 0 ≤ nSubsidy) :
    0 ≤ tdiv nSubsidy 20 ∧ tdiv nSubsidy 20 ≤ nSubsidy := by
  rw [tdiv_eq_ediv_of_nonneg nonneg]
  omega

theorem getBlockSubsidy_nonneg : 0 ≤ getBlockSubsidy params chainActive nHeight fSuperblockPartOnly := by
  unfold getBlockSubsidy
  split
  · decide
  split
  · decide
  split
  · exact le_refl 0
  have part := superblockPart_range (cappedSubsidy_nonneg nHeight (tipSupply chainActive))
  dsimp only
  split <;> split <;> omega

variable {params : Params}

/-- Off regtest, and above the first block, a subsidy never lifts a supply below the cap over it, and is the tail
    emission at or above the cap. -/
theorem getBlockSubsidy_le {chainActive : CChain} {nHeight : Nat} (mainnet : params.fRegtest = false)
    (later : nHeight ≠ 1) : getBlockSubsidy params chainActive nHeight false ≤
      if MAX_MONEY ≤ tipSupply chainActive then tailSubsidy else MAX_MONEY - tipSupply chainActive := by
  have part := superblockPart_range (cappedSubsidy_nonneg nHeight (tipSupply chainActive))
  simp only [getBlockSubsidy, mainnet, Bool.false_eq_true, ↓reduceIte, if_neg later]
  split
  · unfold tailSubsidy; split <;> omega
  have le : cappedSubsidy nHeight (tipSupply chainActive) ≤
      if MAX_MONEY ≤ tipSupply chainActive then tailSubsidy else MAX_MONEY - tipSupply chainActive := by
    unfold cappedSubsidy
    split
    · exact le_refl _
    split <;> omega
  split <;> omega

def isValidBlockHeight (params : Params) (nBlockHeight : Nat) : Bool :=
  decide (params.nSuperblockStartBlock ≤ nBlockHeight) && decide (nBlockHeight % params.nSuperblockCycle = 0)

def getPaymentsLimit (params : Params) (chainActive : CChain) (nBlockHeight : Nat) : Int :=
  if isValidBlockHeight params nBlockHeight then
    getBlockSubsidy params chainActive (nBlockHeight - 1) true * params.nSuperblockCycle
  else 0

/-- The search of `CSuperblock::IsValid`: each payment is found at or after the place of the one before. -/
def paymentsFound : List CTxOut → List CTxOut → Bool
  | [], _ => true
  | payment :: rest, vout =>
    let tail := vout.dropWhile fun out => decide (out ≠ payment)
    !tail.isEmpty && paymentsFound rest tail

def superblockIsValid (params : Params) (ext : Externals) (chainActive : CChain) (txNew : CTransaction)
    (nBlockHeight : Nat) (blockReward : Int) : Bool :=
  (ext.getBestSuperblock nBlockHeight).any fun payments =>
    let nPaymentsTotalAmount := (payments.map CTxOut.nValue).sum
    isValidBlockHeight params nBlockHeight && decide (payments.length ≤ txNew.vout.length) &&
      decide (nPaymentsTotalAmount ≤ getPaymentsLimit params chainActive nBlockHeight) &&
      decide (txNew.valueOut ≤ blockReward + nPaymentsTotalAmount) && paymentsFound payments txNew.vout

def rewardTx (block : CBlock) : Option CTransaction := block.vtx[if block.isProofOfStake then 1 else 0]?

/-- `IsBlockValueValid`; `GetValueOut` does not throw on a checked block. -/
def isBlockValueValid (params : Params) (ext : Externals) (g : Globals) (block : CBlock) (nBlockHeight : Nat)
    (blockReward : Int) : Bool :=
  (rewardTx block).any fun tx =>
    let nValueIn := if block.isProofOfStake then g.pcoinsTip.getValueIn tx else 0
    let blockValue := tx.valueOut - nValueIn
    let isBlockRewardValueMet := decide (blockValue ≤ blockReward)
    let nSuperblockMaxValue := blockReward + getPaymentsLimit params g.chainActive nBlockHeight
    let isSuperblockMaxValueMet := decide (blockValue ≤ nSuperblockMaxValue)
    if !isValidBlockHeight params nBlockHeight then isBlockRewardValueMet
    else if !isSuperblockMaxValueMet then false
    else if !ext.fSynced || ext.fLiteMode then true
    else if !ext.fSuperblocksEnabled then isBlockRewardValueMet
    else if !ext.isSuperblockTriggered nBlockHeight then isBlockRewardValueMet
    else superblockIsValid params ext g.chainActive tx nBlockHeight blockReward

theorem getPaymentsLimit_nonneg (params : Params) (chainActive : CChain) (nBlockHeight : Nat) :
    0 ≤ getPaymentsLimit params chainActive nBlockHeight := by
  unfold getPaymentsLimit
  split
  · exact mul_nonneg (getBlockSubsidy_nonneg _ _ _ _) (natCast_nonneg _)
  · exact le_refl 0

section
variable {ext : Externals} {g : Globals} {block : CBlock} {nBlockHeight : Nat} {blockReward : Int} {tx : CTransaction}

/-- Whatever branch accepts it, the value stays within the reward and the superblock allowance. -/
theorem isBlockValueValid_le (pays : rewardTx block = some tx)
    (valid : isBlockValueValid params ext g block nBlockHeight blockReward = true) :
    tx.valueOut - (if block.isProofOfStake then g.pcoinsTip.getValueIn tx else 0) ≤
      blockReward + getPaymentsLimit params g.chainActive nBlockHeight := by
  have limit := getPaymentsLimit_nonneg params g.chainActive nBlockHeight
  simp only [isBlockValueValid, pays, Option.any_some] at valid
  generalize (tx.valueOut - if block.isProofOfStake = true then g.pcoinsTip.getValueIn tx else 0) = value at valid ⊢
  split at valid
  · have := of_decide_eq_true valid; omega
  split at valid
  · cases valid
  next met => simpa using met

theorem isBlockValueValid_of_le (lite : ext.fLiteMode = true) (pays : rewardTx block = some tx)
    (le : tx.valueOut - (if block.isProofOfStake then g.pcoinsTip.getValueIn tx else 0) ≤ blockReward) :
    isBlockValueValid params ext g block nBlockHeight blockReward = true := by
  have limit := getPaymentsLimit_nonneg params g.chainActive nBlockHeight
  simp only [isBlockValueValid, pays, Option.any_some, lite, Bool.or_true, ↓reduceIte]
  generalize (tx.valueOut - if block.isProofOfStake = true then g.pcoinsTip.getValueIn tx else 0) = value at le ⊢
  split
  · exact decide_eq_true le
  · rw [decide_eq_true (by omega)]
    rfl

end

def getMasternodePayment (params : Params) (ext : Externals) (nHeight : Nat) (blockValue : Int) : Int :=
  if nHeight < params.nLastPoWBlock ∨ blockValue = 0 then 0 else ext.masternodeShare blockValue

/-- `GetBlockTxOuts`: `none` where no masternode is to be paid. -/
def getBlockTxOuts (params : Params) (ext : Externals) (g : Globals) (pindex : CBlockIndex) (nBlockHeight : Nat)
    (blockReward : Int) : Option (List CTxOut) :=
  (getMNPayee (g.getListForBlock pindex)).map fun dmnPayee =>
    let masternodeReward := getMasternodePayment params ext nBlockHeight blockReward
    let operatorReward :=
      if dmnPayee.nOperatorReward ≠ 0 ∧ dmnPayee.pdmnState.scriptOperatorPayout ≠ [] then
        tdiv (masternodeReward * dmnPayee.nOperatorReward) 10000
      else 0
    let masternodeReward := masternodeReward - operatorReward
    (if 0 < masternodeReward then [⟨masternodeReward, dmnPayee.pdmnState.scriptPayout⟩] else []) ++
      if 0 < operatorReward then [⟨operatorReward, dmnPayee.pdmnState.scriptOperatorPayout⟩] else []

section
variable (params : Params) (ext : Externals) (g : Globals) (txNew : CTransaction) (nBlockHeight : Nat)
  (blockReward : Int)

/-- `CMasternodePayments::IsTransactionValid`; `none` where the active chain has no block below this one
    and the code follows a null pointer. -/
def isTransactionValid : Option Bool :=
  if nBlockHeight < params.nLastPoWBlock then some true
  else
    (g.chainActive.get (nBlockHeight - 1)).map fun pindex =>
      match getBlockTxOuts params ext g pindex nBlockHeight blockReward with
      | none => true
      | some payments => payments.all fun txout => txNew.vout.contains txout

def isBlockPayeeValid : Option Bool :=
  if ext.fLiteMode then some true
  else if ext.fSuperblocksEnabled && ext.isSuperblockTriggered nBlockHeight &&
      !superblockIsValid params ext g.chainActive txNew nBlockHeight blockReward then some false
  else isTransactionValid params ext g txNew nBlockHeight blockReward

end

end Cspn.Payments
