import Cspn.Stake

/-!
`ConnectBlock` for a block with a parent. The genesis block, whose transactions are
never connected, is where every run starts. `hashAssumeValid` is null on every
network, so scripts are always checked.
-/
namespace Cspn.Connect
open Primitives Index Coins Validation Env TxCheck BlockCheck Payments
  SpecialTx Stake

def BIP34_IMPLIES_BIP30_LIMIT : Nat := 1983702

def isBlockReason : ValidationInvalidReason → Bool
  | .TX_NOT_STANDARD | .TX_MISSING_INPUTS | .TX_PREMATURE_SPEND | .TX_WITNESS_MUTATED | .TX_CONFLICT
  | .TX_MEMPOOL_POLICY => false
  | _ => true

def blockReason {α : Type} : Result α → Result α
  | .error (.invalid reason strRejectReason) =>
    .error (.invalid (if isBlockReason reason then reason else .CONSENSUS) strRejectReason)
  | result => result

@[simp] theorem blockReason_eq_ok {α : Type} {x : Result α} {a : α} : blockReason x = .ok a ↔ x = .ok a := by
  unfold blockReason
  split <;> simp

structure Tally where
  view : CCoinsView
  nFees : Int := 0
  nValueIn : Int := 0
  nValueOut : Int := 0
  nSigOpsCost : Nat := 0
  /-- Every script check queued so far passes. -/
  fChecksPass : Bool := true
  vtxundo : List (List Coin) := []

section
variable (ext : Externals) (block : CBlock) (pindexPrev : CBlockIndex)

def checkInputsOf (tally : Tally) (tx : CTransaction) : Result Int :=
  if tx.isCoinBase then .ok tally.nFees
  else
    (blockReason (checkTxInputs tx tally.view (pindexPrev.nHeight + 1))).bind fun txfee =>
    let nFees := if tx.isCoinStake then tally.nFees else tally.nFees + txfee
    let prevheights := tx.vin.map fun txin => (tally.view.accessCoin txin.prevout).nHeight
    (checks .CONSENSUS
      [(moneyRange nFees, "bad-txns-accumulated-fee-outofrange"),
        (ext.sequenceLocks tx (ext.csvActive pindexPrev) prevheights pindexPrev, "bad-txns-nonfinal")]).bind fun _ =>
    .ok nFees

def connectTx (i : Nat) (tally : Tally) (tx : CTransaction) : Result Tally :=
  (checkInputsOf ext pindexPrev tally tx).bind fun nFees =>
  let flags := ext.getBlockScriptFlags block.hash pindexPrev
  let coins := tx.vin.map fun txin => tally.view.accessCoin txin.prevout
  let nSigOpsCost := tally.nSigOpsCost + ext.getTransactionSigOpCost tx coins flags
  let scripts := tx.isCoinBase || ext.verifyInputs tx coins flags
  (checks .CONSENSUS
    [(decide (nSigOpsCost ≤ MAX_BLOCK_SIGOPS_COST), "bad-blk-sigops"),
      (decide (ext.nScriptCheckThreads ≠ 0) || scripts, "mandatory-script-verify-flag-failed")]).bind fun _ =>
  (assertSome (if tx.isCoinStake || tx.isCoinBase then tx.getValueOut else some 0)).bind fun valueOut =>
  (assertSome (tally.view.updateCoins tx (pindexPrev.nHeight + 1))).bind fun updated =>
  .ok
    { view := updated.2
      nFees
      nValueIn := tally.nValueIn + if tx.isCoinStake then tally.view.getValueIn tx else 0
      nValueOut := tally.nValueOut + valueOut
      nSigOpsCost
      fChecksPass := tally.fChecksPass && scripts
      vtxundo := if i = 0 then tally.vtxundo else tally.vtxundo ++ [updated.1] }

def connectTxs : Nat → List CTransaction → Tally → Result Tally
  | _, [], tally => .ok tally
  | i, tx :: rest, tally => (connectTx ext block pindexPrev i tally tx).bind (connectTxs (i + 1) rest)

end

variable (params : Params) (ext : Externals) (g : Globals) (block : CBlock)

/-- `VerifyBestBlock` on the special database: its assertion, and whether there is a best block. -/
def verifyBestBlock (hash : Uint256) : Result Bool :=
  match g.hashBestSpecial with
  | none => .ok false
  | some best => if best = hash then .ok true else .error .aborted

def checkBlockAgain (fJustCheck : Bool) : Result Unit :=
  match checkBlock ext block (!fJustCheck) (!fJustCheck) with
  | .error (.invalid .BLOCK_MUTATED _) =>
    .error (.error "Corrupt block found indicating potential hardware failure; shutting down")
  | result => result

/-- No output of the block names an outpoint that is unspent before it. -/
def bip30Ok (view : CCoinsView) : Bool :=
  block.vtx.all fun tx => (List.range tx.vout.length).all fun o => !view.haveCoin (tx.outpoint o)

/-- The checks of `ConnectBlock` before the loop over the transactions. -/
def beforeTxs (pindexPrev : CBlockIndex) (view : CCoinsView) (fJustCheck : Bool) : Result Unit :=
  let nHeight := pindexPrev.nHeight + 1
  (checkBlockAgain ext block fJustCheck).bind fun _ =>
  (checks .CONSENSUS [(!ext.hasConflictingChainLock nHeight block.hash, "bad-chainlock")]).bind fun _ =>
  if pindexPrev.getBlockHash ≠ view.hashBlock then .error .aborted
  else
    (verifyBestBlock g pindexPrev.getBlockHash).bind fun fHasBestBlock =>
    if 1 < nHeight ∧ fHasBestBlock = false then
      .error (.error "Found specialDB inconsistency, you must reindex to continue")
    else
      checks .CONSENSUS
        [(!(decide (nHeight ≤ params.nLastPoWBlock) && block.isProofOfStake), "pos-early"),
          (!(decide (params.nLastPoWBlock < nHeight) && block.isProofOfWork), "pow-ended"),
          (!decide (BIP34_IMPLIES_BIP30_LIMIT ≤ nHeight) || bip30Ok block view, "bad-txns-BIP30")]

/-- No transaction of the block conflicts with an InstantSend lock, unless a ChainLock overrules the lock. -/
def instantSendOk (nHeight : Nat) : Bool :=
  !ext.fInstantSendFiltering || ext.hasChainLock nHeight block.hash ||
    block.vtx.all fun tx => tx.vin.isEmpty || !ext.getConflictingLock tx

def coinbaseWithin (blockReward : Int) : Bool :=
  !block.isProofOfWork || block.vtx.head?.any fun coinbase => decide (coinbase.valueOut ≤ blockReward)

def payeeCheck (nHeight : Nat) (blockReward : Int) : Result Unit :=
  if block.isProofOfStake then
    (assertSome (rewardTx block)).bind fun coinstake =>
    (assertSome (isBlockPayeeValid params ext g coinstake nHeight blockReward)).bind fun valid =>
    checks .CONSENSUS [(valid, "bad-cb-payee")]
  else .ok ()

def afterTxs (pindexPrev : CBlockIndex) (tally : Tally) : Result Unit :=
  let nHeight := pindexPrev.nHeight + 1
  let blockReward := tally.nFees + getBlockSubsidy params g.chainActive nHeight false
  (checks .CONSENSUS
    [(coinbaseWithin block blockReward, "bad-cb-amount"),
      (tally.fChecksPass, "block-validation-failed"),
      (instantSendOk ext block nHeight, "conflict-tx-lock"),
      (isBlockValueValid params ext g block nHeight blockReward, "bad-cb-amount")]).bind fun _ =>
  (payeeCheck params ext g block nHeight blockReward).bind fun _ =>
  processSpecialTxsInBlock params ext g block pindexPrev

structure Connection where
  view : CCoinsView
  vtxundo : List (List Coin)
  fields : IndexFields
  m_pos_index : List Uint256

section
variable (params : Params) (ext : Externals) (g : Globals) (block : CBlock) (pindexPrev : CBlockIndex)
  (fields : IndexFields)

def connectChecked (view : CCoinsView) (fJustCheck : Bool) : Result Connection :=
  (beforeTxs params ext g block pindexPrev view fJustCheck).bind fun _ =>
  (connectTxs ext block pindexPrev 0 block.vtx { view }).bind fun tally =>
  (afterTxs params ext g block pindexPrev tally).bind fun _ =>
  .ok
    { view := if fJustCheck then tally.view else tally.view.setBestBlock block.hash
      vtxundo := tally.vtxundo
      fields :=
        { fields with
          nMoneySupply := wrap64 (pindexPrev.fields.nMoneySupply + (tally.nValueOut - tally.nValueIn) - tally.nFees)
          nMint := tally.nValueOut - tally.nValueIn }
      m_pos_index := g.m_pos_index }

/-- The stake checks of `ConnectBlock`, made when the entry has no modifier yet, with what they write. -/
def stakeStage (fJustCheck : Bool) : Result (IndexFields × List Uint256) :=
  if fields.nStakeModifier = 0 ∧ fields.nStakeModifierChecksum = 0 then
    match posContextualBlockChecks params ext g block pindexPrev with
    | none => .error .unset
    | some stake =>
      if fJustCheck then .ok (fields, g.m_pos_index)
      else .ok (stake.write fields, insertPoSIndex g.m_pos_index stake.hashProofOfStake)
  else .ok (fields, g.m_pos_index)

/-- `ConnectBlock` of the block with entry `.next pindexPrev fields`. -/
def connectBlock (view : CCoinsView) (fJustCheck : Bool) : Result Connection :=
  if fields.phashBlock ≠ block.hash then .error .aborted
  else
    (stakeStage params ext g block pindexPrev fields fJustCheck).bind fun stake =>
    connectChecked params ext { g with m_pos_index := stake.2 } block pindexPrev stake.1 view fJustCheck

end

/-! ### What a connected block is known to be -/

variable {tally final : Tally} {i : Nat} {fields : IndexFields}

section
variable {params : Params} {ext : Externals} {g : Globals} {block : CBlock} {pindexPrev : CBlockIndex}
  {tx : CTransaction}

structure TxStep (pindexPrev : CBlockIndex) (i : Nat) (tally : Tally) (tx : CTransaction) (after : Tally) : Prop where
  fees : if tx.isCoinBase then after.nFees = tally.nFees
    else ∃ txfee, InputsOk tx tally.view (pindexPrev.nHeight + 1) txfee ∧ after.nFees = tally.nFees + txfee ∧
      moneyRange after.nFees = true
  updated : ∃ vprevout, tally.view.updateCoins tx (pindexPrev.nHeight + 1) = some (vprevout, after.view) ∧
    after.vtxundo = if i = 0 then tally.vtxundo else tally.vtxundo ++ [vprevout]
  nValueIn : after.nValueIn = tally.nValueIn + if tx.isCoinStake then tally.view.getValueIn tx else 0
  nValueOut : after.nValueOut = tally.nValueOut + if tx.isCoinStake || tx.isCoinBase then tx.valueOut else 0

theorem connectTx_ok {after : Tally}
    (connected : connectTx ext block pindexPrev i tally tx = .ok after) : TxStep pindexPrev i tally tx after := by
  obtain ⟨nFees, inputs, rest⟩ := bind_eq_ok.mp connected
  obtain ⟨_, rest⟩ := then_eq_ok.mp rest
  obtain ⟨valueOut, value, rest⟩ := bind_eq_ok.mp rest
  obtain ⟨⟨vprevout, view⟩, updated, same⟩ := bind_eq_ok.mp rest
  cases same
  refine ⟨?_, ⟨vprevout, assertSome_eq_ok.mp updated, rfl⟩, rfl, ?_⟩
  · unfold checkInputsOf at inputs
    split at inputs
    next coinbase => cases inputs; simp [coinbase]
    next ordinary =>
      obtain ⟨txfee, inputs, rest⟩ := bind_eq_ok.mp inputs
      obtain ⟨inRange, same⟩ := then_eq_ok.mp rest
      have ok := checkTxInputs_ok (blockReason_eq_ok.mp inputs)
      cases same
      rw [if_neg ordinary]
      refine ⟨txfee, ok, ?_, (checks_cons.mp inRange).1⟩
      split
      next stake => rw [ok.fee, if_pos stake, Int.add_zero]
      next => rfl
  have value := assertSome_eq_ok.mp value
  dsimp only
  congr 1
  split at value
  next pays => rw [if_pos pays, CTransaction.getValueOut_eq value]
  next free => rw [if_neg free]; exact (Option.some.inj value).symm

theorem connectTxs_cons {rest : List CTransaction} :
    connectTxs ext block pindexPrev i (tx :: rest) tally = .ok final ↔
      ∃ after, connectTx ext block pindexPrev i tally tx = .ok after ∧
        connectTxs ext block pindexPrev (i + 1) rest after = .ok final := bind_eq_ok

theorem connectTxs_induction {motive : Nat → List CTransaction → Tally → Prop} {txs : List CTransaction}
    (connected : connectTxs ext block pindexPrev i txs tally = .ok final) (done : ∀ i, motive i [] final)
    (step : ∀ {i tx rest tally after}, TxStep pindexPrev i tally tx after → motive (i + 1) rest after →
      motive i (tx :: rest) tally) : motive i txs tally := by
  induction txs generalizing i tally with
  | nil => cases connected; exact done i
  | cons tx rest ih =>
    obtain ⟨after, first, others⟩ := connectTxs_cons.mp connected
    exact step (connectTx_ok first) (ih others)

structure Connects (params : Params) (ext : Externals) (g : Globals) (block : CBlock) (pindexPrev : CBlockIndex)
    (view : CCoinsView) (fJustCheck : Bool) (tally : Tally) : Prop where
  before : beforeTxs params ext g block pindexPrev view fJustCheck = .ok ()
  txs : connectTxs ext block pindexPrev 0 block.vtx { view } = .ok tally
  after : afterTxs params ext g block pindexPrev tally = .ok ()

variable {view : CCoinsView} {fJustCheck : Bool}

theorem connectBlock_ok {c : Connection}
    (connected : connectBlock params ext g block pindexPrev fields view fJustCheck = .ok c) :
    ∃ stake tally, fields.phashBlock = block.hash ∧
      stakeStage params ext g block pindexPrev fields fJustCheck = .ok stake ∧
      Connects params ext { g with m_pos_index := stake.2 } block pindexPrev view fJustCheck tally ∧
      c = { view := if fJustCheck then tally.view else tally.view.setBestBlock block.hash
            vtxundo := tally.vtxundo
            fields :=
              { stake.1 with
                nMoneySupply :=
                  wrap64 (pindexPrev.fields.nMoneySupply + (tally.nValueOut - tally.nValueIn) - tally.nFees)
                nMint := tally.nValueOut - tally.nValueIn }
            m_pos_index := stake.2 } := by
  unfold connectBlock at connected
  split at connected
  · cases connected
  next hash =>
    obtain ⟨stake, staged, rest⟩ := bind_eq_ok.mp connected
    obtain ⟨before, rest⟩ := then_eq_ok.mp rest
    obtain ⟨tally, txs, rest⟩ := bind_eq_ok.mp rest
    obtain ⟨after, same⟩ := then_eq_ok.mp rest
    cases same
    exact ⟨stake, tally, not_not.mp hash, staged, ⟨before, txs, after⟩, rfl⟩

section
variable (passed : beforeTxs params ext g block pindexPrev view fJustCheck = .ok ())
include passed

theorem beforeTxs_checkBlock : ∃ coinbase rest, BlockOk block coinbase rest := by
  have checked := (then_eq_ok.mp passed).1
  unfold checkBlockAgain at checked
  split at checked
  · cases checked
  · obtain ⟨_, rest⟩ := then_eq_ok.mp checked
    obtain ⟨_, rest⟩ := then_eq_ok.mp rest
    obtain ⟨shape, rest⟩ := then_eq_ok.mp rest
    obtain ⟨txs, _⟩ := then_eq_ok.mp rest
    simp only [checks_cons, checks_nil, and_true, List.all_eq_true, Bool.not_eq_true'] at shape
    obtain ⟨_, first, others, stakes, _⟩ := shape
    cases vtx : block.vtx with
    | nil => simp [vtx] at first
    | cons coinbase rest =>
      simp only [vtx, List.head?_cons, Option.any_some, List.tail_cons] at first others stakes
      exact ⟨coinbase, rest, vtx, first, others, stakes, fun tx member => checkTransaction_ok (checkEach_ok.mp txs tx member)⟩

theorem beforeTxs_checks : pindexPrev.getBlockHash = view.hashBlock ∧ checks .CONSENSUS
        [(!(decide (pindexPrev.nHeight + 1 ≤ params.nLastPoWBlock) && block.isProofOfStake), "pos-early"),
          (!(decide (params.nLastPoWBlock < pindexPrev.nHeight + 1) && block.isProofOfWork), "pow-ended"),
          (!decide (BIP34_IMPLIES_BIP30_LIMIT ≤ pindexPrev.nHeight + 1) || bip30Ok block view, "bad-txns-BIP30")] =
        .ok () := by
  obtain ⟨_, rest⟩ := then_eq_ok.mp passed
  obtain ⟨_, rest⟩ := then_eq_ok.mp rest
  split at rest
  · cases rest
  next best =>
    obtain ⟨_, _, rest⟩ := bind_eq_ok.mp rest
    split at rest
    · cases rest
    · exact ⟨not_not.mp best, rest⟩

theorem beforeTxs_bip30 (high : BIP34_IMPLIES_BIP30_LIMIT ≤ pindexPrev.nHeight + 1) : bip30Ok block view = true := by
  have last := (checks_cons.mp (checks_cons.mp (checks_cons.mp (beforeTxs_checks passed).2).2).2).1
  simpa [high] using last

end

end

end Cspn.Connect
