import Cspn.Overwrite

/-!
`DisconnectBlock` and the undo records it reads. Each of its steps gives `DISCONNECT_OK` exactly where it takes back one
change of the journal of the block (`Reverts`), so the whole gives back the coins exactly when no output of the block
replaced an unspent one.
-/
namespace Cspn.Disconnect
open Primitives Index Coins Coins.CCoinsView Validation Env List
  SpecialTx Connect Chain Growth Overwrite
open Journal

/-- What `TxInUndoSerializer` writes: height and flags in one number, and the output. -/
structure TxInUndo where
  nCode : Nat
  out : CTxOut

def TxInUndo.serialize (coin : Coin) : TxInUndo :=
  ⟨coin.nHeight * 4 + (if coin.fCoinBase then 1 else 0) + (if coin.fCoinStake then 2 else 0), coin.out⟩

def TxInUndo.unserialize (record : TxInUndo) : Coin where
  out := record.out
  nHeight := record.nCode / 4
  fCoinBase := decide (record.nCode % 2 = 1)
  fCoinStake := decide (record.nCode / 2 % 2 = 1)

open TxInUndo

theorem unserialize_serialize (coin : Coin) : (serialize coin).unserialize = coin := by
  obtain ⟨out, nHeight, fCoinBase, fCoinStake⟩ := coin
  cases fCoinBase <;> cases fCoinStake <;> simp only [serialize, unserialize, Coin.mk.injEq,
    true_and, ↓reduceIte, Bool.false_eq_true, decide_eq_true_eq, decide_eq_false_iff_not] <;> omega

/-! ### DisconnectBlock -/

/-- `DisconnectResult`, with the view it leaves; `aborted` where an assertion fails. -/
inductive DisconnectResult where
  | DISCONNECT_OK (view : CCoinsView)
  | DISCONNECT_UNCLEAN (view : CCoinsView)
  | DISCONNECT_FAILED
  | aborted

variable {view : CCoinsView} {ext : Externals} {block : CBlock} {pindexPrev : CBlockIndex} {params : Params}
  {g : Globals} {result : DisconnectResult} {next : CCoinsView → DisconnectResult}
  {after : CCoinsView} {tx : CTransaction} {nHeight : Nat} {txs : List CTransaction}

namespace DisconnectResult

def unclean : DisconnectResult → DisconnectResult
  | DISCONNECT_OK view => DISCONNECT_UNCLEAN view
  | result => result

/-- Goes on with the view; what follows a step that is not clean is not clean either. -/
def andThen (result : DisconnectResult) (next : CCoinsView → DisconnectResult) : DisconnectResult :=
  match result with
  | DISCONNECT_OK view => next view
  | DISCONNECT_UNCLEAN view => (next view).unclean
  | DISCONNECT_FAILED => DISCONNECT_FAILED
  | aborted => aborted

theorem unclean_ne_ok (result : DisconnectResult) (view : CCoinsView) : result.unclean ≠ DISCONNECT_OK view := by
  cases result <;> simp [unclean]

theorem andThen_eq_ok : result.andThen next = DISCONNECT_OK after ↔
      ∃ view, result = DISCONNECT_OK view ∧ next view = DISCONNECT_OK after := by
  cases result <;> simp [andThen, unclean_ne_ok]

/-- The result is `DISCONNECT_OK` with a view that passes a test. -/
def okAnd (result : DisconnectResult) (test : CCoinsView → Bool) : Bool :=
  match result with
  | DISCONNECT_OK view => test view
  | _ => false

theorem okAnd_iff {test : CCoinsView → Bool} :
    result.okAnd test = true ↔ ∃ view, result = DISCONNECT_OK view ∧ test view = true := by
  cases result <;> simp [okAnd]

end DisconnectResult

open DisconnectResult (DISCONNECT_OK DISCONNECT_UNCLEAN DISCONNECT_FAILED aborted andThen_eq_ok)

def completed (undo : Coin) (view : CCoinsView) (txid : Uint256) : Option Coin :=
  if undo.nHeight = 0 then
    let alternate := view.accessByTxid txid
    if alternate.isSpent then none
    else
      some
        { undo with
          nHeight := alternate.nHeight
          fCoinBase := alternate.fCoinBase
          fCoinStake := alternate.fCoinStake }
  else some undo

def applyTxInUndo (undo : Coin) (view : CCoinsView) (out : COutPoint) : DisconnectResult :=
  let fClean := !view.haveCoin out
  match completed undo view out.hash with
  | none => DISCONNECT_FAILED
  | some coin =>
    match view.addCoin out coin with
    | none => aborted
    | some after => if fClean then DISCONNECT_OK after else DISCONNECT_UNCLEAN after

/-- Output number `o` goes; it has to be there as the block made it. -/
def undoOutput (tx : CTransaction) (nHeight o : Nat) (out : CTxOut) (view : CCoinsView) : DisconnectResult :=
  if isUnspendable out.scriptPubKey then DISCONNECT_OK view
  else
    let after := view.spendCoin (tx.outpoint o)
    if view.coins (tx.outpoint o) = some (coinOf tx nHeight out) then DISCONNECT_OK after
    else DISCONNECT_UNCLEAN after

def undoOutputsFrom (tx : CTransaction) (nHeight : Nat) : Nat → List CTxOut → CCoinsView → DisconnectResult
  | _, [], view => DISCONNECT_OK view
  | o, out :: rest, view => (undoOutput tx nHeight o out view).andThen (undoOutputsFrom tx nHeight (o + 1) rest)

def restoreInputs : List (CTxIn × Coin) → CCoinsView → DisconnectResult
  | [], view => DISCONNECT_OK view
  | (txin, undo) :: rest, view =>
    (restoreInputs rest view).andThen fun later => applyTxInUndo undo later txin.prevout

def disconnectTx (nHeight : Nat) (tx : CTransaction) (txundo : Option (List Coin)) (view : CCoinsView) :
    DisconnectResult :=
  (undoOutputsFrom tx nHeight 0 tx.vout view).andThen fun after =>
    match txundo with
    | none => DISCONNECT_OK after
    | some vprevout =>
      if vprevout.length ≠ tx.vin.length then DISCONNECT_FAILED else restoreInputs (tx.vin.zip vprevout) after

def disconnectTxs (nHeight : Nat) : List (CTransaction × Option (List Coin)) → CCoinsView → DisconnectResult
  | [], view => DISCONNECT_OK view
  | (tx, txundo) :: rest, view => (disconnectTxs nHeight rest view).andThen (disconnectTx nHeight tx txundo)

/-- `DisconnectBlock` of the block with entry `.next pindexPrev fields`; `blockUndo` is what `UndoReadFromDisk` finds. -/
def disconnectBlock (params : Params) (g : Globals) (block : CBlock) (pindexPrev : CBlockIndex) (fields : IndexFields)
    (blockUndo : Option (List (List TxInUndo))) (view : CCoinsView) : DisconnectResult :=
  let nHeight := pindexPrev.nHeight + 1
  match verifyBestBlock g fields.phashBlock, blockUndo with
  | .error _, _ => aborted
  | .ok false, _ => DISCONNECT_FAILED
  | .ok true, none => DISCONNECT_FAILED
  | .ok true, some vtxundo =>
    if vtxundo.length + 1 ≠ block.vtx.length then DISCONNECT_FAILED
    else if undoSpecialTxsInBlock params block nHeight = false then DISCONNECT_FAILED
    else
      let txundo := none :: vtxundo.map fun records => some (records.map unserialize)
      (disconnectTxs nHeight (block.vtx.zip txundo) view).andThen fun after =>
        DISCONNECT_OK (after.setBestBlock pindexPrev.getBlockHash)

/-! ### Steps that take changes back -/

/-- The step gives `DISCONNECT_OK` exactly where the changes can be taken back, and takes them back. -/
def Reverts (changes : List (Change COutPoint Coin)) (step : CCoinsView → DisconnectResult) : Prop :=
  ∀ view m, (∃ after, step view = DISCONNECT_OK after ∧ after.coins = m) ↔ revertAll changes view.coins = some m

theorem reverts_nil : Reverts [] DISCONNECT_OK := by
  intro view m
  simp [revertAll]

theorem Reverts.append {first second : List (Change COutPoint Coin)} {last : CCoinsView → DisconnectResult}
    (reverts : Reverts first last) (before : Reverts second next) :
    Reverts (first ++ second) fun view => (next view).andThen last := by
  intro view m
  rw [revertAll_append, Option.bind_eq_some_iff]
  constructor
  · rintro ⟨after, both, same⟩
    obtain ⟨middle, earlier, later⟩ := andThen_eq_ok.mp both
    exact ⟨middle.coins, (before view _).mp ⟨middle, earlier, rfl⟩, (reverts middle m).mp ⟨after, later, same⟩⟩
  · rintro ⟨_, undone, rest⟩
    obtain ⟨middle, earlier, rfl⟩ := (before view _).mpr undone
    obtain ⟨after, later, same⟩ := (reverts middle m).mpr rest
    exact ⟨after, andThen_eq_ok.mpr ⟨middle, earlier, later⟩, same⟩

theorem reverts_undoOutputsFrom (tx : CTransaction) (nHeight o : Nat) (outs : List CTxOut) :
    Reverts (additions (newCoinsFrom tx nHeight o outs).reverse) (undoOutputsFrom tx nHeight o outs) := by
  induction outs generalizing o with
  | nil => exact reverts_nil
  | cons out rest ih =>
    rw [newCoinsFrom]
    split
    next lost =>
      intro view m
      rw [undoOutputsFrom, undoOutput, if_pos lost]
      exact ih (o + 1) view m
    next spendable =>
      have last : Reverts [.add (tx.outpoint o) (coinOf tx nHeight out)] (undoOutput tx nHeight o out) := by
        intro view m
        rw [revertAll, revertAll, Option.bind_some, revert_add_iff, undoOutput, if_neg spendable]
        by_cases found : view.coins (tx.outpoint o) = some (coinOf tx nHeight out)
        · simp [found, eq_comm]
        · simp [found]
      rw [reverse_cons, additions, map_append]
      exact (ih (o + 1)).append last

structure Restorable (coin : Coin) : Prop where
  live : coin.Live
  height : 0 < coin.nHeight

theorem reverts_applyTxInUndo {undo : Coin} (restorable : Restorable undo) (out : COutPoint) :
    Reverts [.drop out undo] fun view => applyTxInUndo undo view out := by
  intro view m
  obtain ⟨after, added⟩ := addCoin_isSome view out restorable.live.unspent
  obtain ⟨-, -, coins⟩ := addCoin_eq_some added
  rw [restorable.live.spendable] at coins
  have known : completed undo view out.hash = some undo := if_neg (Nat.ne_of_gt restorable.height)
  rw [revertAll, revertAll, Option.bind_some, revert_drop_iff]
  simp only [applyTxInUndo, known, added, haveCoin]
  by_cases free : view.coins out = none
  · simp [free, coins, eq_comm]
  · simp [free]

theorem reverts_restoreInputs {entries : List (CTxIn × Coin)} (restorable : ∀ entry ∈ entries, Restorable entry.2) :
    Reverts (entries.map fun entry => .drop entry.1.prevout entry.2) (restoreInputs entries) := by
  induction entries with
  | nil => exact reverts_nil
  | cons entry rest ih =>
    obtain ⟨first, others⟩ := forall_mem_cons.mp restorable
    exact (reverts_applyTxInUndo first entry.1.prevout).append (ih others)

/-- A record fits its transaction: one coin for each input, or none at all for a coinbase. -/
def RecordFits (tx : CTransaction) : Option (List Coin) → Prop
  | none => True
  | some vprevout => vprevout.length = tx.vin.length ∧ ∀ coin ∈ vprevout, Restorable coin

theorem reverts_disconnectTxs (nHeight : Nat) {entries : List (CTransaction × Option (List Coin))}
    (fits : ∀ entry ∈ entries, RecordFits entry.1 entry.2) :
    Reverts (entries.flatMap fun entry => txChanges entry.1 nHeight (entry.2.getD [])) (disconnectTxs nHeight entries) := by
  induction entries with
  | nil => exact reverts_nil
  | cons entry rest ih =>
    obtain ⟨first, others⟩ := forall_mem_cons.mp fits
    refine Reverts.append ?_ (ih others)
    obtain ⟨tx, txundo⟩ := entry
    have outputs : Reverts (additions (newCoins tx nHeight)) (undoOutputsFrom tx nHeight 0 tx.vout) := by
      intro view m
      rw [revertAll_additions_perm (newCoins tx nHeight).reverse_perm.symm (newCoins_nodup tx nHeight)]
      exact reverts_undoOutputsFrom tx nHeight 0 tx.vout view m
    refine Reverts.append ?_ outputs
    cases txundo with
    | none =>
      rw [Option.getD_none, spends, zip_nil_right]
      exact reverts_nil
    | some vprevout =>
      obtain ⟨length, restorable⟩ := first
      simp only [length, ne_eq, not_true_eq_false, ↓reduceIte]
      exact reverts_restoreInputs fun entry member => restorable entry.2 (of_mem_zip member).2

/-- The height 0 is that of the genesis block, whose outputs are in no view. -/
def Grounded (view : CCoinsView) : Prop := ∀ {o coin}, view.coins o = some coin → 0 < coin.nHeight

section
variable {vprevout : List Coin}

theorem Grounded.update (grounded : Grounded view) (positive : 0 < nHeight)
    (updates : Updates view tx nHeight vprevout after) : Grounded after := by
  intro o coin found
  rcases updates.coins_cases found with new | ⟨old, -⟩
  · obtain ⟨n, out, -, -, same⟩ := mem_newCoins.mp new
    cases same
    exact positive
  · exact grounded old

theorem Grounded.restorable (grounded : Grounded view) (updates : Updates view tx nHeight vprevout after) :
    ∀ coin ∈ vprevout, Restorable coin := by
  intro coin member
  have recorded := mem_map_of_mem (f := some) member
  rw [updates.undo] at recorded
  split at recorded
  · cases recorded
  · obtain ⟨txin, -, found⟩ := mem_map.mp recorded
    exact ⟨view.live found, grounded found⟩

end

/-- The transactions, each with the coins it spends, lead from one view to the other. -/
def Run (nHeight : Nat) : CCoinsView → List (CTransaction × List Coin) → CCoinsView → Prop
  | view, [], after => view = after
  | view, (tx, vprevout) :: rest, after =>
    ∃ middle, view.updateCoins tx nHeight = some (vprevout, middle) ∧ Run nHeight middle rest after

namespace Run
variable {entries : List (CTransaction × List Coin)} (run : Run nHeight view entries after)
include run

theorem journal :
    blockJournal nHeight view (entries.map Prod.fst) = entries.flatMap fun entry => txChanges entry.1 nHeight entry.2 := by
  induction entries generalizing view with
  | nil => rfl
  | cons entry rest ih =>
    obtain ⟨middle, updated, others⟩ := run
    simp [blockJournal, updated, ih others]

theorem fits : Fits view.coins (entries.flatMap fun entry => txChanges entry.1 nHeight entry.2) ∧
      after.coins = applyAll view.coins (entries.flatMap fun entry => txChanges entry.1 nHeight entry.2) := by
  induction entries generalizing view with
  | nil => cases run; exact ⟨trivial, rfl⟩
  | cons entry rest ih =>
    obtain ⟨middle, updated, others⟩ := run
    have updates := updateCoins_updates updated
    obtain ⟨fits, coins⟩ := ih others
    rw [updates.coins] at fits coins
    rw [flatMap_cons, fits_append, applyAll_append]
    exact ⟨⟨updates.fits, fits⟩, coins⟩

theorem records (positive : 0 < nHeight) (grounded : Grounded view) : Grounded after ∧
      ∀ entry ∈ entries, entry.2.length = (spentBy entry.1).length ∧ ∀ coin ∈ entry.2, Restorable coin := by
  induction entries generalizing view with
  | nil => cases run; exact ⟨grounded, by simp⟩
  | cons entry rest ih =>
    obtain ⟨middle, updated, others⟩ := run
    have updates := updateCoins_updates updated
    obtain ⟨last, each⟩ := ih others (grounded.update positive updates)
    refine ⟨last, forall_mem_cons.mpr ⟨⟨?_, grounded.restorable updates⟩, each⟩⟩
    have length := congrArg length updates.undo
    rw [spentBy]
    split at length
    next coinbase => simpa [coinbase] using length
    next ordinary => simpa [ordinary] using length

end Run

theorem connectTxs_run {i : Nat}
    {tally final : Tally} (connected : connectTxs ext block pindexPrev i txs tally = .ok final) :
    ∃ entries, entries.map Prod.fst = txs ∧
      final.vtxundo = tally.vtxundo ++ (if i = 0 then entries.tail else entries).map Prod.snd ∧
      Run (pindexPrev.nHeight + 1) tally.view entries final.view := by
  refine connectTxs_induction (motive := fun i txs tally => ∃ entries, entries.map Prod.fst = txs ∧
    final.vtxundo = tally.vtxundo ++ (if i = 0 then entries.tail else entries).map Prod.snd ∧
    Run (pindexPrev.nHeight + 1) tally.view entries final.view) connected ?_ ?_
  · intro i
    exact ⟨[], rfl, by simp, rfl⟩
  · rintro i tx rest tally after step ⟨entries, txs, undo, run⟩
    obtain ⟨vprevout, updated, recorded⟩ := step.updated
    refine ⟨(tx, vprevout) :: entries, by rw [map_cons, txs], ?_, after.view, updated, run⟩
    rw [undo, recorded, if_neg (Nat.succ_ne_zero i)]
    split
    · rfl
    · simp

/-- The block has commitments before the height from which they are looked at. -/
def Premature (params : Params) (block : CBlock) (nHeight : Nat) : Prop :=
  nHeight < params.nLLMQActivationHeight ∧ ∃ tx ∈ block.vtx, tx.nType = TRANSACTION_QUORUM_COMMITMENT

theorem foldlM_addCommitment_eq_nil {qcs found : List CFinalCommitment}
    (folded : txs.foldlM addCommitment qcs = .ok found) (empty : found = []) :
    qcs = [] ∧ ∀ tx ∈ txs, tx.nType ≠ TRANSACTION_QUORUM_COMMITMENT := by
  induction txs generalizing qcs with
  | nil => cases folded; exact ⟨empty, by simp⟩
  | cons tx rest ih =>
    obtain ⟨after, first, tail⟩ := bind_eq_ok.mp folded
    obtain ⟨nothing, others⟩ := ih tail
    unfold addCommitment at first
    split at first
    next type =>
      -- A commitment is added to the list, which only grows.
      split at first
      · cases first
      · split at first
        · cases first
        · cases first; simp at nothing
    next type =>
      cases first
      exact ⟨nothing, forall_mem_cons.mpr ⟨type, others⟩⟩

theorem undoSpecialTxsInBlock_iff (special : SpecialOk params ext g block pindexPrev) :
    undoSpecialTxsInBlock params block (pindexPrev.nHeight + 1) = true ↔
      ¬ Premature params block (pindexPrev.nHeight + 1) := by
  have known : block.vtx.all undoSpecialTx = true := all_eq_true.mpr fun tx member => (special.each tx member).2
  simp only [undoSpecialTxsInBlock, known, Bool.true_and, okAnd_iff, and_true]
  by_cases low : pindexPrev.nHeight + 1 < params.nLLMQActivationHeight
  · constructor
    · rintro ⟨qcs, found⟩ ⟨-, tx, member, type⟩
      have folded := getCommitmentsFromBlock_ok found
      by_cases empty : qcs = []
      · exact (foldlM_addCommitment_eq_nil folded empty).2 tx member type
      · obtain ⟨all, same, rest⟩ := bind_eq_ok.mp found
        rw [folded] at same
        cases same
        rw [if_pos ⟨low, empty⟩] at rest
        cases rest
    · intro none
      have plain : ∀ tx ∈ block.vtx, addCommitment [] tx = .ok [] := fun tx member =>
        if_neg fun type => none ⟨low, tx, member, type⟩
      have folded : block.vtx.foldlM addCommitment [] = .ok [] := Folds.foldlM_fixed plain
      exact ⟨[], bind_eq_ok.mpr ⟨[], folded, by simp⟩⟩
  · constructor
    · rintro - ⟨early, -⟩
      exact low early
    · intro _
      exact special.commitments (Nat.not_lt.mp low)

/-! ### Disconnecting a connected block -/

def blockUndo (c : Connection) : List (List TxInUndo) := c.vtxundo.map fun vprevout => vprevout.map serialize

theorem unserialize_blockUndo (c : Connection) :
    (blockUndo c).map (fun records => some (records.map unserialize)) = c.vtxundo.map some := by
  simp [blockUndo, Function.comp_def, unserialize_serialize]

section
variable {params : Params} {ext : Externals} {g : Globals} {block : CBlock} {pindexPrev : CBlockIndex}
  {fields : IndexFields} {view : CCoinsView} {c : Connection}

theorem chain_grounded {p : CBlockIndex} {links : List Link} (chain : IsChain params p view links) : Grounded view := by
  induction chain with
  | genesis fields hash supply => intro o coin found; cases found
  | connect chain tip coins connected ih =>
    obtain ⟨stake, tally, -, -, connects, rfl⟩ := connectBlock_ok connected
    obtain ⟨entries, -, -, run⟩ := connectTxs_run connects.txs
    exact (run.records (Nat.succ_pos _) ih).1

section
variable (connected : connectBlock params ext g block pindexPrev fields view false = .ok c)
include connected

theorem connectBlock_facts : c.fields.phashBlock = block.hash ∧ pindexPrev.getBlockHash = view.hashBlock ∧
      SpecialOk params ext g block pindexPrev := by
  obtain ⟨stake, tally, named, staged, connects, rfl⟩ := connectBlock_ok connected
  have special := processSpecialTxsInBlock_ok (then_eq_ok.mp (then_eq_ok.mp connects.after).2).2
  refine ⟨?_, (beforeTxs_checks connects.before).1, special.each, special.commitments⟩
  unfold stakeStage at staged
  split at staged
  · split at staged
    · cases staged
    · split at staged <;> cases staged <;> exact named
  · cases staged; exact named

variable (grounded : Grounded view)
include grounded

theorem reverts_connected : let journal := blockJournal (pindexPrev.nHeight + 1) view block.vtx
    c.vtxundo.length + 1 = block.vtx.length ∧ Fits view.coins journal ∧ c.view.coins = applyAll view.coins journal ∧
      Reverts journal (disconnectTxs (pindexPrev.nHeight + 1) (block.vtx.zip (none :: c.vtxundo.map some))) := by
  obtain ⟨stake, tally, -, -, connects, rfl⟩ := connectBlock_ok connected
  obtain ⟨coinbase, rest, ok⟩ := beforeTxs_checkBlock connects.before
  obtain ⟨entries, txs, undo, run⟩ := connectTxs_run connects.txs
  obtain ⟨-, records⟩ := run.records (Nat.succ_pos _) grounded
  have journal := run.journal
  have fits := run.fits
  rw [← journal, txs] at fits
  rw [txs] at journal
  cases entries with
  | nil => rw [ok.vtx] at txs; cases txs
  | cons first others =>
    rw [ok.vtx, map_cons] at txs
    obtain ⟨rfl, rfl⟩ := cons.inj txs
    simp only [↓reduceIte, tail_cons, nil_append] at undo
    -- The coinbase spends nothing, and has no record.
    obtain ⟨⟨spent, -⟩, rest⟩ := forall_mem_cons.mp records
    have nothing : first.2 = [] := by
      rw [spentBy, if_pos ok.isCoinBase] at spent
      exact length_eq_zero_iff.mp spent
    have pairs : block.vtx.zip (none :: tally.vtxundo.map some) =
        (first.1, none) :: others.map fun entry => (entry.1, some entry.2) := by
      rw [ok.vtx, undo, zip_cons_cons, map_map, ← zip_map']
      rfl
    refine ⟨by simp [ok.vtx, undo], fits.1, fits.2, ?_⟩
    rw [pairs, journal]
    have each : ∀ entry ∈ (first.1, none) :: others.map (fun entry => (entry.1, some entry.2)),
        RecordFits entry.1 entry.2 := by
      refine forall_mem_cons.mpr ⟨trivial, fun entry member => ?_⟩
      obtain ⟨record, inside, rfl⟩ := mem_map.mp member
      obtain ⟨length, restorable⟩ := rest record inside
      have ordinary := ok.others record.1 (mem_map_of_mem inside)
      rw [spentBy, if_neg (by simp [ordinary]), length_map] at length
      exact ⟨length, restorable⟩
    have reverts := reverts_disconnectTxs (pindexPrev.nHeight + 1) each
    simpa [flatMap_map, nothing] using reverts

theorem disconnectTxs_restores_iff :
    (∃ after, disconnectTxs (pindexPrev.nHeight + 1) (block.vtx.zip (none :: c.vtxundo.map some)) c.view =
      DISCONNECT_OK after ∧ after.coins = view.coins) ↔ ¬ BlockOverwrites ⟨block, pindexPrev, view⟩ := by
  obtain ⟨-, fits, coins, reverts⟩ := reverts_connected connected grounded
  rw [reverts c.view view.coins, coins]
  exact revertAll_applyAll_iff fits

theorem disconnectBlock_restores (keeps : ¬ BlockOverwrites ⟨block, pindexPrev, view⟩) {g' : Globals}
    {fields' : IndexFields}
    (done : disconnectBlock params g' block pindexPrev fields' (some (blockUndo c)) c.view = DISCONNECT_OK after) :
    after = view := by
  obtain ⟨-, best, -⟩ := connectBlock_facts connected
  obtain ⟨restored, undone, coins⟩ := (disconnectTxs_restores_iff connected grounded).mpr keeps
  unfold disconnectBlock at done
  cases verified : verifyBestBlock g' fields'.phashBlock with
  | error failure => rw [verified] at done; cases done
  | ok fHasBestBlock =>
    cases fHasBestBlock with
    | false => rw [verified] at done; cases done
    | true =>
      simp only [verified, unserialize_blockUndo, undone, DisconnectResult.andThen] at done
      split at done
      · cases done
      split at done
      · cases done
      · cases done
        exact CCoinsView.mk.injEq .. ▸ ⟨coins, best⟩

end

/-- `DisconnectBlock` with the undo data that `ConnectBlock` wrote ends with `DISCONNECT_OK` and the view before the
    block exactly when no output of the block replaced an unspent one and the block has no premature commitment. -/
theorem disconnectBlock_connectBlock_iff
    (connected : connectBlock params ext g block pindexPrev fields view false = .ok c) (grounded : Grounded view) :
    disconnectBlock params { g with hashBestSpecial := some block.hash } block pindexPrev c.fields (some (blockUndo c))
        c.view = DISCONNECT_OK view ↔
      ¬ BlockOverwrites ⟨block, pindexPrev, view⟩ ∧ ¬ Premature params block (pindexPrev.nHeight + 1) := by
  obtain ⟨length, -⟩ := reverts_connected connected grounded
  obtain ⟨hash, best, special⟩ := connectBlock_facts connected
  -- The parent is the best block of the view before, so the coins decide.
  have restored : ∀ result,
      (result.andThen fun after => DISCONNECT_OK (after.setBestBlock pindexPrev.getBlockHash)) = DISCONNECT_OK view ↔
        ∃ after, result = DISCONNECT_OK after ∧ after.coins = view.coins := by
    intro result
    rw [andThen_eq_ok]
    refine exists_congr fun after => and_congr_right fun _ => ?_
    rw [DISCONNECT_OK.injEq, CCoinsView.mk.injEq]
    exact and_iff_left best
  have verified : verifyBestBlock { g with hashBestSpecial := some block.hash } c.fields.phashBlock = .ok true :=
    if_pos hash.symm
  have lengths : (blockUndo c).length + 1 = block.vtx.length := by rw [blockUndo, length_map, length]
  rw [← disconnectTxs_restores_iff connected grounded, ← undoSpecialTxsInBlock_iff special]
  unfold disconnectBlock
  simp only [verified, lengths, unserialize_blockUndo, ne_eq, not_true_eq_false, ↓reduceIte]
  cases undone : undoSpecialTxsInBlock params block (pindexPrev.nHeight + 1) with
  | false => simp
  | true => simp [restored]

end

/-- The first stake block of the idle chain goes and comes. -/
theorem disconnectBlock_connectBlock_idle : ∃ view c, (idle.blockAt 1501).isProofOfStake = true ∧
      connectBlock mainParams (permissive (60 * 1501)) (idle.globalsAt 1500 view) (idle.blockAt 1501)
        (idle.indexAt 1500) (idle.acceptedAt 1501) view false = .ok c ∧
      disconnectBlock mainParams { idle.globalsAt 1500 view with hashBestSpecial := some (idle.blockAt 1501).hash }
        (idle.blockAt 1501) (idle.indexAt 1500) c.fields (some (blockUndo c)) c.view = DISCONNECT_OK view := by
  obtain ⟨view, links, chain, ready, -, each⟩ := idle.exists_chain 1500
  obtain ⟨c, connected, -⟩ := idle.connectBlock_blockAt ready false
  have longer := IsChain.connect chain rfl rfl connected
  have known : ∀ link ∈ ⟨idle.blockAt 1501, idle.indexAt 1500, view⟩ :: links,
      ∃ k, link.block = idle.blockAt (k + 1) ∧ link.pindexPrev = idle.indexAt k := by
    refine forall_mem_cons.mpr ⟨⟨1500, rfl, rfl⟩, fun link member => ?_⟩
    obtain ⟨k, block, prev, -⟩ := each link member
    exact ⟨k, block, prev⟩
  have keeps := (chain_distinct_plan idle longer known).1
  have late : ¬ Premature mainParams (idle.blockAt 1501) ((idle.indexAt 1500).nHeight + 1) := by
    rintro ⟨early, -⟩
    rw [Plan.nHeight_indexAt] at early
    exact absurd early (by decide)
  exact ⟨view, c, idle.isProofOfStake_blockAt 1501, connected,
    (disconnectBlock_connectBlock_iff connected (chain_grounded chain)).mpr ⟨keeps _ (.head _), late⟩⟩

def disconnectPlain (n : Nat) (tip : CBlockIndex) (view : CCoinsView) (c : Connection) : DisconnectResult :=
  disconnectBlock regtestParams { plainGlobals tip view with hashBestSpecial := some (plainBlock n).hash } (plainBlock n)
    tip c.fields (some (blockUndo c)) c.view

/-- The second of two blocks with one coinbase is disconnected with `DISCONNECT_OK`, and the coin of the first is
    gone. -/
theorem disconnectBlock_loses_coin : ∃ p view links g block fields c after o, IsChain regtestParams p view links ∧
      connectBlock regtestParams (permissive 0) g block p fields view false = .ok c ∧
      disconnectBlock regtestParams { g with hashBestSpecial := some block.hash } block p c.fields (some (blockUndo c))
        c.view = DISCONNECT_OK after ∧ view.coins o ≠ none ∧ after.coins o = none := by
  obtain ⟨first, connected, rest⟩ := (okAnd_iff (connectPlain 1 plainGenesis (empty 1)) fun first =>
      okAnd (connectPlain 2 (.next plainGenesis first.fields) first.view) fun second =>
        (disconnectPlain 2 (.next plainGenesis first.fields) first.view second).okAnd fun after => decide
          (first.view.coins (plainCoinbase.outpoint 0) ≠ none ∧ after.coins (plainCoinbase.outpoint 0) = none)).mp
    (by decide +kernel)
  obtain ⟨second, connectedAgain, rest⟩ := (okAnd_iff _ _).mp rest
  obtain ⟨after, disconnected, lost⟩ := DisconnectResult.okAnd_iff.mp rest
  have chain := IsChain.connect (.genesis { phashBlock := 1 } rfl rfl) rfl rfl connected
  exact ⟨_, _, _, _, _, _, second, after, plainCoinbase.outpoint 0, chain, connectedAgain, disconnected,
    of_decide_eq_true lost⟩

end Cspn.Disconnect
