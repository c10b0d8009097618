import Cspn.Folds
import Cspn.Index

/-!
The two databases of the chain state and what a crash leaves of them. `FlushStateToDisk` first writes the coins, in
several batches that a pair of head blocks brackets, and then the special transactions, in one. After a crash in
between `ReplayBlocks` completes the coins only. The two agree after every restart exactly if no flush that moves the
best block is cut in its middle.
-/
namespace Cspn.CrashReplay
open Index Index.CBlockIndex List Folds
set_option linter.unusedSectionVars false

/-- How a step fails: an assertion, `AbortNode`, or an error that keeps the node from starting. -/
inductive Failure where
  | assertion
  | abortNode
  | error

/-! ### The databases -/

/-- Pending changes, the latest first: a value written, or nothing for an entry erased. -/
abbrev Changes (K V : Type) := List (K × Option V)

def Changes.read {K V : Type} [DecidableEq K] (changes : Changes K V) (below : K → Option V) (key : K) : Option V :=
  match changes.find? fun change => decide (change.1 = key) with
  | some change => change.2
  | none => below key

def Changes.latest {K V : Type} [DecidableEq K] : Changes K V → Changes K V
  | [] => []
  | change :: earlier => change :: (latest earlier).filter fun other => decide (other.1 ≠ change.1)

/-- The coins database: `DB_BEST_BLOCK`, `DB_HEAD_BLOCKS` and the coins. A null hash is `none`. -/
structure CoinsDb (O C : Type) where
  bestBlock : Option CBlockIndex
  headBlocks : List (Option CBlockIndex)
  coins : O → Option C

inductive CoinsOp (O C : Type) where
  | eraseBestBlock
  | writeHeadBlocks (heads : List (Option CBlockIndex))
  | coin (outpoint : O) (coin : Option C)
  | eraseHeadBlocks
  | writeBestBlock (hashBlock : CBlockIndex)

/-- What `CSpecialDB` has on disk: the entry `b_b`, and everything else. -/
structure SpecialDb (K V : Type) where
  bestBlock : Option CBlockIndex
  records : K → Option V

structure Layer (K V : Type) where
  bestBlock : Option CBlockIndex
  records : Changes K V

namespace Layer
variable {K V : Type}

def clean : Layer K V := ⟨none, []⟩

def isClean (layer : Layer K V) : Bool := layer.bestBlock.isNone && layer.records.isEmpty

def commit (layer below : Layer K V) : Layer K V :=
  ⟨layer.bestBlock <|> below.bestBlock, layer.records ++ below.records⟩

end Layer

/-- What the blocks do, and how large a batch of the coins database grows before it is written. -/
structure Effects (O C K V : Type) where
  connectCoins : CBlockIndex → (O → Option C) → Changes O C
  disconnectCoins : CBlockIndex → (O → Option C) → Changes O C
  rollforwardCoins : CBlockIndex → (O → Option C) → Changes O C
  processSpecialTxs : CBlockIndex → (K → Option V) → Changes K V
  undoSpecialTxs : CBlockIndex → (K → Option V) → Changes K V
  /-- The block and its undo data can be read and fit the state. -/
  canDisconnect : CBlockIndex → Bool
  sizeEstimate : List (CoinsOp O C) → Nat
  nDbBatchSize : Nat

structure Disk (O C K V : Type) where
  coins : CoinsDb O C
  special : SpecialDb K V

/-- A running node: disk, coins cache `pcoinsTip`, and the two transactions of the special database. -/
structure Node (O C K V : Type) where
  disk : Disk O C K V
  hashBlock : Option CBlockIndex
  cacheCoins : Changes O C
  rootDBTransaction : Layer K V
  curDBTransaction : Layer K V

variable {O C K V : Type} [DecidableEq O] [DecidableEq K]

namespace CoinsDb

variable (db : CoinsDb O C)

def apply : CoinsOp O C → CoinsDb O C
  | .eraseBestBlock => { db with bestBlock := none }
  | .writeHeadBlocks heads => { db with headBlocks := heads }
  | .coin outpoint coin => { db with coins := fun key => if key = outpoint then coin else db.coins key }
  | .eraseHeadBlocks => { db with headBlocks := [] }
  | .writeBestBlock hashBlock => { db with bestBlock := some hashBlock }

def writeBatch (batch : List (CoinsOp O C)) : CoinsDb O C := batch.foldl apply db

def writeBatches (batches : List (List (CoinsOp O C))) : CoinsDb O C :=
  batches.foldl writeBatch db

def oldTip (hashBlock : CBlockIndex) : Except Failure (Option CBlockIndex) :=
  match db.bestBlock with
  | some best => .ok (some best)
  | none =>
    match db.headBlocks with
    | [new, old] => if new = some hashBlock then .ok old else .error .assertion
    | _ => .ok none

end CoinsDb

open CoinsDb

/-- The loop of `BatchWrite` over the changed coins; `batch` is what the current batch holds. -/
def fillBatches (effects : Effects O C K V) (hashBlock : CBlockIndex) :
    Changes O C → List (CoinsOp O C) → List (List (CoinsOp O C))
  | [], batch => [batch ++ [.eraseHeadBlocks, .writeBestBlock hashBlock]]
  | (outpoint, coin) :: rest, batch =>
    let batch := batch ++ [.coin outpoint coin]
    if effects.sizeEstimate batch > effects.nDbBatchSize then batch :: fillBatches effects hashBlock rest []
    else fillBatches effects hashBlock rest batch

def batchWrite (effects : Effects O C K V) (db : CoinsDb O C) (mapCoins : Changes O C) (hashBlock : CBlockIndex) :
    Except Failure (List (List (CoinsOp O C))) := do
  let oldTip ← db.oldTip hashBlock
  return fillBatches effects hashBlock mapCoins.latest [.eraseBestBlock, .writeHeadBlocks [some hashBlock, oldTip]]

/-! ### Moving the tip -/

namespace Node

section
variable (node : Node O C K V)

def getBestBlock : Option CBlockIndex := node.hashBlock <|> node.disk.coins.bestBlock

def coins : O → Option C := node.cacheCoins.read node.disk.coins.coins

def readBestBlock : Option CBlockIndex :=
  node.curDBTransaction.bestBlock <|> node.rootDBTransaction.bestBlock <|> node.disk.special.bestBlock

def records : K → Option V :=
  node.curDBTransaction.records.read (node.rootDBTransaction.records.read node.disk.special.records)

/-- `VerifyBestBlock`: whether there is an entry, which must then be the given block. -/
def verifyBestBlock (hash : CBlockIndex) : Except Failure Bool :=
  match node.readBestBlock with
  | none => .ok false
  | some best => if best = hash then .ok true else .error .assertion

def commitTransaction : Node O C K V :=
  { node with
    rootDBTransaction := node.curDBTransaction.commit node.rootDBTransaction
    curDBTransaction := .clean }

def moved (hashBlock : CBlockIndex) (coins : Changes O C) (records : Changes K V) : Node O C K V :=
  { node with
    hashBlock := some hashBlock
    cacheCoins := coins ++ node.cacheCoins
    curDBTransaction := ⟨some hashBlock, records ++ node.curDBTransaction.records⟩ }

end

section
variable (effects : Effects O C K V) (node : Node O C K V)

/-- `ConnectTip` for a block that is valid; one that is not leaves no trace. The genesis block is not processed. -/
def connectTip (pindex : CBlockIndex) : Except Failure (Node O C K V) :=
  if !node.curDBTransaction.isClean then .error .assertion
  else if pindex.pprev ≠ node.getBestBlock then .error .assertion
  else
    match pindex.pprev with
    | none => .ok { node with hashBlock := some pindex }.commitTransaction
    | some pprev => do
      let fHasBestBlock ← node.verifyBestBlock pprev
      if pindex.nHeight > 1 && !fHasBestBlock then .error .abortNode
      else
        .ok (node.moved pindex (effects.connectCoins pindex node.coins)
          (effects.processSpecialTxs pindex node.records)).commitTransaction

def disconnectBlock (pindex : CBlockIndex) : Except Failure (Node O C K V) := do
  let fHasBestBlock ← node.verifyBestBlock pindex
  if !fHasBestBlock then .error .abortNode
  else if !effects.canDisconnect pindex then .error .error
  else
    match pindex.pprev with
    | none => .error .error
    | some pprev =>
      .ok (node.moved pprev (effects.disconnectCoins pindex node.coins) (effects.undoSpecialTxs pindex node.records))

def disconnectTip : Except Failure (Node O C K V) :=
  if !node.curDBTransaction.isClean then .error .assertion
  else
    match node.getBestBlock with
    | none => .error .assertion
    | some pindexDelete => (node.disconnectBlock effects pindexDelete).map commitTransaction

end

inductive Commit (O C : Type) where
  | coins (batch : List (CoinsOp O C))
  | special

variable (effects : Effects O C K V) (node : Node O C K V) (disk : Disk O C K V)

/-- The commits of a full flush in their order. Blocks and the block index are written before. -/
def flushCommits : Except Failure (List (Commit O C)) :=
  match node.getBestBlock with
  | none => .ok []
  | some hashBlock => do
    let batches ← batchWrite effects node.disk.coins node.cacheCoins hashBlock
    return batches.map .coins ++ [.special]

/-- The disk after a commit; the root transaction is written as one batch. -/
def commitToDisk : Commit O C → Disk O C K V
  | .coins batch => { disk with coins := disk.coins.writeBatch batch }
  | .special =>
    { disk with
      special :=
        ⟨node.rootDBTransaction.bestBlock <|> disk.special.bestBlock,
          node.rootDBTransaction.records.read disk.special.records⟩ }

/-- The disk when the process stops after some of the commits of a flush. -/
def diskAfter (commits : List (Commit O C)) : Disk O C K V :=
  commits.foldl node.commitToDisk node.disk

/-- A full `FlushStateToDisk`. `CommitRootTransaction` asserts that no transaction is open. -/
def flushStateToDisk : Except Failure (Node O C K V) := do
  let commits ← node.flushCommits effects
  if commits.isEmpty then .ok node
  else if !node.curDBTransaction.isClean then .error .assertion
  else .ok { node with disk := node.diskAfter commits, cacheCoins := [], rootDBTransaction := .clean }

def boot : Node O C K V := ⟨disk, none, [], .clean, .clean⟩

/-- The rollback along the old branch, which goes through `DisconnectBlock` without a transaction. -/
def rollback (effects : Effects O C K V) (pindexFork : CBlockIndex) :
    CBlockIndex → Node O C K V → Except Failure (Node O C K V)
  | .genesis f, node => if .genesis f = pindexFork then .ok node else .error .error
  | .next p f, node =>
    if .next p f = pindexFork then .ok node
    else do
      let node ← node.disconnectBlock effects (.next p f)
      rollback effects pindexFork p node

def lastCommonAncestor (pa pb : CBlockIndex) : Option CBlockIndex := pa.path.find? fun p => decide (p ∈ pb.path)

/-- The rollback to the fork, with its height. There is no old tip in the first flush. -/
def rollbackTo (pindexNew : CBlockIndex) (node : Node O C K V) :
    Option CBlockIndex → Except Failure (Node O C K V × Nat)
  | none => .ok (node, 0)
  | some pindexOld =>
    match lastCommonAncestor pindexOld pindexNew with
    | none => .error .assertion
    | some pindexFork => do
      let node ← rollback effects pindexFork pindexOld node
      return (node, pindexFork.nHeight)

def rollforwardBlock (pindex : CBlockIndex) : Node O C K V :=
  { node with cacheCoins := effects.rollforwardCoins pindex node.coins ++ node.cacheCoins }

/-- `ReplayBlocks`: the batches it commits to the coins database, and the transaction it leaves open. -/
def replayBlocks : Except Failure (List (List (CoinsOp O C)) × Layer K V) :=
  match disk.coins.headBlocks with
  | [] => .ok ([], .clean)
  | [some pindexNew, old] => do
    let (node, nForkHeight) ← rollbackTo effects pindexNew (boot disk) old
    let forward := pindexNew.path.reverse.filter fun p => decide (nForkHeight < p.nHeight)
    let node := forward.foldl (rollforwardBlock effects) node
    let batches ← batchWrite effects disk.coins node.cacheCoins pindexNew
    return (batches, node.curDBTransaction)
  | _ => .error .error

/-- The starts after a stop. All but the last stop again after some of the commits of `ReplayBlocks`. -/
def restart (effects : Effects O C K V) : List Nat → Disk O C K V → Except Failure (Node O C K V)
  | [], disk => do
    let (batches, cur) ← replayBlocks effects disk
    return { boot { disk with coins := disk.coins.writeBatches batches } with curDBTransaction := cur }
  | commits :: rest, disk => do
    let (batches, _) ← replayBlocks effects disk
    restart effects rest { disk with coins := disk.coins.writeBatches (batches.take commits) }

end Node

/-- What happens to a node. A stop comes after some of the commits of a flush, or none, and is followed by starts of
which all but the last are cut. -/
inductive Event where
  | connectTip (pindex : CBlockIndex)
  | disconnectTip
  | flushStateToDisk
  | stop (commits : Nat) (starts : List Nat)

open Node

def step (effects : Effects O C K V) (node : Node O C K V) : Event → Except Failure (Node O C K V)
  | .connectTip pindex => node.connectTip effects pindex
  | .disconnectTip => node.disconnectTip effects
  | .flushStateToDisk => node.flushStateToDisk effects
  | .stop commits starts => do
    let all ← node.flushCommits effects
    restart effects starts (node.diskAfter (all.take commits))

def run (effects : Effects O C K V) (events : List Event) : Except Failure (Node O C K V) :=
  events.foldlM (step effects) (.boot ⟨⟨none, [], fun _ => none⟩, ⟨none, fun _ => none⟩⟩)

/-- The block that the special database has recorded is the best block of the coins. It records none for
the genesis block, which `VerifyBestBlock` lets pass. -/
def Agree (recorded best : Option CBlockIndex) : Prop :=
  recorded = best ∨ recorded = none ∧ ∀ p ∈ best, p.nHeight = 0

def Disk.Agree (disk : Disk O C K V) : Prop := CrashReplay.Agree disk.special.bestBlock disk.coins.bestBlock

/-- A stop does no harm before the first commit of a flush, after the last, or if the flush leaves the best block
where the special database has it on disk. -/
def Harmless (effects : Effects O C K V) (node : Node O C K V) (commits : Nat) : Prop :=
  commits = 0 ∨ (∀ all, node.flushCommits effects = .ok all → all.length ≤ commits) ∨
    Agree node.disk.special.bestBlock node.getBestBlock

variable {hashBlock new pindex : CBlockIndex} {old recorded : Option CBlockIndex} {starts : List Nat} {event : Event}

section Batches
variable {effects : Effects O C K V} {db : CoinsDb O C}

def CoinsDb.marks (db : CoinsDb O C) : Option CBlockIndex × List (Option CBlockIndex) := (db.bestBlock, db.headBlocks)

theorem marks_writeBatch_coin (db : CoinsDb O C) (batch : List (CoinsOp O C)) (outpoint : O) (coin : Option C) :
    (db.writeBatch (batch ++ [.coin outpoint coin])).marks = (db.writeBatch batch).marks := by
  simp [writeBatch, apply, marks]

section
variable (entries : Changes O C) (batch : List (CoinsOp O C))
include entries batch

theorem marks_fillBatches_cut (db : CoinsDb O C) (n : Nat)
    (cut : n + 1 < (fillBatches effects hashBlock entries batch).length) :
    (db.writeBatches ((fillBatches effects hashBlock entries batch).take (n + 1))).marks =
      (db.writeBatch batch).marks := by
  induction entries generalizing batch db n with
  | nil => simp [fillBatches] at cut
  | cons entry rest ih =>
    rw [fillBatches] at cut ⊢
    split at cut
    next full =>
      rw [if_pos full, take_succ_cons]
      cases n with
      | zero => simp [writeBatches, marks_writeBatch_coin]
      | succ n =>
        have := ih [] (db.writeBatch (batch ++ [.coin entry.1 entry.2])) n (by simpa using cut)
        simp only [writeBatches, foldl_cons] at this ⊢
        rw [this]
        exact marks_writeBatch_coin db batch entry.1 entry.2
    next full =>
      rw [if_neg full]
      exact (ih _ db n cut).trans (marks_writeBatch_coin db batch entry.1 entry.2)

theorem marks_fillBatches_done (db : CoinsDb O C) :
    (db.writeBatches (fillBatches effects hashBlock entries batch)).marks = (some hashBlock, []) := by
  induction entries generalizing batch db with
  | nil => simp [fillBatches, writeBatches, writeBatch, apply, marks]
  | cons entry rest ih =>
    rw [fillBatches]
    split
    next => exact ih [] _
    next => exact ih _ db

end

structure Bracketed (db : CoinsDb O C) (hashBlock : CBlockIndex) (old : Option CBlockIndex)
    (batches : List (List (CoinsOp O C))) : Prop where
  cut : ∀ n, 0 < n → n < batches.length → (db.writeBatches (batches.take n)).marks = (none, [some hashBlock, old])
  done : (db.writeBatches batches).marks = (some hashBlock, [])

theorem batchWrite_spec {mapCoins : Changes O C} {batches : List (List (CoinsOp O C))}
    (ok : batchWrite effects db mapCoins hashBlock = .ok batches) :
    ∃ old, db.oldTip hashBlock = .ok old ∧ Bracketed db hashBlock old batches := by
  obtain ⟨old, tip, ok⟩ := bind_eq_ok.mp ok
  cases ok
  refine ⟨old, tip, fun n positive less => ?_, marks_fillBatches_done _ _ db⟩
  obtain ⟨n, rfl⟩ := Nat.exists_eq_succ_of_ne_zero (Nat.ne_of_gt positive)
  rw [marks_fillBatches_cut _ _ db n less]
  simp [writeBatch, apply, marks]

end Batches

section Start
variable {effects : Effects O C K V} {node after : Node O C K V} {disk : Disk O C K V}

/-- The coins are complete, or the flush to `new` is under way; the special database has not followed. -/
structure Recovering (new : CBlockIndex) (old recorded : Option CBlockIndex) (disk : Disk O C K V) : Prop where
  special : disk.special.bestBlock = recorded
  coins : disk.coins.marks = (none, [some new, old]) ∨ disk.coins.marks = (some new, [])

theorem rollbackTo_unmoved {height : Nat} (unmoved : ∀ p ∈ old, p = new ∨ p.nHeight = 0)
    (ok : rollbackTo effects new node old = .ok (after, height)) : after = node := by
  cases old with
  | none => cases ok; rfl
  | some old =>
    have atFork : lastCommonAncestor old new = none ∨ lastCommonAncestor old new = some old := by
      rcases unmoved old rfl with rfl | ground
      · right
        cases old <;> simp [lastCommonAncestor, path]
      · cases old with
        | next p f => simp at ground
        | genesis f =>
          by_cases below : genesis f ∈ new.path
          · exact .inr (by simp [lastCommonAncestor, path, below])
          · exact .inl (by simp [lastCommonAncestor, path, below])
    have stays : rollback effects old old node = .ok node := by
      cases old <;> simp [rollback]
    rw [rollbackTo] at ok
    rcases atFork with apart | same
    · rw [apart] at ok
      cases ok
    · rw [same] at ok
      dsimp only at ok
      rw [stays] at ok
      cases ok
      rfl

theorem curDBTransaction_rollforward (blocks : List CBlockIndex) (node : Node O C K V) :
    (blocks.foldl (rollforwardBlock effects) node).curDBTransaction = node.curDBTransaction := by
  induction blocks generalizing node with
  | nil => rfl
  | cons p rest ih => exact ih _

theorem replayBlocks_complete (complete : disk.coins.headBlocks = []) :
    replayBlocks effects disk = .ok ([], .clean) := by
  rw [replayBlocks, complete]

/-- However often a replay is cut, the coins stay on the way to the new tip; a complete one brings them there. -/
theorem replayBlocks_spec {batches : List (List (CoinsOp O C))} {cur : Layer K V}
    (recovering : Recovering new old recorded disk) (ok : replayBlocks effects disk = .ok (batches, cur)) :
    (∀ n, Recovering new old recorded { disk with coins := disk.coins.writeBatches (batches.take n) }) ∧
      (disk.coins.writeBatches batches).marks = (some new, []) ∧
      ((∀ p ∈ old, p = new ∨ p.nHeight = 0) → cur = .clean) := by
  rcases recovering.coins with under | complete
  · obtain ⟨best, heads⟩ := Prod.mk.inj under
    rw [replayBlocks, heads] at ok
    obtain ⟨⟨rolled, height⟩, rollback, ok⟩ := bind_eq_ok.mp ok
    obtain ⟨all, written, ok⟩ := bind_eq_ok.mp ok
    cases ok
    obtain ⟨tip, isOld, bracketed⟩ := batchWrite_spec written
    have same : tip = old := by
      rw [oldTip, best, heads] at isOld
      simpa [@eq_comm _ old] using isOld
    subst same
    refine ⟨fun n => ⟨recovering.special, ?_⟩, bracketed.done, fun unmoved => ?_⟩
    · rcases Nat.eq_zero_or_pos n with rfl | positive
      · exact .inl under
      · rcases Nat.lt_or_ge n batches.length with cut | all
        · exact .inl (bracketed.cut n positive cut)
        · rw [take_of_length_le all]
          exact .inr bracketed.done
    · rw [curDBTransaction_rollforward, rollbackTo_unmoved unmoved rollback]
      rfl
  · obtain ⟨best, heads⟩ := Prod.mk.inj complete
    rw [replayBlocks_complete heads] at ok
    cases ok
    exact ⟨fun n => by simpa [writeBatches] using recovering, complete, fun _ => rfl⟩

theorem restart_complete (complete : disk.coins.headBlocks = []) (starts : List Nat) :
    restart effects starts disk = .ok (.boot disk) := by
  induction starts with
  | nil => rw [restart, replayBlocks_complete complete]; rfl
  | cons commits rest ih =>
    rw [restart, replayBlocks_complete complete]
    simpa [bind, Except.bind, writeBatches] using ih

theorem restart_recovering (recovering : Recovering new old recorded disk)
    (ok : restart effects starts disk = .ok after) :
    after.disk.special.bestBlock = recorded ∧ after.disk.coins.marks = (some new, []) ∧ after.hashBlock = none ∧
      after.rootDBTransaction = .clean ∧
      ((∀ p ∈ old, p = new ∨ p.nHeight = 0) → after.curDBTransaction = .clean) := by
  induction starts generalizing disk with
  | nil =>
    obtain ⟨⟨batches, cur⟩, replayed, ok⟩ := bind_eq_ok.mp ok
    obtain ⟨-, done, clean⟩ := replayBlocks_spec recovering replayed
    cases ok
    exact ⟨recovering.special, done, rfl, rfl, clean⟩
  | cons commits rest ih =>
    obtain ⟨⟨batches, cur⟩, replayed, ok⟩ := bind_eq_ok.mp ok
    exact ih ((replayBlocks_spec recovering replayed).1 commits) ok

end Start

/-! ### What every event does -/

structure Steady (node : Node O C K V) : Prop where
  agree : node.disk.Agree
  complete : node.disk.coins.headBlocks = []
  current : Agree node.readBestBlock node.getBestBlock
  clean : node.curDBTransaction = .clean

section Events
variable {effects : Effects O C K V} {node after : Node O C K V}

theorem Steady.moved (steady : Steady node) (hashBlock : CBlockIndex) (coins : Changes O C) (records : Changes K V) :
    Steady (node.moved hashBlock coins records).commitTransaction :=
  ⟨steady.agree, steady.complete, .inl rfl, rfl⟩

theorem flushCommits_cases {all : List (Commit O C)} (ok : node.flushCommits effects = .ok all) :
    node.getBestBlock = none ∧ all = [] ∨ ∃ hashBlock batches, node.getBestBlock = some hashBlock ∧
        batchWrite effects node.disk.coins node.cacheCoins hashBlock = .ok batches ∧
        all = batches.map .coins ++ [.special] := by
  rw [flushCommits] at ok
  split at ok
  next isNone => cases ok; exact .inl ⟨isNone, rfl⟩
  next hashBlock isSome =>
    obtain ⟨batches, written, ok⟩ := bind_eq_ok.mp ok
    cases ok
    exact .inr ⟨hashBlock, batches, isSome, written, rfl⟩

theorem diskAfter_coins (node : Node O C K V) (batches : List (List (CoinsOp O C))) :
    node.diskAfter (batches.map .coins) = { node.disk with coins := node.disk.coins.writeBatches batches } := by
  unfold diskAfter writeBatches
  induction batches using reverseRecOn with
  | nil => rfl
  | append_singleton batches batch ih => simp [foldl_append, ih, commitToDisk]

structure FlushCut (node : Node O C K V) (hashBlock : CBlockIndex) (all : List (Commit O C)) : Prop where
  cut : ∀ n, 0 < n → n < all.length →
    Recovering hashBlock node.disk.coins.bestBlock node.disk.special.bestBlock (node.diskAfter (all.take n))
  coins : (node.diskAfter all).coins.marks = (some hashBlock, [])
  special : (node.diskAfter all).special.bestBlock = node.readBestBlock

theorem Agree.unmoved (first : Agree recorded old)
    (second : Agree recorded (some new)) : ∀ p ∈ old, p = new ∨ p.nHeight = 0 := by
  intro p isOld
  rcases first with rfl | ⟨-, ground⟩
  · rcases second with same | ⟨unrecorded, -⟩
    · rw [same] at isOld
      exact .inl (Option.some.inj isOld).symm
    · rw [unrecorded] at isOld
      cases isOld
  · exact .inr (ground p isOld)

section
variable {disk : Disk O C K V} (agree : disk.Agree) (complete : disk.coins.headBlocks = [])
include agree complete

theorem steady_boot : Steady (.boot disk) :=
  ⟨agree, complete, agree, rfl⟩

theorem stop_harmless (ok : restart effects starts disk = .ok after) : after.disk.Agree ∧ Steady after := by
  rw [restart_complete complete] at ok
  cases ok
  exact ⟨agree, steady_boot agree complete⟩

end

variable (steady : Steady node)
include steady

theorem Steady.connectTip (ok : node.connectTip effects pindex = .ok after) : Steady after := by
  rw [Node.connectTip] at ok
  split at ok
  next => cases ok
  next =>
    split at ok
    next => cases ok
    next link =>
      split at ok
      next genesis =>
        cases ok
        have none : node.getBestBlock = none := by simpa [genesis, @eq_comm _ none] using link
        have unrecorded : node.readBestBlock = .none := by simpa [none, Agree] using steady.current
        refine ⟨steady.agree, steady.complete, .inr ⟨?_, fun p isTip => ?_⟩, rfl⟩
        · simpa [readBestBlock, commitTransaction, Layer.commit, steady.clean, Layer.clean] using unrecorded
        · cases isTip
          cases pindex with
          | genesis f => rfl
          | next q f => cases genesis
      next pprev _ =>
        obtain ⟨has, -, ok⟩ := bind_eq_ok.mp ok
        split at ok
        next => cases ok
        next => cases ok; exact steady.moved ..

theorem Steady.disconnectTip (ok : node.disconnectTip effects = .ok after) : Steady after := by
  rw [Node.disconnectTip] at ok
  split at ok
  next => cases ok
  next =>
    split at ok
    next => cases ok
    next pindexDelete _ =>
      obtain ⟨mid, disconnected, rfl⟩ := map_eq_ok.mp ok
      obtain ⟨has, -, disconnected⟩ := bind_eq_ok.mp disconnected
      split at disconnected
      next => cases disconnected
      next =>
        split at disconnected
        next => cases disconnected
        next =>
          split at disconnected
          next => cases disconnected
          next => cases disconnected; exact steady.moved ..

theorem Steady.flushCut {batches : List (List (CoinsOp O C))}
    (written : batchWrite effects node.disk.coins node.cacheCoins hashBlock = .ok batches) :
    FlushCut node hashBlock (batches.map .coins ++ [.special]) := by
  obtain ⟨old, isOld, bracketed⟩ := batchWrite_spec written
  have same : old = node.disk.coins.bestBlock := by
    rw [oldTip, steady.complete] at isOld
    split at isOld
    next best isBest => rw [isBest]; cases isOld; rfl
    next isNone => rw [isNone]; cases isOld; rfl
  subst same
  have whole : node.diskAfter (batches.map .coins ++ [.special]) =
      node.commitToDisk (node.diskAfter (batches.map .coins)) .special := by
    simp [diskAfter, foldl_append]
  constructor
  case cut =>
    intro n positive less
    have within : n ≤ batches.length := by simpa using Nat.lt_succ_iff.mp (by simpa using less)
    rw [take_append_of_le_length (by simpa using within), ← map_take, diskAfter_coins]
    refine ⟨rfl, ?_⟩
    rcases Nat.lt_or_eq_of_le within with cut | rfl
    · exact .inl (bracketed.cut n positive cut)
    · rw [take_length]
      exact .inr bracketed.done
  case coins =>
    rw [whole, diskAfter_coins]
    exact bracketed.done
  case special =>
    rw [whole, diskAfter_coins]
    simp [commitToDisk, readBestBlock, steady.clean, Layer.clean]

theorem Steady.flushStateToDisk (ok : node.flushStateToDisk effects = .ok after) : Steady after := by
  obtain ⟨all, commits, ok⟩ := bind_eq_ok.mp ok
  rcases flushCommits_cases commits with ⟨-, rfl⟩ | ⟨hashBlock, batches, isBest, written, rfl⟩
  · cases ok
    exact steady
  · have cut := steady.flushCut written
    obtain ⟨best, heads⟩ := Prod.mk.inj cut.coins
    rw [if_neg (by simp)] at ok
    split at ok
    next => cases ok
    next =>
      cases ok
      have current := steady.current
      rw [isBest] at current
      have tip : (node.hashBlock <|> some hashBlock) = some hashBlock := by
        have := isBest
        unfold getBestBlock at this
        cases found : node.hashBlock with
        | none => rfl
        | some p => simpa [found] using this
      refine ⟨?_, heads, ?_, steady.clean⟩
      · rw [Disk.Agree, cut.special, best]
        exact current
      · simpa [readBestBlock, getBestBlock, steady.clean, Layer.clean, cut.special, best, tip] using current

/-- The databases agree after a stop exactly if it does no harm, and the node then goes on as before. -/
theorem Steady.stop {commits : Nat} (ok : step effects node (.stop commits starts) = .ok after) :
    (after.disk.Agree ↔ Harmless effects node commits) ∧ (after.disk.Agree → Steady after) := by
  obtain ⟨all, planned, ok⟩ := bind_eq_ok.mp ok
  have last : ∀ other, node.flushCommits effects = .ok other → other = all :=
    fun other same => Except.ok.inj (same.symm.trans planned)
  rcases Nat.eq_zero_or_pos commits with rfl | positive
  · -- nothing was written
    obtain ⟨agree, steady'⟩ := stop_harmless steady.agree steady.complete ok
    exact ⟨⟨fun _ => .inl rfl, fun _ => agree⟩, fun _ => steady'⟩
  rcases Nat.lt_or_ge commits all.length with less | whole
  · -- the coins went ahead
    rcases flushCommits_cases planned with ⟨-, rfl⟩ | ⟨hashBlock, batches, isBest, written, rfl⟩
    · simp at less
    obtain ⟨special, coins, hash, root, clean⟩ :=
      restart_recovering ((steady.flushCut written).cut commits positive less) ok
    obtain ⟨best, heads⟩ := Prod.mk.inj coins
    have agree : after.disk.Agree ↔ Agree node.disk.special.bestBlock (some hashBlock) := by
      rw [Disk.Agree, special, best]
    refine ⟨?_, fun agrees => ?_⟩
    · rw [agree, Harmless, isBest]
      refine ⟨fun agrees => .inr (.inr agrees), ?_⟩
      rintro (zero | complete | agrees)
      · omega
      · have := complete _ planned
        omega
      · exact agrees
    · have cleaned := clean (steady.agree.unmoved (agree.mp agrees))
      refine ⟨agrees, heads, ?_, cleaned⟩
      simpa [readBestBlock, getBestBlock, cleaned, root, hash, Layer.clean, Disk.Agree] using agrees
  · -- the flush was complete
    rw [take_of_length_le whole] at ok
    have harmless : Harmless effects node commits := .inr (.inl fun other same => last other same ▸ whole)
    rcases flushCommits_cases planned with ⟨-, rfl⟩ | ⟨hashBlock, batches, isBest, written, rfl⟩
    · obtain ⟨agree, steady'⟩ := stop_harmless steady.agree steady.complete ok
      exact ⟨⟨fun _ => harmless, fun _ => agree⟩, fun _ => steady'⟩
    · have cut := steady.flushCut written
      obtain ⟨best, heads⟩ := Prod.mk.inj cut.coins
      have agree : (node.diskAfter (batches.map .coins ++ [.special])).Agree := by
        rw [Disk.Agree, cut.special, best, ← isBest]
        exact steady.current
      obtain ⟨agree, steady'⟩ := stop_harmless agree heads ok
      exact ⟨⟨fun _ => harmless, fun _ => agree⟩, fun _ => steady'⟩

theorem Steady.step (ok : step effects node event = .ok after)
    (stopped : ∀ commits starts, event = .stop commits starts → after.disk.Agree) : Steady after := by
  cases event with
  | connectTip pindex => exact steady.connectTip ok
  | disconnectTip => exact steady.disconnectTip ok
  | flushStateToDisk => exact steady.flushStateToDisk ok
  | stop commits starts => exact (steady.stop ok).2 (stopped commits starts rfl)

end Events

/-! ### Whole runs -/

theorem run_append_eq_ok {effects : Effects O C K V} {done : List Event} {after : Node O C K V} :
    run effects (done ++ [event]) = .ok after ↔
      ∃ mid, run effects done = .ok mid ∧ step effects mid event = .ok after := by
  rw [run, foldlM_append, bind_eq_ok]
  simp [run]

theorem steady_run {effects : Effects O C K V} {events : List Event}
    (stopped : ∀ done commits starts, done ++ [.stop commits starts] <+: events → ∀ node after,
      run effects done = .ok node → Steady node → step effects node (.stop commits starts) = .ok after →
        after.disk.Agree) : ∀ done, done <+: events → ∀ node, run effects done = .ok node → Steady node := by
  intro done
  induction done using List.reverseRecOn with
  | nil =>
    intro _ node ran
    cases ran
    exact steady_boot (.inl rfl) rfl
  | append_singleton done event ih =>
    intro taken node ran
    obtain ⟨mid, before, last⟩ := run_append_eq_ok.mp ran
    have steady := ih ((prefix_append done [event]).trans taken) mid before
    refine steady.step last fun commits starts isStop => ?_
    subst isStop
    exact stopped done commits starts taken mid node before steady last

/-- In a run, the special database and the coins have one best block after every restart exactly if no stop does harm.
-/
theorem agree_iff_harmless (effects : Effects O C K V) (events : List Event) :
    (∀ done commits starts, done ++ [.stop commits starts] <+: events →
        ∀ after, run effects (done ++ [.stop commits starts]) = .ok after → after.disk.Agree) ↔
      ∀ done commits starts, done ++ [.stop commits starts] <+: events → ∀ node after, run effects done = .ok node →
        step effects node (.stop commits starts) = .ok after → Harmless effects node commits := by
  constructor
  · intro agree done commits starts taken node after before last
    have steady := steady_run (fun done commits starts taken node after before _ last =>
      agree done commits starts taken after (run_append_eq_ok.mpr ⟨node, before, last⟩)) done
      ((prefix_append done _).trans taken) node before
    exact (steady.stop last).1.mp (agree done commits starts taken after (run_append_eq_ok.mpr ⟨node, before, last⟩))
  · intro harmless done commits starts taken after ran
    obtain ⟨node, before, last⟩ := run_append_eq_ok.mp ran
    have steady := steady_run (fun done commits starts taken node after before steady last =>
      (steady.stop last).1.mpr (harmless done commits starts taken node after before last)) done
      ((prefix_append done _).trans taken) node before
    exact (steady.stop last).1.mpr (harmless done commits starts taken node after before last)

namespace Cut

def genesis : CBlockIndex := .genesis { phashBlock := 1 }
def first : CBlockIndex := .next genesis { phashBlock := 2 }
def second : CBlockIndex := .next first { phashBlock := 3 }

/-- Every block creates one coin and one record under its hash. -/
def effects : Effects Nat Nat Nat Nat where
  connectCoins p _ := [(p.getBlockHash, some p.nHeight)]
  disconnectCoins p _ := [(p.getBlockHash, none)]
  rollforwardCoins p _ := [(p.getBlockHash, some p.nHeight)]
  processSpecialTxs p _ := [(p.getBlockHash, some p.nHeight)]
  undoSpecialTxs p _ := [(p.getBlockHash, none)]
  canDisconnect _ := true
  sizeEstimate batch := batch.length
  nDbBatchSize := 2

/-- A block is flushed, another connected, and the process stops when its coins are written in part. -/
def events (commits : Nat) : List Event :=
  [.connectTip genesis, .connectTip first, .flushStateToDisk, .connectTip second, .stop commits []]

end Cut

open Cut in
/-- Whether the coins were written in part or in full, they are at the second block after the restart, the special
database at the first. -/
theorem not_agree_cut : (∃ node, run effects (events 1) = .ok node ∧ node.disk.coins.bestBlock = some second ∧
      node.disk.special.bestBlock = some first ∧ ¬ node.disk.Agree) ∧
    ∃ node, run effects (events 2) = .ok node ∧ node.disk.coins.bestBlock = some second ∧
      node.disk.special.bestBlock = some first ∧ ¬ node.disk.Agree := by
  have apart : ¬ Agree (some first) (some second) := by simp [Agree, first, second]
  exact ⟨⟨_, rfl, rfl, rfl, apart⟩, ⟨_, rfl, rfl, rfl, apart⟩⟩

end Cspn.CrashReplay
