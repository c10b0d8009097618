import Cspn.LockIndex

/-!
The mined marks of InstantSend locks. `SyncTransaction` hears of every transaction that is connected or disconnected
and keeps the heights at which locked ones were mined. A disconnected transaction is back in the mempool only after
the signals of `DisconnectTip`; until then it is taken for a conflict, and its mark stays.
-/
namespace Cspn.MinedMarks
open Primitives InstantSendDb InstantSendDb.CInstantSendDb LockIndex List Tables

/-- The active chain, by heights, the ids in the mempool and the database of locks. -/
structure Node where
  chain : List CBlock
  mempool : List Uint256
  isInstantSendEnabled : Bool
  db : CInstantSendDb

namespace Node

def empty : Node := ⟨[], [], true, .empty⟩

variable (node : Node)

/-- `SyncTransaction` as far as it concerns the database, with the height of its block index and no position for
    `SYNC_TRANSACTION_NOT_IN_BLOCK`. -/
def syncTransaction (tx : CTransaction) (pindex posInBlock : Option Nat) : Node :=
  if !node.isInstantSendEnabled then node
  else if tx.isCoinBase || tx.vin.isEmpty then node
  else
    let inMempool := decide (tx.hash ∈ node.mempool)
    let isDisconnect := pindex.isSome && posInBlock.isNone
    let isConflictRemoved := isDisconnect && !inMempool
    if isConflictRemoved then node
    else { node with db := node.db.syncMined tx.hash pindex isDisconnect }

def acceptToMemoryPool (tx : CTransaction) : Node :=
  syncTransaction { node with mempool := node.mempool.insert tx.hash } tx none none

/-- `DisconnectTip`. The signals name the previous block, and come before `UpdateMempoolForReorg`. The genesis block
    stays. -/
def disconnectTip : Node :=
  match node.chain.getLast? with
  | none => node
  | some block =>
    let chain := node.chain.dropLast
    if chain.isEmpty then node
    else
      block.vtx.foldl (fun node tx => node.syncTransaction tx (some (chain.length - 1)) none) { node with chain }

/-- The signals of `ActivateBestChain` for a block that was connected. -/
def blockConnected (block : CBlock) (nHeight : Nat) : Node :=
  block.vtx.zipIdx.foldl (fun node tx => node.syncTransaction tx.1 (some nHeight) (some tx.2)) node

/-- The blocks of one `ActivateBestChainStep`: they leave the mempool with their conflicts, `UpdateMempoolForReorg`
    brings transactions back, then the signals are sent. -/
def connectBlocks (blocks : List CBlock) (conflicts : List Uint256) (resurrected : List CTransaction) : Node :=
  let nHeight := node.chain.length
  let mined := blocks.flatMap fun block => block.vtx.map CTransaction.hash
  let connected := { node with
    chain := node.chain ++ blocks
    mempool := node.mempool.filter fun hash => hash ∉ mined ∧ hash ∉ conflicts }
  (blocks.zipIdx nHeight).foldl (fun node block => node.blockConnected block.1 block.2)
    (resurrected.foldl acceptToMemoryPool connected)

end Node

inductive Event where
  | connectBlocks (blocks : List CBlock) (conflicts : List Uint256) (resurrected : List CTransaction)
  | disconnectTip
  | acceptToMemoryPool (tx : CTransaction)
  | removeFromMempool (hashes : List Uint256)
  | setInstantSendEnabled (enabled : Bool)
  | processInstantSendLock (islock : CInstantSendLock) (pindexMined : Option Nat)
  | handleFullyConfirmedBlock (nHeight : Nat)
  | removeChainLockConflictingLock (islock : CInstantSendLock) (tipHeight : Nat)

section
variable (serializeHash : CInstantSendLock → Uint256)

def apply (node : Node) : Event → Node
  | .connectBlocks blocks conflicts resurrected => node.connectBlocks blocks conflicts resurrected
  | .disconnectTip => node.disconnectTip
  | .acceptToMemoryPool tx => node.acceptToMemoryPool tx
  | .removeFromMempool hashes => { node with mempool := node.mempool.filter (· ∉ hashes) }
  | .setInstantSendEnabled isInstantSendEnabled => { node with isInstantSendEnabled }
  | .processInstantSendLock islock pindexMined =>
    { node with db := node.db.processInstantSendLock (serializeHash islock) islock pindexMined }
  | .handleFullyConfirmedBlock nHeight => { node with db := node.db.confirmBlock nHeight }
  | .removeChainLockConflictingLock islock tipHeight =>
    { node with db := node.db.removeChainLockConflictingLock (serializeHash islock) islock tipHeight }

def run (events : List Event) : Node := events.foldl (apply serializeHash) .empty

end

def hasTx (block : CBlock) (txid : Uint256) : Prop := txid ∈ block.vtx.map CTransaction.hash

namespace Node

def stored (node : Node) (hash : Uint256) : Option CInstantSendLock := node.db.db.locks.lookup hash

def MinedAt (node : Node) (txid : Uint256) (nHeight : Nat) : Prop :=
  ∃ block, node.chain[nHeight]? = some block ∧ hasTx block txid

/-- The marks of a stored lock are the heights at which its transaction is in the active chain. -/
def Marked (node : Node) : Prop :=
  ∀ hash islock, node.stored hash = some islock →
    ∀ nHeight, (nHeight, hash) ∈ node.db.db.mined ↔ node.MinedAt islock.txid nHeight

/-- `SyncTransaction` gets as far as the lock of the transaction. -/
structure Finds (node : Node) (tx : CTransaction) (hash : Uint256) : Prop where
  enabled : node.isInstantSendEnabled = true
  lockable : (tx.isCoinBase || tx.vin.isEmpty) = false
  entry : node.db.db.byTxid.lookup tx.hash = some hash
  nonNull : hash ≠ 0

/-- A lock is gone as its transaction is in the active chain, up to the height of the fully confirmed block, or for a
    conflict with a ChainLock. -/
def Kept (node : Node) (event : Event) (after : Node) : Prop :=
  ∀ hash islock, node.stored hash = some islock → after.stored hash = some islock ∨
    (∃ nHeight, event = .handleFullyConfirmedBlock nHeight ∧ ∃ mined ≤ nHeight, node.MinedAt islock.txid mined) ∨
    ∃ conflicting tipHeight, event = .removeChainLockConflictingLock conflicting tipHeight

end Node

section
variable (serializeHash : CInstantSendLock → Uint256)

/-- What keeps the marks right. The signals find a stored lock, on a disconnect also in the mempool, and a new lock
    comes with the height of its transaction. -/
def Event.Ok (node : Node) : Event → Prop
  | .connectBlocks blocks _ _ => ∀ block ∈ blocks, ∀ hash islock, node.stored hash = some islock →
    hasTx block islock.txid → ∃ tx ∈ block.vtx, node.Finds tx hash
  | .disconnectTip => ∀ block, node.chain.getLast? = some block → 2 ≤ node.chain.length → ∀ hash islock,
    node.stored hash = some islock → hasTx block islock.txid → ∃ tx ∈ block.vtx, node.Finds tx hash ∧ tx.hash ∈ node.mempool
  | .processInstantSendLock islock pindexMined => node.stored (serializeHash islock) = none →
    ∀ nHeight, (nHeight, serializeHash islock) ∈ node.db.db.mined ∨ pindexMined = some nHeight ↔
      node.MinedAt islock.txid nHeight
  | _ => True

end

/-! ### The signals -/

variable {after node : Node} {d : CInstantSendDb} {hash : Uint256} {tx : CTransaction} {islock : CInstantSendLock}
  {block : CBlock} {chain : List CBlock} {tables : Tables} {keys : List (Nat × Uint256)}

theorem Node.finds_iff_of_same (enabled : after.isInstantSendEnabled = node.isInstantSendEnabled)
    (index : SameIndex node.db.db after.db.db) (tx : CTransaction) (hash : Uint256) :
    after.Finds tx hash ↔ node.Finds tx hash := by
  constructor
  · rintro ⟨isEnabled, lockable, entry, nonNull⟩
    exact ⟨enabled ▸ isEnabled, lockable, index.byTxid ▸ entry, nonNull⟩
  · rintro ⟨isEnabled, lockable, entry, nonNull⟩
    exact ⟨enabled.trans isEnabled, lockable, index.byTxid.symm ▸ entry, nonNull⟩

theorem Node.finds_iff_of_reached (reached : node.isInstantSendEnabled = true ∧ (tx.isCoinBase || tx.vin.isEmpty) = false) :
    node.Finds tx hash ↔ node.db.db.byTxid.lookup tx.hash = some hash ∧ hash ≠ 0 :=
  ⟨fun found => ⟨found.entry, found.nonNull⟩, fun found => ⟨reached.1, reached.2, found.1, found.2⟩⟩

/-- A signal that does not get as far changes nothing. -/
theorem Node.syncTransaction_of_passed (pindex posInBlock : Option Nat)
    (passed : ¬ (node.isInstantSendEnabled = true ∧ (tx.isCoinBase || tx.vin.isEmpty) = false)) :
    node.syncTransaction tx pindex posInBlock = node ∧ ∀ hash, ¬ node.Finds tx hash :=
  ⟨by grind [syncTransaction], fun _ found => passed ⟨found.enabled, found.lockable⟩⟩

structure Signalled (node after : Node) : Prop where
  chain : after.chain = node.chain
  mempool : after.mempool = node.mempool
  enabled : after.isInstantSendEnabled = node.isInstantSendEnabled
  index : SameIndex node.db.db after.db.db
  coherent : after.db.Coherent after.db.db

namespace Signalled

section
variable {middle : Node}

theorem refl (coherent : node.db.Cached) : Signalled node node :=
  ⟨rfl, rfl, rfl, ⟨rfl, rfl, rfl⟩, coherent⟩

theorem trans (first : Signalled node middle) (second : Signalled middle after) : Signalled node after where
  chain := second.chain.trans first.chain
  mempool := second.mempool.trans first.mempool
  enabled := second.enabled.trans first.enabled
  index := first.index.trans second.index
  coherent := second.coherent

theorem finds_iff (signalled : Signalled node after) (tx : CTransaction) (hash : Uint256) :
    after.Finds tx hash ↔ node.Finds tx hash :=
  Node.finds_iff_of_same signalled.enabled signalled.index tx hash

end

end Signalled

section

theorem entry_iff {entry : Option Uint256} :
    entry = some hash ∧ hash ≠ 0 ↔ hash = entry.getD 0 ∧ entry.getD 0 ≠ 0 := by
  cases entry with
  | none => simp
  | some other =>
    constructor
    · rintro ⟨⟨⟩, nonNull⟩
      exact ⟨rfl, nonNull⟩
    · rintro ⟨rfl, nonNull⟩
      exact ⟨rfl, nonNull⟩

variable (coherent : d.Cached) (txid : Uint256)
include coherent txid

end

namespace Node

section

section
variable (coherent : node.db.Cached)
include coherent

theorem syncTransaction_signalled (tx : CTransaction)
    (pindex posInBlock : Option Nat) : Signalled node (node.syncTransaction tx pindex posInBlock) := by
  have same := Signalled.refl coherent
  obtain ⟨index, after⟩ := syncMined_index coherent tx.hash pindex (pindex.isSome && posInBlock.isNone)
  rw [syncTransaction]
  split
  · exact same
  · split
    · exact same
    · dsimp only
      split
      · exact same
      · exact ⟨rfl, rfl, rfl, index, after⟩

theorem mem_mined_syncTransaction_connected (tx : CTransaction) (nHeight posInBlock : Nat) (key : Nat × Uint256) :
    key ∈ (node.syncTransaction tx (some nHeight) (some posInBlock)).db.db.mined ↔
      key ∈ node.db.db.mined ∨ key.1 = nHeight ∧ node.Finds tx key.2 := by
  by_cases reached : node.isInstantSendEnabled = true ∧ (tx.isCoinBase || tx.vin.isEmpty) = false
  · obtain ⟨entry, db, -⟩ := getInstantSendLockHashByTxid_spec coherent tx.hash
    rw [finds_iff_of_reached reached, entry_iff]
    by_cases null : (node.db.db.byTxid.lookup tx.hash).getD 0 = 0
    · simp [syncTransaction, reached, syncMined, entry, null, db]
    · simp [syncTransaction, reached, syncMined, entry, null, db, writeInstantSendLockMined, Prod.ext_iff, or_comm]
  · obtain ⟨same, none⟩ := syncTransaction_of_passed (some nHeight) (some posInBlock) reached
    simp [same, none]

theorem mem_mined_syncTransaction_disconnected (tx : CTransaction) (nHeight : Nat) (key : Nat × Uint256) :
    key ∈ (node.syncTransaction tx (some nHeight) none).db.db.mined ↔
      key ∈ node.db.db.mined ∧ ¬ (key.1 = nHeight + 1 ∧ node.Finds tx key.2 ∧ tx.hash ∈ node.mempool) := by
  by_cases reached : node.isInstantSendEnabled = true ∧ (tx.isCoinBase || tx.vin.isEmpty) = false
  · by_cases inMempool : tx.hash ∈ node.mempool
    · obtain ⟨entry, db, -⟩ := getInstantSendLockHashByTxid_spec coherent tx.hash
      rw [and_iff_left inMempool, finds_iff_of_reached reached, entry_iff]
      by_cases null : (node.db.db.byTxid.lookup tx.hash).getD 0 = 0
      · simp [syncTransaction, reached, inMempool, syncMined, entry, null, db]
      · simp [syncTransaction, reached, inMempool, syncMined, entry, null, db, removeInstantSendLockMined, Tables.apply,
          Prod.ext_iff, imp_iff_not_or]
    · simp [syncTransaction, reached, inMempool]
  · obtain ⟨same, none⟩ := syncTransaction_of_passed (some nHeight) none reached
    simp [same, none]

theorem mined_syncTransaction_accepted (tx : CTransaction) :
    (node.syncTransaction tx none none).db.db.mined = node.db.db.mined := by
  rw [syncTransaction]
  split
  · rfl
  · split
    · rfl
    · exact congrArg mined (getInstantSendLockHashByTxid_spec coherent tx.hash).2.1

theorem blockConnected_spec (block : CBlock) (nHeight : Nat) :
    Signalled node (node.blockConnected block nHeight) ∧ ∀ key, key ∈ (node.blockConnected block nHeight).db.db.mined ↔
      key ∈ node.db.db.mined ∨ key.1 = nHeight ∧ ∃ tx ∈ block.vtx, node.Finds tx key.2 := by
  have loop : ∀ (txs : List (CTransaction × Nat)) (node : Node), node.db.Cached →
      let after := txs.foldl (fun node tx => node.syncTransaction tx.1 (some nHeight) (some tx.2)) node
      Signalled node after ∧ ∀ key, key ∈ after.db.db.mined ↔
        key ∈ node.db.db.mined ∨ key.1 = nHeight ∧ ∃ tx ∈ txs, node.Finds tx.1 key.2 := by
    intro txs
    induction txs with
    | nil => intro node coherent; exact ⟨.refl coherent, by simp⟩
    | cons tx rest ih =>
      intro node coherent
      have first := syncTransaction_signalled coherent tx.1 (some nHeight) (some tx.2)
      obtain ⟨later, mined⟩ := ih _ first.coherent
      refine ⟨first.trans later, fun key => ?_⟩
      rw [foldl_cons, mined, mem_mined_syncTransaction_connected coherent]
      simp only [first.finds_iff, mem_cons, exists_eq_or_imp]
      tauto
  obtain ⟨signalled, mined⟩ := loop block.vtx.zipIdx node coherent
  refine ⟨signalled, fun key => (mined key).trans ?_⟩
  nth_rewrite 2 [← zipIdx_map_fst 0 block.vtx]
  simp only [mem_map, exists_exists_and_eq_and]

theorem blockDisconnected_spec (vtx : List CTransaction) (nHeight : Nat) :
    let after := vtx.foldl (fun node tx => node.syncTransaction tx (some nHeight) none) node
    Signalled node after ∧ ∀ key, key ∈ after.db.db.mined ↔
      key ∈ node.db.db.mined ∧ ¬ (key.1 = nHeight + 1 ∧ ∃ tx ∈ vtx, node.Finds tx key.2 ∧ tx.hash ∈ node.mempool) := by
  induction vtx generalizing node with
  | nil => exact ⟨.refl coherent, by simp⟩
  | cons tx rest ih =>
    have first := syncTransaction_signalled coherent tx (some nHeight) none
    obtain ⟨later, mined⟩ := ih first.coherent
    refine ⟨first.trans later, fun key => ?_⟩
    rw [foldl_cons, mined, mem_mined_syncTransaction_disconnected coherent]
    simp only [first.finds_iff, first.mempool, mem_cons, exists_eq_or_imp]
    rw [and_or_left, not_or, and_assoc]

theorem blocksConnected_spec (blocks : List CBlock) (nHeight : Nat) :
    let after := (blocks.zipIdx nHeight).foldl (fun node block => node.blockConnected block.1 block.2) node
    Signalled node after ∧ ∀ key, key ∈ after.db.db.mined ↔ key ∈ node.db.db.mined ∨
      ∃ i block, blocks[i]? = some block ∧ key.1 = nHeight + i ∧ ∃ tx ∈ block.vtx, node.Finds tx key.2 := by
  induction blocks generalizing node nHeight with
  | nil => exact ⟨.refl coherent, by simp⟩
  | cons block rest ih =>
    obtain ⟨first, marks⟩ := blockConnected_spec coherent block nHeight
    obtain ⟨later, mined⟩ := ih first.coherent (nHeight + 1)
    refine ⟨first.trans later, fun key => ?_⟩
    rw [zipIdx_cons, foldl_cons, mined, marks]
    simp only [first.finds_iff]
    rw [or_assoc]
    refine or_congr Iff.rfl ⟨?_, ?_⟩
    · rintro (⟨height, found⟩ | ⟨i, other, place, height, found⟩)
      · exact ⟨0, block, rfl, height, found⟩
      · exact ⟨i + 1, other, place, by omega, found⟩
    · rintro ⟨i, other, place, height, found⟩
      cases i with
      | zero =>
        obtain rfl : block = other := by simpa using place
        exact .inl ⟨height, found⟩
      | succ i => exact .inr ⟨i, other, place, by omega, found⟩

theorem acceptAll_spec (txs : List CTransaction) : let after := txs.foldl acceptToMemoryPool node
    after.chain = node.chain ∧ after.isInstantSendEnabled = node.isInstantSendEnabled ∧
      SameIndex node.db.db after.db.db ∧ after.db.Cached ∧ after.db.db.mined = node.db.db.mined := by
  induction txs generalizing node with
  | nil => exact ⟨rfl, rfl, ⟨rfl, rfl, rfl⟩, coherent, rfl⟩
  | cons tx rest ih =>
    let added : Node := { node with mempool := node.mempool.insert tx.hash }
    have start : added.db.Cached := coherent
    have first := syncTransaction_signalled start tx none none
    have marks := mined_syncTransaction_accepted start tx
    obtain ⟨chain, enabled, index, later, mined⟩ := ih first.coherent
    exact ⟨chain.trans first.chain, enabled.trans first.enabled, first.index.trans index, later, mined.trans marks⟩

end

/-- What holds of the database of every node: its entries name stored locks, and its caches are right. -/
structure Sound (node : Node) : Prop where
  refers : node.db.db.Refers
  coherent : node.db.Coherent node.db.db

/-! ### Steps -/

theorem Sound.finds (sound : node.Sound)
    (found : node.Finds tx hash) (stored : node.stored hash = some islock) : tx.hash = islock.txid := by
  obtain ⟨other, otherStored, same⟩ := sound.refers.txid tx.hash hash found.entry
  obtain rfl : other = islock := Option.some.inj (otherStored.symm.trans stored)
  exact same.symm

theorem minedAt_append {blocks : List CBlock} {txid : Uint256} {nHeight : Nat} :
    (∃ block, (chain ++ blocks)[nHeight]? = some block ∧ hasTx block txid) ↔
      (∃ block, chain[nHeight]? = some block ∧ hasTx block txid) ∨
        ∃ i block, blocks[i]? = some block ∧ nHeight = chain.length + i ∧ hasTx block txid := by
  by_cases below : nHeight < chain.length
  · rw [getElem?_append_left below]
    refine ⟨.inl, fun mined => mined.resolve_right ?_⟩
    rintro ⟨i, block, -, same, -⟩
    omega
  · have beyond : chain[nHeight]? = none := getElem?_eq_none (by omega)
    rw [getElem?_append_right (by omega), beyond]
    constructor
    · rintro ⟨block, place, mined⟩
      exact .inr ⟨nHeight - chain.length, block, place, by omega, mined⟩
    · rintro (⟨block, none, -⟩ | ⟨i, block, place, rfl, mined⟩)
      · cases none
      · exact ⟨block, by rwa [Nat.add_sub_cancel_left], mined⟩

theorem connectBlocks_spec (coherent : node.db.Cached) (blocks : List CBlock) (conflicts : List Uint256)
    (resurrected : List CTransaction) : let after := node.connectBlocks blocks conflicts resurrected
    after.chain = node.chain ++ blocks ∧ SameIndex node.db.db after.db.db ∧ after.db.Cached ∧
      ∀ key, key ∈ after.db.db.mined ↔ key ∈ node.db.db.mined ∨ ∃ i block, blocks[i]? = some block ∧
        key.1 = node.chain.length + i ∧ ∃ tx ∈ block.vtx, node.Finds tx key.2 := by
  let connected : Node := { node with
    chain := node.chain ++ blocks
    mempool := node.mempool.filter fun hash =>
      hash ∉ blocks.flatMap (fun block => block.vtx.map CTransaction.hash) ∧ hash ∉ conflicts }
  have start : connected.db.Cached := coherent
  obtain ⟨chain, enabled, index, accepted, marks⟩ := acceptAll_spec start resurrected
  obtain ⟨signalled, mined⟩ := blocksConnected_spec accepted blocks node.chain.length
  refine ⟨signalled.chain.trans chain, index.trans signalled.index, signalled.coherent, ?_⟩
  intro key
  have finds : ∀ tx hash, connected.Finds tx hash ↔ node.Finds tx hash := finds_iff_of_same rfl ⟨rfl, rfl, rfl⟩
  refine (mined key).trans ?_
  simp only [marks, finds_iff_of_same enabled index, finds]
  rfl

theorem disconnectTip_spec (tip : node.chain = chain ++ [block])
    (previous : chain ≠ []) (coherent : node.db.Cached) : let after := node.disconnectTip
    after.chain = chain ∧ SameIndex node.db.db after.db.db ∧ after.db.Cached ∧
      ∀ key, key ∈ after.db.db.mined ↔ key ∈ node.db.db.mined ∧
        ¬ (key.1 = chain.length ∧ ∃ tx ∈ block.vtx, node.Finds tx key.2 ∧ tx.hash ∈ node.mempool) := by
  let popped : Node := { node with chain }
  have start : popped.db.Cached := coherent
  have same : node.disconnectTip =
      block.vtx.foldl (fun node tx => node.syncTransaction tx (some (chain.length - 1)) none) popped := by
    simp [disconnectTip, tip, previous, popped]
  have height : chain.length - 1 + 1 = chain.length := Nat.succ_pred (by simpa using previous)
  obtain ⟨signalled, mined⟩ := blockDisconnected_spec start block.vtx (chain.length - 1)
  have finds : ∀ tx hash, popped.Finds tx hash ↔ node.Finds tx hash := finds_iff_of_same rfl ⟨rfl, rfl, rfl⟩
  simp only [height, finds] at mined
  rw [same]
  exact ⟨signalled.chain, signalled.index, signalled.coherent, mined⟩

theorem exists_tip (long : ¬ node.chain.length < 2) : ∃ chain tip, node.chain = chain ++ [tip] ∧ chain ≠ [] := by
  have nonempty : node.chain ≠ [] := by
    rintro none
    simp [none] at long
  refine ⟨_, _, (dropLast_append_getLast nonempty).symm, fun none => long ?_⟩
  have short : node.chain.dropLast.length = node.chain.length - 1 := length_dropLast
  rw [none, length_nil] at short
  omega

theorem disconnectTip_genesis (short : node.chain.length < 2) : node.disconnectTip = node := by
  rw [disconnectTip]
  split
  · rfl
  · have empty : node.chain.dropLast = [] := eq_nil_of_length_eq_zero (by rw [length_dropLast]; omega)
    simp [empty]

theorem disconnectTip_index (coherent : node.db.Cached) :
    SameIndex node.db.db node.disconnectTip.db.db ∧ node.disconnectTip.db.Cached := by
  by_cases short : node.chain.length < 2
  · rw [disconnectTip_genesis short]
    exact ⟨⟨rfl, rfl, rfl⟩, coherent⟩
  · obtain ⟨chain, tip, split, previous⟩ := exists_tip short
    obtain ⟨-, index, after, -⟩ := disconnectTip_spec split previous coherent
    exact ⟨index, after⟩

theorem Marked.of_removal (marked : node.Marked) (chain : after.chain = node.chain)
    (locks : ∀ hash islock, after.stored hash = some islock → node.stored hash = some islock)
    (mined : ∀ nHeight hash islock, after.stored hash = some islock →
      ((nHeight, hash) ∈ after.db.db.mined ↔ (nHeight, hash) ∈ node.db.db.mined)) : after.Marked := by
  intro hash islock isStored nHeight
  rw [mined nHeight hash islock isStored, marked hash islock (locks hash islock isStored) nHeight, MinedAt, MinedAt, chain]

theorem Marked.of_same (marked : node.Marked) (chain : after.chain = node.chain)
    (index : SameIndex node.db.db after.db.db) (mined : after.db.db.mined = node.db.db.mined) : after.Marked := by
  refine marked.of_removal chain (fun hash islock isStored => ?_) fun nHeight hash islock _ => by rw [mined]
  rwa [stored, index.locks] at isStored

theorem eraseLock_mem_confirmedBatch :
    .eraseLock hash ∈ confirmedBatch tables keys ↔ ∃ key ∈ keys, key.2 = hash ∧ (tables.locks.lookup hash).isSome := by
  have one : ∀ key : Nat × Uint256, .eraseLock hash ∈ (tables.locks.lookup key.2).elim [] (erasures key.2) ++
      [.writeArchived key.1 key.2, .eraseMined key.1 key.2] ↔ key.2 = hash ∧ (tables.locks.lookup hash).isSome := by
    intro key
    by_cases same : key.2 = hash
    · subst same
      cases tables.locks.lookup key.2 <;> simp [mem_erasures]
    · cases tables.locks.lookup key.2 <;> simp [mem_erasures, same, Ne.symm same]
  simp [confirmedBatch, one]

theorem eraseMined_mem_confirmedBatch {key : Nat × Uint256} :
    .eraseMined key.1 key.2 ∈ confirmedBatch tables keys ↔ key ∈ keys := by
  have one : ∀ other, .eraseMined key.1 key.2 ∈ (tables.locks.lookup other.2).elim [] (erasures other.2) ++
      [.writeArchived other.1 other.2, .eraseMined other.1 other.2] ↔ other = key := by
    intro other
    cases tables.locks.lookup other.2 <;> simp [mem_erasures, Prod.ext_iff, eq_comm]
  simp [confirmedBatch, one]

theorem confirmBlock_spec (coherent : d.Cached) (nHeight : Nat) :
    (∀ hash islock, (d.confirmBlock nHeight).db.locks.lookup hash = some islock ↔
      d.db.locks.lookup hash = some islock ∧ ∀ mined ≤ nHeight, (mined, hash) ∉ d.db.mined) ∧
      ∀ key, key ∈ (d.confirmBlock nHeight).db.mined ↔ key ∈ d.db.mined ∧ nHeight < key.1 := by
  obtain ⟨db, -, -⟩ := removeConfirmedInstantSendLocks_spec coherent nHeight
  -- Old entries of the archive go besides.
  have archive : (d.confirmBlock nHeight).db.locks = (d.removeConfirmedInstantSendLocks nHeight).1.db.locks ∧
      ∀ key, key ∈ (d.confirmBlock nHeight).db.mined ↔ key ∈ (d.removeConfirmedInstantSendLocks nHeight).1.db.mined := by
    by_cases deep : nHeight > 100
    · simp only [confirmBlock, deep, if_true]
      refine ⟨(eraseArchived_sameIndex _ _).locks, fun key => ?_⟩
      refine (mem_mined_writeBatch _ _ key).trans (and_iff_left ?_)
      simp
    · simp [confirmBlock, deep]
  refine ⟨fun hash islock => ?_, fun key => ?_⟩
  · rw [archive.1, db, locks_writeBatch]
    simp only [eraseLock_mem_confirmedBatch]
    by_cases isStored : d.db.locks.lookup hash = some islock
    · simp [isStored, and_comm]
    · simp [isStored]
  · rw [archive.2, db, mem_mined_writeBatch, eraseMined_mem_confirmedBatch, mem_filter, decide_eq_true_eq]
    refine and_congr_right fun mark => ?_
    rw [and_iff_right mark, Nat.not_le]

variable (sound : node.Sound) (marked : node.Marked)
include sound marked

theorem connectBlocks_marked_iff (blocks : List CBlock) (conflicts : List Uint256) (resurrected : List CTransaction) :
    (node.connectBlocks blocks conflicts resurrected).Marked ↔
      ∀ block ∈ blocks, ∀ hash islock, node.stored hash = some islock → hasTx block islock.txid →
        ∃ tx ∈ block.vtx, node.Finds tx hash := by
  obtain ⟨chain, index, -, mined⟩ := connectBlocks_spec sound.coherent blocks conflicts resurrected
  have after : (node.connectBlocks blocks conflicts resurrected).Marked ↔
      ∀ hash islock, node.stored hash = some islock → ∀ nHeight,
        (node.MinedAt islock.txid nHeight ∨ ∃ i block, blocks[i]? = some block ∧ nHeight = node.chain.length + i ∧
          ∃ tx ∈ block.vtx, node.Finds tx hash) ↔
        (node.MinedAt islock.txid nHeight ∨ ∃ i block, blocks[i]? = some block ∧ nHeight = node.chain.length + i ∧
          hasTx block islock.txid) := by
    simp only [Marked, stored, MinedAt, chain, index.locks, minedAt_append, mined]
    refine forall_congr' fun hash => forall_congr' fun islock => imp_congr_right fun isStored =>
      forall_congr' fun nHeight => ?_
    rw [marked hash islock isStored nHeight]
    rfl
  rw [after]
  constructor
  · intro same block mem hash islock isStored has
    obtain ⟨i, bound, place⟩ := getElem_of_mem mem
    have at? : blocks[i]? = some block := by rw [getElem?_eq_getElem bound, place]
    rcases (same hash islock isStored (node.chain.length + i)).mpr (.inr ⟨i, block, at?, rfl, has⟩) with old | new
    · obtain ⟨other, otherPlace, -⟩ := old
      simp at otherPlace
    · obtain ⟨j, other, otherPlace, height, found⟩ := new
      obtain rfl : i = j := by omega
      obtain rfl : block = other := Option.some.inj (at?.symm.trans otherPlace)
      exact found
  · intro ok hash islock isStored nHeight
    refine or_congr Iff.rfl ⟨?_, ?_⟩
    · rintro ⟨i, block, place, height, tx, mem, found⟩
      exact ⟨i, block, place, height, mem_map.mpr ⟨tx, mem, sound.finds found isStored⟩⟩
    · rintro ⟨i, block, place, height, has⟩
      exact ⟨i, block, place, height, ok block (mem_of_getElem? place) hash islock isStored has⟩

theorem disconnectTip_marked_iff :
    node.disconnectTip.Marked ↔ ∀ block, node.chain.getLast? = some block → 2 ≤ node.chain.length →
      ∀ hash islock, node.stored hash = some islock → hasTx block islock.txid →
        ∃ tx ∈ block.vtx, node.Finds tx hash ∧ tx.hash ∈ node.mempool := by
  by_cases short : node.chain.length < 2
  · rw [disconnectTip_genesis short]
    refine iff_of_true marked fun block last long => ?_
    omega
  obtain ⟨chain, tip, split, previous⟩ := exists_tip short
  obtain ⟨popped, index, -, mined⟩ := disconnectTip_spec split previous sound.coherent
  have after : node.disconnectTip.Marked ↔ ∀ hash islock, node.stored hash = some islock → ∀ nHeight,
      (node.MinedAt islock.txid nHeight ∧ ¬ (nHeight = chain.length ∧
        ∃ tx ∈ tip.vtx, node.Finds tx hash ∧ tx.hash ∈ node.mempool)) ↔
      ∃ block, chain[nHeight]? = some block ∧ hasTx block islock.txid := by
    simp only [Marked, stored, index.locks, mined]
    refine forall_congr' fun hash => forall_congr' fun islock => imp_congr_right fun isStored =>
      forall_congr' fun nHeight => ?_
    rw [marked hash islock isStored nHeight, MinedAt, MinedAt, popped]
  have minedAt : ∀ txid nHeight, node.MinedAt txid nHeight ↔
      (∃ block, chain[nHeight]? = some block ∧ hasTx block txid) ∨ nHeight = chain.length ∧ hasTx tip txid := by
    intro txid nHeight
    rw [MinedAt, split, minedAt_append]
    refine or_congr Iff.rfl ⟨?_, ?_⟩
    · rintro ⟨i, block, place, height, has⟩
      cases i with
      | zero =>
        obtain rfl : tip = block := by simpa using place
        exact ⟨height, has⟩
      | succ i => simp at place
    · rintro ⟨height, has⟩
      exact ⟨0, tip, rfl, height, has⟩
  rw [after]
  constructor
  · intro same block last _ hash islock isStored has
    obtain rfl : tip = block := by simpa [split] using last
    by_contra missing
    have wrong := (same hash islock isStored chain.length).mp
      ⟨(minedAt _ _).mpr (.inr ⟨rfl, has⟩), fun found => missing found.2⟩
    obtain ⟨other, place, -⟩ := wrong
    simp at place
  · intro ok hash islock isStored nHeight
    have found := ok tip (by simp [split]) (by omega) hash islock isStored
    rw [minedAt]
    constructor
    · rintro ⟨old | ⟨height, has⟩, gone⟩
      · exact old
      · exact absurd ⟨height, found has⟩ gone
    · rintro ⟨block, place, has⟩
      refine ⟨.inl ⟨block, place, has⟩, fun gone => ?_⟩
      rw [gone.1] at place
      simp at place

theorem processInstantSendLock_marked_iff (hash : Uint256) (islock : CInstantSendLock) (pindexMined : Option Nat) :
    Marked { node with db := node.db.processInstantSendLock hash islock pindexMined } ↔
      (node.stored hash = none → ∀ nHeight, (nHeight, hash) ∈ node.db.db.mined ∨ pindexMined = some nHeight ↔
        node.MinedAt islock.txid nHeight) := by
  cases known : node.stored hash with
  | some old =>
    have query := processInstantSendLock_known sound.coherent known islock pindexMined
    refine iff_of_true (marked.of_same rfl ?_ ?_) (by simp)
    · exact query.db.symm ▸ ⟨rfl, rfl, rfl⟩
    · exact congrArg mined query.db
  | none =>
    obtain ⟨db, -⟩ := processInstantSendLock_new sound.coherent known islock pindexMined
    have mined : ∀ key, key ∈ (node.db.processInstantSendLock hash islock pindexMined).db.mined ↔
        key ∈ node.db.db.mined ∨ key.2 = hash ∧ pindexMined = some key.1 := by
      intro key
      rw [db]
      cases pindexMined with
      | none => simp
      | some nHeight => simp [Prod.ext_iff, or_comm, and_comm, eq_comm]
    have locks : ∀ other, (node.db.processInstantSendLock hash islock pindexMined).db.locks.lookup other =
        if other = hash then some islock else node.db.db.locks.lookup other := by
      intro other
      rw [db]
      exact locks_writeLock node.db.db hash islock other
    simp only [true_imp_iff]
    constructor
    · intro after nHeight
      have own := after hash islock (by simp [stored, locks]) nHeight
      rwa [mined, and_iff_right rfl] at own
    · intro ok other otherLock isStored nHeight
      rw [stored, locks] at isStored
      rw [mined]
      by_cases same : other = hash
      · rw [if_pos same] at isStored
        cases isStored
        rw [and_iff_right same, same]
        exact ok nHeight
      · rw [if_neg same] at isStored
        simp only [same, false_and, or_false]
        exact marked other otherLock isStored nHeight

theorem confirmBlock_marked (nHeight : Nat) : Marked { node with db := node.db.confirmBlock nHeight } := by
  obtain ⟨locks, mined⟩ := confirmBlock_spec sound.coherent nHeight
  refine marked.of_removal rfl (fun hash islock isStored => ((locks hash islock).mp isStored).1) ?_
  intro height hash islock isStored
  rw [mined]
  refine and_iff_left_of_imp fun mark => ?_
  by_contra low
  exact ((locks hash islock).mp isStored).2 height (Nat.le_of_not_lt low) mark

theorem removeChainLockConflictingLock_marked (hash : Uint256) (islock : CInstantSendLock) (tipHeight : Nat) :
    Marked { node with db := node.db.removeChainLockConflictingLock hash islock tipHeight } := by
  obtain ⟨chained, -, db, -, -⟩ := removeChainLockConflictingLock_spec sound.coherent hash islock tipHeight
  refine marked.of_removal rfl (fun other otherLock isStored => ?_) fun height other otherLock _ => ?_
  · rw [stored, db, locks_writeBatch] at isStored
    split at isStored
    · cases isStored
    · exact isStored
  · rw [db, mem_mined_writeBatch, removalBatch]
    refine and_iff_left ?_
    cases node.db.db.locks.lookup hash <;> simp [chainedBatch, mem_erasures]

end

end Node

/-! ### Runs -/

section
variable {serializeHash : CInstantSendLock → Uint256}

theorem apply_sound (sound : node.Sound) (event : Event) : (apply serializeHash node event).Sound := by
  have ofOp : ∀ op, Node.Sound { node with db := LockIndex.apply serializeHash node.db op } := by
    intro op
    obtain ⟨effect, coherent⟩ := apply_effect sound.coherent op
    exact ⟨effect.refers sound.refers, coherent⟩
  cases event with
  | connectBlocks blocks conflicts resurrected =>
    obtain ⟨-, index, coherent, -⟩ := node.connectBlocks_spec sound.coherent blocks conflicts resurrected
    exact ⟨index.refers sound.refers, coherent⟩
  | disconnectTip =>
    obtain ⟨index, coherent⟩ := node.disconnectTip_index sound.coherent
    exact ⟨index.refers sound.refers, coherent⟩
  | acceptToMemoryPool tx =>
    obtain ⟨-, -, index, coherent, -⟩ := node.acceptAll_spec sound.coherent [tx]
    exact ⟨index.refers sound.refers, coherent⟩
  | removeFromMempool hashes => exact ⟨sound.refers, sound.coherent⟩
  | setInstantSendEnabled enabled => exact ⟨sound.refers, sound.coherent⟩
  | processInstantSendLock islock pindexMined => exact ofOp (.processInstantSendLock islock pindexMined)
  | handleFullyConfirmedBlock nHeight => exact ofOp (.handleFullyConfirmedBlock nHeight)
  | removeChainLockConflictingLock islock tipHeight => exact ofOp (.removeChainLockConflictingLock islock tipHeight)

theorem kept_of_same {event : Event} (index : SameIndex node.db.db after.db.db) : node.Kept event after := by
  intro hash islock isStored
  refine .inl ?_
  rwa [Node.stored, index.locks]

/-- No step removes a lock because its block was disconnected, as long as the marks are right. -/
theorem apply_kept (sound : node.Sound) (marked : node.Marked) (event : Event) :
    node.Kept event (apply serializeHash node event) := by
  cases event with
  | connectBlocks blocks conflicts resurrected =>
    exact kept_of_same (node.connectBlocks_spec sound.coherent blocks conflicts resurrected).2.1
  | disconnectTip => exact kept_of_same (node.disconnectTip_index sound.coherent).1
  | acceptToMemoryPool tx => exact kept_of_same (node.acceptAll_spec sound.coherent [tx]).2.2.1
  | removeFromMempool hashes => exact kept_of_same ⟨rfl, rfl, rfl⟩
  | setInstantSendEnabled enabled => exact kept_of_same ⟨rfl, rfl, rfl⟩
  | processInstantSendLock islock pindexMined =>
    cases known : node.stored (serializeHash islock) with
    | some old =>
      have query := processInstantSendLock_known sound.coherent known islock pindexMined
      exact kept_of_same (query.db.symm ▸ ⟨rfl, rfl, rfl⟩)
    | none =>
      obtain ⟨db, -⟩ := processInstantSendLock_new sound.coherent known islock pindexMined
      intro hash other isStored
      have apart : hash ≠ serializeHash islock := by
        rintro rfl
        simp [known] at isStored
      refine .inl ?_
      rw [apply, Node.stored, db]
      exact (locks_writeLock node.db.db _ islock hash).trans ((if_neg apart).trans isStored)
  | handleFullyConfirmedBlock nHeight =>
    intro hash islock isStored
    obtain ⟨locks, -⟩ := Node.confirmBlock_spec sound.coherent nHeight
    by_cases unmarked : ∀ mined ≤ nHeight, (mined, hash) ∉ node.db.db.mined
    · exact .inl ((locks hash islock).mpr ⟨isStored, unmarked⟩)
    · obtain ⟨mined, low, mark⟩ : ∃ mined ≤ nHeight, (mined, hash) ∈ node.db.db.mined := by simpa using unmarked
      exact .inr (.inl ⟨nHeight, rfl, mined, low, (marked hash islock isStored mined).mp mark⟩)
  | removeChainLockConflictingLock islock tipHeight =>
    intro hash other isStored
    exact .inr (.inr ⟨islock, tipHeight, rfl⟩)

variable (serializeHash)

theorem run_append (done : List Event) (event : Event) :
    run serializeHash (done ++ [event]) = apply serializeHash (run serializeHash done) event := by
  simp [run]

theorem run_sound (events : List Event) : (run serializeHash events).Sound := by
  induction events using reverseRecOn with
  | nil =>
    have empty := run_refers_coherent serializeHash []
    exact ⟨empty.1, empty.2⟩
  | append_singleton done event ih =>
    rw [run_append]
    exact apply_sound ih event

/-- The marks follow the active chain along a run, and no lock goes as its block was disconnected. -/
structure MarksFollow (events : List Event) : Prop where
  marked : ∀ done, done <+: events → (run serializeHash done).Marked
  kept : ∀ done event, done ++ [event] <+: events →
    (run serializeHash done).Kept event (run serializeHash (done ++ [event]))

/-- The marks follow the active chain along a run exactly if each step meets its condition in the state it finds. -/
theorem marksFollow_iff_ok (events : List Event) : MarksFollow serializeHash events ↔
      ∀ done event, done ++ [event] <+: events → event.Ok serializeHash (run serializeHash done) := by
  have marked_iff : (∀ done, done <+: events → (run serializeHash done).Marked) ↔
      ∀ done event, done ++ [event] <+: events → event.Ok serializeHash (run serializeHash done) := by
    refine Folds.throughout_iff ?_ (fun done event before => ?_) events
    · intro hash islock isStored
      simp [run, Node.empty, Node.stored, CInstantSendDb.empty, Tables.empty] at isStored
    · rw [run_append]
      have sound := run_sound serializeHash done
      generalize run serializeHash done = node at before sound ⊢
      cases event with
      | connectBlocks blocks conflicts resurrected =>
        exact node.connectBlocks_marked_iff sound before blocks conflicts resurrected
      | disconnectTip => exact node.disconnectTip_marked_iff sound before
      | acceptToMemoryPool tx =>
        obtain ⟨chain, -, index, -, mined⟩ := node.acceptAll_spec sound.coherent [tx]
        exact iff_of_true (before.of_same chain index mined) trivial
      | removeFromMempool hashes => exact iff_of_true (before.of_same rfl ⟨rfl, rfl, rfl⟩ rfl) trivial
      | setInstantSendEnabled enabled => exact iff_of_true (before.of_same rfl ⟨rfl, rfl, rfl⟩ rfl) trivial
      | processInstantSendLock islock pindexMined =>
        exact node.processInstantSendLock_marked_iff sound before (serializeHash islock) islock pindexMined
      | handleFullyConfirmedBlock nHeight => exact iff_of_true (node.confirmBlock_marked sound before nHeight) trivial
      | removeChainLockConflictingLock islock tipHeight =>
        exact iff_of_true (node.removeChainLockConflictingLock_marked sound before (serializeHash islock) islock tipHeight)
          trivial
  rw [← marked_iff]
  constructor
  · exact fun follow => follow.marked
  · intro marked
    refine ⟨marked, fun done event taken => ?_⟩
    rw [run_append]
    exact apply_kept (run_sound serializeHash done) (marked done ((prefix_append done [event]).trans taken)) event

end

private def locked : CTransaction := { vin := [{ prevout := ⟨3, 0⟩ }], vout := [⟨5, []⟩], hash := 7 }

private def coinbase (hash : Uint256) : CTransaction :=
  { vin := [{ prevout := ⟨0, 0xffffffff⟩ }], vout := [⟨5, []⟩], hash }

private def ofTxs (hash : Uint256) (vtx : List CTransaction) : CBlock := { vtx, hash }

/-- A locked transaction is mined, and its block is disconnected. -/
private def disconnected : List Event :=
  [.connectBlocks [ofTxs 1 [coinbase 11]] [] [], .acceptToMemoryPool locked,
    .processInstantSendLock ⟨[⟨3, 0⟩], 7, []⟩ none, .connectBlocks [ofTxs 2 [coinbase 12, locked]] [] [], .disconnectTip]

/-- Another block without the transaction, which is back in the mempool, is connected and fully confirmed. -/
private def confirmed : List Event :=
  [.connectBlocks [ofTxs 4 [coinbase 14]] [] [locked], .handleFullyConfirmedBlock 1]

/-- The mark of a disconnected transaction stays, and takes its lock away when another block gets confirmed. -/
theorem not_marksFollow_disconnected : let serializeHash := fun _ => 9
    (1, 9) ∈ (run serializeHash disconnected).db.db.mined ∧ (run serializeHash disconnected).chain.length = 1 ∧
      7 ∈ (run serializeHash (disconnected ++ confirmed)).mempool ∧
      (run serializeHash (disconnected ++ confirmed)).stored 9 = none ∧
      ¬ MarksFollow serializeHash (disconnected ++ confirmed) := by
  intro serializeHash
  have mark : (1, 9) ∈ (run serializeHash disconnected).db.db.mined := by decide +kernel
  have short : (run serializeHash disconnected).chain.length = 1 := by decide +kernel
  have isStored : (run serializeHash disconnected).stored 9 = some ⟨[⟨3, 0⟩], 7, []⟩ := by decide +kernel
  refine ⟨mark, short, by decide +kernel, by decide +kernel, fun follow => ?_⟩
  have marked := follow.marked disconnected (prefix_append _ _)
  obtain ⟨block, place, -⟩ := (marked 9 _ isStored 1).mp mark
  cases place

end Cspn.MinedMarks
