import Cspn.Paths
import Cspn.Disconnect

/-!
A node to which blocks are delivered one after another. `AcceptBlock` puts a block in the block index and checks the
stake of blocks without a nonce; `ActivateBestChain` moves the tip, one block at a time, towards a chain with the most
work. Which such chain is taken and what `GetTransaction` answers, whose index another thread fills, is left to the run.
-/
namespace Cspn.Arrival
open Primitives Index Coins Validation Env MnList MnBuild BlockCheck List Function
  SpecialTx Stake Connect Disconnect Paths

/-- The network, the surroundings of the node, and the header checks. -/
structure Setup where
  params : Params
  ext : Externals
  genesis : IndexFields
  root : genesis.phashBlock = params.hashGenesisBlock
  supply : genesis.nMoneySupply = 0
  noProof : genesis.hashProofOfStake = 0
  contextualCheckBlockHeader : CBlock → CBlockIndex → Bool
  getBlockProof : Nat → Nat
  nMinimumChainWork : Nat
  /-- `CalcCbTxMerkleRootQuorums` with the commitments mined so far. -/
  calcCbTxMerkleRootQuorums : List CFinalCommitment → CBlock → CBlockIndex → Option Uint256

/-- The blocks whose headers are known, the newest first. -/
structure BlockTree (root : Uint256) where
  blocks : List CBlock
  distinct : Distinct CBlock.hash root blocks

variable {hash : Uint256} {s : Setup}

namespace BlockTree
variable {root : Uint256} (tree : BlockTree root)

/-- The branch of a block, without the genesis block. -/
def path (hash : Uint256) : Option (List CBlock) :=
  Paths.path CBlock.hash (fun block => block.hashPrevBlock) root tree.blocks hash

def hashes : List Uint256 := root :: tree.blocks.map CBlock.hash

def add (block : CBlock) (fresh : block.hash ∉ tree.hashes) : BlockTree root where
  blocks := block :: tree.blocks
  distinct := by
    have before := tree.distinct
    unfold Distinct at before ⊢
    simp only [hashes, mem_cons, not_or] at fresh
    simp only [map_cons, nodup_cons, mem_cons, not_or] at before ⊢
    exact ⟨⟨Ne.symm fresh.1, before.1⟩, fresh.2, before.2⟩

variable {tree} {block other : CBlock} {rest front path : List CBlock}

theorem mem_of_path (found : tree.path hash = some path) (member : block ∈ path) : block ∈ tree.blocks :=
  Paths.mem_of_path tree.distinct found block member

theorem path_root : tree.path root = some [] := Paths.path_root tree.distinct

theorem eq_of_hash (member : block ∈ tree.blocks) (also : other ∈ tree.blocks) (same : block.hash = other.hash) :
    block = other := tree.distinct.injective member also same

theorem path_of_mem (found : tree.path hash = some (front ++ block :: rest)) :
    tree.path block.hash = some (block :: rest) := Paths.path_suffix tree.distinct found

section
variable (found : tree.path hash = some (block :: rest))
include found

theorem hash_of_path : block.hash = hash := key_of_path found

theorem path_tail : tree.path block.hashPrevBlock = some rest :=
  Paths.path_tail tree.distinct found

theorem not_mem_rest : block ∉ rest :=
  Paths.not_mem_rest tree.distinct found

theorem rest_unique {hash' : Uint256} {rest' : List CBlock}
    (found' : tree.path hash' = some (block :: rest')) : rest = rest' :=
  Option.some.inj ((path_tail found).symm.trans (path_tail found'))

end

theorem known_of_path (found : tree.path hash = some path) : hash ∈ tree.hashes := Paths.known_of_path found

theorem update_unknown {V : Type} (found : tree.path hash = some path) {other : Uint256} (unknown : other ∉ tree.hashes)
    (notes : Uint256 → V) (note : V) : update notes hash note other = notes other := by
  refine Function.update_of_ne ?_ _ _
  rintro rfl
  exact unknown (known_of_path found)

theorem path_add (fresh : other.hash ∉ tree.hashes) (found : tree.path hash = some path) :
    (tree.add other fresh).path hash = some path := Paths.path_cons (tree.add other fresh).distinct found

theorem path_of_add (fresh : other.hash ∉ tree.hashes) (found : (tree.add other fresh).path hash = some path) :
    tree.path hash = some path ∨
      hash = other.hash ∧ ∃ rest, path = other :: rest ∧ tree.path other.hashPrevBlock = some rest := by
  by_cases here : other.hash = hash
  · subst here
    obtain ⟨rest, below, rfl⟩ := Option.map_eq_some_iff.mp ((if_pos rfl).symm.trans found)
    exact .inr ⟨rfl, rest, rfl, below⟩
  · exact .inl ((path_cons_of_ne here).symm.trans found)

end BlockTree

inductive LogEntry where
  /-- `AcceptBlock: proof of stake is incorrect` -/
  | stakeIncorrect (hash : Uint256)
  /-- `ConnectTip: ConnectBlock failed` -/
  | connectFailed (hash : Uint256)
  /-- `UpdateTip: new best` -/
  | newBest (hash : Uint256)
deriving DecidableEq

/-- The state of a node. Index entries are kept by parts: the header in the tree, all else by hash. -/
structure Node (s : Setup) where
  tree : BlockTree s.genesis.phashBlock
  stake : Uint256 → StakeFields
  nMint : Uint256 → Int
  nMoneySupply : Uint256 → Int
  fHaveData : Uint256 → Bool
  fFailed : Uint256 → Bool
  fConflictChainLock : Uint256 → Bool
  m_failed_blocks : List Uint256
  undo : Uint256 → Option (List (List TxInUndo))
  lists : Uint256 → CDeterministicMNList
  tip : Uint256
  pcoinsTip : CCoinsView
  m_pos_index : List Uint256
  hashBestSpecial : Option Uint256
  fShutdown : Bool
  log : List LogEntry

def noStake : StakeFields where
  hashProofOfStake := 0
  nStakeModifier := 0
  fGeneratedStakeModifier := false
  nStakeModifierChecksum := 0

def Node.start (s : Setup) : Node s where
  tree := ⟨[], by simp [Distinct]⟩
  stake _ := noStake
  nMint _ := 0
  nMoneySupply _ := 0
  fHaveData _ := false
  fFailed _ := false
  fConflictChainLock _ := false
  m_failed_blocks := []
  undo _ := none
  lists _ := {}
  tip := s.genesis.phashBlock
  pcoinsTip := CCoinsView.empty s.genesis.phashBlock
  m_pos_index := []
  hashBestSpecial := none
  fShutdown := false
  log := []

/-! ### The index of a node -/

def indexFrom (genesis : IndexFields) (fieldsOf : CBlock → IndexFields) : List CBlock → CBlockIndex
  | [] => .genesis genesis
  | block :: rest => .next (indexFrom genesis fieldsOf rest) (fieldsOf block)

namespace Node
variable (n : Node s)

def fieldsOf (block : CBlock) : IndexFields where
  phashBlock := block.hash
  nTime := block.nTime
  nBits := block.nBits
  nNonce := block.nNonce
  nMint := n.nMint block.hash
  nMoneySupply := n.nMoneySupply block.hash
  fGeneratedStakeModifier := (n.stake block.hash).fGeneratedStakeModifier
  nStakeModifier := (n.stake block.hash).nStakeModifier
  nStakeModifierChecksum := (n.stake block.hash).nStakeModifierChecksum
  hashProofOfStake := (n.stake block.hash).hashProofOfStake

def indexOn (path : List CBlock) : CBlockIndex := indexFrom s.genesis n.fieldsOf path

theorem getBlockHash_indexOn {path : List CBlock} (found : n.tree.path hash = some path) :
    (n.indexOn path).getBlockHash = hash := by
  cases path with
  | nil =>
    rcases Paths.path_cases found with ⟨-, rfl⟩ | ⟨_, _, is, -⟩
    · rfl
    · cases is
  | cons block rest => exact BlockTree.hash_of_path found

def mapBlockIndex : BlockMap where
  find hash := (n.tree.path hash).map n.indexOn
  keyed := by
    intro hash p found
    obtain ⟨path, isPath, rfl⟩ := Option.map_eq_some_iff.mp found
    exact n.getBlockHash_indexOn isPath
  closed := by
    intro hash pprev fields found
    obtain ⟨path, isPath, is⟩ := Option.map_eq_some_iff.mp found
    cases path with
    | nil => cases is
    | cons block rest =>
      cases is
      have below := BlockTree.path_tail isPath
      have named : (indexFrom s.genesis n.fieldsOf rest).getBlockHash = block.hashPrevBlock := n.getBlockHash_indexOn below
      rw [named, below]
      rfl

def chain : List CBlock := (n.tree.path n.tip).getD []

end Node

def minedIn (params : Params) (nHeight : Nat) (block : CBlock) : List CFinalCommitment :=
  if nHeight < params.nLLMQActivationHeight then []
  else
    match getCommitmentsFromBlock params block nHeight with
    | .ok qcs => qcs.filter fun qc => !qc.isNull
    | .error _ => []

def minedOn (params : Params) : List CBlock → List CFinalCommitment
  | [] => []
  | block :: rest => minedIn params (rest.length + 1) block ++ minedOn params rest

/-- What validation reads of the node; `getTransaction` is what `GetTransaction` answers. -/
def Node.globals {s : Setup} (n : Node s) (getTransaction : TxSource) : Globals where
  mapBlockIndex := n.mapBlockIndex
  chainActive := ⟨some (n.indexOn n.chain)⟩
  pcoinsTip := n.pcoinsTip
  m_pos_index := n.m_pos_index
  getTransaction
  hashBestSpecial := n.hashBestSpecial
  getListForBlock pindex := n.lists pindex.getBlockHash
  hasMinedCommitment type hash := (minedOn s.params n.chain).any fun qc => decide (qc.llmqType = type ∧ qc.quorumHash = hash)
  calcCbTxMerkleRootQuorums := s.calcCbTxMerkleRootQuorums (minedOn s.params n.chain)

/-! ### Accepting blocks -/

section
variable (n : Node s)

def Node.failChildren (blocks : List CBlock) : Node s :=
  { n with fFailed := fun hash => n.fFailed hash || blocks.any fun block => decide (block.hash = hash) }

variable (block : CBlock) (path : List CBlock) (getTransaction : TxSource)

/-- `AcceptBlockHeader`; blocks are told apart by their hashes. -/
def acceptBlockHeader : Node s × Bool :=
  if known : block.hash ∈ n.tree.hashes then (n, !n.fFailed block.hash)
  else
    match n.tree.path block.hashPrevBlock with
    | none => (n, false)
    | some path =>
      if n.fFailed block.hashPrevBlock || n.fConflictChainLock block.hashPrevBlock ||
          !s.contextualCheckBlockHeader block (n.indexOn path) then (n, false)
      else if s.ext.hasConflictingChainLock (path.length + 1) block.hash then
        ({ n with
            tree := n.tree.add block known
            fConflictChainLock := update n.fConflictChainLock block.hash true }, false)
      else if (n.undo block.hashPrevBlock).isNone && path.any fun b => n.m_failed_blocks.contains b.hash then
        (n.failChildren (path.takeWhile fun b => !n.m_failed_blocks.contains b.hash), false)
      else ({ n with tree := n.tree.add block known }, true)

def MIN_BLOCKS_TO_KEEP : Nat := 288

def chainWork (s : Setup) (path : List CBlock) : Nat := (path.map fun block => s.getBlockProof block.nBits).sum

def isWorthwhile : Bool :=
  decide (chainWork s n.chain ≤ chainWork s path) && decide (path.length ≤ n.chain.length + MIN_BLOCKS_TO_KEEP) &&
    decide (s.nMinimumChainWork ≤ chainWork s path)

def Node.invalidFound (hash : Uint256) : Failure → Node s
  | .invalid reason _ =>
    if reason = .BLOCK_MUTATED then n else { n with fFailed := update n.fFailed hash true }
  | _ => n

def Node.stakeFailed (hash : Uint256) : Node s :=
  { n with
    fFailed := update n.fFailed hash true
    log := .stakeIncorrect hash :: n.log }

def Node.stakeWritten (hash : Uint256) (stake : StakeFields) : Node s :=
  { n with
    stake := update n.stake hash stake
    m_pos_index := insertPoSIndex n.m_pos_index stake.hashProofOfStake }

def Node.received (hash : Uint256) : Node s := { n with fHaveData := update n.fHaveData hash true }

/-- `AcceptBlock` once the header is accepted, for a block on the branch `path`. -/
def acceptData : Node s :=
  match (checkBlock s.ext block true true).bind fun _ => contextualCheckBlock s.ext block (n.indexOn path) with
  | .error failure => n.invalidFound block.hash failure
  | .ok () =>
    if block.nNonce = 0 then
      match posContextualBlockChecks s.params s.ext (n.globals getTransaction) block (n.indexOn path) with
      | none => n.stakeFailed block.hash
      | some stake => (n.stakeWritten block.hash stake).received block.hash
    else n.received block.hash

/-- `AcceptBlock`. A copy of a known header with other transactions is not followed. -/
def acceptBlock (fRequested : Bool) (getTransaction : TxSource) : Node s :=
  let accepted := acceptBlockHeader n block
  if accepted.2 && !accepted.1.fHaveData block.hash then
    match accepted.1.tree.path block.hash with
    | some (known :: path) =>
      if known = block ∧ (fRequested || isWorthwhile accepted.1 (known :: path)) = true then
        acceptData accepted.1 block path getTransaction
      else accepted.1
    | _ => accepted.1
  else accepted.1

/-! ### Moving the tip -/

/-- What the stake checks of `ConnectBlock` leave behind, also where a later check fails. -/
def Node.staged (g : Globals) : Node s :=
  match stakeStage s.params s.ext g block (n.indexOn n.chain) (n.fieldsOf block) false with
  | .error _ => n
  | .ok stake =>
    { n with
      stake := update n.stake block.hash
        { hashProofOfStake := stake.1.hashProofOfStake
          nStakeModifier := stake.1.nStakeModifier
          fGeneratedStakeModifier := stake.1.fGeneratedStakeModifier
          nStakeModifierChecksum := stake.1.nStakeModifierChecksum }
      m_pos_index := stake.2 }

def Node.connectFailed (hash : Uint256) (failure : Failure) : Node s :=
  let logged : Node s := { n with log := .connectFailed hash :: n.log }
  match failure with
  | .invalid reason _ =>
    if reason = .BLOCK_MUTATED then logged
    else
      { logged with
        fFailed := update n.fFailed hash true
        m_failed_blocks := hash :: n.m_failed_blocks }
  | .unset => logged
  | .error _ | .aborted => { logged with fShutdown := true }

def listAfter (s : Setup) (g : Globals) (block : CBlock) (pindexPrev : CBlockIndex) : CDeterministicMNList :=
  match buildNewListFromBlock (buildEnv s.params s.ext g) block pindexPrev (g.getListForBlock pindexPrev) with
  | .ok newList => newList
  | .error _ => {}

/-- `ConnectTip` when `ConnectBlock` succeeds; undo data is written once. -/
def Node.connected (c : Connection) (newList : CDeterministicMNList) : Node s :=
  { n with
    nMint := update n.nMint block.hash c.fields.nMint
    nMoneySupply := update n.nMoneySupply block.hash c.fields.nMoneySupply
    undo := update n.undo block.hash (some ((n.undo block.hash).getD (blockUndo c)))
    lists := update n.lists block.hash newList
    tip := block.hash
    pcoinsTip := c.view
    hashBestSpecial := some block.hash
    log := .newBest block.hash :: n.log }

def connectTip : Node s :=
  let g := n.globals getTransaction
  let staged := n.staged block g
  match connectBlock s.params s.ext g block (n.indexOn n.chain) (n.fieldsOf block) n.pcoinsTip false with
  | .ok c => staged.connected block c (listAfter s g block (n.indexOn n.chain))
  | .error failure => staged.connectFailed block.hash failure

/-- `DisconnectTip`; a block that cannot be disconnected stops the node. -/
def disconnectTip : Node s :=
  match n.chain with
  | [] => n
  | block :: rest =>
    match disconnectBlock s.params (n.globals fun _ => none) block (n.indexOn rest) (n.fieldsOf block)
        (n.undo block.hash) n.pcoinsTip with
    | .DISCONNECT_OK view =>
      { n with
        tip := block.hashPrevBlock
        pcoinsTip := view
        hashBestSpecial := some block.hashPrevBlock }
    | _ => { n with fShutdown := true }

def isCandidate : Bool := path.all fun block => n.fHaveData block.hash && !n.fFailed block.hash

/-- `FindMostWorkChain` may return the top of this branch. -/
def isMostWork : Bool :=
  isCandidate n path && n.tree.blocks.all fun block =>
    (n.tree.path block.hash).all fun other => !isCandidate n other || decide (chainWork s other ≤ chainWork s path)

/-- One move of `ActivateBestChainStep`: the tip goes if it is not on the branch of `pindexMostWork`, otherwise the
    block after it comes. -/
def activateBestChainStep (pindexMostWork : Uint256) (getTransaction : TxSource) :
    Node s :=
  match n.tree.path pindexMostWork with
  | none => n
  | some path =>
    if n.fShutdown || !isMostWork n path || decide (pindexMostWork = n.tip) then n
    else
      match path.find? fun block => decide (block.hashPrevBlock = n.tip) with
      | some block => connectTip n block getTransaction
      | none => disconnectTip n

end

/-- What happens to the node, with what `GetTransaction` answers meanwhile. -/
inductive Action where
  | deliver (block : CBlock) (fRequested : Bool) (getTransaction : TxSource)
  | activate (pindexMostWork : Uint256) (getTransaction : TxSource)

def act {s : Setup} (n : Node s) : Action → Node s
  | .deliver block fRequested getTransaction => acceptBlock n block fRequested getTransaction
  | .activate pindexMostWork getTransaction => activateBestChainStep n pindexMostWork getTransaction

def run (s : Setup) (actions : List Action) : Node s := actions.foldl act (Node.start s)

section

inductive HeaderStep (n : Node s) (block : CBlock) : Node s × Bool → Prop where
  | known {accepted : Bool} : HeaderStep n block (n, accepted)
  | refused {fFailed : Uint256 → Bool} : HeaderStep n block ({ n with fFailed }, false)
  | locked {fresh : block.hash ∉ n.tree.hashes} {fConflictChainLock : Uint256 → Bool} :
      HeaderStep n block ({ n with tree := n.tree.add block fresh, fConflictChainLock }, false)
  | added {fresh : block.hash ∉ n.tree.hashes} : HeaderStep n block ({ n with tree := n.tree.add block fresh }, true)

inductive DataStep (n : Node s) (block : CBlock) (path : List CBlock)
    (getTransaction : TxSource) : Node s → Prop where
  | invalid {fFailed : Uint256 → Bool} : DataStep n block path getTransaction { n with fFailed }
  | stakeFailed (nonce : block.nNonce = 0)
      (failed : posContextualBlockChecks s.params s.ext (n.globals getTransaction) block (n.indexOn path) = none) :
      DataStep n block path getTransaction (n.stakeFailed block.hash)
  | stakeWritten {stake : StakeFields} (nonce : block.nNonce = 0)
      (passed : posContextualBlockChecks s.params s.ext (n.globals getTransaction) block (n.indexOn path) = some stake) :
      DataStep n block path getTransaction ((n.stakeWritten block.hash stake).received block.hash)
  | received : DataStep n block path getTransaction (n.received block.hash)

inductive AcceptStep (n : Node s) (block : CBlock) (getTransaction : TxSource) :
    Node s → Prop where
  | header {after : Node s} {accepted : Bool} (step : HeaderStep n block (after, accepted)) :
      AcceptStep n block getTransaction after
  | data {middle after : Node s} {path : List CBlock} (step : HeaderStep n block (middle, true))
      (missing : middle.fHaveData block.hash = false) (found : middle.tree.path block.hash = some (block :: path))
      (step' : DataStep middle block path getTransaction after) : AcceptStep n block getTransaction after

inductive TipStep (n : Node s) (pindexMostWork : Uint256)
    (getTransaction : TxSource) : Node s → Prop where
  | stays : TipStep n pindexMostWork getTransaction n
  | stopped : TipStep n pindexMostWork getTransaction { n with fShutdown := true }
  | connected {path : List CBlock} {block : CBlock} {c : Connection} (isPath : n.tree.path pindexMostWork = some path)
      (next : path.find? (fun b => decide (b.hashPrevBlock = n.tip)) = some block)
      (data : n.fHaveData block.hash = true)
      (connected : connectBlock s.params s.ext (n.globals getTransaction) block (n.indexOn n.chain) (n.fieldsOf block)
        n.pcoinsTip false = .ok c) :
      TipStep n pindexMostWork getTransaction
        ((n.staged block (n.globals getTransaction)).connected block c
          (listAfter s (n.globals getTransaction) block (n.indexOn n.chain)))
  | failed {path : List CBlock} {block : CBlock} {failure : Failure} {fFailed : Uint256 → Bool}
      {m_failed_blocks : List Uint256} {fShutdown : Bool} (isPath : n.tree.path pindexMostWork = some path)
      (next : path.find? (fun b => decide (b.hashPrevBlock = n.tip)) = some block)
      (data : n.fHaveData block.hash = true)
      (failed : connectBlock s.params s.ext (n.globals getTransaction) block (n.indexOn n.chain) (n.fieldsOf block)
        n.pcoinsTip false = .error failure) :
      TipStep n pindexMostWork getTransaction
        { n.staged block (n.globals getTransaction) with
          log := .connectFailed block.hash :: (n.staged block (n.globals getTransaction)).log
          fFailed, m_failed_blocks, fShutdown }
  | disconnected {block : CBlock} {rest : List CBlock} {view : CCoinsView} (isChain : n.chain = block :: rest)
      (done : disconnectBlock s.params (n.globals fun _ => none) block (n.indexOn rest) (n.fieldsOf block)
        (n.undo block.hash) n.pcoinsTip = .DISCONNECT_OK view) :
      TipStep n pindexMostWork getTransaction
        { n with
          tip := block.hashPrevBlock
          pcoinsTip := view
          hashBestSpecial := some block.hashPrevBlock }

variable (n : Node s)
include n

theorem acceptBlockHeader_step (block : CBlock) : HeaderStep n block (acceptBlockHeader n block) := by
  unfold acceptBlockHeader
  split
  · exact .known
  · split
    · exact .known
    · split
      · exact .known
      · split
        · exact .locked
        · split
          · exact .refused
          · exact .added

theorem acceptBlock_step (block : CBlock) (fRequested : Bool) (getTransaction : TxSource) :
    AcceptStep n block getTransaction (acceptBlock n block fRequested getTransaction) := by
  have step := acceptBlockHeader_step n block
  unfold acceptBlock
  generalize acceptBlockHeader n block = result at step
  obtain ⟨middle, accepted⟩ := result
  dsimp only
  split
  next proceeds =>
    simp only [Bool.and_eq_true, Bool.not_eq_true'] at proceeds
    obtain ⟨rfl, missing⟩ := proceeds
    split
    next found =>
      split
      next wanted =>
        obtain ⟨rfl, -⟩ := wanted
        refine .data step missing found ?_
        unfold acceptData
        split
        · unfold Node.invalidFound
          split
          · split <;> exact .invalid
          · exact .invalid
        · split
          next nonce =>
            split
            next failed => exact .stakeFailed nonce failed
            next passed => exact .stakeWritten nonce passed
          · exact .received
      · exact .header step
    · exact .header step
  · exact .header step

theorem activateBestChainStep_step (pindexMostWork : Uint256) (getTransaction : TxSource) :
    TipStep n pindexMostWork getTransaction (activateBestChainStep n pindexMostWork getTransaction) := by
  unfold activateBestChainStep
  split
  · exact .stays
  next path isPath =>
    split
    · exact .stays
    next proceeds =>
      split
      next block next =>
        have data : n.fHaveData block.hash = true := by
          simp only [isMostWork, isCandidate, Bool.or_eq_true, Bool.not_eq_true', Bool.and_eq_false_iff, not_or,
            Bool.not_eq_false, all_eq_true, Bool.and_eq_true] at proceeds
          exact (proceeds.1.2.1 block (mem_of_find?_eq_some next)).1
        unfold connectTip
        dsimp only
        split
        next connected => exact .connected isPath next data connected
        next failed =>
          unfold Node.connectFailed
          split
          · split <;> exact .failed isPath next data failed
          all_goals exact .failed isPath next data failed
      next =>
        unfold disconnectTip
        split
        · exact .stays
        next isChain =>
          split
          next done => exact .disconnected isChain done
          · exact .stopped

end

end Cspn.Arrival
