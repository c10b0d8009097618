import Cspn.OwnBranch

/-!
What the state of a node says about the branches it knows, as long as the stake checks read the branch of their block
and no block replaces an unspent output: about the stake fields in the index (`StakesSound`), the coins at the tip and
the undo data (`ChainSound`), and the refused blocks (`LogSound`).
-/
namespace Cspn.NodeState
open Primitives Index Coins Env MnList Stake List Option Function CBlockIndex
  Kernel Connect Overwrite Disconnect Verdict Arrival OwnBranch
open BlockTree

variable {s : Setup} {n n' : Node s} {path rest : List CBlock} {genesis : IndexFields} {f : CBlock → IndexFields}
  {hash : Uint256} {block other : CBlock} {tx : CTransaction} {stake : StakeFields}
  {m_pos_index m_failed_blocks : List Uint256} {getTransaction : TxSource} {fFailed fConflictChainLock : Uint256 → Bool}
  {fShutdown : Bool}

def Checked (n : Node s) (block : CBlock) : Prop := ¬ StakeUnchecked (n.fieldsOf block)

/-- The part of the kernel that a block shows: the number of the staked output and the time. -/
def stakeMark (block : CBlock) : Option (Nat × Nat) := (kernelOf block).map fun prevout => (prevout.n, block.nTime)

/-- The stake checks of a block on the branch `path` read that branch: its blocks are checked, the staked transaction
    is looked up there, the modifier of the kernel is there, and so is every checked block that shows the same kernel.
    -/
structure OwnKernel (n : Node s) (block : CBlock) (path : List CBlock)
    (getTransaction : TxSource) : Prop where
  checked : ∀ ancestor ∈ path, Checked n ancestor
  found : block.isProofOfStake = true → ∀ prevout, kernelOf block = some prevout →
    getTransaction prevout.hash = ownTransaction path prevout.hash
  reaches : block.isProofOfStake = true → ∀ prevout tx hash front below, kernelOf block = some prevout →
    ownTransaction path prevout.hash = some (tx, hash) → path = front ++ below →
    (n.indexOn below).getBlockHash = hash →
    ReachesModifier s.params.nModifierInterval (n.indexOn below) (n.indexOn path)
  apart : block.isProofOfStake = true → ∀ other ∈ n.tree.blocks, Checked n other → other.isProofOfStake = true →
    stakeMark other = stakeMark block → other ∈ path

/-- What a regular node is given: where the stake checks are made they read the branch of the block, and a block that
is connected replaces no unspent output. -/
def Regular (n : Node s) : Action → Prop
  | .deliver block _ getTransaction =>
    block.nNonce = 0 → n.fHaveData block.hash = false →
      ∀ path, n.tree.path block.hashPrevBlock = some path → OwnKernel n block path getTransaction
  | .activate pindexMostWork getTransaction =>
    ∀ path block, n.tree.path pindexMostWork = some path →
      path.find? (fun b => decide (b.hashPrevBlock = n.tip)) = some block →
      (¬ Checked n block → OwnKernel n block n.chain getTransaction) ∧
        ¬ BlockOverwrites ⟨block, n.indexOn n.chain, n.pcoinsTip⟩

def RegularFrom (n : Node s) : List Action → Prop
  | [] => True
  | action :: rest => Regular n action ∧ RegularFrom (act n action) rest

/-- The hashes of stakes and modifiers do not depend on the supply, a checksum is not zero, and a proof tells the
    output and the time it was made for. -/
structure StakeHashing (ext : Externals) : Prop where
  ignores : IgnoresSupply ext
  nonzero : ∀ p block hashProofOfStake nStakeModifier fGenerated,
    ext.getStakeModifierChecksum p block hashProofOfStake nStakeModifier fGenerated ≠ 0
  injective : ∀ {m t u n time m' t' u' n' time'}, ext.stakeHash m t u n time = ext.stakeHash m' t' u' n' time' →
    n = n' ∧ time = time'

section
variable {front : List CBlock}

theorem indexFrom_congr {f' : CBlock → IndexFields} (same : ∀ block ∈ path, f block = f' block) :
    indexFrom genesis f path = indexFrom genesis f' path := by
  induction path with
  | nil => rfl
  | cons block rest ih =>
    obtain ⟨first, others⟩ := forall_mem_cons.mp same
    rw [indexFrom, indexFrom, first, ih others]

theorem bare_indexFrom :
    (indexFrom genesis f path).bare = indexFrom genesis (fun block => { f block with nMint := 0, nMoneySupply := 0 }) path := by
  induction path with
  | nil => rfl
  | cons block rest ih => rw [indexFrom, indexFrom, bare, ih]

theorem bare_indexOn_congr (same : ∀ block ∈ path, n.stake block.hash = n'.stake block.hash) :
    (n.indexOn path).bare = (n'.indexOn path).bare := by
  unfold Node.indexOn
  rw [bare_indexFrom, bare_indexFrom]
  refine indexFrom_congr fun block member => ?_
  simp [Node.fieldsOf, same block member]

theorem ancestor_indexOn (front : List CBlock) : AncestorOrEq (n.indexOn rest) (n.indexOn (front ++ rest)) := by
  induction front with
  | nil => exact .refl _
  | cons block front ih => exact .step _ ih

theorem exists_of_ancestor {a : CBlockIndex} (above : AncestorOrEq a (n.indexOn path)) :
    ∃ front rest, path = front ++ rest ∧ a = n.indexOn rest := by
  induction path with
  | nil => cases above; exact ⟨[], [], rfl, rfl⟩
  | cons block rest ih =>
    cases above with
    | refl => exact ⟨[], _, rfl, rfl⟩
    | step f above =>
      obtain ⟨front, behind, rfl, is⟩ := ih above
      exact ⟨block :: front, behind, rfl, is⟩

theorem mem_mapBlockIndex (found : n.tree.path hash = some path) : n.mapBlockIndex.mem (n.indexOn path) := by
  unfold BlockMap.mem
  rw [n.getBlockHash_indexOn found]
  exact congrArg (Option.map n.indexOn) found

end

/-! ### Stakes -/

def ProofOf (ext : Externals) (block : CBlock) (proof : Uint256) : Prop :=
  block.isProofOfStake = true ∧ ∃ prevout nStakeModifier nTime, kernelOf block = some prevout ∧
    proof = ext.stakeHash nStakeModifier nTime nTime prevout.n block.nTime

variable {ext : Externals} {pindexPrev : CBlockIndex} {g : Globals} {proof : Uint256} {params : Params}

theorem checkStakeKernelHash_proof {nBits : Nat}
    {pindexFrom : CBlockIndex} {txPrev : CTransaction} {prevout : COutPoint} {nTimeTx : Nat}
    (passed : checkStakeKernelHash params ext g nBits pindexPrev pindexFrom txPrev prevout nTimeTx = some proof) :
    ∃ nStakeModifier nHeight nTime,
      (getKernelStakeModifierV03 params.nModifierInterval g.mapBlockIndex g.chainActive pindexPrev
        pindexFrom.getBlockHash).outcome = .found nStakeModifier nHeight nTime ∧
      proof = ext.stakeHash nStakeModifier pindexFrom.getBlockTime pindexFrom.getBlockTime prevout.n nTimeTx := by
  unfold checkStakeKernelHash at passed
  dsimp only at passed
  split at passed
  · cases passed
  · obtain ⟨out, -, rest⟩ := bind_eq_some_iff.mp passed
    split at rest
    · cases rest
    · split at rest
      next found =>
        split at rest
        · cases rest
        · exact ⟨_, _, _, found, (some.inj rest).symm⟩
      · cases rest

theorem checkProofOfStake_proof (passed : checkProofOfStake params ext g block pindexPrev = some proof) :
    ProofOf ext block proof := by
  obtain ⟨tx, second, rest⟩ := bind_eq_some_iff.mp passed
  split at rest
  · cases rest
  next coinstake =>
    obtain ⟨txin, first, rest⟩ := bind_eq_some_iff.mp rest
    obtain ⟨found, -, rest⟩ := bind_eq_some_iff.mp rest
    obtain ⟨pindexFrom, -, rest⟩ := bind_eq_some_iff.mp rest
    split at rest
    · cases rest
    · obtain ⟨prevOut, -, rest⟩ := bind_eq_some_iff.mp rest
      split at rest
      · cases rest
      · obtain ⟨_, _, _, -, is⟩ := checkStakeKernelHash_proof rest
        refine ⟨?_, txin.prevout, _, _, ?_, is⟩
        · rcases vtx : block.vtx with _ | ⟨coinbase, _ | ⟨next, others⟩⟩ <;> simp_all [CBlock.isProofOfStake]
        · simp [kernelOf, second, first]

theorem posContextualBlockChecks_fields (hashing : StakeHashing ext)
    (passed : posContextualBlockChecks params ext g block pindexPrev = some stake) :
    stake.nStakeModifierChecksum ≠ 0 ∧ (stake.hashProofOfStake ≠ 0 → ProofOf ext block stake.hashProofOfStake) := by
  obtain ⟨proof, proved, rest⟩ := bind_eq_some_iff.mp passed
  split at rest
  · cases rest
  · obtain ⟨modifier, -, rfl⟩ := map_eq_some_iff.mp rest
    refine ⟨hashing.nonzero _ _ _ _ _, fun nonzero => ?_⟩
    split at proved
    · exact checkProofOfStake_proof proved
    · cases proved; exact absurd rfl nonzero

theorem mem_insertPoSIndex :
    proof ∈ insertPoSIndex m_pos_index hash ↔ proof ∈ m_pos_index ∨ proof ≠ 0 ∧ proof = hash := by
  unfold insertPoSIndex
  split
  next skipped =>
    rcases skipped with rfl | known
    · simp only [iff_self_or, and_imp]
      exact fun nonzero null => absurd null nonzero
    · simp only [iff_self_or, and_imp]
      rintro - rfl
      exact known
  next added =>
    obtain ⟨nonzero, -⟩ := not_or.mp added
    simp only [mem_append, mem_singleton]
    refine or_congr_right ⟨fun is => ⟨is ▸ nonzero, is⟩, And.right⟩

theorem path_start (found : (Node.start s).tree.path hash = some path) : path = [] := by
  rcases Paths.path_cases found with ⟨rfl, -⟩ | ⟨_, _, -, member, -⟩
  · rfl
  · cases member

open BlockTree

theorem mem_hashes_add (fresh : block.hash ∉ n.tree.hashes) (known : hash ∈ n.tree.hashes) :
    hash ∈ (n.tree.add block fresh).hashes := by
  simp only [hashes, add, mem_cons, map_cons] at known ⊢
  exact known.imp_right .inr

/-- The stake fields of the index: a checked block has checked ancestors, checked branches have the fields they give
    themselves, and the stakes seen are those of checked blocks. -/
structure StakesSound {s : Setup} (n : Node s) : Prop where
  fresh : ∀ {hash}, hash ∉ n.tree.hashes → n.stake hash = noStake
  data : ∀ {block}, block ∈ n.tree.blocks → Checked n block → n.fHaveData block.hash = true
  below : ∀ {hash block rest}, n.tree.path hash = some (block :: rest) → Checked n block →
    ∀ ancestor ∈ rest, Checked n ancestor
  marked : ∀ {hash path}, n.tree.path hash = some path → (∀ ancestor ∈ path, Checked n ancestor) →
    Marked s path (n.indexOn path).bare
  proofs : ∀ {block}, block ∈ n.tree.blocks → Checked n block → (n.stake block.hash).hashProofOfStake ≠ 0 →
    ProofOf s.ext block (n.stake block.hash).hashProofOfStake
  seen : ∀ proof, proof ∈ n.m_pos_index ↔
    proof ≠ 0 ∧ ∃ block ∈ n.tree.blocks, Checked n block ∧ (n.stake block.hash).hashProofOfStake = proof

namespace StakesSound

theorem start : StakesSound (Node.start s) where
  fresh _ := rfl
  data member := by cases member
  below found := by cases path_start found
  marked found _ := by
    cases path_start found
    exact .genesis
  proofs member := by cases member
  seen proof := by simp [Node.start]

theorem checked_stakeWritten (nonzero : stake.nStakeModifierChecksum ≠ 0) (other : CBlock) :
    Checked (n.stakeWritten block.hash stake) other ↔ other.hash = block.hash ∨ Checked n other := by
  simp only [Checked, StakeUnchecked, Node.fieldsOf, Node.stakeWritten]
  by_cases same : other.hash = block.hash
  · simp [same, nonzero]
  · simp [same, update_of_ne]

variable (sound : StakesSound n)
include sound

theorem congr (tree : n'.tree = n.tree) (stake : n'.stake = n.stake)
    (data : ∀ hash, n.fHaveData hash = true → n'.fHaveData hash = true) (seen : n'.m_pos_index = n.m_pos_index) :
    StakesSound n' := by
  have checked : ∀ block, Checked n' block ↔ Checked n block := by
    intro block
    simp [Checked, StakeUnchecked, Node.fieldsOf, stake]
  refine ⟨?_, ?_, ?_, ?_, ?_, ?_⟩
  · rw [tree, stake]; exact sound.fresh
  · rw [tree]; exact fun member is => data _ (sound.data member ((checked _).mp is))
  · rw [tree]
    exact fun found is ancestor member => (checked _).mpr (sound.below found ((checked _).mp is) ancestor member)
  · rw [tree]
    intro hash path found all
    rw [bare_indexOn_congr fun block _ => congrFun stake block.hash]
    exact sound.marked found fun ancestor member => (checked _).mp (all ancestor member)
  · rw [tree, stake]
    exact fun member is => sound.proofs member ((checked _).mp is)
  · rw [tree, stake, seen]
    simp only [checked]
    exact sound.seen

theorem reads (hashing : StakeHashing s.ext) (own : OwnKernel n block path getTransaction)
    (found : n.tree.path hash = some path) : StakeReads s path (n.indexOn path) (n.globals getTransaction) block where
  indexed := mem_mapBlockIndex found
  found := own.found
  kernel := by
    intro isStake prevout tx hash kernel answered
    obtain ⟨from', member, inBlock⟩ := exists_of_findSome?_eq_some answered
    obtain ⟨_, -, is⟩ := map_eq_some_iff.mp inBlock
    cases is
    obtain ⟨front, rest, rfl⟩ := append_of_mem member
    have isPath := path_of_mem found
    exact ⟨n.indexOn (from' :: rest), congrArg (Option.map n.indexOn) isPath, ancestor_indexOn front,
      own.reaches isStake prevout tx _ front _ kernel answered rfl (n.getBlockHash_indexOn isPath)⟩
  seen := by
    intro proof passed
    have shown := checkProofOfStake_proof passed
    refine (sound.seen proof).trans (and_congr_right fun nonzero => ⟨?_, ?_⟩)
    · -- A block with this proof shows the same kernel, so it is on the branch.
      rintro ⟨other, member, checked, rfl⟩
      have also := sound.proofs member checked nonzero
      obtain ⟨isStake, prevout, _, _, kernel, made⟩ := shown
      obtain ⟨also, prevout', _, _, kernel', made'⟩ := also
      obtain ⟨index, time⟩ := hashing.injective (made.symm.trans made')
      have inPath := own.apart isStake other member checked also (by simp [stakeMark, kernel, kernel', index, time])
      obtain ⟨front, rest, rfl⟩ := append_of_mem inPath
      exact ⟨n.indexOn (other :: rest), ancestor_indexOn front, rfl⟩
    · rintro ⟨a, above, has⟩
      obtain ⟨front, rest, rfl, rfl⟩ := exists_of_ancestor above
      cases rest with
      | nil => exact absurd (has.symm.trans s.noProof) nonzero
      | cons other rest =>
        have member : other ∈ front ++ other :: rest := by simp
        exact ⟨other, mem_of_path found member, own.checked other member, has⟩
  noNull null := ((sound.seen 0).mp null).1 rfl

theorem stakeWritten (hashing : StakeHashing s.ext)
    (found : n.tree.path block.hash = some (block :: path)) (unchecked : ¬ Checked n block)
    (own : OwnKernel n block path getTransaction) (data : n.fHaveData block.hash = true)
    (passed : posContextualBlockChecks s.params s.ext (n.globals getTransaction) block (n.indexOn path) = some stake) :
    StakesSound (n.stakeWritten block.hash stake) := by
  obtain ⟨nonzero, proof⟩ := posContextualBlockChecks_fields hashing passed
  have checked : ∀ other, Checked (n.stakeWritten block.hash stake) other ↔ other.hash = block.hash ∨ Checked n other :=
    checked_stakeWritten nonzero
  have known : block ∈ n.tree.blocks := mem_of_path found (.head _)
  have is : ∀ {other}, other ∈ n.tree.blocks → other.hash = block.hash → other = block :=
    fun member same => eq_of_hash member known same
  have kept : ∀ {other}, other ∈ n.tree.blocks → other ≠ block →
      (n.stakeWritten block.hash stake).stake other.hash = n.stake other.hash :=
    fun member other => update_of_ne (fun same => other (is member same)) _ _
  have written : (n.stakeWritten block.hash stake).stake block.hash = stake := update_self ..
  have old : ∀ {other}, other ∈ n.tree.blocks → other ≠ block → Checked (n.stakeWritten block.hash stake) other →
      Checked n other :=
    fun member other now => ((checked _).mp now).resolve_left fun same => other (is member same)
  refine ⟨?_, ?_, ?_, ?_, ?_, ?_⟩
  · intro hash unknown
    exact (update_unknown found unknown _ _).trans (sound.fresh unknown)
  · intro other member now
    by_cases same : other = block
    · exact same ▸ data
    · exact sound.data member (old member same now)
  · intro hash other rest there now ancestor member
    refine (checked _).mpr (.inr ?_)
    by_cases same : other = block
    · subst same
      cases rest_unique there found
      exact own.checked ancestor member
    · exact sound.below there (old (mem_of_path there (.head _)) same now) ancestor member
  · intro hash branch there all
    have before : ∀ ancestor ∈ branch, ancestor ≠ block → Checked n ancestor := fun ancestor member other =>
      old (mem_of_path there member) other (all ancestor member)
    by_cases through : block ∈ branch
    · obtain ⟨rest, rfl⟩ := Paths.first_of_closed n.tree.distinct sound.below there through unchecked before
      cases rest_unique there found
      have below := path_tail found
      have same : ((n.stakeWritten block.hash stake).indexOn path).bare = (n.indexOn path).bare :=
        bare_indexOn_congr fun other member => kept (mem_of_path below member) fun same =>
          not_mem_rest found (same ▸ member)
      have top := Marked.next (sound.marked below own.checked) (sound.reads hashing own below) passed
      rw [← same] at top
      have fields : checkedFields block stake =
          { (n.stakeWritten block.hash stake).fieldsOf block with nMint := 0, nMoneySupply := 0 } := by
        simp [checkedFields, StakeFields.write, Node.fieldsOf, written]
      rw [fields] at top
      exact top
    · have other : ∀ ancestor ∈ branch, ancestor ≠ block := fun ancestor member same => through (same ▸ member)
      rw [bare_indexOn_congr fun ancestor member => kept (mem_of_path there member) (other ancestor member)]
      exact sound.marked there fun ancestor member => before ancestor member (other ancestor member)
  · intro other member now
    by_cases same : other = block
    · subst same
      rw [written]
      exact proof
    · rw [kept member same]
      exact sound.proofs member (old member same now)
  · intro proof
    refine mem_insertPoSIndex.trans ?_
    rw [sound.seen proof, ← and_or_left]
    refine and_congr_right fun _ => ⟨?_, ?_⟩
    · rintro (⟨other, member, now, has⟩ | is)
      · have same : other ≠ block := by
          rintro rfl
          exact unchecked now
        exact ⟨other, member, (checked _).mpr (.inr now), (congrArg _ (kept member same)).trans has⟩
      · exact ⟨block, known, (checked _).mpr (.inl rfl), (congrArg _ written).trans is.symm⟩
    · rintro ⟨other, member, now, has⟩
      by_cases same : other = block
      · subst same
        rw [written] at has
        exact .inr has.symm
      · rw [kept member same] at has
        exact .inl ⟨other, member, old member same now, has⟩

theorem unchecked_of_fresh (fresh : block.hash ∉ n.tree.hashes) : ¬ Checked n block := by
  simp only [Checked, StakeUnchecked, Node.fieldsOf, sound.fresh fresh, noStake]
  simp

theorem add (fresh : block.hash ∉ n.tree.hashes) : StakesSound { n with tree := n.tree.add block fresh } := by
  have unchecked := sound.unchecked_of_fresh fresh
  have old : ∀ {other}, other ∈ block :: n.tree.blocks → Checked n other → other ∈ n.tree.blocks := by
    intro other member checked
    rcases mem_cons.mp member with rfl | member
    · exact absurd checked unchecked
    · exact member
  refine ⟨?_, ?_, ?_, ?_, ?_, ?_⟩
  · exact fun unknown => sound.fresh fun known => unknown (mem_hashes_add fresh known)
  · exact fun member checked => sound.data (old member checked) checked
  · intro hash top rest found checked
    rcases path_of_add fresh found with before | ⟨-, below, is, -⟩
    · exact sound.below before checked
    · cases is
      exact absurd checked unchecked
  · intro hash path found all
    rcases path_of_add fresh found with before | ⟨-, below, rfl, -⟩
    · exact sound.marked before all
    · exact absurd (all block (.head _)) unchecked
  · exact fun member checked => sound.proofs (old member checked) checked
  · intro proof
    refine (sound.seen proof).trans (and_congr_right fun _ => ⟨?_, ?_⟩)
    · rintro ⟨other, member, has⟩
      exact ⟨other, .tail _ member, has⟩
    · rintro ⟨other, member, checked, has⟩
      exact ⟨other, old member checked, checked, has⟩

end StakesSound

/-! ### The active chain -/

def undoOf (vtxundo : List (List Coin)) : List (List TxInUndo) :=
  vtxundo.map fun vprevout => vprevout.map TxInUndo.serialize

/-- The coins at the tip, the undo data and the lists are those of the branches they belong to. -/
structure ChainSound {s : Setup} (n : Node s) : Prop where
  tip : ∃ path, n.tree.path n.tip = some path
  root : n.lists s.genesis.phashBlock = {}
  fresh : ∀ {hash}, hash ∉ n.tree.hashes → n.undo hash = none
  checked : ∀ {block}, block ∈ n.tree.blocks → (n.undo block.hash).isSome → Checked n block
  below : ∀ {hash block rest}, n.tree.path hash = some (block :: rest) → (n.undo block.hash).isSome →
    ∀ ancestor ∈ rest, (n.undo ancestor.hash).isSome
  connected : ∀ {hash path}, n.tree.path hash = some path → (∀ block ∈ path, (n.undo block.hash).isSome) →
    ∃ state, Branch s path state ∧ state.pindex = n.indexOn path ∧ state.list = n.lists hash ∧
      ∀ block rest, path = block :: rest → n.undo block.hash = some (undoOf state.vtxundo)
  active : ∀ block ∈ n.chain, (n.undo block.hash).isSome
  coins : ∃ state, Branch s n.chain state ∧ state.coins = n.pcoinsTip
  special : n.hashBestSpecial = some n.tip ∨ n.chain = [] ∧ n.hashBestSpecial = none

namespace ChainSound

theorem chain_start : (Node.start s).chain = [] := by
  have found : (Node.start s).tree.path (Node.start s).tip = some [] := path_root
  rw [Node.chain, found, getD_some]

theorem start : ChainSound (Node.start s) where
  tip := ⟨[], path_root⟩
  root := rfl
  fresh _ := rfl
  checked member := by cases member
  below found := by cases path_start found
  connected {hash path} found _ := by
    rcases Paths.path_cases found with ⟨rfl, -⟩ | ⟨_, _, -, member, -⟩
    · exact ⟨_, .genesis, rfl, rfl, fun _ _ is => by cases is⟩
    · cases member
  active block member := by
    rw [chain_start] at member
    cases member
  coins := by
    rw [chain_start]
    exact ⟨_, .genesis, rfl⟩
  special := .inr ⟨chain_start, rfl⟩

section
variable (sound : ChainSound n)
include sound

theorem path_tip : n.tree.path n.tip = some n.chain := by
  obtain ⟨path, found⟩ := sound.tip
  rw [Node.chain, found, getD_some]

theorem state (ignores : IgnoresSupply s.ext) :
    ∃ state, Branch s n.chain state ∧ state.pindex = n.indexOn n.chain ∧ state.coins = n.pcoinsTip ∧
      state.list = n.lists n.tip ∧
      ∀ block rest, n.chain = block :: rest → n.undo block.hash = some (undoOf state.vtxundo) := by
  obtain ⟨state, branch, coins⟩ := sound.coins
  obtain ⟨state', branch', pindex, list, undo⟩ := sound.connected sound.path_tip sound.active
  cases branch.unique ignores branch'
  exact ⟨state, branch, pindex, coins, list, undo⟩

theorem reads {state : BranchState} (pindex : state.pindex = n.indexOn n.chain)
    (coins : state.coins = n.pcoinsTip) (list : state.list = n.lists n.tip) :
    ConnectReads s n.chain state (n.globals getTransaction) := by
  have named : (n.indexOn n.chain).getBlockHash = n.tip := n.getBlockHash_indexOn sound.path_tip
  refine ⟨?_, ?_, coins.symm, ?_, rfl, rfl, ?_⟩
  · rw [pindex]; exact mem_mapBlockIndex sound.path_tip
  · rw [pindex]; rfl
  · rw [pindex, list]; exact congrArg n.lists named
  · rw [pindex, named]
    unfold verifyBestBlock Node.globals
    rcases sound.special with best | ⟨empty, none⟩
    · exact .inl (by simp [best])
    · exact .inr ⟨empty, by simp [none]⟩

theorem flagged {fHaveData : Uint256 → Bool} {log : List LogEntry} :
    ChainSound { n with fHaveData, fFailed, fConflictChainLock, m_failed_blocks, m_pos_index, fShutdown, log } :=
  { sound with }

theorem add (fresh : block.hash ∉ n.tree.hashes) : ChainSound { n with tree := n.tree.add block fresh } := by
  have path_tip := path_add fresh sound.path_tip
  have chain : Node.chain { n with tree := n.tree.add block fresh } = n.chain := by
    rw [Node.chain, path_tip, getD_some]
  have undone := sound.fresh fresh
  refine ⟨⟨_, path_tip⟩, sound.root, ?_, ?_, ?_, ?_, ?_, ?_, ?_⟩
  · exact fun unknown => sound.fresh fun known => unknown (mem_hashes_add fresh known)
  · intro other member isSome
    rcases mem_cons.mp member with rfl | member
    · simp [undone] at isSome
    · exact sound.checked member isSome
  · intro hash top rest found isSome
    rcases path_of_add fresh found with before | ⟨-, below, is, -⟩
    · exact sound.below before isSome
    · cases is
      simp [undone] at isSome
  · intro hash path found all
    rcases path_of_add fresh found with before | ⟨-, below, rfl, -⟩
    · exact sound.connected before all
    · have isSome := all block (.head _)
      simp [undone] at isSome
  · rw [chain]; exact sound.active
  · rw [chain]; exact sound.coins
  · rw [chain]; exact sound.special

theorem stakeWritten (known : block ∈ n.tree.blocks) (unchecked : ¬ Checked n block)
    (nonzero : stake.nStakeModifierChecksum ≠ 0) : ChainSound (n.stakeWritten block.hash stake) := by
  have kept : ∀ {path}, (∀ other ∈ path, (n.undo other.hash).isSome) →
      (n.stakeWritten block.hash stake).indexOn path = n.indexOn path := by
    intro path all
    refine indexFrom_congr fun other member => ?_
    have different : other.hash ≠ block.hash := fun same => unchecked (sound.checked known (same ▸ all other member))
    simp [Node.fieldsOf, Node.stakeWritten, update_of_ne different]
  refine { sound with checked := ?_, connected := ?_ }
  · exact fun member isSome => (StakesSound.checked_stakeWritten nonzero _).mpr (.inr (sound.checked member isSome))
  · intro hash path found all
    rw [kept all]
    exact sound.connected found all

end

variable {newList : CDeterministicMNList} {c : Connection}

theorem fieldsOf_connected
    (different : other.hash ≠ block.hash) : (n.connected block c newList).fieldsOf other = n.fieldsOf other := by
  simp [Node.fieldsOf, Node.connected, update_of_ne different]

section
variable (sound : ChainSound n) (ignores : IgnoresSupply s.ext)
include sound ignores

theorem connect (found : n.tree.path block.hash = some (block :: n.chain)) (checked : Checked n block)
    (fields : c.fields = { n.fieldsOf block with nMint := c.fields.nMint, nMoneySupply := c.fields.nMoneySupply })
    (branch : Branch s (block :: n.chain) ⟨.next (n.indexOn n.chain) c.fields, c.view, newList, c.vtxundo⟩) :
    ChainSound (n.connected block c newList) := by
  have known : block ∈ n.tree.blocks := mem_of_path found (.head _)
  have chain : (n.connected block c newList).chain = block :: n.chain := by
    have top : (n.connected block c newList).tree.path (n.connected block c newList).tip = some (block :: n.chain) := found
    rw [Node.chain, top, getD_some]
  have undone : ∀ hash, ((n.connected block c newList).undo hash).isSome ↔ hash = block.hash ∨ (n.undo hash).isSome := by
    intro hash
    by_cases is : hash = block.hash
    · simp [Node.connected, is]
    · simp [Node.connected, is, update_of_ne]
  have is : ∀ {other}, other ∈ n.tree.blocks → other.hash = block.hash → other = block :=
    fun member same => eq_of_hash member known same
  refine ⟨⟨_, found⟩, ?_, ?_, ?_, ?_, ?_, ?_, ?_, .inl rfl⟩
  · exact (update_of_ne (n.tree.distinct.ne_root known).symm _ _).trans sound.root
  · intro hash unknown
    exact (update_unknown found unknown _ _).trans (sound.fresh unknown)
  · intro other member isSome
    rcases (undone _).mp isSome with same | before
    · exact is member same ▸ checked
    · exact sound.checked member before
  · intro hash top rest there isSome ancestor member
    refine (undone _).mpr (.inr ?_)
    rcases (undone _).mp isSome with same | before
    · cases is (mem_of_path there (.head _)) same
      cases rest_unique there found
      exact sound.active ancestor member
    · exact sound.below there before ancestor member
  · intro hash path there all
    by_cases again : (n.undo block.hash).isSome = true
    · have done : ∀ other ∈ block :: n.chain, (n.undo other.hash).isSome :=
        forall_mem_cons.mpr ⟨again, sound.below found again⟩
      obtain ⟨state, branch', pindex, list, undo⟩ := sound.connected found done
      cases branch.unique ignores branch'
      have same : c.fields = n.fieldsOf block := (next.inj pindex).2
      have undo := undo block _ rfl
      have sameFields : (n.connected block c newList).fieldsOf = n.fieldsOf := by
        funext other
        by_cases is : other.hash = block.hash
        · simp [Node.fieldsOf, Node.connected, same]
        · exact fieldsOf_connected is
      have sameLists : (n.connected block c newList).lists = n.lists :=
        (congrArg _ list).trans (update_eq_self block.hash n.lists)
      have sameUndo : (n.connected block c newList).undo = n.undo := by
        simp only [Node.connected, undo, getD_some]
        rw [← undo, update_eq_self]
      unfold Node.indexOn
      rw [sameUndo] at all ⊢
      rw [sameFields, sameLists]
      exact sound.connected there all
    · have before : ∀ other ∈ path, other ≠ block → (n.undo other.hash).isSome := fun other member different =>
        ((undone _).mp (all other member)).resolve_left fun same =>
          different (is (mem_of_path there member) same)
      by_cases through : block ∈ path
      · -- The block is new on its branch, so nothing above it is connected.
        obtain ⟨rest, rfl⟩ := Paths.first_of_closed n.tree.distinct sound.below there through again before
        cases rest_unique there found
        have below : (n.connected block c newList).indexOn n.chain = n.indexOn n.chain :=
          indexFrom_congr fun other member => fieldsOf_connected fun same =>
            not_mem_rest found (is (mem_of_path sound.path_tip member) same ▸ member)
        refine ⟨_, branch, ?_, ?_, ?_⟩
        · show next _ _ = .next ((n.connected block c newList).indexOn n.chain) _
          rw [below, fields]
          simp [Node.fieldsOf, Node.connected]
        · rw [← hash_of_path there]
          exact (update_self block.hash newList n.lists).symm
        · intro other rest isPath
          obtain ⟨rfl, -⟩ := cons.inj isPath
          rw [not_isSome_iff_eq_none] at again
          simp only [Node.connected, update_self, again, getD_none]
          rfl
      · have others : ∀ other ∈ path, other ≠ block := fun other member same => through (same ▸ member)
        have named : hash ≠ block.hash := by
          rintro rfl
          rw [show n.tree.path block.hash = _ from there] at found
          exact through (some.inj found ▸ .head _)
        have different : ∀ other ∈ path, other.hash ≠ block.hash := fun other member same =>
          others other member (is (mem_of_path there member) same)
        obtain ⟨state, branch', pindex, list, undo⟩ :=
          sound.connected there fun other member => before other member (others other member)
        refine ⟨state, branch', ?_, ?_, ?_⟩
        · exact pindex.trans (indexFrom_congr fun other member => (fieldsOf_connected (different other member)).symm)
        · exact list.trans (update_of_ne named _ _).symm
        · intro other rest isPath
          exact (update_of_ne (different other (isPath ▸ .head _)) _ _).trans (undo other rest isPath)
  · rw [chain]
    exact forall_mem_cons.mpr ⟨(undone _).mpr (.inl rfl), fun other member =>
      (undone _).mpr (.inr (sound.active other member))⟩
  · rw [chain]
    exact ⟨_, branch, rfl⟩

theorem disconnect {view : CCoinsView} {fields : IndexFields} (isChain : n.chain = block :: rest)
    (done : disconnectBlock s.params g block (n.indexOn rest) fields (n.undo block.hash) n.pcoinsTip = .DISCONNECT_OK view) :
    ChainSound { n with
        tip := block.hashPrevBlock
        pcoinsTip := view
        hashBestSpecial := some block.hashPrevBlock } := by
  obtain ⟨state, branch, pindex, coins, -, undo⟩ := sound.state ignores
  have below := path_tail (isChain ▸ sound.path_tip)
  have undo := undo block rest isChain
  have shorter : Node.chain { n with tip := block.hashPrevBlock } = rest := by rw [Node.chain, below, getD_some]
  rw [isChain] at branch pindex
  cases branch with
  | connect branch reads marked connected keeps built =>
    obtain ⟨links, chain⟩ := branch.isChain
    have same : _ = n.indexOn rest := (next.inj pindex).1
    rw [undo, ← coins, ← same] at done
    have restored := disconnectBlock_restores connected (chain_grounded chain) keeps done
    refine ⟨⟨rest, below⟩, sound.root, sound.fresh, sound.checked, sound.below, sound.connected, ?_, ?_, .inl rfl⟩
    · intro other member
      exact sound.active other (isChain ▸ .tail _ (shorter ▸ member))
    · exact ⟨_, shorter ▸ branch, restored.symm⟩

end

end ChainSound

/-! ### The log -/

/-- `AcceptBlock` or `ConnectBlock` has refused the block. -/
def Refused {s : Setup} (n : Node s) (hash : Uint256) : Prop :=
  .stakeIncorrect hash ∈ n.log ∨ .connectFailed hash ∈ n.log

def BecameTip {s : Setup} (n : Node s) (hash : Uint256) : Prop := .newBest hash ∈ n.log

instance {s : Setup} (n : Node s) (hash : Uint256) : Decidable (Refused n hash) :=
  inferInstanceAs (Decidable (_ ∈ n.log ∨ _ ∈ n.log))

instance {s : Setup} (n : Node s) (hash : Uint256) : Decidable (BecameTip n hash) :=
  inferInstanceAs (Decidable (_ ∈ n.log))

/-- A block at the tip was one that its branch connects, and a refused block one that its branch does not. -/
structure LogSound {s : Setup} (n : Node s) : Prop where
  best : ∀ {hash}, BecameTip n hash → ∃ path, n.tree.path hash = some path ∧ ∃ state, Branch s path state
  refused : ∀ {hash}, Refused n hash → ∃ path, n.tree.path hash = some path ∧ ¬ ∃ state, Branch s path state

/-- The state of a node that was regular from the start. -/
structure Sound {s : Setup} (n : Node s) : Prop where
  stakes : StakesSound n
  chain : ChainSound n
  log : LogSound n

namespace Sound

theorem start : Sound (Node.start s) where
  stakes := .start
  chain := .start
  log := ⟨fun best => (not_mem_nil best).elim, fun refused => (refused.elim not_mem_nil not_mem_nil).elim⟩

variable (sound : Sound n)
include sound

theorem flagged : Sound { n with fFailed, fConflictChainLock, m_failed_blocks, fShutdown } where
  stakes := sound.stakes.congr rfl rfl (fun _ data => data) rfl
  chain := sound.chain.flagged
  log := ⟨sound.log.best, sound.log.refused⟩

theorem received (hash : Uint256) : Sound (n.received hash) where
  stakes := by
    refine sound.stakes.congr rfl rfl (fun other data => ?_) rfl
    by_cases same : other = hash
    · rw [same]; exact update_self ..
    · exact (update_of_ne same _ _).trans data
  chain := sound.chain.flagged
  log := ⟨sound.log.best, sound.log.refused⟩

theorem add (fresh : block.hash ∉ n.tree.hashes) : Sound { n with tree := n.tree.add block fresh } where
  stakes := sound.stakes.add fresh
  chain := sound.chain.add fresh
  log := by
    refine ⟨fun best => ?_, fun refused => ?_⟩
    · obtain ⟨path, found, is⟩ := sound.log.best best
      exact ⟨path, path_add fresh found, is⟩
    · obtain ⟨path, found, is⟩ := sound.log.refused refused
      exact ⟨path, path_add fresh found, is⟩

theorem stakeWritten (hashing : StakeHashing s.ext)
    (found : n.tree.path block.hash = some (block :: path)) (unchecked : ¬ Checked n block)
    (own : OwnKernel n block path getTransaction) (data : n.fHaveData block.hash = true)
    (passed : posContextualBlockChecks s.params s.ext (n.globals getTransaction) block (n.indexOn path) = some stake) :
    Sound (n.stakeWritten block.hash stake) where
  stakes := sound.stakes.stakeWritten hashing found unchecked own data passed
  chain := sound.chain.stakeWritten (mem_of_path found (.head _)) unchecked
    (posContextualBlockChecks_fields hashing passed).1
  log := ⟨sound.log.best, sound.log.refused⟩

theorem refuse {entry : LogEntry}
    (is : entry = .stakeIncorrect hash ∨ entry = .connectFailed hash) (found : n.tree.path hash = some path)
    (bad : ¬ ∃ state, Branch s path state) : Sound { n with log := entry :: n.log } where
  stakes := sound.stakes.congr rfl rfl (fun _ data => data) rfl
  chain := sound.chain.flagged
  log := by
    refine ⟨fun best => sound.log.best ?_, fun {other} refused => ?_⟩
    · rcases is with rfl | rfl <;> exact (mem_cons.mp best).resolve_left (by simp)
    · by_cases same : other = hash
      · exact ⟨path, same ▸ found, bad⟩
      · refine sound.log.refused (refused.imp (fun member => ?_) fun member => ?_)
        · rcases is with rfl | rfl <;> exact (mem_cons.mp member).resolve_left (by simp [same])
        · rcases is with rfl | rfl <;> exact (mem_cons.mp member).resolve_left (by simp [same])

theorem not_branch_of_none (hashing : StakeHashing s.ext)
    (found : n.tree.path hash = some path) (own : OwnKernel n block path getTransaction)
    (failed : posContextualBlockChecks s.params s.ext (n.globals getTransaction) block (n.indexOn path) = none) :
    ¬ ∃ state, Branch s (block :: path) state := by
  rintro ⟨state, branch⟩
  cases branch with
  | connect branch reads marked connected keeps built =>
    have below := sound.stakes.marked found own.checked
    obtain ⟨p, marked⟩ : ∃ p, Marked s (block :: path) p := ⟨_, marked⟩
    cases marked with
    | next below' reads' passed =>
      have same := below'.unique hashing.ignores below
      rw [← posContextualBlockChecks_agree hashing.ignores (sound.stakes.reads hashing own found) reads' same.symm,
        failed] at passed
      cases passed

end Sound

end Cspn.NodeState
