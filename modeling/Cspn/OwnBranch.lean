import Cspn.Arrival
import Cspn.Verdict

/-!
What a branch makes of its own blocks. The stake checks and `ConnectBlock` read the active chain, the transaction
index, the stakes seen and the databases. Where they read what the ancestors of the block put there, the blocks of the
branch alone determine the stake fields (`Marked`) and the coins (`Branch`).
-/
namespace Cspn.Index.CBlockIndex

/-- The entry and its predecessors without the amounts that connecting writes. -/
def bare : CBlockIndex → CBlockIndex
  | genesis f => genesis f
  | next p f => next p.bare { f with nMint := 0, nMoneySupply := 0 }

variable (p : CBlockIndex)

@[simp] theorem nHeight_bare : p.bare.nHeight = p.nHeight := by
  induction p with
  | genesis f => rfl
  | next p f ih => rw [bare, nHeight_next, nHeight_next, ih]

@[simp] theorem getBlockHash_bare : p.bare.getBlockHash = p.getBlockHash := by cases p <;> rfl

@[simp] theorem getBlockTime_bare : p.bare.getBlockTime = p.getBlockTime := by cases p <;> rfl

theorem stakeFields_bare : p.bare.fields.fGeneratedStakeModifier = p.fields.fGeneratedStakeModifier ∧
      p.bare.fields.nStakeModifier = p.fields.nStakeModifier ∧
      p.bare.fields.hashProofOfStake = p.fields.hashProofOfStake := by
  cases p <;> exact ⟨rfl, rfl, rfl⟩

theorem getAncestor_bare (height : Nat) : p.bare.getAncestor height = (p.getAncestor height).map bare := by
  induction p with
  | genesis f =>
    simp only [bare, getAncestor]
    split <;> rfl
  | next p f ih =>
    simp only [bare, getAncestor, nHeight_bare]
    split
    · rfl
    · exact ih

theorem AncestorOrEq.bare {a p : CBlockIndex} (above : AncestorOrEq a p) : AncestorOrEq a.bare p.bare := by
  induction above with
  | refl => exact .refl _
  | step f _ ih => exact .step _ ih

end Cspn.Index.CBlockIndex

namespace Cspn.OwnBranch
open Primitives Index Coins Validation Env MnList MnBuild BlockCheck Option
  Payments SpecialTx Stake Kernel Connect Chain Overwrite Verdict
  Arrival CBlockIndex

variable {map map' : BlockMap} {hash : Uint256} {pindexFrom pindexFrom' pindexPrev pindexPrev' : CBlockIndex}
  {s : Setup} {path : List CBlock} {g g' : Globals} {block : CBlock} {params : Params} {ext : Externals}
  {tx : CTransaction} {view : CCoinsView} {fields fields' : IndexFields} {c : Connection}

section
variable {nModifierInterval enough : Nat} {e e' : CBlockIndex}

theorem ripe_bare : Ripe enough e.bare ↔ Ripe enough e := by
  rw [Ripe, Ripe, e.stakeFields_bare.1, getBlockTime_bare]

theorem exists_counterpart (same : pindexPrev.bare = pindexPrev'.bare) (below : AncestorOrEq e pindexPrev) :
    ∃ e', AncestorOrEq e' pindexPrev' ∧ e'.bare = e.bare := by
  have found := getAncestor_eq_some.mpr ⟨same ▸ below.bare, rfl⟩
  rw [getAncestor_bare] at found
  obtain ⟨e', inPath, is⟩ := map_eq_some_iff.mp found
  exact ⟨e', (getAncestor_eq_some.mp inPath).1, is⟩

theorem proof_counterpart {proof : Uint256} (same : pindexPrev.bare = pindexPrev'.bare) :
    (∃ a, AncestorOrEq a pindexPrev ∧ a.fields.hashProofOfStake = proof) →
      ∃ b, AncestorOrEq b pindexPrev' ∧ b.fields.hashProofOfStake = proof := by
  rintro ⟨a, below, has⟩
  obtain ⟨b, onPath, is⟩ := exists_counterpart same below
  exact ⟨b, onPath, by rw [← b.stakeFields_bare.2.2, is, a.stakeFields_bare.2.2, has]⟩

theorem height_of_bare (same : e.bare = e'.bare) : e.nHeight = e'.nHeight := by
  rw [← nHeight_bare e, same, nHeight_bare]

theorem time_of_bare (same : e.bare = e'.bare) : e.getBlockTime = e'.getBlockTime := by
  rw [← getBlockTime_bare, same, getBlockTime_bare]

/-- The modifier does not depend on the amounts in the entries, nor on the active chain. -/
theorem getKernelStakeModifierV03_agree (indexed : map.find hash = some pindexFrom)
    (indexed' : map'.find hash = some pindexFrom') (sameFrom : pindexFrom.bare = pindexFrom'.bare)
    (same : pindexPrev.bare = pindexPrev'.bare) (above : AncestorOrEq pindexFrom pindexPrev)
    (above' : AncestorOrEq pindexFrom' pindexPrev') (reaches : ReachesModifier nModifierInterval pindexFrom pindexPrev)
    (active active' : CChain) : (getKernelStakeModifierV03 nModifierInterval map active pindexPrev hash).outcome =
      (getKernelStakeModifierV03 nModifierInterval map' active' pindexPrev' hash).outcome := by
  -- Both calls find counterparts, in which they read the same.
  have outcome : ∀ e e' : CBlockIndex, e'.bare = e.bare →
      Outcome.found e.fields.nStakeModifier e.nHeight e.getBlockTime =
        .found e'.fields.nStakeModifier e'.nHeight e'.getBlockTime := by
    intro e e' is
    rw [← e.stakeFields_bare.2.1, ← e.nHeight_bare, ← e.getBlockTime_bare, ← is, e'.stakeFields_bare.2.1,
      e'.nHeight_bare, e'.getBlockTime_bare]
  by_cases zero : getStakeModifierSelectionInterval nModifierInterval = 0
  · rw [(foundOnPath_at_kernel indexed above zero active).outcome,
      (foundOnPath_at_kernel indexed' above' zero active').outcome]
    exact outcome _ _ sameFrom.symm
  · have positive := Nat.pos_of_ne_zero zero
    have time := time_of_bare sameFrom
    have height := height_of_bare sameFrom
    obtain ⟨e, fromAbove, onPath, isRipe⟩ := reaches.resolve_left zero
    obtain ⟨e, below, higher, isRipe, least⟩ :=
      exists_first_ripe fromAbove onPath isRipe (Nat.lt_add_of_pos_right positive)
    obtain ⟨e', below', is⟩ := exists_counterpart same below
    have level := height_of_bare is
    rw [(foundOnPath_of_first indexed above below higher positive isRipe least active).outcome]
    refine ((foundOnPath_of_first indexed' above' below' (by omega) positive ?_ ?_ active').outcome.trans
      (outcome e e' is).symm).symm
    · rw [← time, ← ripe_bare, is, ripe_bare]
      exact isRipe
    · intro r rBelow rHigher rLower ripe
      obtain ⟨q, qBelow, isQ⟩ := exists_counterpart is rBelow
      have qHeight := height_of_bare isQ
      refine least q qBelow (by omega) (by omega) ?_
      rw [time, ← ripe_bare, isQ, ripe_bare]
      exact ripe

end

/-! ### The proof-of-stake checks -/

def kernelOf (block : CBlock) : Option COutPoint := (block.vtx[1]?).bind fun tx => tx.vin.head?.map CTxIn.prevout

/-- The transaction with its block as the branch has it; the highest one counts. -/
def ownTransaction (path : List CBlock) (txid : Uint256) : Option (CTransaction × Uint256) :=
  path.findSome? fun block => (block.vtx.find? fun tx => decide (tx.hash = txid)).map fun tx => (tx, block.hash)

/-- The modifier of a block and its checksum do not depend on the amounts in the entries below it. -/
structure IgnoresSupply (ext : Externals) : Prop where
  modifier : ∀ p nTime, ext.computeNextStakeModifier p.bare nTime = ext.computeNextStakeModifier p nTime
  checksum : ∀ p block hashProofOfStake nStakeModifier fGenerated,
    ext.getStakeModifierChecksum p.bare block hashProofOfStake nStakeModifier fGenerated =
      ext.getStakeModifierChecksum p block hashProofOfStake nStakeModifier fGenerated

/-- The stake checks of a block on the branch `path` read that branch: staked transaction and modifier are there, and
    a stake was seen if a block there has it. -/
structure StakeReads (s : Setup) (path : List CBlock) (pindexPrev : CBlockIndex) (g : Globals) (block : CBlock) : Prop where
  indexed : g.mapBlockIndex.mem pindexPrev
  found : block.isProofOfStake = true → ∀ prevout, kernelOf block = some prevout →
    g.getTransaction prevout.hash = ownTransaction path prevout.hash
  kernel : block.isProofOfStake = true → ∀ prevout tx hash, kernelOf block = some prevout →
    ownTransaction path prevout.hash = some (tx, hash) → ∃ pindexFrom, g.mapBlockIndex.find hash = some pindexFrom ∧
      AncestorOrEq pindexFrom pindexPrev ∧ ReachesModifier s.params.nModifierInterval pindexFrom pindexPrev
  seen : ∀ proof, checkProofOfStake s.params s.ext g block pindexPrev = some proof →
    (proof ∈ g.m_pos_index ↔ proof ≠ 0 ∧ ∃ a, AncestorOrEq a pindexPrev ∧ a.fields.hashProofOfStake = proof)
  noNull : 0 ∉ g.m_pos_index

section
variable (same : pindexPrev.bare = pindexPrev'.bare) (find : g.mapBlockIndex.find hash = some pindexFrom)
  (find' : g'.mapBlockIndex.find hash = some pindexFrom') (above' : AncestorOrEq pindexFrom' pindexPrev')
include same find find' above'

theorem pindexFrom_agree (indexed : g.mapBlockIndex.mem pindexPrev) : pindexFrom.bare = pindexFrom'.bare := by
  obtain ⟨q, below, is⟩ := exists_counterpart same.symm above'
  have named : q.getBlockHash = hash := by
    rw [← getBlockHash_bare, is, getBlockHash_bare, g'.mapBlockIndex.keyed find']
  have inMap : g.mapBlockIndex.find q.getBlockHash = some q := g.mapBlockIndex.mem_ancestor below indexed
  rw [named, find] at inMap
  rw [some.inj inMap, is]

end

theorem checkProofOfStake_agree (reads : StakeReads s path pindexPrev g block)
    (reads' : StakeReads s path pindexPrev' g' block) (same : pindexPrev.bare = pindexPrev'.bare)
    (stake : block.isProofOfStake = true) :
    checkProofOfStake s.params s.ext g block pindexPrev = checkProofOfStake s.params s.ext g' block pindexPrev' := by
  unfold checkProofOfStake
  cases second : block.vtx[1]? with
  | none => rfl
  | some tx =>
    cases first : tx.vin.head? with
    | none => simp [first]
    | some txin =>
      have kernel : kernelOf block = some txin.prevout := by simp [kernelOf, second, first]
      simp only [bind_some, first, reads.found stake _ kernel, reads'.found stake _ kernel]
      cases own : ownTransaction path txin.prevout.hash with
      | none => rfl
      | some answer =>
        obtain ⟨txPrev, hash⟩ := answer
        obtain ⟨pindexFrom, find, above, reaches⟩ := reads.kernel stake _ _ _ kernel own
        obtain ⟨pindexFrom', find', above', -⟩ := reads'.kernel stake _ _ _ kernel own
        have sameFrom := pindexFrom_agree same find find' above' reads.indexed
        have modifier := getKernelStakeModifierV03_agree find find' sameFrom same above above' reaches g.chainActive
          g'.chainActive
        rw [← g.mapBlockIndex.keyed find] at modifier
        nth_rewrite 2 [g.mapBlockIndex.keyed find] at modifier
        rw [← g'.mapBlockIndex.keyed find'] at modifier
        have hashes : checkStakeKernelHash s.params s.ext g block.nBits pindexPrev pindexFrom txPrev =
            checkStakeKernelHash s.params s.ext g' block.nBits pindexPrev' pindexFrom' txPrev := by
          funext prevout nTimeTx
          simp [checkStakeKernelHash, time_of_bare sameFrom, height_of_bare same, modifier]
        simp [find, find', height_of_bare same, height_of_bare sameFrom, hashes]

theorem posContextualBlockChecks_agree (ignores : IgnoresSupply s.ext) (reads : StakeReads s path pindexPrev g block)
    (reads' : StakeReads s path pindexPrev' g' block) (same : pindexPrev.bare = pindexPrev'.bare) :
    posContextualBlockChecks s.params s.ext g block pindexPrev =
      posContextualBlockChecks s.params s.ext g' block pindexPrev' := by
  have modifier : s.ext.computeNextStakeModifier pindexPrev block.nTime =
      s.ext.computeNextStakeModifier pindexPrev' block.nTime := by
    rw [← ignores.modifier, same, ignores.modifier]
  have checksum : ∀ proof nStakeModifier fGenerated,
      s.ext.getStakeModifierChecksum pindexPrev block proof nStakeModifier fGenerated =
        s.ext.getStakeModifierChecksum pindexPrev' block proof nStakeModifier fGenerated := by
    intro proof nStakeModifier fGenerated
    rw [← ignores.checksum, same, ignores.checksum]
  unfold posContextualBlockChecks
  simp only [modifier, checksum, height_of_bare same]
  by_cases stake : block.isProofOfStake = true
  · rw [if_pos stake, if_pos stake]
    have proofs := checkProofOfStake_agree reads reads' same stake
    cases found : checkProofOfStake s.params s.ext g block pindexPrev with
    | none =>
      rw [← proofs, found]
      rfl
    | some proof =>
      have other := proofs.symm.trans found
      -- A stake seen on the branch is seen on both sides.
      have seen : proof ∈ g.m_pos_index ↔ proof ∈ g'.m_pos_index := by
        rw [reads.seen proof found, reads'.seen proof other]
        exact and_congr_right fun _ => ⟨proof_counterpart same, proof_counterpart same.symm⟩
      rw [other]
      simp [seen]
  · rw [if_neg stake, if_neg stake]
    simp [reads.noNull, reads'.noNull]

/-- The entry of a block with the stake fields that its checks wrote, before it is connected. -/
def checkedFields (block : CBlock) (stake : StakeFields) : IndexFields :=
  stake.write { phashBlock := block.hash, nTime := block.nTime, nBits := block.nBits, nNonce := block.nNonce }

/-- The entry at the top of a branch whose blocks have all passed the stake checks there. -/
inductive Marked (s : Setup) : List CBlock → CBlockIndex → Prop where
  | genesis : Marked s [] (.genesis s.genesis)
  | next {path : List CBlock} {pindexPrev : CBlockIndex} {g : Globals} {block : CBlock} {stake : StakeFields}
      (marked : Marked s path pindexPrev.bare) (reads : StakeReads s path pindexPrev g block)
      (passed : posContextualBlockChecks s.params s.ext g block pindexPrev = some stake) :
      Marked s (block :: path) (.next pindexPrev.bare (checkedFields block stake))

theorem Marked.unique (ignores : IgnoresSupply s.ext) {p p' : CBlockIndex}
    (marked : Marked s path p) (marked' : Marked s path p') : p = p' := by
  induction marked generalizing p' with
  | genesis => cases marked'; rfl
  | next below reads passed ih =>
    cases marked' with
    | next below' reads' passed' =>
      have same := ih below'
      rw [posContextualBlockChecks_agree ignores reads reads' same, passed'] at passed
      rw [same, some.inj passed]

/-! ### Connecting -/

structure BranchState where
  pindex : CBlockIndex
  coins : CCoinsView
  list : CDeterministicMNList
  vtxundo : List (List Coin)

/-- `ConnectBlock` of a block on the branch reads what is on that branch. -/
structure ConnectReads (s : Setup) (path : List CBlock) (state : BranchState) (g : Globals) : Prop where
  indexed : g.mapBlockIndex.mem state.pindex
  tip : g.chainActive = ⟨some state.pindex⟩
  coins : g.pcoinsTip = state.coins
  list : g.getListForBlock state.pindex = state.list
  mined : g.hasMinedCommitment =
    fun type hash => (minedOn s.params path).any fun qc => decide (qc.llmqType = type ∧ qc.quorumHash = hash)
  roots : g.calcCbTxMerkleRootQuorums = s.calcCbTxMerkleRootQuorums (minedOn s.params path)
  special : verifyBestBlock g state.pindex.getBlockHash = .ok true ∨
    path = [] ∧ verifyBestBlock g state.pindex.getBlockHash = .ok false

/-- The state at the top of a branch whose blocks were all connected there and replaced no unspent output. -/
inductive Branch (s : Setup) : List CBlock → BranchState → Prop where
  | genesis : Branch s [] ⟨.genesis s.genesis, CCoinsView.empty s.genesis.phashBlock, {}, []⟩
  | connect {path : List CBlock} {state : BranchState} {g : Globals} {block : CBlock} {fields : IndexFields}
      {c : Connection} {newList : CDeterministicMNList} (branch : Branch s path state) (reads : ConnectReads s path state g)
      (marked : Marked s (block :: path) (next state.pindex c.fields).bare)
      (connected : connectBlock s.params s.ext g block state.pindex fields state.coins false = .ok c)
      (keeps : ¬ BlockOverwrites ⟨block, state.pindex, state.coins⟩)
      (built : buildNewListFromBlock (buildEnv s.params s.ext g) block state.pindex state.list = .ok newList) :
      Branch s (block :: path) ⟨.next state.pindex c.fields, c.view, newList, c.vtxundo⟩

variable {state : BranchState}

theorem find_of_ancestor {p q : CBlockIndex} (indexed : map.mem p) (below : AncestorOrEq q p) :
    map.find q.getBlockHash = some q := map.mem_ancestor below indexed

theorem checkLLMQCommitment_ok (indexed : map'.mem pindexPrev)
    (passed : checkLLMQCommitment params ext map tx pindexPrev = .ok ()) :
    checkLLMQCommitment params ext map' tx pindexPrev = .ok () := by
  unfold checkLLMQCommitment at passed ⊢
  split at passed
  · cases passed
  next qcTx parsed =>
    obtain ⟨first, rest⟩ := then_eq_ok.mp passed
    refine then_eq_ok.mpr ⟨first, ?_⟩
    split at rest
    · cases rest
    next pindexQuorum known =>
      obtain ⟨second, -⟩ := then_eq_ok.mp rest
      have above := (getAncestor_eq_some.mp (of_decide_eq_true (checks_cons.mp second).1)).1
      have found := find_of_ancestor indexed above
      rw [map.keyed known] at found
      rw [found]
      exact rest

section
variable (reads : ConnectReads s path state g)
include reads

section
variable (reads' : ConnectReads s path state g')
include reads'

theorem checkSpecialTx_ok (passed : checkSpecialTx s.params s.ext g state.pindex tx = .ok ()) :
    checkSpecialTx s.params s.ext g' state.pindex tx = .ok () := by
  unfold checkSpecialTx at passed ⊢
  split
  · rfl
  next special =>
    rw [if_neg special] at passed
    split
    next coinbase => rwa [if_pos coinbase] at passed
    next other =>
      rw [if_neg other] at passed
      split
      next provider =>
        rw [if_pos provider, reads.list] at passed
        rw [reads'.list]
        unfold Globals.getUTXOCoin at passed ⊢
        rwa [reads.coins, ← reads'.coins] at passed
      next unprovided =>
        rw [if_neg unprovided] at passed
        split
        next commitment =>
          rw [if_pos commitment] at passed
          exact checkLLMQCommitment_ok reads'.indexed passed
        next unknown => rwa [if_neg unknown] at passed

theorem processCommitment_ok {nHeight : Nat}
    {qc : CFinalCommitment} (passed : processCommitment s.params s.ext g nHeight qc = .ok ()) :
    processCommitment s.params s.ext g' nHeight qc = .ok () := by
  obtain ⟨llmq, known, rest⟩ := bind_eq_ok.mp passed
  obtain ⟨block, rest⟩ := then_eq_ok.mp rest
  rw [reads.tip] at block rest
  refine bind_eq_ok.mpr ⟨llmq, known, ?_⟩
  rw [reads'.tip]
  refine then_eq_ok.mpr ⟨block, ?_⟩
  split
  next null => rwa [if_pos null] at rest
  next real =>
    rw [if_neg real, reads.mined] at rest
    rw [reads'.mined]
    obtain ⟨fresh, rest⟩ := then_eq_ok.mp rest
    refine then_eq_ok.mpr ⟨fresh, ?_⟩
    -- The quorum block is on the active chain, which is the branch.
    obtain ⟨nonzero, is⟩ := of_decide_eq_true (checks_cons.mp block).1
    unfold getQuorumBlockHash at nonzero is
    cases start : (CChain.mk (some state.pindex)).get (nHeight - nHeight % llmq.dkgInterval) with
    | none => rw [start] at nonzero; exact absurd rfl nonzero
    | some q =>
      rw [start, map_some, getD_some] at is
      have below : AncestorOrEq q state.pindex := (getAncestor_eq_some.mp start).1
      have first := find_of_ancestor reads.indexed below
      have second := find_of_ancestor reads'.indexed below
      rw [is] at first second
      rw [first] at rest
      rw [second]
      exact rest

theorem quorumProcessBlock_ok {nHeight : Nat} (passed : quorumProcessBlock s.params s.ext g block nHeight = .ok ()) :
    quorumProcessBlock s.params s.ext g' block nHeight = .ok () := by
  unfold quorumProcessBlock at passed ⊢
  split
  · rfl
  next active =>
    rw [if_neg active] at passed
    obtain ⟨qcs, found, rest⟩ := bind_eq_ok.mp passed
    obtain ⟨expected, processed⟩ := then_eq_ok.mp rest
    refine bind_eq_ok.mpr ⟨qcs, found, then_eq_ok.mpr ⟨?_, ?_⟩⟩
    · refine checkEach_ok.mpr fun llmq member => ?_
      have here := checkEach_ok.mp expected llmq member
      simp only [commitmentExpected, isCommitmentRequired, reads.tip, reads.mined] at here
      simp only [commitmentExpected, isCommitmentRequired, reads'.tip, reads'.mined]
      exact here
    · exact checkEach_ok.mpr fun qc member => processCommitment_ok reads reads' (checkEach_ok.mp processed qc member)

theorem buildEnv_eq : buildEnv s.params s.ext g = buildEnv s.params s.ext g' := by
  unfold buildEnv Globals.getUTXOCoin
  rw [reads.coins, reads'.coins]

end

end

/-- `ConnectBlock` accepts a block on a branch in every node where the stake checks are behind it, or in none. -/
theorem accepts_of_reads (reads : ConnectReads s path state g) (reads' : ConnectReads s path state g')
    (top : path = [] → state.pindex.nHeight = 0) (named : fields'.phashBlock = block.hash)
    (passes : StakeUnchecked fields' → posContextualBlockChecks s.params s.ext g' block state.pindex ≠ none)
    (accepted : Accepts s.params s.ext g block state.pindex fields state.coins false) :
    Accepts s.params s.ext g' block state.pindex fields' state.coins false := by
  obtain ⟨first, tip⟩ := accepts_iff.mp accepted
  have chains : g.chainActive = g'.chainActive := reads.tip.trans reads'.tip.symm
  refine accepts_iff.mpr ⟨⟨named, ?_, first.txs, first.locks⟩, passes, ?_, ?_, ?_, ?_⟩
  · obtain ⟨again, rest⟩ := then_eq_ok.mp first.before
    obtain ⟨locked, rest⟩ := then_eq_ok.mp rest
    refine then_eq_ok.mpr ⟨again, then_eq_ok.mpr ⟨locked, ?_⟩⟩
    split at rest
    · cases rest
    next best =>
      rw [if_neg best]
      obtain ⟨fHasBestBlock, -, rest⟩ := bind_eq_ok.mp rest
      split at rest
      · cases rest
      · rcases reads'.special with known | ⟨first, unknown⟩
        · exact bind_eq_ok.mpr ⟨true, known, (if_neg (by simp)).trans rest⟩
        · exact bind_eq_ok.mpr ⟨false, unknown, (if_neg (by simp [top first])).trans rest⟩
  · rw [← chains]; exact tip.coinbase
  · have value := tip.value
    simp only [isBlockValueValid, reads.tip, reads'.tip, reads.coins, reads'.coins] at value ⊢
    exact value
  · have parent : (CChain.mk (some state.pindex)).get (state.pindex.nHeight + 1 - 1) = some state.pindex :=
      getAncestor_nHeight state.pindex
    have payee := tip.payee
    simp only [payeeCheck, isBlockPayeeValid, isTransactionValid, reads.tip, reads'.tip, parent, getBlockTxOuts,
      map_some, reads.list, reads'.list] at payee ⊢
    exact payee
  · obtain ⟨each, rest⟩ := then_eq_ok.mp tip.special
    obtain ⟨quorums, rest⟩ := then_eq_ok.mp rest
    obtain ⟨newList, built, roots⟩ := bind_eq_ok.mp rest
    refine then_eq_ok.mpr ⟨checkEach_ok.mpr fun tx member => ?_, then_eq_ok.mpr ⟨quorumProcessBlock_ok reads reads' quorums,
      bind_eq_ok.mpr ⟨newList, ?_, ?_⟩⟩⟩
    · obtain ⟨checked, processed⟩ := then_eq_ok.mp (checkEach_ok.mp each tx member)
      exact then_eq_ok.mpr ⟨checkSpecialTx_ok reads reads' checked, processed⟩
    · rw [← buildEnv_eq reads reads', reads'.list, ← reads.list]
      exact built
    · unfold checkCbTxMerkleRoots at roots ⊢
      rw [reads'.roots, ← reads.roots]
      exact roots

section
variable (connected : connectBlock params ext g block pindexPrev fields view false = .ok c)
include connected

theorem connected_built :
    ∃ newList, buildNewListFromBlock (buildEnv params ext g) block pindexPrev (g.getListForBlock pindexPrev) = .ok newList := by
  obtain ⟨stake, tally, -, -, connects, -⟩ := connectBlock_ok connected
  have special := (then_eq_ok.mp (then_eq_ok.mp connects.after).2).2
  obtain ⟨newList, built, -⟩ := bind_eq_ok.mp (then_eq_ok.mp (then_eq_ok.mp special).2).2
  exact ⟨newList, built⟩

end

theorem Branch.unique (ignores : IgnoresSupply s.ext) {state' : BranchState}
    (branch : Branch s path state) (branch' : Branch s path state') : state = state' := by
  induction branch generalizing state' with
  | genesis => cases branch'; rfl
  | connect below reads marked connected keeps built ih =>
    cases branch' with
    | connect below' reads' marked' connected' keeps' built' =>
      cases ih below'
      obtain ⟨stake, tally, -, -, connects, rfl⟩ := connectBlock_ok connected
      obtain ⟨stake', tally', -, -, connects', rfl⟩ := connectBlock_ok connected'
      -- Beside the stake fields only the block, its parent and the coins count.
      cases connects.txs.symm.trans connects'.txs
      have bare := marked.unique ignores marked'
      simp only [CBlockIndex.bare, next.injEq, true_and, IndexFields.mk.injEq] at bare
      rw [buildEnv_eq reads reads', built'] at built
      simp [bare, Except.ok.inj built]

theorem Branch.nHeight (branch : Branch s path state) : state.pindex.nHeight = path.length := by
  induction branch with
  | genesis => rfl
  | connect _ _ _ _ _ _ ih => rw [nHeight_next, ih, List.length_cons]

theorem Branch.isChain (branch : Branch s path state) : ∃ links, IsChain s.params state.pindex state.coins links := by
  induction branch with
  | genesis => exact ⟨[], .genesis s.genesis s.root s.supply⟩
  | connect below reads marked connected keeps built ih =>
    obtain ⟨links, chain⟩ := ih
    exact ⟨_, .connect chain (by rw [reads.tip]) (by rw [reads.coins]) connected⟩

end Cspn.OwnBranch
