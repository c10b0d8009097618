import Cspn.NodeState

/-!
The order in which blocks arrive. A node that was regular from the start is in a sound state, so what it makes of a
block is what the branch of the block makes of it, and any two such nodes agree. Without the conditions two nodes
given the same blocks, parents first, can come to opposite verdicts on one.
-/
namespace Cspn.Order
open Primitives Index Coins Validation Env MnList BlockCheck Stake List Option Function
  Kernel Connect Overwrite Verdict Arrival OwnBranch
  NodeState Growth
open BlockTree Node

variable {s : Setup} {n after : Node s} {block : CBlock} {path : List CBlock} {getTransaction : TxSource}
  {accepted : Bool} {pindexMostWork : Uint256} {action : Action} {actions : List Action}

section
variable {hash : Uint256}

theorem sound_header (sound : Sound n) (step : HeaderStep n block (after, accepted)) : Sound after := by
  cases step with
  | known => exact sound
  | refused => exact sound.flagged
  | @locked fresh => exact (sound.add fresh).flagged
  | @added fresh => exact sound.add fresh

theorem ownKernel_add (sound : Sound n) (own : OwnKernel n block path getTransaction) (fresh : block.hash ∉ n.tree.hashes) :
    OwnKernel { n with tree := n.tree.add block fresh } block path getTransaction := by
  refine ⟨own.checked, own.found, own.reaches, fun isStake other member checked => ?_⟩
  rcases mem_cons.mp member with rfl | member
  · exact absurd checked (sound.stakes.unchecked_of_fresh fresh)
  · exact own.apart isStake other member checked

theorem sound_data (sound : Sound n) (hashing : StakeHashing s.ext)
    (found : n.tree.path block.hash = some (block :: path)) (missing : n.fHaveData block.hash = false)
    (own : block.nNonce = 0 → OwnKernel n block path getTransaction) (step : DataStep n block path getTransaction after) :
    Sound after := by
  cases step with
  | invalid => exact sound.flagged
  | stakeFailed nonce failed =>
    have bad := sound.not_branch_of_none hashing (path_tail found) (own nonce) failed
    exact (sound.refuse (.inl rfl) found bad).flagged
  | stakeWritten nonce passed =>
    obtain ⟨checked, answered, reaches, apart⟩ := own nonce
    have unchecked : ¬ Checked n block := by
      intro checked
      have has := sound.stakes.data (mem_of_path found (.head _)) checked
      rw [missing] at has
      cases has
    have own' : OwnKernel (n.received block.hash) block path getTransaction := ⟨checked, answered, reaches, apart⟩
    exact (sound.received block.hash).stakeWritten hashing found unchecked own' (update_self ..) passed
  | received => exact sound.received block.hash

theorem sound_accept {fRequested : Bool} (sound : Sound n) (hashing : StakeHashing s.ext)
    (regular : Regular n (.deliver block fRequested getTransaction)) (step : AcceptStep n block getTransaction after) :
    Sound after := by
  cases step with
  | header step => exact sound_header sound step
  | data step missing found step' =>
    refine sound_data (sound_header sound step) hashing found missing (fun nonce => ?_) step'
    cases step with
    | known => exact regular nonce missing _ (path_tail found)
    | @added fresh =>
      rcases path_of_add fresh found with before | ⟨-, rest, is, below⟩
      · exact absurd (known_of_path before) fresh
      · cases is
        exact ownKernel_add sound (regular nonce missing _ below) fresh

/-! ### Connecting -/

theorem stakeStage_of_checked (checked : Checked n block) (g : Globals) (pindexPrev : CBlockIndex) :
    stakeStage s.params s.ext g block pindexPrev (n.fieldsOf block) false = .ok (n.fieldsOf block, g.m_pos_index) :=
  if_neg checked

theorem stakeStage_of_unchecked (unchecked : ¬ Checked n block) (g : Globals) (pindexPrev : CBlockIndex) :
    stakeStage s.params s.ext g block pindexPrev (n.fieldsOf block) false =
      match posContextualBlockChecks s.params s.ext g block pindexPrev with
      | none => .error .unset
      | some stake => .ok (stake.write (n.fieldsOf block), insertPoSIndex g.m_pos_index stake.hashProofOfStake) :=
  if_pos (not_not.mp unchecked)

theorem staged_of_checked (checked : Checked n block) : n.staged block (n.globals getTransaction) = n := by
  unfold staged
  rw [stakeStage_of_checked checked]
  exact congrArg (fun stake => { n with stake }) (update_eq_self block.hash n.stake)

theorem staged_of_unchecked (unchecked : ¬ Checked n block) : n.staged block (n.globals getTransaction) =
      match posContextualBlockChecks s.params s.ext (n.globals getTransaction) block (n.indexOn n.chain) with
      | none => n | some stake => n.stakeWritten block.hash stake := by
  unfold staged
  rw [stakeStage_of_unchecked unchecked]
  cases posContextualBlockChecks s.params s.ext (n.globals getTransaction) block (n.indexOn n.chain) with
  | none => rfl
  | some stake => rfl

theorem sound_staged (sound : Sound n) (hashing : StakeHashing s.ext)
    (found : n.tree.path block.hash = some (block :: n.chain)) (data : n.fHaveData block.hash = true)
    (own : ¬ Checked n block → OwnKernel n block n.chain getTransaction) :
    Sound (n.staged block (n.globals getTransaction)) := by
  by_cases checked : Checked n block
  · rw [staged_of_checked checked]
    exact sound
  · rw [staged_of_unchecked checked]
    split
    · exact sound
    next stake passed => exact sound.stakeWritten hashing found checked (own checked) data passed

theorem staged_frame (n : Node s) (block : CBlock) (g : Globals) : (n.staged block g).tree = n.tree ∧ (n.staged block g).tip = n.tip ∧
    ∀ other, other.hash ≠ block.hash → (n.staged block g).fieldsOf other = n.fieldsOf other := by
  unfold staged
  split
  · exact ⟨rfl, rfl, fun _ _ => rfl⟩
  · refine ⟨rfl, rfl, fun other different => ?_⟩
    simp [fieldsOf, update_of_ne different]

variable {c : Connection}

theorem connected_fields (hashing : StakeHashing s.ext) {view : CCoinsView}
    (connected : connectBlock s.params s.ext (n.globals getTransaction) block (n.indexOn n.chain) (n.fieldsOf block) view
      false = .ok c) : Checked (n.staged block (n.globals getTransaction)) block ∧
      c.fields = { (n.staged block (n.globals getTransaction)).fieldsOf block with
        nMint := c.fields.nMint, nMoneySupply := c.fields.nMoneySupply } := by
  obtain ⟨stake, tally, -, staged, -, rfl⟩ := connectBlock_ok connected
  by_cases checked : Checked n block
  · rw [staged_of_checked checked]
    rw [stakeStage_of_checked checked] at staged
    cases staged
    exact ⟨checked, rfl⟩
  · rw [staged_of_unchecked checked]
    rw [stakeStage_of_unchecked checked] at staged
    split at staged
    · cases staged
    next stake passed =>
      cases staged
      refine ⟨(StakesSound.checked_stakeWritten (posContextualBlockChecks_fields hashing passed).1 block).mpr (.inl rfl), ?_⟩
      simp [fieldsOf, stakeWritten, StakeFields.write]

theorem not_branch_of_error (sound : Sound n) (hashing : StakeHashing s.ext)
    (own : ¬ Checked n block → OwnKernel n block n.chain getTransaction) {failure : Failure}
    (failed : connectBlock s.params s.ext (n.globals getTransaction) block (n.indexOn n.chain) (n.fieldsOf block) n.pcoinsTip
      false = .error failure) : ¬ ∃ state, Branch s (block :: n.chain) state := by
  rintro ⟨after, whole⟩
  obtain ⟨state, branch, pindex, coins, list, -⟩ := sound.chain.state hashing.ignores
  cases id whole with
  | connect branch' reads' marked' connected' keeps' built' =>
    cases branch'.unique hashing.ignores branch
    have top : n.chain = [] → state.pindex.nHeight = 0 := fun empty => by rw [branch.nHeight, empty, length_nil]
    have passes : StakeUnchecked (n.fieldsOf block) →
        posContextualBlockChecks s.params s.ext (n.globals getTransaction) block state.pindex ≠ none := by
      intro unchecked none
      rw [pindex] at none
      exact sound.not_branch_of_none hashing sound.chain.path_tip (own (not_not.mpr unchecked)) none ⟨_, whole⟩
    obtain ⟨c, accepted⟩ :=
      accepts_of_reads reads' (sound.chain.reads pindex coins list) top rfl passes ⟨_, connected'⟩
    rw [pindex, coins, failed] at accepted
    cases accepted

section
variable (sound : Sound n) (hashing : StakeHashing s.ext) (found : n.tree.path block.hash = some (block :: n.chain))
include sound hashing found

theorem sound_connected (checked : Checked n block) {newList : CDeterministicMNList}
    (fields : c.fields = { n.fieldsOf block with nMint := c.fields.nMint, nMoneySupply := c.fields.nMoneySupply })
    (branch : Branch s (block :: n.chain) ⟨.next (n.indexOn n.chain) c.fields, c.view, newList, c.vtxundo⟩) :
    Sound (n.connected block c newList) where
  stakes := sound.stakes.congr rfl rfl (fun _ data => data) rfl
  chain := sound.chain.connect hashing.ignores found checked fields branch
  log := by
    refine ⟨fun {hash} best => ?_, fun refused => sound.log.refused ?_⟩
    · rcases mem_cons.mp best with is | before
      · cases is
        exact ⟨_, found, _, branch⟩
      · exact sound.log.best before
    · exact refused.imp (fun member => (mem_cons.mp member).resolve_left (by simp))
        fun member => (mem_cons.mp member).resolve_left (by simp)

theorem sound_connectBlock (data : n.fHaveData block.hash = true)
    (own : ¬ Checked n block → OwnKernel n block n.chain getTransaction)
    (keeps : ¬ BlockOverwrites ⟨block, n.indexOn n.chain, n.pcoinsTip⟩)
    (connected : connectBlock s.params s.ext (n.globals getTransaction) block (n.indexOn n.chain) (n.fieldsOf block)
      n.pcoinsTip false = .ok c) : Sound ((n.staged block (n.globals getTransaction)).connected block c
      (listAfter s (n.globals getTransaction) block (n.indexOn n.chain))) := by
  have staged := sound_staged sound hashing found data own
  obtain ⟨tree, tip, frame⟩ := staged_frame n block (n.globals getTransaction)
  obtain ⟨checked, fields⟩ := connected_fields hashing connected
  obtain ⟨newList, built⟩ := connected_built connected
  have after : listAfter s (n.globals getTransaction) block (n.indexOn n.chain) = newList := by rw [listAfter, built]
  rw [after]
  have stagedFound : (n.staged block (n.globals getTransaction)).tree.path block.hash = some (block :: n.chain) :=
    tree ▸ found
  have chain : (n.staged block (n.globals getTransaction)).chain = n.chain := by simp [chain, tree, tip]
  have below : (n.staged block (n.globals getTransaction)).indexOn n.chain = n.indexOn n.chain := by
    refine indexFrom_congr fun other member => frame other fun same => not_mem_rest found ?_
    have is := eq_of_hash (mem_of_path sound.chain.path_tip member)
      (mem_of_path found (.head _)) same
    exact is ▸ member
  have marked := staged.stakes.marked stagedFound
    (forall_mem_cons.mpr ⟨checked, staged.stakes.below stagedFound checked⟩)
  have bare : ((n.staged block (n.globals getTransaction)).indexOn (block :: n.chain)).bare =
      (CBlockIndex.next (n.indexOn n.chain) c.fields).bare := by
    rw [← below, fields]
    rfl
  rw [bare] at marked
  obtain ⟨state, branch, pindex, coins, list, -⟩ := sound.chain.state hashing.ignores
  have reads : ConnectReads s n.chain state (n.globals getTransaction) := sound.chain.reads pindex coins list
  rw [← pindex] at marked connected keeps built
  rw [← coins] at connected keeps
  rw [reads.list] at built
  have next := Branch.connect branch reads marked connected keeps built
  rw [pindex, ← below, ← chain] at next
  exact sound_connected staged hashing (chain.symm ▸ stagedFound) checked fields next

end

theorem path_of_next (sound : Sound n) (isPath : n.tree.path pindexMostWork = some path)
    (next : path.find? (fun b => decide (b.hashPrevBlock = n.tip)) = some block) :
    n.tree.path block.hash = some (block :: n.chain) := by
  have onTip : block.hashPrevBlock = n.tip := by simpa using find?_some next
  obtain ⟨front, rest, rfl⟩ := append_of_mem (mem_of_find?_eq_some next)
  have found := path_of_mem isPath
  have below := path_tail found
  rw [onTip, sound.chain.path_tip] at below
  rw [found, some.inj below]

theorem sound_tip (sound : Sound n) (hashing : StakeHashing s.ext)
    (regular : Regular n (.activate pindexMostWork getTransaction))
    (step : TipStep n pindexMostWork getTransaction after) : Sound after := by
  cases step with
  | stays => exact sound
  | stopped => exact sound.flagged
  | connected isPath next data connected =>
    obtain ⟨own, keeps⟩ := regular _ _ isPath next
    exact sound_connectBlock sound hashing (path_of_next sound isPath next) data own keeps connected
  | failed isPath next data failed =>
    obtain ⟨own, -⟩ := regular _ _ isPath next
    have found := path_of_next sound isPath next
    have bad := not_branch_of_error sound hashing own failed
    refine ((sound_staged sound hashing found data own).refuse (.inr rfl) ?_ bad).flagged
    rw [(staged_frame ..).1]
    exact found
  | disconnected isChain done =>
    exact ⟨sound.stakes.congr rfl rfl (fun _ data => data) rfl, sound.chain.disconnect hashing.ignores isChain done,
      ⟨sound.log.best, sound.log.refused⟩⟩

theorem sound_act (sound : Sound n) (hashing : StakeHashing s.ext) (regular : Regular n action) :
    Sound (act n action) := by
  cases action with
  | deliver => exact sound_accept sound hashing regular (acceptBlock_step ..)
  | activate => exact sound_tip sound hashing regular (activateBestChainStep_step ..)

theorem sound_foldl (hashing : StakeHashing s.ext) (sound : Sound n)
    (regular : RegularFrom n actions) : Sound (actions.foldl act n) := by
  induction actions generalizing n with
  | nil => exact sound
  | cons action rest ih => exact ih (sound_act sound hashing regular.1) regular.2

def delivered (actions : List Action) : List CBlock :=
  actions.filterMap fun
    | .deliver block _ _ => some block
    | .activate _ _ => none

variable {b : CBlock}

theorem blocks_header (step : HeaderStep n block (after, accepted))
    (member : b ∈ after.tree.blocks) : b ∈ n.tree.blocks ∨ b = block := by
  cases step with
  | known | refused => exact .inl member
  | locked | added => exact (mem_cons.mp member).symm

theorem blocks_accept (step : AcceptStep n block getTransaction after)
    (member : b ∈ after.tree.blocks) : b ∈ n.tree.blocks ∨ b = block := by
  cases step with
  | header step => exact blocks_header step member
  | data step missing found step' =>
    refine blocks_header step ?_
    cases step' <;> exact member

theorem tree_tip (step : TipStep n pindexMostWork getTransaction after) : after.tree = n.tree := by
  cases step with
  | stays | stopped | disconnected => rfl
  | connected | failed => exact (staged_frame n _ (n.globals getTransaction)).1

theorem blocks_act (member : b ∈ (act n action).tree.blocks) : b ∈ n.tree.blocks ∨ b ∈ delivered [action] := by
  cases action with
  | deliver block fRequested getTransaction =>
    refine (blocks_accept (acceptBlock_step n block fRequested getTransaction) member).imp_right ?_
    rintro rfl
    exact mem_singleton_self _
  | activate pindexMostWork getTransaction =>
    exact .inl (tree_tip (activateBestChainStep_step n pindexMostWork getTransaction) ▸ member)

theorem blocks_foldl (member : b ∈ (actions.foldl act n).tree.blocks) :
    b ∈ n.tree.blocks ∨ b ∈ delivered actions := by
  induction actions generalizing n with
  | nil => exact .inl member
  | cons action rest ih =>
    have split : delivered (action :: rest) = delivered [action] ++ delivered rest := by
      rw [delivered, ← singleton_append, filterMap_append]
      rfl
    rw [split, mem_append]
    rcases ih member with earlier | later
    · exact (blocks_act earlier).imp_right .inl
    · exact .inr (.inr later)

end

/-- The block that `ActivateBestChainStep` would connect on its way to `pindexMostWork`. -/
def nextBlock (n : Node s) (pindexMostWork : Uint256) : Option CBlock :=
  (n.tree.path pindexMostWork).bind fun path => path.find? fun block => decide (block.hashPrevBlock = n.tip)

/-- A work block with a nonce is delivered, or one is connected that replaces no unspent output. -/
def isPlainWork (n : Node s) : Action → Bool
  | .deliver block _ _ => decide (block.nNonce ≠ 0)
  | .activate pindexMostWork _ =>
    (nextBlock n pindexMostWork).all fun block =>
      block.isProofOfWork && decide (¬ BlockOverwrites ⟨block, n.indexOn n.chain, n.pcoinsTip⟩)

def isPlainWorkFrom (n : Node s) : List Action → Bool
  | [] => true
  | action :: rest => isPlainWork n action && isPlainWorkFrom (act n action) rest

theorem regular_of_isPlainWork (sound : Sound n) (work : isPlainWork n action = true) : Regular n action := by
  cases action with
  | deliver block fRequested getTransaction => exact fun nonce => absurd nonce (of_decide_eq_true work)
  | activate pindexMostWork getTransaction =>
    intro path block isPath next
    have plain : nextBlock n pindexMostWork = some block := by rw [nextBlock, isPath, bind_some, next]
    simp only [isPlainWork, plain, all_some, Bool.and_eq_true, decide_eq_true_eq, CBlock.isProofOfWork,
      Bool.not_eq_true'] at work
    obtain ⟨notStake, keeps⟩ := work
    -- The blocks of the chain are connected, so they are checked; the rest is about stake blocks.
    have checked : ∀ ancestor ∈ n.chain, Checked n ancestor := fun ancestor member =>
      sound.chain.checked (mem_of_path sound.chain.path_tip member) (sound.chain.active ancestor member)
    refine ⟨fun _ => ⟨checked, ?_, ?_, ?_⟩, keeps⟩ <;> intro isStake <;> rw [notStake] at isStake <;> cases isStake

theorem regularFrom_of_isPlainWorkFrom (hashing : StakeHashing s.ext) (sound : Sound n)
    (work : isPlainWorkFrom n actions = true) : RegularFrom n actions := by
  induction actions generalizing n with
  | nil => trivial
  | cons action rest ih =>
    obtain ⟨first, others⟩ := Bool.and_eq_true_iff.mp work
    have regular := regular_of_isPlainWork sound first
    exact ⟨regular, ih (sound_act sound hashing regular) others⟩

section
variable {proof : Uint256}

theorem seen_header (step : HeaderStep n block (after, accepted))
    (seen : proof ∈ n.m_pos_index) : proof ∈ after.m_pos_index := by
  cases step <;> exact seen

theorem seen_staged (seen : proof ∈ n.m_pos_index) (block : CBlock) :
    proof ∈ (n.staged block (n.globals getTransaction)).m_pos_index := by
  by_cases checked : Checked n block
  · rw [staged_of_checked checked]
    exact seen
  · rw [staged_of_unchecked checked]
    split
    · exact seen
    · exact mem_insertPoSIndex.mpr (.inl seen)

theorem seen_accept (step : AcceptStep n block getTransaction after) (seen : proof ∈ n.m_pos_index) :
    proof ∈ after.m_pos_index := by
  cases step with
  | header step => exact seen_header step seen
  | data step missing found step' =>
    have middle := seen_header step seen
    cases step' with
    | invalid | stakeFailed | received => exact middle
    | stakeWritten => exact mem_insertPoSIndex.mpr (.inl middle)

theorem seen_tip (step : TipStep n pindexMostWork getTransaction after)
    (seen : proof ∈ n.m_pos_index) : proof ∈ after.m_pos_index := by
  cases step with
  | stays | stopped | disconnected => exact seen
  | connected | failed => exact seen_staged seen _

variable (seen : proof ∈ n.m_pos_index)
include seen

theorem seen_act (action : Action) : proof ∈ (act n action).m_pos_index := by
  cases action with
  | deliver => exact seen_accept (acceptBlock_step ..) seen
  | activate => exact seen_tip (activateBestChainStep_step ..) seen

theorem seen_foldl (actions : List Action) : proof ∈ (actions.foldl act n).m_pos_index := by
  induction actions generalizing n with
  | nil => exact seen
  | cons action rest ih => exact ih (seen_act seen action)

/-- From the height where stakes are enforced on, `AcceptBlock` refuses every block with a stake that was seen before,
    on whatever branch that was. -/
theorem refused_of_seen (actions : List Action) (isAfter : after = actions.foldl act n)
    (passes : ((checkBlock s.ext block true true).bind fun _ =>
      contextualCheckBlock s.ext block (after.indexOn path)) = .ok ())
    (nonce : block.nNonce = 0) (isStake : block.isProofOfStake = true)
    (enforced : s.params.nStakeEnforcement ≤ (after.indexOn path).nHeight + 1)
    (proved : checkProofOfStake s.params s.ext (after.globals getTransaction) block (after.indexOn path) = some proof) :
    Refused (acceptData after block path getTransaction) block.hash := by
  have still : proof ∈ (after.globals getTransaction).m_pos_index := isAfter ▸ seen_foldl seen actions
  have fails : posContextualBlockChecks s.params s.ext (after.globals getTransaction) block (after.indexOn path) = none := by
    unfold posContextualBlockChecks
    rw [if_pos isStake, proved, bind_some, if_pos ⟨enforced, still⟩]
  unfold acceptData
  rw [passes]
  rw [if_pos nonce, fails]
  exact .inl (.head _)

end

/-! ### Agreement -/

/-- No block that one node refuses was at the tip of the other. -/
def Agree {s : Setup} (n n' : Node s) : Prop :=
  ∀ hash, ¬ (Refused n hash ∧ BecameTip n' hash) ∧ ¬ (Refused n' hash ∧ BecameTip n hash)

theorem not_refused_and_becameTip {n' : Node s} (sound : Sound n) (sound' : Sound n')
    (named : ∀ a ∈ n.tree.blocks, ∀ b ∈ n'.tree.blocks, a.hash = b.hash → a = b) (hash : Uint256) :
    ¬ (Refused n hash ∧ BecameTip n' hash) := by
  rintro ⟨refused, best⟩
  obtain ⟨path, found, bad⟩ := sound.log.refused refused
  obtain ⟨path', found', good⟩ := sound'.log.best best
  have same := Paths.path_unique n.tree.distinct n'.tree.distinct named found found'
  exact bad (same ▸ good)

/-- In whatever order blocks arrive, regular nodes agree about them. -/
theorem agree_of_regularFrom {s : Setup} (hashing : StakeHashing s.ext) {actions actions' : List Action}
    (named : ∀ a ∈ delivered actions, ∀ b ∈ delivered actions', a.hash = b.hash → a = b)
    (regular : RegularFrom (start s) actions) (regular' : RegularFrom (start s) actions') :
    Agree (run s actions) (run s actions') := by
  have sound : Sound (run s actions) := sound_foldl hashing .start regular
  have sound' : Sound (run s actions') := sound_foldl hashing .start regular'
  have known : ∀ {actions b}, b ∈ (run s actions).tree.blocks → b ∈ delivered actions :=
    fun member => (blocks_foldl member).resolve_left not_mem_nil
  have same : ∀ a ∈ (run s actions).tree.blocks, ∀ b ∈ (run s actions').tree.blocks, a.hash = b.hash → a = b :=
    fun a member b member' => named a (known member) b (known member')
  exact fun hash => ⟨not_refused_and_becameTip sound sound' same hash,
    not_refused_and_becameTip sound' sound (fun b member' a member is => (same a member b member' is.symm).symm) hash⟩

/-- The regression test network with proofs that show what they were made for. -/
def regtest : Setup where
  params := regtestParams
  ext := { permissive 0 with stakeHash := fun _ _ _ n nTime => Nat.pair n nTime }
  genesis := { phashBlock := 1 }
  root := rfl
  supply := rfl
  noProof := rfl
  contextualCheckBlockHeader _ _ := true
  getBlockProof _ := 1
  nMinimumChainWork := 0
  calcCbTxMerkleRootQuorums _ _ _ := some 0

theorem regtest_hashing : StakeHashing regtest.ext where
  ignores := ⟨fun _ _ => rfl, fun _ _ _ _ _ => rfl⟩
  nonzero _ _ _ _ _ := Nat.one_ne_zero
  injective same := Nat.pair_eq_pair.mp same

def workBlock (hashPrevBlock hash : Uint256) (vtx : List CTransaction) : CBlock :=
  { hashPrevBlock, hash, nNonce := 1, vtx }

def ownBlock (hashPrevBlock hash : Uint256) : CBlock :=
  workBlock hashPrevBlock hash [{ plainCoinbase with hash := 100 + hash }]

def deliver (block : CBlock) : Action := .deliver block true fun _ => none

def activate (pindexMostWork : Uint256) : Action := .activate pindexMostWork fun _ => none

/-- Block 2 comes first and gives way to the branch of blocks 3 and 4. -/
def shortFirst : List Action :=
  [deliver (ownBlock 1 2), activate 2, deliver (ownBlock 1 3), deliver (ownBlock 3 4), activate 4, activate 4, activate 4]

def shortLast : List Action :=
  [deliver (ownBlock 1 3), activate 3, deliver (ownBlock 3 4), activate 4, deliver (ownBlock 1 2)]

theorem agree_fork : RegularFrom (start regtest) shortFirst ∧ RegularFrom (start regtest) shortLast ∧
      BecameTip (run regtest shortFirst) 2 ∧ BecameTip (run regtest shortFirst) 4 ∧ BecameTip (run regtest shortLast) 4 ∧
      Agree (run regtest shortFirst) (run regtest shortLast) := by
  have first := regularFrom_of_isPlainWorkFrom regtest_hashing .start
    (show isPlainWorkFrom (start regtest) shortFirst = true by decide +kernel)
  have last := regularFrom_of_isPlainWorkFrom regtest_hashing .start
    (show isPlainWorkFrom (start regtest) shortLast = true by decide +kernel)
  exact ⟨first, last, by decide +kernel, by decide +kernel, by decide +kernel,
    agree_of_regularFrom regtest_hashing (by decide +kernel) first last⟩

/-! ### A stake that comes twice -/

def later : Setup := { regtest with ext := { regtest.ext with getAdjustedTime := 3000 } }

def stakeBlock (hash : Uint256) : CBlock :=
  { hashPrevBlock := 3, hash, nTime := 3000, nBits := 2 ^ 30
    vtx := [{ plainCoinbase with vout := [⟨0, []⟩] },
      { vin := [{ prevout := ⟨9, 0⟩ }], vout := [⟨0, []⟩, ⟨1, []⟩], nType := TRANSACTION_STAKE, hash := 10 }] }

/-- The staked block and on it a block with a modifier. -/
def parents : List CBlock := [{ ownBlock 2 3 with nNonce := 0, nTime := 3000 }, ownBlock 1 2]

def source : TxSource := fun _ => some (plainCoinbase, 2)

def staked : Node later :=
  run later ((stakeBlock 4 :: parents).reverse.map fun block => .deliver block true source)

/-- Block 4 is accepted. Block 5 has the same stake and comes after a block of another branch. -/
theorem refused_stakeBlock :
    staked.log = [] ∧ Refused (acceptData (act staked (deliver (ownBlock 1 6))) (stakeBlock 5) parents source) 5 :=
  ⟨rfl, @refused_of_seen _ staked _ (stakeBlock 5) parents source (Nat.pair 0 3000) (by decide +kernel)
    [deliver (ownBlock 1 6)] rfl (by decide +kernel) rfl rfl (by decide) (by decide +kernel)⟩

/-! ### Nodes that disagree -/

def ParentsFirst (known : List Uint256) : List CBlock → Prop
  | [] => True
  | block :: rest => block.hashPrevBlock ∈ known ∧ ParentsFirst (block.hash :: known) rest

instance decidableParentsFirst : (known : List Uint256) → (blocks : List CBlock) → Decidable (ParentsFirst known blocks)
  | _, [] => inferInstanceAs (Decidable True)
  | known, block :: rest =>
    haveI := decidableParentsFirst (block.hash :: known) rest
    inferInstanceAs (Decidable (block.hashPrevBlock ∈ known ∧ ParentsFirst (block.hash :: known) rest))

def firstBlock : CBlock := workBlock 1 2 [plainCoinbase]
def repeatBlock : CBlock := workBlock 2 3 [plainCoinbase]

/-- The other branch on the first block, at the heights from 2 to 10. -/
def branchBlocks : List CBlock := ownBlock 2 12 :: (range 8).map fun i => ownBlock (12 + i) (13 + i)

/-- The block at height 11 spends the coinbase of the first block. -/
def spendBlock : CBlock :=
  workBlock 20 21
    [{ plainCoinbase with hash := 121 },
      { vin := [{ prevout := ⟨plainCoinbase.hash, 0⟩, scriptSig := [OP_TRUE] }]
        vout := [⟨50 * COIN, [OP_TRUE]⟩]
        nVersion := 1
        hash := 122 }]

def inTurn (blocks : List CBlock) : List Action := blocks.flatMap fun block => [deliver block, activate block.hash]

/-- The repeated coinbase is connected, and taken back when the other branch gets longer. -/
def repeatFirst : List Action :=
  inTurn [firstBlock, repeatBlock] ++ (branchBlocks.take 2).map deliver ++ replicate 3 (activate 13) ++
    inTurn (branchBlocks.drop 2 ++ [spendBlock])

/-- The repeated coinbase comes when the other branch is active. -/
def repeatLast : List Action := inTurn (firstBlock :: branchBlocks ++ [spendBlock]) ++ [deliver repeatBlock]

theorem not_agree_repeated_coinbase :
    (delivered repeatFirst).Perm (delivered repeatLast) ∧ ParentsFirst [1] (delivered repeatFirst) ∧
      ParentsFirst [1] (delivered repeatLast) ∧ Refused (run regtest repeatFirst) spendBlock.hash ∧
      BecameTip (run regtest repeatLast) spendBlock.hash := by
  decide +kernel

end Cspn.Order
