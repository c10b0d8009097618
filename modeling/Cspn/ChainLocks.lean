import Cspn.QuorumScan

/-!
The ChainLocks handler. A CLSIG with a valid signature becomes the best ChainLock unless it conflicts with the best
one so far. Its path from a peer ends with a verdict unless its height is below the offset of the quorums. A lock
stays in force as long as the active state is not checked and no CLSIG for another branch comes.
-/
namespace Cspn.ChainLocks
open Primitives Index QuorumScan List Option CBlockIndex

structure CChainLockSig where
  nHeight : Int := -1
  blockHash : Uint256 := 0
  sig : List UInt8 := []
  /-- The height is read as an `int32_t`. -/
  inRange : -2 ^ 31 ≤ nHeight ∧ nHeight < 2 ^ 31 := by decide

/-- `CChainLocksHandler` without what it needs for signing and for recent transactions. -/
structure Handler where
  isSporkActive : Bool := false
  isEnforced : Bool := false
  bestChainLockHash : Uint256 := 0
  bestChainLock : CChainLockSig := {}
  bestChainLockWithKnownBlock : CChainLockSig := {}
  bestChainLockBlockIndex : Option CBlockIndex := none
  lastNotifyChainLockBlockIndex : Option CBlockIndex := none
  seenChainLocks : AList fun _ : Uint256 => Int := ∅
  lastCleanupTime : Int := 0

def CLEANUP_INTERVAL : Int := 1000 * 30
def CLEANUP_SEEN_TIMEOUT : Int := 24 * 60 * 60 * 1000

def ancestorAt (pindex : CBlockIndex) (nHeight : Int) : Option CBlockIndex :=
  if nHeight < 0 then none else pindex.getAncestor nHeight.toNat

namespace Handler
variable (handler : Handler)

def internalHasChainLock (nHeight : Int) (blockHash : Uint256) : Bool :=
  if !handler.isEnforced then false
  else
    match handler.bestChainLockBlockIndex with
    | none => false
    | some best =>
      if nHeight > best.nHeight then false
      else if nHeight = best.nHeight then decide (blockHash = best.getBlockHash)
      else (ancestorAt best nHeight).any fun pAncestor => decide (pAncestor.getBlockHash = blockHash)

def internalHasConflictingChainLock (nHeight : Int) (blockHash : Uint256) : Except Crash Bool :=
  if !handler.isEnforced then .ok false
  else
    match handler.bestChainLockBlockIndex with
    | none => .ok false
    | some best =>
      if nHeight > best.nHeight then .ok false
      else if nHeight = best.nHeight then .ok (decide (blockHash ≠ best.getBlockHash))
      else
        match ancestorAt best nHeight with
        | none => .error .assertion
        | some pAncestor => .ok (decide (pAncestor.getBlockHash ≠ blockHash))

def checkActiveState (isEnforced isSporkActive : Bool) : Handler :=
  { handler with
    isEnforced
    isSporkActive
    bestChainLockHash := 0
    bestChainLock := {}
    bestChainLockWithKnownBlock := {}
    bestChainLockBlockIndex := none
    lastNotifyChainLockBlockIndex := none }

def cleanup (now : Int) : Handler :=
  if now - handler.lastCleanupTime < CLEANUP_INTERVAL then handler
  else
    { handler with
      seenChainLocks := (handler.seenChainLocks.entries.filter fun entry =>
        decide (now - entry.2 ≥ CLEANUP_SEEN_TIMEOUT)).foldl (fun seen entry => seen.erase entry.1) handler.seenChainLocks
      lastCleanupTime := now }

end Handler

open Handler

/-- How a CLSIG ends that does not stop the process. -/
inductive Verdict where
  | seen
  | older
  | invalid
  | conflicting
  | unknownBlock
  | wrongHeight
  | accepted

def Handler.see (handler : Handler) (hash : Uint256) (now : Int) : Handler :=
  { handler with seenChainLocks := handler.seenChainLocks.insert hash now }

/-- The block of an accepted CLSIG becomes the best one if it is known and at the signed height. -/
def Handler.accept (handler : Handler) (known : Option CBlockIndex) (clsig : CChainLockSig) (hash : Uint256) :
    Handler × Verdict :=
  let handler := { handler with bestChainLockHash := hash, bestChainLock := clsig }
  match known with
  | none => (handler, .unknownBlock)
  | some pindex =>
    if (pindex.nHeight : Int) ≠ clsig.nHeight then (handler, .wrongHeight)
    else ({ handler with bestChainLockWithKnownBlock := clsig, bestChainLockBlockIndex := some pindex }, .accepted)

/-- The consensus parameters, sporks, hash functions and signing manager. -/
structure Setup where
  nLLMQActivationHeight : Nat
  genesis : IndexFields
  clsigRequestId : Int → Uint256
  verifier : Verifier

/-- The handler with the block index, the active chain and the quorums it works on. -/
structure Node where
  index : BlockMap
  chain : CChain
  quorums : CQuorumManager
  handler : Handler

namespace Node

def verify (setup : Setup) (node : Node) (clsig : CChainLockSig) : Except Crash (CQuorumManager × Bool) :=
  setup.verifier.verifyRecoveredSig node.chain node.quorums clsig.nHeight (setup.clsigRequestId clsig.nHeight)
    clsig.blockHash clsig.sig

def judge (node : Node) (clsig : CChainLockSig) (hash : Uint256) : CQuorumManager × Bool → Except Crash (Node × Verdict)
  | (quorums, false) => .ok ({ node with quorums }, .invalid)
  | (quorums, true) =>
    (node.handler.internalHasConflictingChainLock clsig.nHeight clsig.blockHash).map fun conflicts =>
      if conflicts then ({ node with quorums }, .conflicting)
      else
        let accepted := node.handler.accept (node.index.find clsig.blockHash) clsig hash
        ({ node with quorums, handler := accepted.1 }, accepted.2)

def processNewChainLock (setup : Setup) (node : Node) (clsig : CChainLockSig) (hash : Uint256) (now : Int) :
    Except Crash (Node × Verdict) :=
  if (node.handler.seenChainLocks.lookup hash).isSome then .ok (node, .seen)
  else
    let node := { node with handler := node.handler.see hash now }
    if node.handler.bestChainLock.nHeight ≠ -1 ∧ clsig.nHeight ≤ node.handler.bestChainLock.nHeight then .ok (node, .older)
    else (node.verify setup clsig).bind (node.judge clsig hash)

end Node

def Fits (map : BlockMap) (pindexNew : CBlockIndex) : Prop :=
  map.find pindexNew.getBlockHash = none ∧ ∀ pprev, pindexNew.pprev = some pprev → map.mem pprev

def addToBlockIndex (map : BlockMap) (pindexNew : CBlockIndex) (fits : Fits map pindexNew) : BlockMap where
  find hash := if hash = pindexNew.getBlockHash then some pindexNew else map.find hash
  keyed := by
    intro hash p found
    split at found
    next same =>
      cases found
      exact same.symm
    next => exact map.keyed found
  closed := by
    intro hash pprev fields found
    have inMap : map.find pprev.getBlockHash = some pprev := by
      split at found
      next =>
        cases found
        exact fits.2 pprev rfl
      next => exact map.closed found
    have apart : pprev.getBlockHash ≠ pindexNew.getBlockHash := by
      intro same
      rw [same, fits.1] at inMap
      cases inMap
    rw [if_neg apart]
    exact inMap

instance (map : BlockMap) (pindexNew : CBlockIndex) : Decidable (Fits map pindexNew) :=
  match isPrev : pindexNew.pprev with
  | none => decidable_of_iff (map.find pindexNew.getBlockHash = none) (by simp [Fits, isPrev])
  | some pprev =>
    decidable_of_iff (map.find pindexNew.getBlockHash = none ∧ map.find pprev.getBlockHash = some pprev)
      (by simp [Fits, isPrev, BlockMap.mem])

def Setup.initialIndex (setup : Setup) : BlockMap where
  find hash := if hash = setup.genesis.phashBlock then some (.genesis setup.genesis) else none
  keyed := by
    intro hash p found
    split at found
    next same =>
      cases found
      exact same.symm
    next => cases found
  closed := by
    intro hash pprev fields found
    split at found <;> cases found

def Node.initial (setup : Setup) : Node where
  index := setup.initialIndex
  chain := ⟨some (.genesis setup.genesis)⟩
  quorums := ⟨⟨[], .nil, ∅⟩, ∅, .empty⟩
  handler := {}

variable {nHeight : Int}

theorem wrap32_offset (inRange : -2 ^ 31 ≤ nHeight ∧ nHeight < 2 ^ 31) : wrap32 (nHeight - SIGN_HEIGHT_OFFSET) =
      if nHeight < 8 - 2 ^ 31 then nHeight - 8 + 2 ^ 32 else nHeight - 8 := by
  rw [wrap32, SIGN_HEIGHT_OFFSET, Int.bmod]
  split <;> split <;> omega

variable {setup : Setup} {clsig : CChainLockSig} {pindex : CBlockIndex} {hash : Uint256} {now : Int}
  {node after : Node}

/-- A signature over a height that wraps around is never verified: no chain is that high. -/
theorem verify_wrapped (fits : chainHeight node.chain < 2 ^ 31 - 8) (wraps : clsig.nHeight < 8 - 2 ^ 31) :
    node.verify setup clsig = .ok (node.quorums, false) := by
  have start := wrap32_offset clsig.inRange
  have low := clsig.inRange.1
  have above : wrap32 (clsig.nHeight - SIGN_HEIGHT_OFFSET) > chainHeight node.chain := by
    omega
  simp [Node.verify, Verifier.verifyRecoveredSig, Verifier.selectQuorumForSigning, Verifier.getActiveQuorumSet, above,
    Except.map]

/-- The path of a CLSIG from a peer ends with a verdict exactly if it was seen before, is not above the best
    ChainLock, or has a height from which the offset leaves a block or wraps around above every chain. -/
theorem processNewChainLock_ends_iff (tables : node.quorums.db.OnChain node.chain)
    (fits : chainHeight node.chain < 2 ^ 31 - 8) (clsig : CChainLockSig) (hash : Uint256) (now : Int) :
    (∃ result, node.processNewChainLock setup clsig hash now = .ok result) ↔
      (node.handler.seenChainLocks.lookup hash).isSome = true ∨
        (node.handler.bestChainLock.nHeight ≠ -1 ∧ clsig.nHeight ≤ node.handler.bestChainLock.nHeight) ∨
        8 ≤ clsig.nHeight ∨ clsig.nHeight < 8 - 2 ^ 31 := by
  have answers := verifyRecoveredSig_ok_iff setup.verifier tables clsig.nHeight
    (setup.clsigRequestId clsig.nHeight) clsig.blockHash clsig.sig
  have inside : 0 ≤ wrap32 (clsig.nHeight - SIGN_HEIGHT_OFFSET) ↔ 8 ≤ clsig.nHeight ∨ clsig.nHeight < 8 - 2 ^ 31 := by
    have low := clsig.inRange.1
    rw [wrap32_offset clsig.inRange]
    split <;> omega
  rw [inside] at answers
  by_cases seen : (node.handler.seenChainLocks.lookup hash).isSome = true
  · exact iff_of_true ⟨_, if_pos seen⟩ (Or.inl seen)
  by_cases older : node.handler.bestChainLock.nHeight ≠ -1 ∧ clsig.nHeight ≤ node.handler.bestChainLock.nHeight
  · exact iff_of_true ⟨_, (if_neg seen).trans (if_pos older)⟩ (Or.inr (Or.inl older))
  let received : Node := { node with handler := node.handler.see hash now }
  have path : node.processNewChainLock setup clsig hash now =
      (node.verify setup clsig).bind (received.judge clsig hash) := by
    rw [Node.processNewChainLock, if_neg seen]
    exact if_neg older
  rw [path, or_iff_right seen, or_iff_right older, ← answers]
  constructor
  · rintro ⟨result, ended⟩
    cases verified : node.verify setup clsig with
    | error crash =>
      rw [verified] at ended
      cases ended
    | ok answer => exact ⟨answer, verified⟩
  · rintro ⟨answer, verified⟩
    have verify : node.verify setup clsig = .ok answer := verified
    rw [verify]
    cases answer with
    | mk quorums isValid =>
      cases isValid with
      | false => exact ⟨_, rfl⟩
      | true =>
        have low : 0 ≤ clsig.nHeight := by
          rcases answers.mp ⟨_, verified⟩ with low | wraps
          · omega
          · rw [verify_wrapped fits wraps] at verify
            cases verify
        refine map_ok_iff.mpr ?_
        rw [internalHasConflictingChainLock]
        split
        · exact ⟨_, rfl⟩
        · cases received.handler.bestChainLockBlockIndex with
          | none => exact ⟨_, rfl⟩
          | some best =>
            dsimp only
            split
            · exact ⟨_, rfl⟩
            · split
              · exact ⟨_, rfl⟩
              · obtain ⟨pAncestor, found⟩ := getAncestor_isSome (show clsig.nHeight.toNat ≤ best.nHeight by omega)
                rw [ancestorAt, if_neg (by omega), found]
                exact ⟨_, rfl⟩

private def plain : Setup where
  nLLMQActivationHeight := 0
  genesis := { phashBlock := 1 }
  clsigRequestId nHeight := nHeight.toNat
  verifier :=
    { signingActiveQuorumCount := 4
      selectionScore := fun quorumHash selectionHash => quorumHash + selectionHash
      buildSignHash := fun quorumHash id msgHash => quorumHash + id + msgHash
      verifyInsecure := fun sig quorumPublicKey _ => sig == quorumPublicKey }

/-- On the genesis block alone a CLSIG for height 8 is rejected. -/
theorem processNewChainLock_ends_at_offset :
    ∃ result, (Node.initial plain).processNewChainLock plain { nHeight := 8 } 5 0 = .ok result := by
  refine (processNewChainLock_ends_iff ?_ (by decide) _ _ _).mpr (Or.inr (Or.inr (Or.inl (by decide))))
  intro key mem
  cases mem

/-- A CLSIG for a lower height makes the node scan from a null entry. -/
theorem processNewChainLock_null_below_offset :
    (Node.initial plain).processNewChainLock plain { nHeight := 0, blockHash := 1 } 5 0 = .error .nullBlockIndex := rfl

/-! ### Runs of the handler -/

/-- What reaches the handler. Validation may move the tip at any time; the commitments follow it. -/
inductive Event where
  | processNewChainLock (clsig : CChainLockSig) (hash : Uint256) (now : Int)
  | acceptedBlockHeader (pindexNew : CBlockIndex)
  | updatedBlockTip (pindexNew : CBlockIndex) (db : MinedCommitments)
  | checkActiveState (isSporkActive : Bool)
  | enforceBestChainLock (tip : CBlockIndex) (db : MinedCommitments)
  | cleanup (now : Int)

namespace Node

def acceptedBlockHeader (node : Node) (pindexNew : CBlockIndex) : Node :=
  if fits : Fits node.index pindexNew then
    let node := { node with index := addToBlockIndex node.index pindexNew fits }
    if pindexNew.getBlockHash = node.handler.bestChainLock.blockHash ∧
        node.handler.bestChainLock.nHeight = (pindexNew.nHeight : Int) then
      { node with
        handler := { node.handler with
          bestChainLockWithKnownBlock := node.handler.bestChainLock
          bestChainLockBlockIndex := some pindexNew } }
    else node
  else node

def setTip (node : Node) (tip : CBlockIndex) (db : MinedCommitments) : Node :=
  { node with chain := ⟨some tip⟩, quorums := { node.quorums with db } }

def checkActiveState (setup : Setup) (node : Node) (isSporkActive : Bool) : Except Crash Node :=
  match node.chain.tip with
  | none => .error .nullBlockIndex
  | some tip =>
    .ok { node with
      handler := node.handler.checkActiveState (decide (tip.nHeight > setup.nLLMQActivationHeight)) isSporkActive }

/-- `EnforceBestChainLock`, with the tip and the commitments that it leads to. The lock is notified once its block is
    in the active chain. -/
def enforceBestChainLock (node : Node) (tip : CBlockIndex) (db : MinedCommitments) : Node :=
  if !node.handler.isEnforced then node
  else
    match node.handler.bestChainLockBlockIndex with
    | none => node
    | some best =>
      let node := node.setTip tip db
      if node.handler.lastNotifyChainLockBlockIndex ≠ some best ∧ tip.getAncestor best.nHeight = some best then
        { node with handler := { node.handler with lastNotifyChainLockBlockIndex := some best } }
      else node

end Node

section
variable (setup : Setup)

def step (node : Node) : Event → Except Crash Node
  | .processNewChainLock clsig hash now => (node.processNewChainLock setup clsig hash now).map Prod.fst
  | .acceptedBlockHeader pindexNew => .ok (node.acceptedBlockHeader pindexNew)
  | .updatedBlockTip pindexNew db => .ok (node.setTip pindexNew db)
  | .checkActiveState isSporkActive => node.checkActiveState setup isSporkActive
  | .enforceBestChainLock tip db => .ok (node.enforceBestChainLock tip db)
  | .cleanup now => .ok { node with handler := node.handler.cleanup now }

def run (node : Node) (events : List Event) : Except Crash Node := events.foldlM (step setup) node

end

/-- A block is locked: the best ChainLock is not lower, what is at the height of the block or of one of its ancestors
    and differs from it is in conflict, and the block and its ancestors have a ChainLock. -/
structure Node.Locked (node : Node) (pindex : CBlockIndex) : Prop where
  notLower : (pindex.nHeight : Int) ≤ node.handler.bestChainLock.nHeight
  conflicts : ∀ nHeight ≤ pindex.nHeight, ∀ blockHash,
    (∀ pAncestor, pindex.getAncestor nHeight = some pAncestor → pAncestor.getBlockHash ≠ blockHash) →
      node.handler.internalHasConflictingChainLock nHeight blockHash = .ok true
  hasChainLock : ∀ pAncestor, AncestorOrEq pAncestor pindex →
    node.handler.internalHasChainLock pAncestor.nHeight pAncestor.getBlockHash = true

/-- What keeps a block locked. No CLSIG that is new, above the best one and validly signed names a known block at its
    height on another branch, nor is the block of the best one on another branch when its header comes; and the active
    state is not checked. -/
def Event.Ok (setup : Setup) (pindex : CBlockIndex) (node : Node) : Event → Prop
  | .processNewChainLock clsig hash _ => (node.handler.seenChainLocks.lookup hash).isSome = false →
    node.handler.bestChainLock.nHeight < clsig.nHeight → (∃ quorums, node.verify setup clsig = .ok (quorums, true)) →
    ∀ named, node.index.find clsig.blockHash = some named → (named.nHeight : Int) = clsig.nHeight →
      AncestorOrEq pindex named
  | .acceptedBlockHeader pindexNew => Fits node.index pindexNew →
    pindexNew.getBlockHash = node.handler.bestChainLock.blockHash →
    node.handler.bestChainLock.nHeight = (pindexNew.nHeight : Int) → AncestorOrEq pindex pindexNew
  | .checkActiveState _ => False
  | _ => True

/-! ### What keeps a block locked -/

variable {event : Event}

section
variable {best : CBlockIndex}

theorem ancestorAt_nat (nHeight : Nat) : ancestorAt pindex nHeight = pindex.getAncestor nHeight := by
  rw [ancestorAt, if_neg (by omega), Int.toNat_natCast]

variable {handler : Handler}

section
variable (enforced : handler.isEnforced = true) (isBest : handler.bestChainLockBlockIndex = some best)
include enforced isBest

/-- Below the best block, a ChainLock is had by the ancestors and in conflict with everything else. -/
theorem internalHasChainLock_iff (nHeight : Nat) (blockHash : Uint256) :
    handler.internalHasChainLock nHeight blockHash = true ↔
      ∃ pAncestor, best.getAncestor nHeight = some pAncestor ∧ pAncestor.getBlockHash = blockHash := by
  simp only [internalHasChainLock, enforced, isBest, Bool.not_true, ancestorAt_nat]
  by_cases above : best.nHeight < nHeight
  · have none : best.getAncestor nHeight = none := getAncestor_none above
    simp [above, none]
  · by_cases same : nHeight = best.nHeight
    · subst same
      simp [eq_comm]
    · have apart : ¬ (nHeight : Int) = best.nHeight := by omega
      have below : ¬ (nHeight : Int) > best.nHeight := by omega
      simp only [apart, below, if_false]
      cases best.getAncestor nHeight <;> simp

theorem internalHasConflictingChainLock_iff {nHeight : Nat} (low : nHeight ≤ best.nHeight) (blockHash : Uint256) :
    handler.internalHasConflictingChainLock nHeight blockHash = .ok true ↔
      ∀ pAncestor, best.getAncestor nHeight = some pAncestor → pAncestor.getBlockHash ≠ blockHash := by
  obtain ⟨pAncestor, found⟩ := getAncestor_isSome low
  have below : ¬ (nHeight : Int) > best.nHeight := by omega
  simp only [internalHasConflictingChainLock, enforced, isBest, Bool.not_true, if_false, ancestorAt_nat, below,
    found, some.injEq, forall_eq']
  by_cases same : nHeight = best.nHeight
  · subst same
    obtain rfl : best = pAncestor := by simpa using found
    simp [@eq_comm _ blockHash]
  · have apart : ¬ (nHeight : Int) = best.nHeight := by omega
    simp [apart]

end

/-- There is a tip, and the best block is known; the best ChainLock may be for a later, unknown one. -/
structure Node.WellFormed (node : Node) : Prop where
  tip : ∃ tip, node.chain.tip = some tip
  best : ∀ best, node.handler.bestChainLockBlockIndex = some best →
    node.index.mem best ∧ (best.nHeight : Int) ≤ node.handler.bestChainLock.nHeight

/-- A block is locked exactly if locks are enforced and the best one is for the block or for a descendant. -/
theorem locked_iff (wellFormed : node.WellFormed) (known : node.index.mem pindex) :
    node.Locked pindex ↔ (pindex.nHeight : Int) ≤ node.handler.bestChainLock.nHeight ∧ node.handler.isEnforced = true ∧
      ∃ best, node.handler.bestChainLockBlockIndex = some best ∧ AncestorOrEq pindex best := by
  constructor
  · intro locked
    have own := locked.hasChainLock pindex (.refl _)
    have enforced : node.handler.isEnforced = true := by
      by_contra off
      simp [internalHasChainLock, off] at own
    cases isBest : node.handler.bestChainLockBlockIndex with
    | none => simp [internalHasChainLock, enforced, isBest] at own
    | some best =>
      obtain ⟨pAncestor, found, same⟩ := (internalHasChainLock_iff enforced isBest _ _).mp own
      obtain ⟨below, -⟩ := getAncestor_eq_some.mp found
      have inMap := node.index.mem_ancestor below (wellFormed.best best isBest).1
      obtain rfl := node.index.hash_injective inMap known same
      exact ⟨locked.notLower, enforced, best, rfl, below⟩
  · rintro ⟨notLower, enforced, best, isBest, above⟩
    have sameBelow : ∀ nHeight ≤ pindex.nHeight, best.getAncestor nHeight = pindex.getAncestor nHeight := by
      intro nHeight low
      obtain ⟨pAncestor, found⟩ := getAncestor_isSome low
      obtain ⟨below, height⟩ := getAncestor_eq_some.mp found
      rw [found]
      exact getAncestor_eq_some.mpr ⟨below.trans above, height⟩
    refine ⟨notLower, fun nHeight low blockHash differs => ?_, fun pAncestor below => ?_⟩
    · rw [internalHasConflictingChainLock_iff enforced isBest (low.trans above.nHeight_le), sameBelow nHeight low]
      exact differs
    · rw [internalHasChainLock_iff enforced isBest, sameBelow _ below.nHeight_le]
      exact ⟨pAncestor, getAncestor_eq_some.mpr ⟨below, rfl⟩, rfl⟩

/-- What an event does to the best block: it is kept, another takes its place, or it is forgotten. -/
inductive Kind where
  | kept
  | moved (named : CBlockIndex)
  | reset

def Kind.Ok (pindex : CBlockIndex) : Kind → Prop
  | .kept => True
  | .moved named => AncestorOrEq pindex named
  | .reset => False

inductive Change (node after : Node) : Kind → Prop where
  | kept (enforced : after.handler.isEnforced = node.handler.isEnforced)
      (same : after.handler.bestChainLockBlockIndex = node.handler.bestChainLockBlockIndex)
      (higher : ∀ best, node.handler.bestChainLockBlockIndex = some best →
        node.handler.bestChainLock.nHeight ≤ after.handler.bestChainLock.nHeight) : Change node after .kept
  | moved {named} (enforced : after.handler.isEnforced = node.handler.isEnforced)
      (isBest : after.handler.bestChainLockBlockIndex = some named) (known : after.index.mem named)
      (height : (named.nHeight : Int) = after.handler.bestChainLock.nHeight) : Change node after (.moved named)
  | reset (forgotten : after.handler.bestChainLockBlockIndex = none) : Change node after .reset

structure Grown (node after : Node) : Prop where
  index : ∀ p, node.index.mem p → after.index.mem p
  tip : ∃ tip, after.chain.tip = some tip

section
variable {kind : Kind} (change : Change node after kind) (grown : Grown node after)
include change grown

theorem Change.wellFormed (wellFormed : node.WellFormed) : after.WellFormed := by
  refine ⟨grown.tip, fun best isBest => ?_⟩
  cases change with
  | kept enforced same higher =>
    rw [same] at isBest
    obtain ⟨known, height⟩ := wellFormed.best best isBest
    exact ⟨grown.index best known, height.trans (higher best isBest)⟩
  | moved enforced isNamed known height =>
    obtain rfl : _ = best := some.inj (isNamed.symm.trans isBest)
    exact ⟨known, height.le⟩
  | reset forgotten =>
    rw [forgotten] at isBest
    cases isBest

/-- A locked block stays locked if the best block is kept or moves to a descendant. -/
theorem Change.locked_iff
    (wellFormed : node.WellFormed) (known : node.index.mem pindex) (locked : node.Locked pindex) :
    after.Locked pindex ↔ kind.Ok pindex := by
  rw [ChainLocks.locked_iff (change.wellFormed grown wellFormed) (grown.index pindex known)]
  obtain ⟨notLower, isEnforced, best, isBest, above⟩ := (ChainLocks.locked_iff wellFormed known).mp locked
  cases change with
  | kept enforced same higher =>
    refine iff_of_true ⟨notLower.trans (higher best isBest), enforced.trans isEnforced, best, same.trans isBest, above⟩ ?_
    trivial
  | moved enforced isNamed known height =>
    rw [isNamed]
    constructor
    · rintro ⟨-, -, other, same, below⟩
      cases same
      exact below
    · intro below
      refine ⟨?_, enforced.trans isEnforced, _, rfl, below⟩
      have := below.nHeight_le
      omega
  | reset forgotten =>
    refine iff_of_false ?_ id
    rintro ⟨-, -, other, same, -⟩
    rw [forgotten] at same
    cases same

end

def Node.accept (node : Node) (clsig : CChainLockSig) (hash : Uint256) (now : Int) (quorums : CQuorumManager) :
    Node × Verdict :=
  let accepted := (node.handler.see hash now).accept (node.index.find clsig.blockHash) clsig hash
  ({ node with quorums, handler := accepted.1 }, accepted.2)

section

variable (wellFormed : node.WellFormed)
include wellFormed

theorem processNewChainLock_of_newer (unseen : ¬ (node.handler.seenChainLocks.lookup hash).isSome = true)
    (newer : ¬ (node.handler.bestChainLock.nHeight ≠ -1 ∧ clsig.nHeight ≤ node.handler.bestChainLock.nHeight)) :
    node.processNewChainLock setup clsig hash now = (node.verify setup clsig).map fun answer =>
      if answer.2 then node.accept clsig hash now answer.1
      else ({ node with quorums := answer.1, handler := node.handler.see hash now }, .invalid) := by
  let received : Node := { node with handler := node.handler.see hash now }
  have path : node.processNewChainLock setup clsig hash now =
      (node.verify setup clsig).bind (received.judge clsig hash) := (if_neg unseen).trans (if_neg newer)
  have apart : received.handler.internalHasConflictingChainLock clsig.nHeight clsig.blockHash = .ok false := by
    rw [internalHasConflictingChainLock]
    split
    · rfl
    · cases isBest : received.handler.bestChainLockBlockIndex with
      | none => rfl
      | some best =>
        have height := (wellFormed.best best isBest).2
        have above : (best.nHeight : Int) < clsig.nHeight := by omega
        simp [above]
  rw [path]
  cases node.verify setup clsig with
  | error crash => rfl
  | ok answer =>
    obtain ⟨quorums, verified⟩ := answer
    cases verified with
    | false => rfl
    | true =>
      simp only [Except.bind, Except.map, Node.judge, apart]
      rfl

theorem accept_change
    (newer : ¬ (node.handler.bestChainLock.nHeight ≠ -1 ∧ clsig.nHeight ≤ node.handler.bestChainLock.nHeight))
    (quorums : CQuorumManager) :
    (∀ named, node.index.find clsig.blockHash = some named → (named.nHeight : Int) ≠ clsig.nHeight) ∧
        Change node (node.accept clsig hash now quorums).1 .kept ∧ (node.accept clsig hash now quorums).2 ≠ .accepted ∨
      ∃ named, node.index.find clsig.blockHash = some named ∧ (named.nHeight : Int) = clsig.nHeight ∧
        Change node (node.accept clsig hash now quorums).1 (.moved named) ∧
        (node.accept clsig hash now quorums).2 = .accepted := by
  have higher : ∀ best, node.handler.bestChainLockBlockIndex = some best →
      node.handler.bestChainLock.nHeight ≤ clsig.nHeight := by
    intro best isBest
    have height := (wellFormed.best best isBest).2
    omega
  cases known : node.index.find clsig.blockHash with
  | none =>
    refine Or.inl ⟨by simp, ?_⟩
    simp only [Node.accept, accept, known]
    exact ⟨.kept rfl rfl higher, by simp⟩
  | some named =>
    by_cases height : (named.nHeight : Int) = clsig.nHeight
    · refine Or.inr ⟨named, rfl, height, ?_⟩
      simp only [Node.accept, accept, known, height, ne_eq, not_true_eq_false, if_false]
      exact ⟨.moved rfl rfl (node.index.mem_of_find known) height, by simp⟩
    · refine Or.inl ⟨?_, ?_⟩
      · rintro other ⟨⟩
        exact height
      · simp only [Node.accept, accept, known, height, ne_eq, not_false_eq_true, if_true]
        exact ⟨.kept rfl rfl higher, by simp⟩

theorem Node.WellFormed.grown (index : after.index = node.index)
    (chain : after.chain = node.chain) : Grown node after :=
  ⟨fun _ known => index ▸ known, chain ▸ wellFormed.tip⟩

theorem processNewChainLock_change (stepped : step setup node (.processNewChainLock clsig hash now) = .ok after) :
    ∃ kind, Change node after kind ∧ Grown node after ∧ ∀ pindex, node.Locked pindex →
      (kind.Ok pindex ↔ (Event.processNewChainLock clsig hash now).Ok setup pindex node) := by
  by_cases seen : (node.handler.seenChainLocks.lookup hash).isSome = true
  · obtain rfl : node = after := by simpa [step, Node.processNewChainLock, seen, Except.map] using stepped
    refine ⟨.kept, .kept rfl rfl fun _ _ => le_rfl, wellFormed.grown rfl rfl, fun _ _ => iff_of_true trivial fun unseen => ?_⟩
    simp [seen] at unseen
  by_cases older : node.handler.bestChainLock.nHeight ≠ -1 ∧ clsig.nHeight ≤ node.handler.bestChainLock.nHeight
  · have path : node.processNewChainLock setup clsig hash now =
        .ok ({ node with handler := node.handler.see hash now }, .older) := (if_neg seen).trans (if_pos older)
    rw [step, path] at stepped
    cases stepped
    refine ⟨.kept, .kept rfl rfl fun _ _ => le_rfl, wellFormed.grown rfl rfl, fun _ _ => iff_of_true trivial fun _ newer => ?_⟩
    omega
  rw [step, processNewChainLock_of_newer wellFormed seen older] at stepped
  cases answer : node.verify setup clsig with
  | error crash =>
    rw [answer] at stepped
    cases stepped
  | ok verdict =>
    obtain ⟨quorums, verified⟩ := verdict
    rw [answer] at stepped
    cases verified with
    | false =>
      cases stepped
      refine ⟨.kept, .kept rfl rfl fun _ _ => le_rfl, wellFormed.grown rfl rfl, fun _ _ => iff_of_true trivial ?_⟩
      rintro - - ⟨other, valid⟩
      rw [answer] at valid
      cases valid
    | true =>
      cases stepped
      rcases accept_change wellFormed older quorums with ⟨elsewhere, kept, -⟩ | ⟨named, known, height, moved, -⟩
      · refine ⟨.kept, kept, wellFormed.grown rfl rfl, fun _ _ => iff_of_true trivial fun _ _ _ named known height => ?_⟩
        exact absurd height (elsewhere named known)
      · refine ⟨.moved named, moved, wellFormed.grown rfl rfl, fun pindex locked => ⟨?_, ?_⟩⟩
        · intro above _ _ _ other found _
          obtain rfl : named = other := some.inj (known.symm.trans found)
          exact above
        · intro ok
          exact ok (by simpa using seen) (by omega) ⟨quorums, answer⟩ named known height

end

variable (wellFormed : node.WellFormed)
include wellFormed

theorem enforceBestChainLock_change (tip : CBlockIndex) (db : MinedCommitments) :
    Change node (node.enforceBestChainLock tip db) .kept ∧ Grown node (node.enforceBestChainLock tip db) := by
  rw [Node.enforceBestChainLock]
  split
  · exact ⟨.kept rfl rfl fun _ _ => le_rfl, wellFormed.grown rfl rfl⟩
  · split
    · exact ⟨.kept rfl rfl fun _ _ => le_rfl, wellFormed.grown rfl rfl⟩
    · dsimp only
      split
      · exact ⟨.kept rfl rfl fun _ _ => le_rfl, fun _ => id, _, rfl⟩
      · exact ⟨.kept rfl rfl fun _ _ => le_rfl, fun _ => id, _, rfl⟩

theorem acceptedBlockHeader_change (pindexNew : CBlockIndex) :
    ∃ kind, Change node (node.acceptedBlockHeader pindexNew) kind ∧ Grown node (node.acceptedBlockHeader pindexNew) ∧
      ∀ pindex, (kind.Ok pindex ↔ (Event.acceptedBlockHeader pindexNew).Ok setup pindex node) := by
  by_cases fits : Fits node.index pindexNew
  · have grows : ∀ p, node.index.mem p → (addToBlockIndex node.index pindexNew fits).mem p := by
      intro p known
      have apart : p.getBlockHash ≠ pindexNew.getBlockHash := by
        intro same
        rw [BlockMap.mem, same, fits.1] at known
        cases known
      exact (if_neg apart).trans known
    by_cases late : pindexNew.getBlockHash = node.handler.bestChainLock.blockHash ∧
        node.handler.bestChainLock.nHeight = (pindexNew.nHeight : Int)
    · simp only [Node.acceptedBlockHeader, fits, late, dif_pos, and_self, if_true]
      refine ⟨.moved pindexNew, .moved rfl rfl (if_pos rfl) late.2.symm, ⟨grows, wellFormed.tip⟩, fun pindex => ⟨?_, ?_⟩⟩
      · intro above _ _ _
        exact above
      · intro ok
        exact ok fits late.1 late.2
    · simp only [Node.acceptedBlockHeader, fits, late, dif_pos, if_false]
      refine ⟨.kept, .kept rfl rfl fun _ _ => le_rfl, ⟨grows, wellFormed.tip⟩, fun _ => iff_of_true trivial fun _ hash height => ?_⟩
      exact absurd ⟨hash, height⟩ late
  · simp only [Node.acceptedBlockHeader, fits, dif_neg, not_false_eq_true]
    refine ⟨.kept, .kept rfl rfl fun _ _ => le_rfl, wellFormed.grown rfl rfl, fun _ => iff_of_true trivial fun known => ?_⟩
    exact absurd known fits

/-- What each event does to the best block, and that this is what its condition is about. -/
theorem step_change (stepped : step setup node event = .ok after) :
    ∃ kind, Change node after kind ∧ Grown node after ∧
      ∀ pindex, node.Locked pindex → (kind.Ok pindex ↔ event.Ok setup pindex node) := by
  cases event with
  | processNewChainLock clsig hash now => exact processNewChainLock_change wellFormed stepped
  | acceptedBlockHeader pindexNew =>
    cases stepped
    obtain ⟨kind, change, grown, ok⟩ := acceptedBlockHeader_change wellFormed pindexNew
    exact ⟨kind, change, grown, fun pindex _ => ok pindex⟩
  | updatedBlockTip pindexNew db =>
    cases stepped
    exact ⟨.kept, .kept rfl rfl fun _ _ => le_rfl, ⟨fun _ => id, _, rfl⟩, fun _ _ => Iff.rfl⟩
  | checkActiveState isSporkActive =>
    obtain ⟨tip, isTip⟩ := wellFormed.tip
    rw [step, Node.checkActiveState, isTip] at stepped
    cases stepped
    exact ⟨.reset, .reset rfl, wellFormed.grown rfl rfl, fun _ _ => Iff.rfl⟩
  | enforceBestChainLock tip db =>
    cases stepped
    obtain ⟨change, grown⟩ := enforceBestChainLock_change wellFormed tip db
    exact ⟨.kept, change, grown, fun _ _ => Iff.rfl⟩
  | cleanup now =>
    cases stepped
    have same : Change node { node with handler := node.handler.cleanup now } .kept := by
      rw [cleanup]
      split
      · exact .kept rfl rfl fun _ _ => le_rfl
      · exact .kept rfl rfl fun _ _ => le_rfl
    exact ⟨.kept, same, wellFormed.grown rfl rfl, fun _ _ => Iff.rfl⟩

theorem ok_of_error {crash : Crash} (stopped : step setup node event = .error crash) : event.Ok setup pindex node := by
  cases event with
  | processNewChainLock clsig hash now =>
    rintro unseen newer ⟨quorums, valid⟩
    rw [step, processNewChainLock_of_newer wellFormed (by simpa using unseen) (by omega), valid] at stopped
    cases stopped
  | checkActiveState isSporkActive =>
    obtain ⟨tip, isTip⟩ := wellFormed.tip
    rw [step, Node.checkActiveState, isTip] at stopped
    cases stopped
  | acceptedBlockHeader pindexNew => cases stopped
  | updatedBlockTip pindexNew db => trivial
  | enforceBestChainLock tip db => trivial
  | cleanup now => trivial

end

/-! ### Whole runs -/

section
variable {start node : Node} {pindex : CBlockIndex} {clsig : CChainLockSig} {hash : Uint256} {now : Int}

theorem run_append_eq_ok {done : List Event} : run setup node (done ++ [event]) = .ok after ↔
      ∃ mid, run setup node done = .ok mid ∧ step setup mid event = .ok after := by
  rw [run, foldlM_append, Folds.bind_eq_ok]
  simp [run]

theorem run_wellFormed (wellFormed : node.WellFormed) {events : List Event} (ran : run setup node events = .ok after) :
    after.WellFormed ∧ ∀ p, node.index.mem p → after.index.mem p := by
  induction events using reverseRecOn generalizing after with
  | nil =>
    cases ran
    exact ⟨wellFormed, fun _ => id⟩
  | append_singleton done event ih =>
    obtain ⟨mid, ranMid, stepped⟩ := run_append_eq_ok.mp ran
    obtain ⟨wellFormedMid, grows⟩ := ih ranMid
    obtain ⟨kind, change, grown, -⟩ := step_change wellFormedMid stepped
    exact ⟨change.wellFormed grown wellFormedMid, fun p known => grown.index p (grows p known)⟩

theorem accepted_change (wellFormed : start.WellFormed) (known : start.index.find clsig.blockHash = some pindex)
    (accepted : start.processNewChainLock setup clsig hash now = .ok (node, .accepted)) :
    Change start node (.moved pindex) ∧ Grown start node := by
  by_cases seen : (start.handler.seenChainLocks.lookup hash).isSome = true
  · rw [Node.processNewChainLock, if_pos seen] at accepted
    cases accepted
  by_cases older : start.handler.bestChainLock.nHeight ≠ -1 ∧ clsig.nHeight ≤ start.handler.bestChainLock.nHeight
  · rw [Node.processNewChainLock, if_neg seen] at accepted
    have path := (if_pos older).symm.trans accepted
    cases path
  rw [processNewChainLock_of_newer wellFormed seen older] at accepted
  cases answer : start.verify setup clsig with
  | error crash =>
    rw [answer] at accepted
    cases accepted
  | ok verdict =>
    obtain ⟨quorums, verified⟩ := verdict
    rw [answer] at accepted
    cases verified with
    | false => cases accepted
    | true =>
      have same : start.accept clsig hash now quorums = (node, .accepted) := Except.ok.inj accepted
      rcases accept_change wellFormed older quorums with ⟨-, -, other⟩ | ⟨named, found, -, moved, -⟩
      · exact absurd (congrArg Prod.snd same) other
      · obtain rfl : named = pindex := some.inj (found.symm.trans known)
        rw [same] at moved
        refine ⟨moved, wellFormed.grown ?_ ?_⟩
        · exact congrArg (fun result => result.1.index) same.symm
        · exact congrArg (fun result => result.1.chain) same.symm

end

private def blockAt : Nat → CBlockIndex
  | 0 => .genesis { phashBlock := 1 }
  | n + 1 => .next (blockAt n) { phashBlock := n + 2 }

private def oneQuorum : MinedCommitments where
  byInversedHeight := [(1, 0)]
  ordered := pairwise_singleton _ _
  commitment := AList.insert 1 [5] ∅

/-- Nine blocks arrive, with the commitment of a quorum in the first, and the active state is checked. -/
private def nineBlocks : List Event :=
  (range 9).map (fun n => .acceptedBlockHeader (blockAt (n + 1))) ++
    [.updatedBlockTip (blockAt 9) oneQuorum, .checkActiveState true]

private def clsigOfTip : CChainLockSig := { nHeight := 9, blockHash := 10, sig := [5] }

private def startNode : Node := ((run plain (.initial plain) nineBlocks).toOption).getD (.initial plain)

private def lockedNode : Node :=
  (((startNode.processNewChainLock plain clsigOfTip 70 0).toOption).map Prod.fst).getD startNode

end Cspn.ChainLocks
