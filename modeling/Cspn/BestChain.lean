import Cspn.Index

/-!
The selection of the best chain. `ActivateBestChain` disconnects the tip down to the fork with the best candidate and
connects block after block; it starts over with the next candidate when a block is invalid. Whether a block connects
depends on much of the node: all that is one function of what the call did so far.
-/
namespace Cspn.BestChain
open Index Index.CBlockIndex List OrderDual

/-! ### The block index -/

/-- The block index with the fields that no call of `ActivateBestChain` changes. -/
structure BlockTree where
  entries : List CBlockIndex
  nChainWork : CBlockIndex → Nat
  nSequenceId : CBlockIndex → Int
  /-- The address of the entry, the last tie breaker of the order. -/
  address : CBlockIndex → Nat
  /-- The bit `BLOCK_HAVE_DATA`. -/
  haveData : CBlockIndex → Bool
  haveTxsDownloaded : CBlockIndex → Bool
  closed : ∀ p ∈ entries, ∀ q ∈ p.pprev, q ∈ entries

variable {entries : List CBlockIndex} {a p start target : CBlockIndex} {found : Option CBlockIndex}

namespace BlockTree

variable (tree : BlockTree) (pa pb : CBlockIndex)

/-- `CBlockIndexWorkComparator`: the first entry is worse than the second. -/
def workComparator : Bool :=
  if tree.nChainWork pa > tree.nChainWork pb then false
  else if tree.nChainWork pa < tree.nChainWork pb then true
  else if tree.nSequenceId pa < tree.nSequenceId pb then false
  else if tree.nSequenceId pa > tree.nSequenceId pb then true
  else if tree.address pa < tree.address pb then false
  else if tree.address pa > tree.address pb then true
  else false

def rank (p : CBlockIndex) : Nat ×ₗ (Intᵒᵈ ×ₗ Natᵒᵈ) :=
  toLex (tree.nChainWork p, toLex (toDual (tree.nSequenceId p), toDual (tree.address p)))

theorem workComparator_iff : tree.workComparator pa pb = true ↔ tree.rank pa < tree.rank pb := by
  simp only [rank, Prod.Lex.toLex_lt_toLex, toDual_lt_toDual, toDual_inj, workComparator]
  repeat' split
  all_goals simp
  all_goals omega

theorem not_workComparator_iff : tree.workComparator pa pb = false ↔ tree.rank pb ≤ tree.rank pa := by
  rw [← Bool.not_eq_true, workComparator_iff, not_lt]

def rbegin (tree : BlockTree) : List CBlockIndex → Option CBlockIndex
  | [] => none
  | p :: rest =>
    match rbegin tree rest with
    | none => some p
    | some q => if tree.workComparator q p then some p else some q

theorem rbegin_eq_none {tree : BlockTree} (empty : tree.rbegin entries = none) : entries = [] := by
  cases entries with
  | nil => rfl
  | cons p rest =>
    rw [rbegin] at empty
    split at empty
    next => cases empty
    next => split at empty <;> cases empty

theorem rbegin_spec {tree : BlockTree} {last : CBlockIndex}
    (isLast : tree.rbegin entries = some last) : last ∈ entries ∧ ∀ p ∈ entries, tree.rank p ≤ tree.rank last := by
  induction entries generalizing last with
  | nil => cases isLast
  | cons p rest ih =>
    rw [rbegin] at isLast
    split at isLast
    next empty =>
      cases isLast
      simp [rbegin_eq_none empty]
    next q isRest =>
      obtain ⟨mem, le⟩ := ih isRest
      split at isLast
      next worse =>
        cases isLast
        have lt := (tree.workComparator_iff q p).mp worse
        exact ⟨by simp, forall_mem_cons.mpr ⟨le_rfl, fun r mem => (le r mem).trans lt.le⟩⟩
      next noWorse =>
        cases isLast
        have le' := (tree.not_workComparator_iff last p).mp (by simpa using noWorse)
        exact ⟨.tail _ mem, forall_mem_cons.mpr ⟨le', le⟩⟩

theorem ancestor_mem (below : AncestorOrEq a p) (entry : p ∈ tree.entries) : a ∈ tree.entries := by
  induction below with
  | refl => exact entry
  | step f _ ih => exact ih (tree.closed _ entry _ rfl)

def downloaded (p : CBlockIndex) : Bool := tree.haveTxsDownloaded p || p.nHeight == 0

end BlockTree

inductive Move where
  | connected (pindex : CBlockIndex)
  | disconnected (pindex : CBlockIndex)
  | refused (pindex : CBlockIndex)
deriving DecidableEq

structure ChainState where
  tip : CBlockIndex
  setBlockIndexCandidates : List CBlockIndex
  /-- The entries with the bit `BLOCK_FAILED_VALID`. -/
  failedValid : List CBlockIndex
  /-- The entries with the bit `BLOCK_FAILED_CHILD`. -/
  failedChild : List CBlockIndex
  blocksUnlinked : List (Option CBlockIndex × CBlockIndex)
  failedBlocks : List CBlockIndex
  pindexBestInvalid : Option CBlockIndex
  /-- The moves of the running call, the latest first. -/
  history : List Move
deriving DecidableEq

/-- How `ConnectTip` ends. `mutated` is `BLOCK_MUTATED`; `error` is a failure of the local system. -/
inductive Outcome where
  | connected
  | invalid
  | mutated
  | error

/-- The rest of the node, as the answers to the attempts to move the tip. -/
structure Circumstances where
  connectTip : List Move → CBlockIndex → Outcome
  disconnectTip : List Move → CBlockIndex → Bool

namespace ChainState

variable (tree : BlockTree) (s : ChainState) (pindexNew : CBlockIndex)

def chain : CChain := ⟨some s.tip⟩

def failed (p : CBlockIndex) : Bool :=
  decide (p ∈ s.failedValid) || decide (p ∈ s.failedChild)

theorem chain_contains_iff (p : CBlockIndex) : s.chain.contains p = true ↔ AncestorOrEq p s.tip := by
  simp [chain, CChain.contains_iff]

/-! ### The code -/

def invalidChainFound : ChainState :=
  match s.pindexBestInvalid with
  | none => { s with pindexBestInvalid := some pindexNew }
  | some best =>
    if tree.nChainWork pindexNew > tree.nChainWork best then { s with pindexBestInvalid := some pindexNew } else s

/-- The entries from a candidate down to the active chain, the candidate first. -/
def offChain : List CBlockIndex :=
  pindexNew.path.takeWhile fun p => !s.chain.contains p

def usable (p : CBlockIndex) : Bool := !s.failed p && tree.haveData p

/-- Removes a candidate and what is below it, down to the first unusable entry. -/
def removeChain (above : List CBlockIndex) (pindexTest : CBlockIndex) : ChainState :=
  let candidates := s.setBlockIndexCandidates.filter fun p => decide (p ∉ pindexTest :: above)
  if s.failed pindexTest then
    { s.invalidChainFound tree pindexNew with
      failedChild := above ++ s.failedChild
      setBlockIndexCandidates := candidates }
  else
    { s with
      blocksUnlinked := above.map (fun p => (p.pprev, p)) ++ s.blocksUnlinked
      setBlockIndexCandidates := candidates }

/-- The loop of `FindMostWorkChain`; every round removes the best candidate or returns it. -/
def findMostWorkFrom (tree : BlockTree) : Nat → ChainState → Option (ChainState × Option CBlockIndex)
  | 0, _ => none
  | fuel + 1, s =>
    match tree.rbegin s.setBlockIndexCandidates with
    | none => some (s, none)
    | some pindexNew =>
      match (s.offChain pindexNew).dropWhile (s.usable tree) with
      | [] => if (s.offChain pindexNew).all tree.downloaded then some (s, some pindexNew) else none
      | pindexTest :: _ =>
        let above := (s.offChain pindexNew).takeWhile (s.usable tree)
        if (pindexTest :: above).all tree.downloaded then
          findMostWorkFrom tree fuel (s.removeChain tree pindexNew above pindexTest)
        else none

def findMostWorkChain : Option (ChainState × Option CBlockIndex) :=
  s.findMostWorkFrom tree (s.setBlockIndexCandidates.length + 1)

/-- Without the final assertion, which `connectBlocks` makes. -/
def pruneBlockIndexCandidates : ChainState :=
  { s with setBlockIndexCandidates := s.setBlockIndexCandidates.filter fun p => !tree.workComparator p s.tip }

def invalidBlockFound (pindex : CBlockIndex) : ChainState :=
  invalidChainFound tree
    { s with
      failedValid := pindex :: s.failedValid
      failedBlocks := pindex :: s.failedBlocks
      setBlockIndexCandidates := s.setBlockIndexCandidates.filter fun p => decide (p ≠ pindex) } pindex

def findFork (pindex : CBlockIndex) : Option CBlockIndex :=
  pindex.path.find? fun p => s.chain.contains p

/-- Disconnects block after block down to the fork. A block whose data are gone cannot be read. -/
def disconnectUntil (tree : BlockTree) (around : Circumstances) (pindexFork : CBlockIndex) :
    CBlockIndex → List Move → Option (List Move)
  | .genesis f, history => if .genesis f = pindexFork then some history else none
  | .next p f, history =>
    if .next p f = pindexFork then some history
    else if tree.haveData (.next p f) && around.disconnectTip history (.next p f) then
      disconnectUntil tree around pindexFork p (.disconnected (.next p f) :: history)
    else none

def blocksAbove (pindexFork : CBlockIndex) : CBlockIndex → List CBlockIndex
  | .genesis f => if .genesis f = pindexFork then [] else [.genesis f]
  | .next p f => if .next p f = pindexFork then [] else blocksAbove pindexFork p ++ [.next p f]

/-- The last block of the chunk of 32 that holds `pindexConnect`. -/
def chunkEnd (pindexFork pindexMostWork pindexConnect : CBlockIndex) : CBlockIndex :=
  let chunks := (pindexConnect.nHeight - pindexFork.nHeight + 31) / 32
  (pindexMostWork.getAncestor (min (pindexFork.nHeight + 32 * chunks) pindexMostWork.nHeight)).getD pindexMostWork

def connected : ChainState :=
  pruneBlockIndexCandidates tree { s with tip := pindexNew, history := .connected pindexNew :: s.history }

def refused (pindexConnect chunk : CBlockIndex) : ChainState :=
  ({ s with history := .refused pindexConnect :: s.history }.invalidBlockFound tree pindexConnect).invalidChainFound
    tree chunk

/-- Connects the blocks until one is refused or the tip has more work than before. The answer says whether an invalid
block was found. -/
def connectBlocks (tree : BlockTree) (around : Circumstances) (pindexOldTip pindexFork pindexMostWork : CBlockIndex) :
    List CBlockIndex → ChainState → Option (ChainState × Bool)
  | [], s => some (s, false)
  | pindexConnect :: rest, s =>
    if !tree.haveData pindexConnect then none
    else
      match around.connectTip s.history pindexConnect with
      | .error => none
      | .mutated => some ({ s with history := .refused pindexConnect :: s.history }, true)
      | .invalid => some (s.refused tree pindexConnect (chunkEnd pindexFork pindexMostWork pindexConnect), true)
      | .connected =>
        if (s.connected tree pindexConnect).setBlockIndexCandidates = [] then none
        else if tree.nChainWork pindexConnect > tree.nChainWork pindexOldTip then
          some (s.connected tree pindexConnect, false)
        else
          connectBlocks tree around pindexOldTip pindexFork pindexMostWork rest (s.connected tree pindexConnect)

/-- All entries descend from one genesis block, so there is a fork. -/
def activateBestChainStep (around : Circumstances) (s : ChainState)
    (pindexMostWork : CBlockIndex) : Option (ChainState × Bool) :=
  (s.findFork pindexMostWork).bind fun pindexFork =>
    (disconnectUntil tree around pindexFork s.tip s.history).bind fun history =>
      connectBlocks tree around s.tip pindexFork pindexMostWork (blocksAbove pindexFork pindexMostWork)
        { s with tip := pindexFork, history := history }

/-- The branch to work towards: the one kept from the last round, or the best there is. -/
def mostWork : Option CBlockIndex → Option (ChainState × Option CBlockIndex)
  | some pindexMostWork => some (s, some pindexMostWork)
  | none => s.findMostWorkChain tree

structure Progress where
  state : ChainState
  pindexMostWork : Option CBlockIndex
  blocksConnected : Bool

/-- The inner loop, which runs until the tip is not worse than the one it started with. -/
def makeProgress (tree : BlockTree) (around : Circumstances) (startingTip : CBlockIndex) :
    Nat → ChainState → Option CBlockIndex → Bool → Option Progress
  | 0, _, _, _ => none
  | fuel + 1, s, pindexMostWork, blocksConnected =>
    match s.mostWork tree pindexMostWork with
    | none => none
    | some (s, none) => some ⟨s, none, blocksConnected⟩
    | some (s, some target) =>
      if target = s.tip then some ⟨s, some target, blocksConnected⟩
      else
        match s.activateBestChainStep tree around target with
        | none => none
        | some (s, fInvalidFound) =>
          let pindexMostWork := if fInvalidFound then none else some target
          if tree.workComparator s.tip startingTip then makeProgress tree around startingTip fuel s pindexMostWork true
          else some ⟨s, pindexMostWork, true⟩

/-- The outer loop. Only the inner one moves the tip, so `pindexNewTip` is the tip it left. -/
def activateFrom (tree : BlockTree) (around : Circumstances) : Nat → ChainState → Option CBlockIndex → Option ChainState
  | 0, _, _ => none
  | fuel + 1, s, pindexMostWork =>
    match makeProgress tree around s.tip (fuel + 1) s pindexMostWork false with
    | none => none
    | some progress =>
      if !progress.blocksConnected then some progress.state
      else if some progress.state.tip = progress.pindexMostWork then some progress.state
      else activateFrom tree around fuel progress.state progress.pindexMostWork

/-- `none` stands for a system error, a failed assertion, or more rounds than `fuel`. -/
def activateBestChain (around : Circumstances) (fuel : Nat) (s : ChainState) : Option ChainState :=
  activateFrom tree around fuel { s with history := [] } none

end ChainState

open ChainState (activateFrom blocksAbove connectBlocks disconnectUntil findMostWorkFrom makeProgress offChain removeChain usable)

/-- Every block below `p` has its data; the chain to `tip` may be pruned. -/
def Available (tree : BlockTree) (tip p : CBlockIndex) : Prop :=
  ∀ a, AncestorOrEq a p → AncestorOrEq a tip ∨ tree.haveData a = true

def Sound (s : ChainState) (p : CBlockIndex) : Prop := ∀ a, AncestorOrEq a p → s.failed a = false

/-- Every entry that has its data and is neither failed nor worse than the tip is a candidate. -/
def HoldsCandidates (tree : BlockTree) (s : ChainState) : Prop :=
  ∀ p ∈ tree.entries, Available tree s.tip p → Sound s p → tree.workComparator p s.tip = false →
    p ∈ s.setBlockIndexCandidates

structure Indexed (tree : BlockTree) (s : ChainState) : Prop where
  tip : s.tip ∈ tree.entries
  candidates : ∀ p ∈ s.setBlockIndexCandidates, p ∈ tree.entries

def Circumstances.Allows (around : Circumstances) : List Move → Prop
  | [] => True
  | .connected p :: history => around.connectTip history p = .connected ∧ around.Allows history
  | .disconnected _ :: history => around.Allows history
  | .refused _ :: history => around.Allows history

/-- A block that was in the active chain is not found invalid when it is connected again. -/
def Reconnects (around : Circumstances) (start : CBlockIndex) : Prop :=
  ∀ history, around.Allows history → ∀ p, AncestorOrEq p start ∨ .connected p ∈ history →
    around.connectTip history p ≠ .invalid

def WasActive (start : CBlockIndex) (history : List Move) (p : CBlockIndex) : Prop :=
  AncestorOrEq p start ∨ .connected p ∈ history

/-- What holds all through a call that started with the tip `start`. The entry `best` is the best tip so far. -/
structure Kept (tree : BlockTree) (around : Circumstances) (start best : CBlockIndex) (s : ChainState) : Prop where
  allowed : around.Allows s.history
  candidates : ∀ p ∈ s.setBlockIndexCandidates, p ∈ tree.entries
  tipActive : WasActive start s.history s.tip
  bestActive : WasActive start s.history best
  entry : ∀ p, WasActive start s.history p → p ∈ tree.entries
  closed : ∀ p a, WasActive start s.history p → AncestorOrEq a p → WasActive start s.history a
  unfailed : ∀ p, WasActive start s.history p → s.failed p = false
  data : ∀ p, WasActive start s.history p → tree.haveData p = false → AncestorOrEq p start ∧ AncestorOrEq p s.tip
  tip_le : tree.rank s.tip ≤ tree.rank best
  holds : ∀ p ∈ tree.entries, Available tree start p → Sound s p → tree.rank best ≤ tree.rank p →
    p ∈ s.setBlockIndexCandidates

/-- What is known of the branch a call works towards: no entry it could use is better. -/
structure Target (tree : BlockTree) (start : CBlockIndex) (s : ChainState) (p : CBlockIndex) : Prop where
  entry : p ∈ tree.entries
  sound : Sound s p
  top : ∀ q ∈ tree.entries, Available tree start q → Sound s q → tree.rank q ≤ tree.rank p

variable {moves : List Move}

section Call
variable {tree : BlockTree} {around : Circumstances} {best : CBlockIndex} {s : ChainState}

section
variable (kept : Kept tree around start best s)
include kept

theorem Kept.available (active : WasActive start s.history p) : Available tree start p := by
  intro a below
  by_cases data : tree.haveData a = true
  · exact .inr data
  · exact .inl (kept.data a (kept.closed p a active below) (by simpa using data)).1

theorem Kept.sound (active : WasActive start s.history p) : Sound s p :=
  fun a below => kept.unfailed a (kept.closed p a active below)

theorem Kept.best_candidate : best ∈ s.setBlockIndexCandidates :=
  kept.holds best (kept.entry best kept.bestActive) (kept.available kept.bestActive) (kept.sound kept.bestActive) le_rfl

end

/-! ### Looking for the best candidate -/

theorem invalidChainFound_eq (tree : BlockTree) (s : ChainState) (p : CBlockIndex) :
    ∃ invalid, s.invalidChainFound tree p = { s with pindexBestInvalid := invalid } := by
  unfold ChainState.invalidChainFound
  repeat' split
  all_goals exact ⟨_, rfl⟩

structure Removed (s : ChainState) (above : List CBlockIndex) (pindexTest : CBlockIndex) (after : ChainState) :
    Prop where
  tip : after.tip = s.tip
  history : after.history = s.history
  failed : ∀ p, after.failed p = true ↔ s.failed p = true ∨ s.failed pindexTest = true ∧ p ∈ above
  candidates : ∀ p, p ∈ after.setBlockIndexCandidates ↔ p ∈ s.setBlockIndexCandidates ∧ p ∉ pindexTest :: above

theorem removeChain_spec (tree : BlockTree) (s : ChainState) (pindexNew : CBlockIndex) (above : List CBlockIndex)
    (pindexTest : CBlockIndex) : Removed s above pindexTest (s.removeChain tree pindexNew above pindexTest) := by
  unfold removeChain
  obtain ⟨invalid, same⟩ := invalidChainFound_eq tree s pindexNew
  by_cases failed : s.failed pindexTest = true
  · simp only [failed, if_true, same]
    refine ⟨rfl, rfl, fun p => ?_, fun p => by simp⟩
    rw [failed]
    simp only [ChainState.failed, mem_append, Bool.or_eq_true, decide_eq_true_eq, true_and]
    tauto
  · simp only [failed]
    refine ⟨rfl, rfl, fun p => ?_, fun p => by simp⟩
    simp only [failed, Bool.false_eq_true, false_and, or_false]
    rfl

theorem path_pairwise (p : CBlockIndex) : p.path.Pairwise fun q a => AncestorOrEq a q := by
  induction p with
  | genesis f => simp [path]
  | next p f ih => exact pairwise_cons.mpr ⟨fun a below => .step f (mem_path.mp below), ih⟩

theorem mem_takeWhile {α : Type} {R : α → α → Prop} {P : α → Bool} (mono : ∀ x y, R x y → P y = true → P x = true)
    {xs : List α} (order : xs.Pairwise R) {a : α} : a ∈ xs.takeWhile P ↔ a ∈ xs ∧ P a = true := by
  induction order with
  | nil => simp
  | @cons x xs before _ ih =>
    by_cases holds : P x = true
    · rw [takeWhile_cons_of_pos holds, mem_cons, mem_cons, ih]
      grind
    · rw [takeWhile_cons_of_neg holds]
      refine iff_of_false not_mem_nil ?_
      rintro ⟨member, also⟩
      rcases mem_cons.mp member with rfl | later
      · exact holds also
      · exact holds (mono x a (before a later) also)

theorem mem_offChain (s : ChainState) : a ∈ s.offChain p ↔ AncestorOrEq a p ∧ ¬ AncestorOrEq a s.tip := by
  rw [offChain, mem_takeWhile ?_ (path_pairwise p), mem_path, Bool.not_eq_true', ← Bool.not_eq_true, s.chain_contains_iff]
  intro q a below off
  simp only [Bool.not_eq_true', ← Bool.not_eq_true, s.chain_contains_iff] at off ⊢
  exact fun inChain => off (below.trans inChain)

variable {rest : List CBlockIndex} {test : CBlockIndex}

variable {after : ChainState}

theorem Sound.of_grows (sound : Sound after p)
    (grows : ∀ q, s.failed q = true → after.failed q = true) : Sound s p := by
  intro a below
  by_contra failed
  have marked := grows a (by simpa using failed)
  simp [sound a below] at marked

/-- A step that leaves the tip alone and takes no entry that the set must hold. -/
theorem Kept.marked (kept : Kept tree around start best s) (tip : after.tip = s.tip)
    (allowed : around.Allows after.history)
    (active : ∀ p, WasActive start after.history p ↔ WasActive start s.history p)
    (grows : ∀ p, s.failed p = true → after.failed p = true)
    (unfailed : ∀ p, WasActive start s.history p → after.failed p = false)
    (fewer : ∀ p ∈ after.setBlockIndexCandidates, p ∈ s.setBlockIndexCandidates)
    (stay : ∀ p ∈ s.setBlockIndexCandidates, Available tree start p → Sound after p →
      p ∈ after.setBlockIndexCandidates) : Kept tree around start best after := by
  constructor
  case allowed => exact allowed
  case candidates => exact fun p mem => kept.candidates p (fewer p mem)
  case tipActive => rw [active, tip]; exact kept.tipActive
  case bestActive => rw [active]; exact kept.bestActive
  case entry => exact fun p was => kept.entry p ((active p).mp was)
  case closed => exact fun p a was below => (active a).mpr (kept.closed p a ((active p).mp was) below)
  case unfailed => exact fun p was => unfailed p ((active p).mp was)
  case data => rw [tip]; exact fun p was => kept.data p ((active p).mp was)
  case tip_le => rw [tip]; exact kept.tip_le
  case holds =>
    intro p entry available sound le
    exact stay p (kept.holds p entry available (sound.of_grows grows) le) available sound

theorem Kept.removeChain (kept : Kept tree around start best s)
    (bad : (s.offChain p).dropWhile (s.usable tree) = test :: rest) :
    Kept tree around start best (s.removeChain tree p ((s.offChain p).takeWhile (s.usable tree)) test) := by
  have split := takeWhile_append_dropWhile (p := s.usable tree) (l := s.offChain p)
  rw [bad] at split
  have mem : test ∈ s.offChain p := by rw [← split]; simp
  have off := ((mem_offChain s).mp mem).2
  have unusable : s.usable tree test = false := by
    have := head_dropWhile_not (s.usable tree) (l := s.offChain p) (by rw [bad]; simp)
    simpa [bad] using this
  have order : (s.offChain p).Pairwise fun q a => AncestorOrEq a q :=
    (path_pairwise p).sublist (takeWhile_sublist _)
  rw [← split, pairwise_append] at order
  have above : ∀ q ∈ test :: (s.offChain p).takeWhile (s.usable tree), AncestorOrEq test q := by
    intro q mem
    rcases mem_cons.mp mem with rfl | before
    · exact .refl _
    · exact order.2.2 q before test (by simp)
  have spec := removeChain_spec tree s p ((s.offChain p).takeWhile (s.usable tree)) test
  -- an entry that the set must hold cannot lie above an unusable one
  have fits {q : CBlockIndex} (available : Available tree start q) (sound : Sound s q) :
      q ∉ test :: (s.offChain p).takeWhile (s.usable tree) := by
    intro mem
    have data : tree.haveData test = true := by
      rcases available test (above q mem) with onStart | data
      · by_contra missing
        exact off (kept.data test (.inl onStart) (by simpa using missing)).2
      · exact data
    simp [usable, sound test (above q mem), data] at unusable
  have grows (q : CBlockIndex) (failed : s.failed q = true) := (spec.failed q).mpr (.inl failed)
  have allowed : around.Allows (s.removeChain tree p ((s.offChain p).takeWhile (s.usable tree)) test).history :=
    spec.history ▸ kept.allowed
  refine kept.marked spec.tip allowed (fun q => by rw [spec.history]) grows (fun q was => ?_)
    (fun q mem => ((spec.candidates q).mp mem).1) fun q mem available sound => ?_
  · rw [← Bool.not_eq_true, spec.failed]
    rintro (failed | ⟨-, mem⟩)
    · simp [kept.unfailed q was] at failed
    · exact fits (kept.available was) (kept.sound was) (.tail _ mem)
  · exact (spec.candidates q).mpr ⟨mem, fits available (sound.of_grows grows)⟩

theorem findMostWorkFrom_spec (fuel : Nat)
    (kept : Kept tree around start best s) (run : s.findMostWorkFrom tree fuel = some (after, found)) :
    after.tip = s.tip ∧ Kept tree around start best after ∧ ∃ p, found = some p ∧ Target tree start after p := by
  induction fuel generalizing s with
  | zero => cases run
  | succ fuel ih =>
    rw [findMostWorkFrom] at run
    split at run
    next empty =>
      have := kept.best_candidate
      simp [BlockTree.rbegin_eq_none empty] at this
    next p isBest =>
      split at run
      next all =>
        split at run
        next =>
          cases run
          refine ⟨rfl, kept, p, rfl, ?_⟩
          obtain ⟨mem, top⟩ := BlockTree.rbegin_spec isBest
          refine ⟨kept.candidates p mem, fun a below => ?_, fun q entry available sound => ?_⟩
          · by_cases inChain : AncestorOrEq a after.tip
            · exact kept.unfailed a (kept.closed _ a kept.tipActive inChain)
            · have := dropWhile_eq_nil_iff.mp all a ((mem_offChain after).mpr ⟨below, inChain⟩)
              simp only [usable, Bool.and_eq_true, Bool.not_eq_true'] at this
              exact this.1
          · rcases le_total (tree.rank best) (tree.rank q) with le | le
            · exact top q (kept.holds q entry available sound le)
            · exact le.trans (top best kept.best_candidate)
        next => cases run
      next test rest bad =>
        dsimp only at run
        split at run
        next =>
          obtain ⟨tip, kept', target⟩ := ih (kept.removeChain bad) run
          exact ⟨tip.trans (removeChain_spec tree s p _ test).tip, kept', target⟩
        next => cases run

theorem best_removed (bad : (s.offChain p).dropWhile (s.usable tree) = test :: rest) :
    p ∈ test :: (s.offChain p).takeWhile (s.usable tree) := by
  have split := takeWhile_append_dropWhile (p := s.usable tree) (l := s.offChain p)
  have first : (s.offChain p).head? = some p := by
    have nonempty : s.offChain p ≠ [] := fun empty => by simp [empty] at bad
    revert nonempty
    cases p <;> simp only [offChain, path, takeWhile_cons] <;> split <;> simp
  rw [← split, bad] at first
  revert first
  cases (s.offChain p).takeWhile (s.usable tree) with
  | nil => intro first; simpa [@eq_comm _ p] using first
  | cons q above => intro first; simp only [cons_append, head?_cons, Option.some.injEq] at first; simp [first]

variable {fuel : Nat}

/-- One round more than there are candidates is enough: the answer does not depend on the number. -/
theorem findMostWorkFrom_enough (tree : BlockTree) (s : ChainState)
    (enough : s.setBlockIndexCandidates.length < fuel) : s.findMostWorkFrom tree fuel = s.findMostWorkChain tree := by
  suffices general : ∀ more, s.setBlockIndexCandidates.length < more →
      s.findMostWorkFrom tree fuel = s.findMostWorkFrom tree more from general _ (Nat.lt_succ_self _)
  induction fuel generalizing s with
  | zero => omega
  | succ fuel ih =>
    intro more enough'
    obtain ⟨more, rfl⟩ := Nat.exists_eq_succ_of_ne_zero (Nat.ne_zero_of_lt enough')
    rw [findMostWorkFrom, findMostWorkFrom]
    split
    next => rfl
    next p isBest =>
      split
      next => rfl
      next test rest bad =>
        dsimp only
        have fewer :
            (s.removeChain tree p ((s.offChain p).takeWhile (s.usable tree)) test).setBlockIndexCandidates.length <
              s.setBlockIndexCandidates.length := by
          have removed := best_removed bad
          unfold removeChain
          split
          all_goals
            exact length_filter_lt_length_iff_exists.mpr ⟨p, (BlockTree.rbegin_spec isBest).1, by simp [removed]⟩
        rw [ih (s.removeChain tree p _ test) (by omega) more (by omega)]

/-! ### Moving the tip -/

variable {fork : CBlockIndex}

theorem disconnectUntil_spec {tip : CBlockIndex} {history : List Move}
    (run : disconnectUntil tree around fork tip history = some moves) :
    (around.Allows history → around.Allows moves) ∧ (∀ p, .connected p ∈ moves ↔ .connected p ∈ history) ∧
      ∀ p, AncestorOrEq p tip → ¬ AncestorOrEq p fork → tree.haveData p = true := by
  induction tip generalizing history with
  | genesis f =>
    rw [disconnectUntil] at run
    split at run
    next same =>
      cases run
      exact ⟨id, fun p => Iff.rfl, fun p below off => absurd (same ▸ below) off⟩
    next => cases run
  | next q f ih =>
    rw [disconnectUntil] at run
    split at run
    next same =>
      cases run
      exact ⟨id, fun p => Iff.rfl, fun p below off => absurd (same ▸ below) off⟩
    next =>
      split at run
      next able =>
        obtain ⟨allowed, same, data⟩ := ih run
        refine ⟨allowed, fun p => by simp [same], fun p below off => ?_⟩
        cases below with
        | refl => exact ((Bool.and_eq_true _ _).mp able).1
        | step _ below => exact data p below off
      next => cases run

theorem exists_best (tree : BlockTree) (best tip : CBlockIndex) :
    ∃ top, (top = best ∨ top = tip) ∧ tree.rank best ≤ tree.rank top ∧ tree.rank tip ≤ tree.rank top := by
  rcases le_total (tree.rank best) (tree.rank tip) with le | le
  · exact ⟨tip, .inr rfl, le, le_rfl⟩
  · exact ⟨best, .inl rfl, le_rfl, le⟩

section
variable (kept : Kept tree around start best s)
include kept

theorem Kept.disconnected (below : AncestorOrEq fork s.tip)
    (run : disconnectUntil tree around fork s.tip s.history = some moves) :
    ∃ top, Kept tree around start top { s with tip := fork, history := moves } := by
  obtain ⟨allowed, same, data⟩ := disconnectUntil_spec run
  obtain ⟨top, isTop, best_le, tip_le⟩ := exists_best tree best fork
  have active (p : CBlockIndex) : WasActive start moves p ↔ WasActive start s.history p := by simp [WasActive, same]
  have forkActive := kept.closed _ fork kept.tipActive below
  refine ⟨top, allowed kept.allowed, kept.candidates, (active fork).mpr forkActive, (active top).mpr ?_,
    fun p was => kept.entry p ((active p).mp was),
    fun p a was under => (active a).mpr (kept.closed p a ((active p).mp was) under),
    fun p was => kept.unfailed p ((active p).mp was), fun p was missing => ?_, tip_le,
    fun p entry available sound le => kept.holds p entry available sound (best_le.trans le)⟩
  · rcases isTop with rfl | rfl
    · exact kept.bestActive
    · exact forkActive
  · obtain ⟨onStart, onChain⟩ := kept.data p ((active p).mp was) missing
    refine ⟨onStart, ?_⟩
    by_contra off
    simp [data p onChain off] at missing

theorem Kept.connected (entry : p ∈ tree.entries)
    (link : p.pprev = some s.tip) (unfailed : s.failed p = false) (data : tree.haveData p = true)
    (answer : around.connectTip s.history p = .connected) :
    ∃ top, Kept tree around start top (s.connected tree p) := by
  obtain ⟨top, isTop, best_le, tip_le⟩ := exists_best tree best p
  have active (q : CBlockIndex) :
      WasActive start (.connected p :: s.history) q ↔ q = p ∨ WasActive start s.history q := by
    simp only [WasActive, mem_cons, Move.connected.injEq]
    tauto
  refine ⟨top, ⟨answer, kept.allowed⟩, fun q mem => kept.candidates q (mem_of_mem_filter mem),
    (active p).mpr (.inl rfl), (active top).mpr ?_, fun q was => ?_, fun q a was below => (active a).mpr ?_,
    fun q was => ?_, fun q was missing => ?_, tip_le, fun q entry available sound le => ?_⟩
  · rcases isTop with rfl | rfl
    · exact .inr kept.bestActive
    · exact .inl rfl
  · rcases (active q).mp was with rfl | was
    · exact entry
    · exact kept.entry q was
  · rcases (active q).mp was with rfl | was
    · cases q with
      | genesis f => cases link
      | next r f =>
        cases link
        cases below with
        | refl => exact .inl rfl
        | step _ below => exact .inr (kept.closed _ a kept.tipActive below)
    · exact .inr (kept.closed q a was below)
  · rcases (active q).mp was with rfl | was
    · exact unfailed
    · exact kept.unfailed q was
  · rcases (active q).mp was with rfl | was
    · simp [data] at missing
    · obtain ⟨onStart, onChain⟩ := kept.data q was missing
      exact ⟨onStart, onChain.trans (.pprev link)⟩
  · refine mem_filter.mpr ⟨kept.holds q entry available sound (best_le.trans le), ?_⟩
    rw [(tree.not_workComparator_iff q p).mpr (tip_le.trans le)]
    rfl

/-- An invalid block was never in the active chain, so its mark takes no usable entry away. -/
theorem Kept.refused (never : ¬ WasActive start s.history p)
    (chunk : CBlockIndex) : Kept tree around start best (s.refused tree p chunk) := by
  unfold ChainState.refused ChainState.invalidBlockFound
  obtain ⟨first, same⟩ := invalidChainFound_eq tree _ p
  rw [same]
  obtain ⟨second, same⟩ := invalidChainFound_eq tree _ chunk
  rw [same]
  refine kept.marked rfl kept.allowed (fun q => by simp [WasActive]) (fun q failed => ?_) (fun q was => ?_)
    (fun q mem => mem_of_mem_filter mem) fun q mem _ sound => ?_
  · simp only [ChainState.failed, Bool.or_eq_true, decide_eq_true_eq, mem_cons] at failed ⊢
    tauto
  · have unmarked := kept.unfailed q was
    have other : q ≠ p := fun same => never (same ▸ was)
    simpa [ChainState.failed, other] using unmarked
  · have other : q ≠ p := by
      rintro rfl
      have := sound q (.refl q)
      simp [ChainState.failed] at this
    simpa [other] using mem

end

theorem blocksAbove_spec (below : AncestorOrEq fork p) :
    IsChain (fun a b => b.pprev = some a) (fork :: blocksAbove fork p) ∧
      (fork :: blocksAbove fork p).getLast? = some p ∧ ∀ q ∈ blocksAbove fork p, AncestorOrEq q p := by
  induction p with
  | genesis f =>
    cases below
    simp [blocksAbove]
  | next p f ih =>
    by_cases same : next p f = fork
    · subst same
      simp [blocksAbove]
    · cases below with
      | refl => exact absurd rfl same
      | step _ below =>
        obtain ⟨chain, last, under⟩ := ih below
        simp only [blocksAbove, same, if_false, ← cons_append]
        refine ⟨isChain_append.mpr ⟨chain, .singleton _, ?_⟩, getLast?_concat .., fun q mem => ?_⟩
        · rw [last]
          simp
        · rcases mem_append.mp mem with mem | mem
          · exact .step f (under q mem)
          · rw [mem_singleton.mp mem]
            exact .refl _

section
variable {invalid : Bool} (again : Reconnects around start) (kept : Kept tree around start best s)
include again kept

/-- Along the connected blocks the invariant holds, and the branch stays the best until a block is refused. -/
theorem connectBlocks_spec {oldTip : CBlockIndex} {todo : List CBlockIndex} (isTarget : Target tree start s target)
    (chain : IsChain (fun a b => b.pprev = some a) (s.tip :: todo)) (below : ∀ p ∈ todo, AncestorOrEq p target)
    (run : connectBlocks tree around oldTip fork target todo s = some (after, invalid)) :
    ∃ top, Kept tree around start top after ∧ (invalid = false → Target tree start after target) := by
  induction todo generalizing s best with
  | nil => cases run; exact ⟨best, kept, fun _ => isTarget⟩
  | cons p rest ih =>
    rw [isChain_cons_cons] at chain
    have under := below p (by simp)
    rw [connectBlocks] at run
    split at run
    next => cases run
    next data =>
      split at run
      next => cases run
      next =>
        cases run
        exact ⟨best, kept.marked rfl kept.allowed (fun q => by simp [WasActive]) (fun _ => id) kept.unfailed (fun _ => id)
          fun _ mem _ _ => mem, fun ok => by cases ok⟩
      next refused =>
        cases run
        exact ⟨best, kept.refused (fun was => again _ kept.allowed p was refused) _, fun ok => by cases ok⟩
      next answer =>
        obtain ⟨top, kept'⟩ := kept.connected (tree.ancestor_mem under isTarget.entry) chain.1 (isTarget.sound p under)
          (by simpa using data) answer
        have isTarget' : Target tree start (s.connected tree p) target := { isTarget with }
        split at run
        next => cases run
        next =>
          split at run
          next => cases run; exact ⟨top, kept', fun _ => isTarget'⟩
          next => exact ih kept' isTarget' chain.2 (fun q mem => below q (.tail _ mem)) run

theorem activateBestChainStep_spec (isTarget : Target tree start s target)
    (run : s.activateBestChainStep tree around target = some (after, invalid)) :
    ∃ top, Kept tree around start top after ∧ (invalid = false → Target tree start after target) := by
  obtain ⟨fork, isFork, run⟩ := Option.bind_eq_some_iff.mp run
  obtain ⟨moves, disconnected, run⟩ := Option.bind_eq_some_iff.mp run
  have onTarget := mem_path.mp (mem_of_find?_eq_some isFork)
  have onChain := (s.chain_contains_iff fork).mp (find?_some isFork)
  obtain ⟨top, kept'⟩ := kept.disconnected onChain disconnected
  obtain ⟨chain, -, below⟩ := blocksAbove_spec onTarget
  exact connectBlocks_spec again kept' { isTarget with } chain below run

end

def Reached (tree : BlockTree) (around : Circumstances) (start : CBlockIndex) (s : ChainState) : Prop :=
  (∃ best, Kept tree around start best s) ∧ Target tree start s s.tip

variable {given : Option CBlockIndex}

theorem mostWork_spec (kept : Kept tree around start best s)
    (isTarget : ∀ p ∈ given, Target tree start s p) (run : s.mostWork tree given = some (after, found)) :
    after.tip = s.tip ∧ Kept tree around start best after ∧ ∃ p, found = some p ∧ Target tree start after p := by
  cases given with
  | none => exact findMostWorkFrom_spec _ kept run
  | some p => cases run; exact ⟨rfl, kept, p, rfl, isTarget p rfl⟩

section
variable (again : Reconnects around start) (kept : Kept tree around start best s)
  (isTarget : ∀ p ∈ given, Target tree start s p)
include again kept isTarget

/-- The inner loop keeps the invariant, and it moves the tip unless the tip is the best entry. -/
theorem makeProgress_spec {startingTip : CBlockIndex} {blocksConnected : Bool} {progress : ChainState.Progress}
    (run : makeProgress tree around startingTip fuel s given blocksConnected = some progress) :
    (∃ top, Kept tree around start top progress.state) ∧
      (∀ p ∈ progress.pindexMostWork, Target tree start progress.state p) ∧
      (progress.blocksConnected = false → progress.pindexMostWork = some progress.state.tip) := by
  induction fuel generalizing s best given blocksConnected with
  | zero => cases run
  | succ fuel ih =>
    rw [makeProgress] at run
    split at run
    next => cases run
    next found =>
      obtain ⟨-, -, p, impossible, -⟩ := mostWork_spec kept isTarget found
      cases impossible
    next mid target found =>
      obtain ⟨-, keptMid, p, same, isBest⟩ := mostWork_spec kept isTarget found
      cases same
      split at run
      next atTip =>
        cases run
        refine ⟨⟨best, keptMid⟩, fun q mem => ?_, fun _ => by rw [atTip]⟩
        cases mem
        exact isBest
      next =>
        split at run
        next => cases run
        next after fInvalidFound step =>
          obtain ⟨top, keptAfter, stays⟩ := activateBestChainStep_spec again keptMid isBest step
          have isTarget' : ∀ q ∈ (if fInvalidFound then none else some target), Target tree start after q := by
            intro q mem
            cases fInvalidFound with
            | true => cases mem
            | false => cases mem; exact stays rfl
          dsimp only at run
          split at run
          next => exact ih keptAfter isTarget' run
          next => cases run; exact ⟨⟨top, keptAfter⟩, isTarget', fun none => by cases none⟩

theorem activateFrom_reached
    (run : activateFrom tree around fuel s given = some after) : Reached tree around start after := by
  induction fuel generalizing s best given with
  | zero => cases run
  | succ fuel ih =>
    rw [activateFrom] at run
    split at run
    next => cases run
    next progress loop =>
      obtain ⟨⟨top, kept'⟩, isTarget', unmoved⟩ := makeProgress_spec again kept isTarget loop
      split at run
      next still =>
        cases run
        exact ⟨⟨top, kept'⟩, isTarget' _ (unmoved (by simpa using still))⟩
      next =>
        split at run
        next atTarget => cases run; exact ⟨⟨top, kept'⟩, isTarget' _ atTarget.symm⟩
        next => exact ih kept' isTarget' run

end

theorem Kept.available_of_tip (kept : Kept tree around start best s)
    (available : Available tree s.tip p) : Available tree start p := by
  intro a below
  rcases available a below with onChain | data
  · exact kept.available kept.tipActive a onChain
  · exact .inr data

end Call

/-! ### A tree with two branches -/

namespace Branches

def genesis : CBlockIndex := .genesis { phashBlock := 1 }
def tip : CBlockIndex := .next genesis { phashBlock := 2 }
def sibling : CBlockIndex := .next genesis { phashBlock := 3 }
def longer : CBlockIndex := .next sibling { phashBlock := 4 }

def tree : BlockTree where
  entries := [genesis, tip, sibling, longer]
  nChainWork p := p.nHeight
  nSequenceId p := p.getBlockHash
  address p := p.getBlockHash
  haveData _ := true
  haveTxsDownloaded _ := true
  closed := by decide

def node : ChainState where
  tip := tip
  setBlockIndexCandidates := [longer, tip]
  failedValid := []
  failedChild := []
  blocksUnlinked := []
  failedBlocks := []
  pindexBestInvalid := none
  history := []

def refusing (bad : List CBlockIndex) : Circumstances where
  connectTip _ p := if p ∈ bad then .invalid else .connected
  disconnectTip _ _ := true

theorem indexed : Indexed tree node := ⟨by decide, by decide⟩

theorem sound (p : CBlockIndex) : Sound node p := fun _ _ => rfl

theorem holdsCandidates : HoldsCandidates tree node := by
  have all : ∀ p ∈ tree.entries, tree.workComparator p node.tip = false → p ∈ node.setBlockIndexCandidates := by
    decide +kernel
  exact fun p entry _ _ noWorse => all p entry noWorse

theorem refusing_reconnects {bad : List CBlockIndex} (clear : ∀ p ∈ bad, ¬ AncestorOrEq p start) :
    Reconnects (refusing bad) start := by
  intro history allowed p was
  have good : p ∉ bad := by
    rcases was with onStart | mem
    · exact fun isBad => clear p isBad onStart
    · induction history with
      | nil => cases mem
      | cons move history ih =>
        cases move with
        | connected q =>
          obtain ⟨answer, allowed⟩ := allowed
          rcases mem_cons.mp mem with same | mem
          · cases same
            intro isBad
            simp [refusing, isBad] at answer
          · exact ih allowed mem
        | disconnected q => exact ih allowed (by simpa using mem)
        | refused q => exact ih allowed (by simpa using mem)
  simp [refusing, good]

/-- What is left when neither the longer branch nor the tip can be connected. -/
def stranded : ChainState where
  tip := genesis
  setBlockIndexCandidates := []
  failedValid := [tip, longer]
  failedChild := []
  blocksUnlinked := []
  failedBlocks := [tip, longer]
  pindexBestInvalid := some longer
  history := [.refused tip, .disconnected sibling, .refused longer, .connected sibling, .disconnected tip]

theorem sound_stranded : Sound stranded sibling := by
  have all : ∀ a ∈ sibling.path, stranded.failed a = false := by decide +kernel
  exact fun a below => all a (mem_path.mpr below)

end Branches

/-- A completed call of `ActivateBestChain` leaves the best chain active, if every block it takes out of
the active chain can be connected again. -/
theorem activateBestChain_best (tree : BlockTree) (around : Circumstances) (fuel : Nat) (before after : ChainState)
    (indexed : Indexed tree before) (holds : HoldsCandidates tree before) (clean : Sound before before.tip)
    (again : Reconnects around before.tip) (completes : before.activateBestChain tree around fuel = some after) :
    Sound after after.tip ∧
      (∀ p ∈ tree.entries, Available tree after.tip p → Sound after p → tree.workComparator after.tip p = false) ∧
      HoldsCandidates tree after := by
  have active {p : CBlockIndex} (was : WasActive before.tip [] p) : AncestorOrEq p before.tip := by
    simpa [WasActive] using was
  have start : Kept tree around before.tip before.tip { before with history := [] } := ⟨trivial, indexed.candidates,
    .inl (.refl _), .inl (.refl _), fun p was => tree.ancestor_mem (active was) indexed.tip,
    fun p a was below => .inl (below.trans (active was)), fun p was => clean p (active was),
    fun p was _ => ⟨active was, active was⟩, le_rfl,
    fun p entry available sound le => holds p entry available sound ((tree.not_workComparator_iff p before.tip).mpr le)⟩
  obtain ⟨⟨best, kept⟩, target⟩ := activateFrom_reached again start (fun p mem => by cases mem) completes
  refine ⟨kept.sound kept.tipActive, fun p entry available sound => ?_, fun p entry available sound noWorse => ?_⟩
  · exact (tree.not_workComparator_iff _ p).mpr (target.top p entry (kept.available_of_tip available) sound)
  · have best_le := target.top best (kept.entry best kept.bestActive) (kept.available kept.bestActive)
      (kept.sound kept.bestActive)
    exact kept.holds p entry (kept.available_of_tip available) sound
      (best_le.trans ((tree.not_workComparator_iff p _).mp noWorse))

open Branches in
/-- The longer branch is invalid and the old tip is connected again. -/
theorem activateBestChain_best_returns :
    ∃ after, node.activateBestChain tree (refusing [longer]) 4 = some after ∧ after.tip = tip ∧
      Sound after after.tip ∧
      (∀ p ∈ tree.entries, Available tree after.tip p → Sound after p → tree.workComparator after.tip p = false) ∧
      HoldsCandidates tree after := by
  have off : ∀ p ∈ [longer], ¬ AncestorOrEq p tip := by
    simp only [← mem_path]
    decide
  exact ⟨_, rfl, rfl, activateBestChain_best tree (refusing [longer]) 4 node _ indexed holdsCandidates (sound _)
    (refusing_reconnects off) rfl⟩

open Branches in
/-- When the old tip does not connect again, its sibling is better than the tip that is left and no candidate. -/
theorem activateBestChain_strands : Indexed tree node ∧ HoldsCandidates tree node ∧ Sound node node.tip ∧
      node.activateBestChain tree (refusing [longer, tip]) 4 = some stranded ∧
      sibling ∈ tree.entries ∧ Available tree stranded.tip sibling ∧ Sound stranded sibling ∧
      tree.workComparator stranded.tip sibling = true ∧ ¬ HoldsCandidates tree stranded := by
  refine ⟨indexed, holdsCandidates, sound _, by decide +kernel, by decide, fun _ _ => .inr rfl, sound_stranded,
    by decide, fun holds => ?_⟩
  have := holds sibling (by decide) (fun _ _ => .inr rfl) sound_stranded (by decide)
  simp [stranded] at this

open Branches in
theorem findMostWorkFrom_node : node.findMostWorkFrom tree 9 = node.findMostWorkChain tree :=
  findMostWorkFrom_enough tree node (by decide)

end Cspn.BestChain
