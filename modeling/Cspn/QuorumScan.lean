import Cspn.Index
import Cspn.PendingLocks

/-!
How a recovered signature is verified: the signed height gives a block some way down the active chain, the quorums
mined until then are scanned, and the key of the selected one verifies the signature. A block below the genesis block
is a null entry to scan from.
-/
namespace Cspn.QuorumScan
open Primitives Index Lru List Option PendingLocks
open CBlockIndex

/-- A 32-bit signed integer after arithmetic that may have left its range. -/
def wrap32 (x : Int) : Int := Int.bmod x (2 ^ 32)

def SIGN_HEIGHT_OFFSET : Int := 8

inductive Crash where
  | nullBlockIndex
  | assertion

/-- The commitments of one quorum type: the heights at which they were mined and of their quorums, as the iterator
    meets them, and the quorum keys by hash. -/
structure MinedCommitments where
  byInversedHeight : List (Nat × Nat)
  ordered : byInversedHeight.Pairwise fun later earlier => earlier.1 < later.1
  commitment : AList fun _ : Uint256 => List UInt8

variable (db : MinedCommitments) (chain : CChain)

/-- The keys from that of a height on, up to that of height 0, of which at most some are taken. -/
def MinedCommitments.keysFrom (nHeight maxCount : Nat) : List (Nat × Nat) :=
  ((db.byInversedHeight.dropWhile fun key => decide (nHeight < key.1)).takeWhile fun key => decide (0 < key.1)).take maxCount

def MinedCommitments.getMinedCommitmentsUntilBlock (pindex : CBlockIndex) (maxCount : Nat) :
    Except Crash (List CBlockIndex) :=
  (db.keysFrom pindex.nHeight maxCount).mapM fun key => ((pindex.getAncestor key.2).elim (.error .assertion) .ok)

structure CQuorumManager where
  db : MinedCommitments
  quorumsCache : AList fun _ : Uint256 => CQuorum
  scanQuorumsCache : LruCache Uint256 (List CQuorum) 32

namespace CQuorumManager

def getQuorum (m : CQuorumManager) (pindexQuorum : CBlockIndex) : CQuorumManager × Option CQuorum :=
  let quorumHash := pindexQuorum.getBlockHash
  match m.db.commitment.lookup quorumHash with
  | none => (m, none)
  | some quorumPublicKey =>
    match m.quorumsCache.lookup quorumHash with
    | some quorum => (m, some quorum)
    | none =>
      let quorum := ⟨quorumHash, quorumPublicKey⟩
      ({ m with quorumsCache := m.quorumsCache.insert quorumHash quorum }, some quorum)

def getQuorums (m : CQuorumManager) : List CBlockIndex → Except Crash (CQuorumManager × List CQuorum)
  | [] => .ok (m, [])
  | quorumIndex :: rest =>
    match m.getQuorum quorumIndex with
    | (_, none) => .error .assertion
    | (m, some quorum) => (m.getQuorums rest).map fun found => (found.1, quorum :: found.2)

def scanQuorums (signingActiveQuorumCount : Nat) (m : CQuorumManager) (pindexStart : Option CBlockIndex) (maxCount : Nat) :
    Except Crash (CQuorumManager × List CQuorum) :=
  match pindexStart with
  | none => .error .nullBlockIndex
  | some pindexStart =>
    let cacheKey := pindexStart.getBlockHash
    let cacheMaxSize := signingActiveQuorumCount + 1
    let storeCache := decide (maxCount ≤ cacheMaxSize)
    let got := if storeCache then m.scanQuorumsCache.get cacheKey else (m.scanQuorumsCache, none)
    let m := { m with scanQuorumsCache := got.1 }
    match got.2 with
    | some result => .ok (m, result.take maxCount)
    | none => do
      let maxCount2 := if storeCache then cacheMaxSize else maxCount
      let quorumIndexes ← m.db.getMinedCommitmentsUntilBlock pindexStart maxCount2
      let (m, result) ← m.getQuorums quorumIndexes
      let m := if storeCache then { m with scanQuorumsCache := m.scanQuorumsCache.insert cacheKey result } else m
      return (m, result.take maxCount)

end CQuorumManager

open CQuorumManager

def chainHeight : Int := chain.tip.elim (-1) fun tip => tip.nHeight

def chainAt (nHeight : Int) : Option CBlockIndex :=
  if nHeight < 0 then none else chain.get nHeight.toNat

/-- What is asked of the consensus parameters, the hash functions and the BLS library. -/
structure Verifier where
  signingActiveQuorumCount : Nat
  selectionScore : Uint256 → Uint256 → Uint256
  buildSignHash : Uint256 → Uint256 → Uint256 → Uint256
  verifyInsecure : List UInt8 → List UInt8 → Uint256 → Bool

namespace Verifier
variable (v : Verifier) (chain : CChain) (m : CQuorumManager)

def getActiveQuorumSet (signHeight : Int) : Except Crash (CQuorumManager × List CQuorum) :=
  let startBlockHeight := wrap32 (signHeight - SIGN_HEIGHT_OFFSET)
  if startBlockHeight > chainHeight chain then .ok (m, [])
  else m.scanQuorums v.signingActiveQuorumCount (chainAt chain startBlockHeight) v.signingActiveQuorumCount

/-- `SelectQuorumForSigning`: the quorum with the least score, the first of several. -/
def selectQuorumForSigning (signHeight : Int) (selectionHash : Uint256) : Except Crash (CQuorumManager × Option CQuorum) :=
  (v.getActiveQuorumSet chain m signHeight).map fun found =>
    (found.1, found.2.argmin fun quorum => v.selectionScore quorum.quorumHash selectionHash)

def verifyRecoveredSig (signedAtHeight : Int) (id msgHash : Uint256) (sig : List UInt8) :
    Except Crash (CQuorumManager × Bool) :=
  (v.selectQuorumForSigning chain m signedAtHeight id).map fun found =>
    (found.1, found.2.any fun quorum =>
      v.verifyInsecure sig quorum.quorumPublicKey (v.buildSignHash quorum.quorumHash id msgHash))

end Verifier

/-! ### Scans that end -/

/-- The commitments mined up to the tip are those of quorums that begin on the active chain, not after they are mined:
    `ProcessCommitment` writes both entries for a quorum of its chain, and both are erased with the block. -/
def MinedCommitments.OnChain : Prop :=
  ∀ key ∈ db.byInversedHeight, (key.1 : Int) ≤ chainHeight chain → key.2 ≤ key.1 ∧
    ∀ quorumIndex, chain.get key.2 = some quorumIndex → (db.commitment.lookup quorumIndex.getBlockHash).isSome = true

variable {nHeight : Nat} {keys : List (Nat × Nat)} {key : Nat × Nat}

theorem le_of_mem_dropWhile (ordered : keys.Pairwise fun later earlier => earlier.1 < later.1)
    (mem : key ∈ keys.dropWhile fun key => decide (nHeight < key.1)) : key.1 ≤ nHeight := by
  induction keys with
  | nil => cases mem
  | cons first rest ih =>
    obtain ⟨below, orderedRest⟩ := pairwise_cons.mp ordered
    by_cases above : nHeight < first.1
    · rw [dropWhile_cons_of_pos (by simpa using above)] at mem
      exact ih orderedRest mem
    · rw [dropWhile_cons_of_neg (by simpa using above)] at mem
      rcases mem_cons.mp mem with rfl | later
      · exact Nat.le_of_not_lt above
      · have := below key later
        omega

theorem mapM_found {find : Nat × Nat → Option CBlockIndex}
    (found : ∀ key ∈ keys, ∃ quorumIndex, find key = some quorumIndex) :
    ∃ quorumIndexes, (keys.mapM fun key => (find key).elim (.error .assertion) .ok : Except Crash _) = .ok quorumIndexes ∧
      ∀ quorumIndex ∈ quorumIndexes, ∃ key ∈ keys, find key = some quorumIndex := by
  induction keys with
  | nil => exact ⟨[], rfl, by simp⟩
  | cons key rest ih =>
    obtain ⟨quorumIndex, first⟩ := found key (.head _)
    obtain ⟨others, mapped, each⟩ := ih fun other mem => found other (.tail _ mem)
    refine ⟨quorumIndex :: others, ?_, ?_⟩
    · rw [mapM_cons, mapped, first]
      rfl
    · intro other mem
      rcases mem_cons.mp mem with rfl | later
      · exact ⟨key, .head _, first⟩
      · obtain ⟨from', mem', found'⟩ := each other later
        exact ⟨from', .tail _ mem', found'⟩

section
variable {chain : CChain} {m : CQuorumManager} {pindex : CBlockIndex}

theorem getQuorum_some (commitment : (m.db.commitment.lookup pindex.getBlockHash).isSome = true) :
    ∃ after quorum, m.getQuorum pindex = (after, some quorum) ∧ after.db = m.db := by
  obtain ⟨quorumPublicKey, found⟩ := isSome_iff_exists.mp commitment
  cases cached : m.quorumsCache.lookup pindex.getBlockHash with
  | some quorum => exact ⟨m, quorum, by simp [getQuorum, found, cached], rfl⟩
  | none =>
    let quorum : CQuorum := ⟨pindex.getBlockHash, quorumPublicKey⟩
    exact ⟨{ m with quorumsCache := m.quorumsCache.insert pindex.getBlockHash quorum }, quorum,
      by simp [getQuorum, found, cached, quorum], rfl⟩

theorem getQuorums_ok {quorumIndexes : List CBlockIndex}
    (commitments : ∀ quorumIndex ∈ quorumIndexes, (m.db.commitment.lookup quorumIndex.getBlockHash).isSome = true) :
    ∃ found, m.getQuorums quorumIndexes = .ok found := by
  induction quorumIndexes generalizing m with
  | nil => exact ⟨_, rfl⟩
  | cons quorumIndex rest ih =>
    obtain ⟨after, quorum, got, db⟩ := getQuorum_some (commitments quorumIndex (.head _))
    obtain ⟨found, later⟩ := ih fun other mem => db ▸ commitments other (.tail _ mem)
    exact ⟨(found.1, quorum :: found.2), by simp [getQuorums, got, later, Except.map]⟩

section
variable (tables : m.db.OnChain chain) (onChain : chain.contains pindex = true)
include tables onChain

theorem getMinedCommitmentsUntilBlock_ok (maxCount : Nat) :
    ∃ quorumIndexes, m.db.getMinedCommitmentsUntilBlock pindex maxCount = .ok quorumIndexes ∧
      ∀ quorumIndex ∈ quorumIndexes, (m.db.commitment.lookup quorumIndex.getBlockHash).isSome = true := by
  have height : (pindex.nHeight : Int) ≤ chainHeight chain := by
    obtain ⟨tip, isTip, above⟩ := CChain.contains_iff.mp onChain
    simpa [chainHeight, isTip] using above.nHeight_le
  have found : ∀ key ∈ m.db.keysFrom pindex.nHeight maxCount, ∃ quorumIndex,
      pindex.getAncestor key.2 = some quorumIndex ∧ (m.db.commitment.lookup quorumIndex.getBlockHash).isSome = true := by
    intro key mem
    have after := takeWhile_subset _ (mem_of_mem_take mem)
    have low := le_of_mem_dropWhile m.db.ordered after
    obtain ⟨order, commitments⟩ := tables key (dropWhile_subset _ after) (by omega)
    obtain ⟨tip, isTip, above⟩ := CChain.contains_iff.mp onChain
    obtain ⟨quorumIndex, ancestor⟩ := getAncestor_isSome (order.trans low)
    obtain ⟨below, height⟩ := getAncestor_eq_some.mp ancestor
    refine ⟨quorumIndex, ancestor, commitments quorumIndex ?_⟩
    rw [CChain.get, isTip, bind_some]
    exact getAncestor_eq_some.mpr ⟨below.trans above, height⟩
  obtain ⟨quorumIndexes, mapped, each⟩ := mapM_found fun key mem => (found key mem).imp fun _ both => both.1
  refine ⟨quorumIndexes, mapped, fun quorumIndex mem => ?_⟩
  obtain ⟨key, isKey, ancestor⟩ := each quorumIndex mem
  obtain ⟨other, otherAncestor, commitment⟩ := found key isKey
  rw [ancestor] at otherAncestor
  cases otherAncestor
  exact commitment

theorem scanQuorums_ok (signingActiveQuorumCount maxCount : Nat) :
    ∃ found, m.scanQuorums signingActiveQuorumCount (some pindex) maxCount = .ok found := by
  simp only [scanQuorums]
  generalize (if decide (maxCount ≤ signingActiveQuorumCount + 1) then m.scanQuorumsCache.get pindex.getBlockHash
    else (m.scanQuorumsCache, none)) = looked
  split
  · exact ⟨_, rfl⟩
  · obtain ⟨quorumIndexes, mined, commitments⟩ := getMinedCommitmentsUntilBlock_ok tables onChain
      (if decide (maxCount ≤ signingActiveQuorumCount + 1) then signingActiveQuorumCount + 1 else maxCount)
    obtain ⟨found, got⟩ := getQuorums_ok (m := { m with scanQuorumsCache := looked.1 }) commitments
    simp only [mined, got, bind, Except.bind]
    exact ⟨_, rfl⟩

end

theorem chainAt_of_le {nHeight : Int} (low : 0 ≤ nHeight) (le : nHeight ≤ chainHeight chain) :
    ∃ pindex, chainAt chain nHeight = some pindex ∧ chain.contains pindex = true := by
  cases isTip : chain.tip with
  | none =>
    simp only [chainHeight, isTip, elim_none] at le
    omega
  | some tip =>
    simp only [chainHeight, isTip, elim_some] at le
    obtain ⟨pindex, found⟩ := getAncestor_isSome (show nHeight.toNat ≤ tip.nHeight by omega)
    refine ⟨pindex, ?_, CChain.contains_iff.mpr ⟨tip, isTip, (getAncestor_eq_some.mp found).1⟩⟩
    rw [chainAt, if_neg (by omega), CChain.get, isTip, bind_some, found]

theorem map_ok_iff {α β : Type} {e : Except Crash α} {f : α → β} : (∃ b, e.map f = .ok b) ↔ ∃ a, e = .ok a := by
  cases e with
  | error crash => simp [Except.map]
  | ok a => simp [Except.map]

theorem verifyRecoveredSig_ok_iff (v : Verifier) (tables : m.db.OnChain chain) (signedAtHeight : Int)
    (id msgHash : Uint256) (sig : List UInt8) :
    (∃ answer, v.verifyRecoveredSig chain m signedAtHeight id msgHash sig = .ok answer) ↔
      0 ≤ wrap32 (signedAtHeight - SIGN_HEIGHT_OFFSET) := by
  have bottom : -1 ≤ chainHeight chain := by
    cases isTip : chain.tip with
    | none => simp [chainHeight, isTip]
    | some tip =>
      simp only [chainHeight, isTip, elim_some]
      omega
  rw [Verifier.verifyRecoveredSig, map_ok_iff, Verifier.selectQuorumForSigning, map_ok_iff, Verifier.getActiveQuorumSet]
  by_cases above : wrap32 (signedAtHeight - SIGN_HEIGHT_OFFSET) > chainHeight chain
  · refine iff_of_true ⟨_, if_pos above⟩ ?_
    omega
  · simp only [above, if_false]
    constructor
    · rintro ⟨found, scanned⟩
      by_contra negative
      rw [chainAt, if_pos (by omega), scanQuorums] at scanned
      cases scanned
    · intro low
      obtain ⟨pindex, found, onChain⟩ := chainAt_of_le low (Int.not_lt.mp above)
      rw [found]
      exact scanQuorums_ok tables onChain _ _

end

/-! ### The quorum type of a signature -/

/-- The verifiers of all quorum types. A sign hash tells its type, every hash can be signed, and a signature is valid for
    one hash only. -/
structure Types where
  llmqChainLocks : Nat
  verifier : Nat → Verifier
  collisionFree : ∀ {type type' quorumHash quorumHash' id msgHash}, (verifier type).buildSignHash quorumHash id msgHash =
    (verifier type').buildSignHash quorumHash' id msgHash → type = type'
  signs : ∀ type key hash, ∃ sig, (verifier type).verifyInsecure sig key hash = true
  oneHash : ∀ {type type' sig key key' hash hash'}, (verifier type).verifyInsecure sig key hash = true →
    (verifier type').verifyInsecure sig key' hash' = true → hash = hash'

namespace Types
variable (types : Types) (chain : CChain) (m : Nat → CQuorumManager) (signHeight : Int) (id msgHash : Uint256)
  (llmqType : Nat)

/-- The quorum that `AsyncSignIfMember` selects. -/
def selected : Option CQuorum :=
  ((types.verifier llmqType).selectQuorumForSigning chain (m llmqType) signHeight id).toOption.bind Prod.snd

def signed (quorum : Option CQuorum) (sig : List UInt8) : Bool :=
  quorum.any fun quorum => (types.verifier llmqType).verifyInsecure sig quorum.quorumPublicKey
    ((types.verifier llmqType).buildSignHash quorum.quorumHash id msgHash)

/-- `VerifyRecoveredSig`, which takes the quorum type of the chain locks in place of its own. -/
def verifyRecoveredSig (_llmqType : Nat) (sig : List UInt8) : Except Crash (CQuorumManager × Bool) :=
  (types.verifier types.llmqChainLocks).verifyRecoveredSig chain (m types.llmqChainLocks) signHeight id msgHash sig

variable {types chain m signHeight id msgHash llmqType}

theorem exists_signed (quorum : CQuorum) : ∃ sig, types.signed id msgHash llmqType (some quorum) sig = true :=
  types.signs ..

theorem type_of_signed {type : Nat} {quorum quorum' : Option CQuorum} {sig : List UInt8}
    (valid : types.signed id msgHash llmqType quorum sig = true)
    (valid' : types.signed id msgHash type quorum' sig = true) : llmqType = type := by
  obtain ⟨_, -, valid⟩ := (any_eq_true _ _).mp valid
  obtain ⟨_, -, valid'⟩ := (any_eq_true _ _).mp valid'
  exact types.collisionFree (types.oneHash valid valid')

/-- Two types whose signatures are as long as the hash. -/
private def twoTypes : Types where
  llmqChainLocks := 0
  verifier llmqType := ⟨1, fun _ _ => 0, fun _ _ msgHash => Nat.pair llmqType msgHash, fun sig _ hash => sig.length = hash⟩
  collisionFree same := (Nat.pair_eq_pair.mp same).1
  signs _ _ hash := ⟨replicate hash 0, by simp⟩
  oneHash valid valid' := (of_decide_eq_true valid).symm.trans (of_decide_eq_true valid')

private def twoBlocks : CChain := ⟨some (.next (.genesis { phashBlock := 1 }) { phashBlock := 2 })⟩

private theorem ordered_one : Pairwise (fun later earlier => earlier.1 < later.1) [(1, 0)] := pairwise_singleton _ _

private def eachQuorum (_llmqType : Nat) : CQuorumManager :=
  ⟨⟨[(1, 0)], ordered_one, AList.insert 1 [5] ∅⟩, ∅, .empty⟩

end Types

end Cspn.QuorumScan
