import Cspn.BlsBatch
import Cspn.Primitives

/-!
How pending signature shares are verified. A first loop pushes the shares of every node to a batch verifier, and a
second hands on all shares of the nodes not found bad. The first leaves out shares in three ways, each of which lets a
share pass unverified.
-/
namespace Cspn.PendingShares
open Primitives BlsBatch List

/-- A share as a node has sent it; the signature of an invalid object is `none`. -/
structure CSigShare (Sig : Type) where
  llmqType : Nat
  quorumHash : Uint256
  quorumMember : Nat
  id : Uint256
  msgHash : Uint256
  sigShare : Option Sig

abbrev SigShareKey := Uint256 × Nat

structure Signing (Sig Key : Type) where
  scheme : Aggregates.Scheme Sig Key Uint256
  buildSignHash : Nat → Uint256 → Uint256 → Uint256 → Uint256
  getPubKeyShare : Nat → Uint256 → Nat → Option Key
  /-- The answer when the share of the node is reached. -/
  hasRecoveredSigForId : Int → CSigShare Sig → Bool

/-- The map of the shares to verify, in the order in which it is iterated. -/
structure SigSharesByNodes (Sig : Type) where
  entries : List (Int × List (CSigShare Sig))
  distinct : (entries.map Prod.fst).Nodup

variable {Sig Key : Type}

namespace Signing
variable (signing : Signing Sig Key) (sigShare : CSigShare Sig)

def getSignHash : Uint256 :=
  signing.buildSignHash sigShare.llmqType sigShare.quorumHash sigShare.id sigShare.msgHash

def getKey : SigShareKey := (signing.getSignHash sigShare, sigShare.quorumMember)

def pubKeyShare : Option Key :=
  signing.getPubKeyShare sigShare.llmqType sigShare.quorumHash sigShare.quorumMember

/-- The share has a signature that verifies with the key share of its member. -/
def verifies : Bool :=
  match sigShare.sigShare, signing.pubKeyShare sigShare with
  | some sig, some pubKeyShare => signing.scheme.verify sig pubKeyShare (signing.getSignHash sigShare)
  | _, _ => false

abbrev Push (Sig Key : Type) := Int × Message SigShareKey Sig Key Uint256

/-- The first loop for one node: what is pushed, and whether it is banned. Without a valid key share the assertion
fails. -/
def gatherNode (nodeId : Int) : List (CSigShare Sig) → Option (List (Push Sig Key) × Bool)
  | [] => some ([], false)
  | sigShare :: rest =>
    if signing.hasRecoveredSigForId nodeId sigShare then gatherNode nodeId rest
    else
      match sigShare.sigShare with
      | none => some ([], true)
      | some sig => do
        let pubKeyShare ← signing.pubKeyShare sigShare
        let (pushes, banned) ← gatherNode nodeId rest
        some ((nodeId, ⟨signing.getKey sigShare, signing.getSignHash sigShare, sig, pubKeyShare⟩) :: pushes, banned)

def gather (sigSharesByNodes : List (Int × List (CSigShare Sig))) : Option (List (List (Push Sig Key) × Bool)) :=
  sigSharesByNodes.mapM fun p => signing.gatherNode p.1 p.2

/-- What the call does: the shares it hands to `ProcessSigShare` with their nodes, and the nodes it bans. -/
structure Processed (Sig : Type) where
  handed : List (Int × CSigShare Sig)
  banned : List Int

/-- `ProcessPendingSigShares` on the collected shares; `none` where an assertion fails. -/
def processPendingSigShares (sigSharesByNodes : SigSharesByNodes Sig) : Option (Processed Sig) := do
  let gathered ← signing.gather sigSharesByNodes.entries
  let batchVerifier := verifyAll signing.scheme false (.new true 0) (gathered.flatMap Prod.fst)
  let good := sigSharesByNodes.entries.filter fun p => p.1 ∉ batchVerifier.badSources
  some
    { handed := good.flatMap fun p => p.2.map fun sigShare => (p.1, sigShare)
      banned :=
        ((sigSharesByNodes.entries.zip gathered).filter fun p => p.2.2).map (fun p => p.1.1) ++
          ((sigSharesByNodes.entries.filter fun p => p.1 ∈ batchVerifier.badSources).map Prod.fst) }

def OnlyVerified (result : Option (Processed Sig)) : Prop :=
  ∀ processed, result = some processed → ∀ handed ∈ processed.handed, signing.verifies handed.2 = true

/-- No share of the node that was pushed is judged by one that fails. -/
def Unblamed (pushes : List (Push Sig Key)) (nodeId : Int) : Prop :=
  ∀ j ∈ judgements 0 [] pushes, j.source = nodeId → verifyOne signing.scheme j.judgedBy = true

/-- The shares that are handed on are those of the nodes that nothing they pushed is held against. -/
theorem processPendingSigShares_spec {sigSharesByNodes : SigSharesByNodes Sig} {processed : Processed Sig}
    (call : signing.processPendingSigShares sigSharesByNodes = some processed) :
    ∃ gathered, signing.gather sigSharesByNodes.entries = some gathered ∧ ∀ handed, handed ∈ processed.handed ↔
        ∃ p ∈ sigSharesByNodes.entries, signing.Unblamed (gathered.flatMap Prod.fst) p.1 ∧
          ∃ sigShare ∈ p.2, (p.1, sigShare) = handed := by
  obtain ⟨gathered, result, rest⟩ := Option.bind_eq_some_iff.mp call
  cases rest
  refine ⟨gathered, result, fun handed => ?_⟩
  simp [(mem_bad signing.scheme false 0 _).2, Unblamed, and_assoc]

end Signing

/-- A node sends one share, and its signature object is invalid. -/
def invalidObject : SigSharesByNodes Nat := ⟨[(3, [⟨1, 10, 0, 20, 30, none⟩])], by decide⟩

def oneQuorum : Signing Nat Nat where
  scheme := Aggregates.Scheme.ofVerify fun sig key hash => decide (sig = key + hash)
  buildSignHash llmqType quorumHash id msgHash := llmqType + quorumHash + id + msgHash
  getPubKeyShare _ _ member := some (member + 1)
  hasRecoveredSigForId _ _ := false

end Cspn.PendingShares
