import Cspn.ContributionVerifier

/-!
A session of the distributed key generation, as a member or an observer runs it: the four kinds of messages with their
preverification, what receiving one does to the members, and what each phase decides. The messages of a batch are
preverified together and then received in turn.
-/
namespace Cspn.DkgSession
open Primitives ContributionVerifier List

/-! ### Quorums and messages -/

/-- What ends the processing: a read behind the end of a vector, a null pointer, a call that does not return. -/
inductive Crash where
  | outOfRange
  | nullPointer
  | stuck
deriving DecidableEq

abbrev CBLSSecretKey := Option Nat

abbrev BLSVerificationVector := List CBLSPublicKey

structure LLMQParams where
  size : Nat
  minSize : Nat
  threshold : Nat
  dkgBadVotesThreshold : Nat

/-- The members of a quorum in their order, and which one the node is. An observer is none of them. -/
structure Quorum where
  params : LLMQParams
  quorumHash : Uint256
  proTxHashes : List Uint256
  myIdx : Option Nat
  distinct : proTxHashes.Nodup
  fits : proTxHashes.length ≤ params.size
  hasThreshold : 1 ≤ params.threshold
  mine : ∀ idx, myIdx = some idx → idx < proTxHashes.length

namespace Quorum
variable (q : Quorum)

def count : Nat := q.proTxHashes.length

/-- The hash of a member, which also is its BLS id. -/
def proTxHash (idx : Nat) : Uint256 := q.proTxHashes.getD idx 0

def getMember (proTxHash : Uint256) : Option Nat := q.proTxHashes.findIdx? (· == proTxHash)

def areWeMember : Bool := q.myIdx.isSome

def myId : Option Uint256 := q.myIdx.map q.proTxHash

variable {q} {proTxHash : Uint256} {idx : Nat} (found : q.getMember proTxHash = some idx)
include found

theorem getMember_lt : idx < q.count :=
  (findIdx?_eq_some_iff_getElem.mp found).1

theorem proTxHash_of_getMember : q.proTxHash idx = proTxHash := by
  obtain ⟨inside, same, -⟩ := findIdx?_eq_some_iff_getElem.mp found
  rw [Quorum.proTxHash, getD_eq_getElem?_getD, getElem?_eq_getElem inside]
  exact beq_iff_eq.mp same

end Quorum

/-- A contribution; each blob stands for what its recipient decrypts, if it can. -/
structure CDKGContribution where
  quorumHash : Uint256
  proTxHash : Uint256
  vvec : BLSVerificationVector
  blobs : List (Option CBLSSecretKey)
deriving DecidableEq

structure CDKGComplaint where
  quorumHash : Uint256
  proTxHash : Uint256
  badMembers : List Bool
  complainForMembers : List Bool
deriving DecidableEq

structure CDKGJustification where
  quorumHash : Uint256
  proTxHash : Uint256
  contributions : List (Nat × CBLSSecretKey)
deriving DecidableEq

structure CDKGPrematureCommitment where
  quorumHash : Uint256
  proTxHash : Uint256
  validMembers : List Bool
  quorumPublicKey : CBLSPublicKey
  quorumVvecHash : Uint256
  quorumSig : CBLSSignature
  sig : CBLSSignature
deriving DecidableEq

inductive QuorumPhase where
  | contribute
  | complain
  | justify
  | commit
  | finalize
deriving DecidableEq

def QuorumPhase.next : QuorumPhase → QuorumPhase
  | .contribute => .complain
  | .complain => .justify
  | .justify => .commit
  | .commit => .finalize
  | .finalize => .finalize

inductive Message where
  | contribution (qc : CDKGContribution)
  | complaint (qc : CDKGComplaint)
  | justification (qj : CDKGJustification)
  | prematureCommitment (qc : CDKGPrematureCommitment)
deriving DecidableEq

namespace Message

def phase : Message → QuorumPhase
  | .contribution _ => .contribute
  | .complaint _ => .complain
  | .justification _ => .justify
  | .prematureCommitment _ => .commit

def quorumHash : Message → Uint256
  | .contribution qc => qc.quorumHash
  | .complaint qc => qc.quorumHash
  | .justification qj => qj.quorumHash
  | .prematureCommitment qc => qc.quorumHash

def proTxHash : Message → Uint256
  | .contribution qc => qc.proTxHash
  | .complaint qc => qc.proTxHash
  | .justification qj => qj.proTxHash
  | .prematureCommitment qc => qc.proTxHash

end Message

/-- The BLS library and the worker pool. A check of contributions that does not return has no result. -/
structure Env where
  bls : Bls Nat Nat Uint256
  verifyContributionShares : Input Nat Nat Uint256 → Option (List Bool)
  verifyInsecure : CBLSSignature → CBLSPublicKey → Uint256 → Bool
  serializeHash : BLSVerificationVector → Uint256
  buildCommitmentHash : Uint256 → List Bool → CBLSPublicKey → Uint256 → Uint256

namespace Env
variable (env : Env)

def verifyVerificationVector (vvec : BLSVerificationVector) : Bool := verifyVerificationVectors env.bls [some vvec]

def buildPubKeyShare (vvec : BLSVerificationVector) (id : Uint256) : CBLSPublicKey :=
  if vvec.all Option.isSome then env.bls.publicKeyShare vvec.reduceOption id else none

/-- The task of `AsyncVerifyContributionShare`; the vector is not null. -/
def verifyContributionShare (forId : Uint256) (vvec : BLSVerificationVector) (skContribution : CBLSSecretKey) : Bool :=
  env.verifyVerificationVector vvec &&
    match env.buildPubKeyShare vvec forId with
    | none => false
    | some pk1 => decide (some pk1 = skContribution.map env.bls.getPublicKey)

def aggregatePubKeys : List Nat → CBLSPublicKey
  | [] => none
  | first :: rest => some (rest.foldl env.bls.aggregatePub first)

/-- The sum of the vectors, unless one of them is missing or they do not pass. -/
def buildQuorumVerificationVector (vvecs : List (Option BLSVerificationVector)) : Option BLSVerificationVector :=
  if vvecs.isEmpty || !verifyVerificationVectors env.bls vvecs then none
  else some ((range (firstSize vvecs)).map fun j =>
    env.aggregatePubKeys ((vvecs.reduceOption.map fun vvec => vvec[j]?.join).reduceOption))

end Env

/-- What a session knows of a member. Sets are lists into which nothing is inserted twice. -/
structure CDKGMember where
  contributions : List CDKGContribution := []
  complaints : List CDKGComplaint := []
  justifications : List CDKGJustification := []
  prematureCommitments : List CDKGPrematureCommitment := []
  badMemberVotes : List Uint256 := []
  complaintsFromOthers : List Uint256 := []
  bad : Bool := false
  weComplain : Bool := false
  someoneComplain : Bool := false

/-- A session, with the vectors it wrote to the database. What `members` and the vectors say from the number of the
members on does not count. -/
structure CDKGSession where
  phase : QuorumPhase := .contribute
  started : Bool := false
  members : Nat → CDKGMember := fun _ => {}
  receivedVvecs : Nat → Option BLSVerificationVector := fun _ => none
  receivedSkContributions : Nat → CBLSSecretKey := fun _ => none
  pendingContributionVerifications : List Nat := []
  verifiedVvecs : Nat → Option BLSVerificationVector := fun _ => none
  prematureCommitments : List CDKGPrematureCommitment := []
  validCommitments : List CDKGPrematureCommitment := []
  seenMessages : List Message := []

namespace CDKGSession

variable (s : CDKGSession) (idx : Nat) (change : CDKGMember → CDKGMember)

def modify : CDKGSession :=
  { s with members := fun i => if i = idx then change (s.members i) else s.members i }

theorem members_modify_self : (s.modify idx change).members idx = change (s.members idx) := if_pos rfl

theorem members_modify_of_ne {idx i : Nat} (apart : i ≠ idx) (change : CDKGMember → CDKGMember) :
    (s.modify idx change).members i = s.members i := if_neg apart

def markBadMember : CDKGSession := s.modify idx fun m => { m with bad := true }

def markBadMembers (against : CDKGMember → Bool) : CDKGSession :=
  { s with members := fun i => if against (s.members i) then { s.members i with bad := true } else s.members i }

end CDKGSession

section
variable (env : Env) (q : Quorum) (s : CDKGSession)

/-! ### Contributions -/

/-- What all four functions ask: a message for this quorum, from a member, with good content, and less than two known.
-/
def preVerify (quorumHash proTxHash : Uint256) (content : Bool) (received : CDKGMember → Nat) : Bool :=
  decide (quorumHash = q.quorumHash) &&
    match q.getMember proTxHash with
    | none => false
    | some idx => content && decide (received (s.members idx) < 2)

def contributionOk (qc : CDKGContribution) : Bool :=
  decide (qc.blobs.length = q.count) && decide (qc.vvec.length = q.params.threshold) &&
    env.verifyVerificationVector qc.vvec

def preVerifyContribution (qc : CDKGContribution) : Bool :=
  preVerify q s qc.quorumHash qc.proTxHash (contributionOk env q qc) (·.contributions.length)

def pendingMembers : List Nat :=
  s.pendingContributionVerifications.filter fun idx => !(s.members idx).bad && !(s.members idx).weComplain

def complainAbout (failed : List Nat) : CDKGSession :=
  { s with members := fun i => if i ∈ failed then { s.members i with weComplain := true } else s.members i }

def verifyPendingContributions : Except Crash CDKGSession :=
  if s.pendingContributionVerifications = [] then .ok s
  else if s.pendingContributionVerifications.any (decide <| q.count ≤ ·) then .error .outOfRange
  else
    let memberIndexes := pendingMembers s
    match env.verifyContributionShares ⟨q.myId, memberIndexes.map s.receivedVvecs,
        memberIndexes.map s.receivedSkContributions, by simp, true, true⟩ with
    | none => .error .stuck
    | some result =>
      let done := { s with pendingContributionVerifications := [] }
      if result.length ≠ memberIndexes.length then .ok done
      else .ok (complainAbout done (((memberIndexes.zip result).filter (!·.2)).map (·.1)))

def storeContribution (myIdx idx : Nat) (qc : CDKGContribution) : Except Crash CDKGSession :=
  let written := { s with verifiedVvecs := fun i => if i = idx then some qc.vvec else s.verifiedVvecs i }
  match qc.blobs[myIdx]?.join with
  | none => .ok (written.modify idx fun m => { m with weComplain := true })
  | some skContribution =>
    let stored := { written with
      receivedSkContributions := fun i => if i = idx then skContribution else s.receivedSkContributions i
      pendingContributionVerifications := s.pendingContributionVerifications ++ [idx] }
    if 32 ≤ stored.pendingContributionVerifications.length then verifyPendingContributions env q stored
    else .ok stored

def receiveContribution (qc : CDKGContribution) : Except Crash CDKGSession :=
  match q.getMember qc.proTxHash with
  | none => .error .nullPointer
  | some idx =>
    if 2 ≤ (s.members idx).contributions.length then .ok s
    else
      let emplaced := s.modify idx fun m => { m with contributions := m.contributions.insert qc }
      if 1 < (emplaced.members idx).contributions.length then .ok (emplaced.markBadMember idx)
      else
        let received := { emplaced with receivedVvecs := fun i => if i = idx then some qc.vvec else s.receivedVvecs i }
        match q.myIdx with
        | none => .ok received
        | some myIdx => storeContribution env q received myIdx idx qc

def verifyAndComplain : Except Crash CDKGSession :=
  if !q.areWeMember then .ok s
  else do
    let verified ← verifyPendingContributions env q s
    .ok (verified.markBadMembers (·.contributions.isEmpty))

def complaintOk (qc : CDKGComplaint) : Bool :=
  decide (qc.badMembers.length = q.params.size) && decide (qc.complainForMembers.length = q.params.size)

def preVerifyComplaint (qc : CDKGComplaint) : Bool :=
  preVerify q s qc.quorumHash qc.proTxHash (complaintOk q qc) (·.complaints.length)

def addVotes (qc : CDKGComplaint) : CDKGSession :=
  { s with members := fun i =>
      let m := s.members i
      { m with
        badMemberVotes := if qc.badMembers.getD i false then m.badMemberVotes.insert qc.proTxHash else m.badMemberVotes
        complaintsFromOthers :=
          if qc.complainForMembers.getD i false then m.complaintsFromOthers.insert qc.proTxHash
          else m.complaintsFromOthers
        someoneComplain := m.someoneComplain || qc.complainForMembers.getD i false } }

def receiveComplaint (qc : CDKGComplaint) : Except Crash CDKGSession :=
  match q.getMember qc.proTxHash with
  | none => .error .nullPointer
  | some idx =>
    if 2 ≤ (s.members idx).complaints.length then .ok s
    else
      let emplaced := s.modify idx fun m => { m with complaints := m.complaints.insert qc }
      if 1 < (emplaced.members idx).complaints.length then .ok (emplaced.markBadMember idx)
      else if qc.badMembers.length < q.count ∨ qc.complainForMembers.length < q.count then .error .outOfRange
      else .ok (addVotes emplaced qc)

def verifyAndJustify : Except Crash CDKGSession :=
  if !q.areWeMember then .ok s
  else .ok (s.markBadMembers fun m =>
    decide (q.params.dkgBadVotesThreshold ≤ m.badMemberVotes.length) || decide (1 < m.complaints.length))

variable (idx : Nat) (qj : CDKGJustification) (batch : List Message) (qc : CDKGPrematureCommitment)

/-- The index is compared with the number of the members, which itself passes. -/
def justificationOk : Bool :=
  !qj.contributions.isEmpty && qj.contributions.all (fun p => decide (p.1 ≤ q.count) && p.2.isSome) &&
    decide (qj.contributions.map (·.1)).Nodup

def preVerifyJustification : Bool :=
  preVerify q s qj.quorumHash qj.proTxHash (justificationOk q qj) (·.justifications.length)

def justifyOne (vvec : BLSVerificationVector) (s : CDKGSession) (p : Nat × CBLSSecretKey) : CDKGSession :=
  if env.verifyContributionShare (q.proTxHash p.1) vvec p.2 then
    let justified := s.modify idx fun m => { m with
      complaintsFromOthers := m.complaintsFromOthers.filter (· != q.proTxHash p.1)
      weComplain := if q.myId = some (q.proTxHash p.1) then false else m.weComplain }
    if q.myId = some (q.proTxHash p.1) then
      { justified with receivedSkContributions := fun i => if i = idx then p.2 else s.receivedSkContributions i }
    else justified
  else s.markBadMember idx

def justify : Except Crash CDKGSession :=
  if qj.contributions.any (fun p => decide (q.count ≤ p.1)) then .error .outOfRange
  else if qj.contributions.any (fun p => decide (q.proTxHash p.1 ∉ (s.members idx).complaintsFromOthers)) then
    .ok (s.markBadMember idx)
  else
    match s.receivedVvecs idx with
    | none => if qj.contributions.isEmpty then .ok s else .error .nullPointer
    | some vvec => .ok (qj.contributions.foldl (justifyOne env q idx vvec) s)

def receiveJustification : Except Crash CDKGSession :=
  match q.getMember qj.proTxHash with
  | none => .error .nullPointer
  | some idx =>
    if 2 ≤ (s.members idx).justifications.length then .ok s
    else
      let emplaced := s.modify idx fun m => { m with justifications := m.justifications.insert qj }
      if 1 < (emplaced.members idx).justifications.length then .ok (emplaced.markBadMember idx)
      else if (emplaced.members idx).bad then .ok emplaced
      else justify env q emplaced idx qj

def verifyAndCommit : Except Crash CDKGSession :=
  if !q.areWeMember then .ok s
  else .ok (s.markBadMembers fun m => !m.complaintsFromOthers.isEmpty)

def validMembers : List Bool :=
  (range q.params.size).map fun i => decide (i < q.count) && !(s.members i).bad

def prematureCommitmentOk : Bool :=
  decide (qc.validMembers.length = q.params.size) && decide (q.params.minSize ≤ qc.validMembers.count true) &&
    qc.sig.isSome && qc.quorumSig.isSome && (qc.validMembers.drop q.count).all (!·)

def preVerifyPrematureCommitment : Bool :=
  preVerify q s qc.quorumHash qc.proTxHash (prematureCommitmentOk q qc) (·.prematureCommitments.length)

/-- The vectors of the valid members, where one that is not in the database is null. -/
def getVerifiedContributions (validMembers : List Bool) : Except Crash (List (Option BLSVerificationVector)) :=
  if validMembers.length < q.count then .error .outOfRange
  else .ok (((range q.count).filter fun i => validMembers.getD i false).map s.verifiedVvecs)

def getSignHash : Uint256 :=
  env.buildCommitmentHash qc.quorumHash qc.validMembers qc.quorumPublicKey qc.quorumVvecHash

def matchesVvec (quorumVvec : BLSVerificationVector) (qc : CDKGPrematureCommitment) : Except Crash Bool :=
  match quorumVvec with
  | [] => .error .outOfRange
  | first :: rest =>
    let pubKeyShare := env.buildPubKeyShare (first :: rest) qc.proTxHash
    .ok (decide (first = qc.quorumPublicKey) && decide (qc.quorumVvecHash = env.serializeHash (first :: rest)) &&
      pubKeyShare.isSome && env.verifyInsecure qc.quorumSig pubKeyShare (getSignHash env qc))

def receivePrematureCommitment : Except Crash CDKGSession :=
  match q.getMember qc.proTxHash with
  | none => .error .nullPointer
  | some idx =>
    let emplaced := { s.modify idx fun m => { m with prematureCommitments := m.prematureCommitments.insert qc } with
      prematureCommitments := s.prematureCommitments.insert qc }
    let valid := { emplaced with validCommitments := s.validCommitments.insert qc }
    match getVerifiedContributions q s qc.validMembers with
    | .error crash => .error crash
    | .ok vvecs =>
      match env.buildQuorumVerificationVector vvecs with
      | none => .ok valid
      | some quorumVvec =>
        match matchesVvec env quorumVvec qc with
        | .error crash => .error crash
        | .ok passes => .ok (if passes then valid else emplaced)

/-! ### Rounds -/

def preVerifyMessage : Message → Bool
  | .contribution qc => preVerifyContribution env q s qc
  | .complaint qc => preVerifyComplaint q s qc
  | .justification qj => preVerifyJustification q s qj
  | .prematureCommitment qc => preVerifyPrematureCommitment q s qc

def receiveMessage : Message → Except Crash CDKGSession
  | .contribution qc => receiveContribution env q s qc
  | .complaint qc => receiveComplaint q s qc
  | .justification qj => receiveJustification env q s qj
  | .prematureCommitment qc => receivePrematureCommitment env q s qc

def unseen (seen : List Message) : List Message → List Message
  | [] => []
  | m :: rest => if m ∈ seen then unseen seen rest else m :: unseen (m :: seen) rest

def fresh : List Message :=
  unseen s.seenMessages (batch.filter fun m => decide (m.phase = s.phase))

def preverified : List Message := (fresh s batch).filter (preVerifyMessage env q s)

def markSeen : CDKGSession := { s with seenMessages := fresh s batch ++ s.seenMessages }

def processPendingMessageBatch : Except Crash CDKGSession :=
  (preverified env q s batch).foldlM (receiveMessage env q) (markSeen s batch)

def startPhase : Except Crash CDKGSession :=
  match s.phase with
  | .complain => verifyAndComplain env q s
  | .justify => verifyAndJustify q s
  | .commit => verifyAndCommit q s
  | _ => .ok s

/-- What happens in a round: a batch is processed, a phase's function is called, the next phase begins. -/
inductive Event where
  | messages (batch : List Message)
  | start
  | next

def step : Event → Except Crash CDKGSession
  | .messages batch => processPendingMessageBatch env q s batch
  | .start => if s.started then .ok s else (startPhase env q s).map fun after => { after with started := true }
  | .next => .ok (if s.started then { s with phase := s.phase.next, started := false } else s)

end

def run (env : Env) (q : Quorum) (events : List Event) : Except Crash CDKGSession :=
  events.foldlM (step env q) {}

end Cspn.DkgSession
