import Cspn.MnList

/-!
Votes on a governance object. `ProcessVote` keeps for each masternode and signal the vote that is greatest by time and
then by outcome, in whatever order and however often they come, if each is valid when it is processed. A vote dated
more than an hour ahead is not, and nodes that process it at different times disagree.
-/
namespace Cspn.Governance
open Primitives MnList List Function Prod

/-- The part of a vote that its hash is taken of. Votes with the same hash agree in it. -/
structure VoteFields where
  masternodeOutpoint : COutPoint
  nParentHash : Uint256
  nVoteSignal : Int
  nVoteOutcome : Int
  nTime : Int
deriving DecidableEq

structure CGovernanceVote extends VoteFields where
  vchSig : List UInt8

def VOTE_SIGNAL_NONE : Int := 0
def VOTE_SIGNAL_FUNDING : Int := 1
def MAX_SUPPORTED_VOTE_SIGNAL : Int := 4
def GOVERNANCE_UPDATE_MIN : Int := 60 * 60

/-- The list at the tip and the checks of signatures. -/
structure Env where
  getMNByCollateral : COutPoint → Option CDeterministicMN
  checkVotingKey : CGovernanceVote → CKeyID → Bool
  checkOperatorKey : CGovernanceVote → CBLSPublicKey → Bool

/-- `vote_instance_t` -/
structure VoteInstance where
  eOutcome : Int := 0
  nTime : Int := 0
  nCreationTime : Int := 0

def VoteInstance.key (inst : VoteInstance) : ℤ ×ₗ ℤ := toLex (inst.nCreationTime, inst.eOutcome)

structure CGovernanceObject where
  isProposal : Bool
  mapCurrentMNVotes : COutPoint → Option (Int → Option VoteInstance) := fun _ => none
  fileVotes : List CGovernanceVote := []
  fCachedDelete : Bool := false
  fExpired : Bool := false

inductive Rejection where
  | known | masternodeNotFound | noSignal | unsupportedSignal | obsolete | sameTimestamp | tooOften | invalid
deriving DecidableEq

section
variable (env : Env) (now : Int) (o : CGovernanceObject) (vote : CGovernanceVote)

def CGovernanceVote.checkSignature (useVotingKey : Bool) : Bool :=
  match env.getMNByCollateral vote.masternodeOutpoint with
  | none => false
  | some dmn =>
    if useVotingKey then env.checkVotingKey vote dmn.pdmnState.keyIDVoting
    else env.checkOperatorKey vote dmn.pdmnState.pubKeyOperator

def CGovernanceVote.isValid (useVotingKey : Bool) : Bool :=
  if vote.nTime > now + 60 * 60 then false
  else if vote.nVoteSignal > MAX_SUPPORTED_VOTE_SIGNAL then false
  else if vote.nVoteOutcome > 3 then false
  else vote.checkSignature env useVotingKey

namespace CGovernanceObject

def hasVote : Bool := o.fileVotes.any fun it => it.toVoteFields = vote.toVoteFields

/-- `AddVote` and `RemoveOldVotes` -/
def addVote : List CGovernanceVote :=
  (vote :: o.fileVotes).filter fun it => !(it.masternodeOutpoint = vote.masternodeOutpoint &&
    it.nParentHash = vote.nParentHash && it.nVoteSignal = vote.nVoteSignal && it.nTime < vote.nTime)

def mapInstances (p : COutPoint) : Int → Option VoteInstance := (o.mapCurrentMNVotes p).getD fun _ => none

/-- The instance of the masternode and the signal, or the one that is emplaced. -/
def voteInstance : VoteInstance := (o.mapInstances vote.masternodeOutpoint vote.nVoteSignal).getD {}

def setRecord (record : Int → Option VoteInstance) : CGovernanceObject :=
  { o with mapCurrentMNVotes := update o.mapCurrentMNVotes vote.masternodeOutpoint (some record) }

def setInstance (inst : VoteInstance) : CGovernanceObject :=
  o.setRecord vote (update (o.mapInstances vote.masternodeOutpoint) vote.nVoteSignal (some inst))

/-- The object afterwards and why the vote was not added. `AddGovernanceVote` of the meta data always succeeds. -/
def processVote (fRateChecksEnabled : Bool) : CGovernanceObject × Option Rejection :=
  if o.hasVote vote then (o, some .known) else
  if env.getMNByCollateral vote.masternodeOutpoint = none then (o, some .masternodeNotFound) else
  let emplaced := o.setRecord vote (o.mapInstances vote.masternodeOutpoint)
  if vote.nVoteSignal = VOTE_SIGNAL_NONE then (emplaced, some .noSignal) else
  if vote.nVoteSignal > MAX_SUPPORTED_VOTE_SIGNAL then (emplaced, some .unsupportedSignal) else
  let inst := o.voteInstance vote
  let emplaced := o.setInstance vote inst
  if vote.nTime < inst.nCreationTime then (emplaced, some .obsolete) else
  if vote.nTime = inst.nCreationTime ∧ vote.nVoteOutcome < inst.eOutcome then (emplaced, some .sameTimestamp) else
  if fRateChecksEnabled && decide (now - inst.nTime < GOVERNANCE_UPDATE_MIN) then (emplaced, some .tooOften) else
  let onlyVotingKeyAllowed := o.isProposal && vote.nVoteSignal = VOTE_SIGNAL_FUNDING
  if vote.isValid env now onlyVotingKeyAllowed = false then (emplaced, some .invalid) else
  let nVoteTimeUpdate := if fRateChecksEnabled then now else inst.nTime
  ({ o.setInstance vote ⟨vote.nVoteOutcome, nVoteTimeUpdate, vote.nTime⟩ with fileVotes := o.addVote vote }, none)

/-- What is recorded of a masternode and a signal, ordered by time and then by outcome. -/
def recorded (p : COutPoint) (signal : Int) : WithBot (ℤ ×ₗ ℤ) :=
  match o.mapInstances p signal with
  | none => ⊥
  | some inst => inst.key

noncomputable def countMatchingVotes (signal outcome : Int) : Nat :=
  {p | ∃ inst, o.mapInstances p signal = some inst ∧ inst.eOutcome = outcome}.ncard

end CGovernanceObject

end

open CGovernanceObject (countMatchingVotes mapInstances setInstance setRecord voteInstance)

/-- Votes processed one after the other at these times, without rate checks. -/
def processVotes (env : Env) (isProposal : Bool) (calls : List (Int × CGovernanceVote)) : CGovernanceObject :=
  calls.foldl (fun o call => (o.processVote env call.1 call.2 false).1) { isProposal }

/-- The vote is valid now, and its time and its signal are those of a vote. -/
structure Counts (env : Env) (isProposal : Bool) (now : Int) (vote : CGovernanceVote) : Prop where
  positive : 0 < vote.nTime
  signal : vote.nVoteSignal ≠ VOTE_SIGNAL_NONE
  valid : vote.isValid env now (isProposal && vote.nVoteSignal = VOTE_SIGNAL_FUNDING) = true

def VoteFields.key (vote : VoteFields) : ℤ ×ₗ ℤ := toLex (vote.nTime, vote.nVoteOutcome)

abbrev VoteFields.On (vote : VoteFields) (p : COutPoint) (signal : Int) : Prop :=
  vote.masternodeOutpoint = p ∧ vote.nVoteSignal = signal

noncomputable def greatest (votes : List CGovernanceVote) (p : COutPoint) (signal : Int) : WithBot (ℤ ×ₗ ℤ) :=
  ((votes.filter fun vote => vote.On p signal).map fun vote => vote.key).maximum

variable {env : Env} {isProposal fRateChecksEnabled : Bool} {now signal : Int} {p : COutPoint} {o : CGovernanceObject}
  {vote : CGovernanceVote} {votes votes' : List CGovernanceVote} {calls calls' : List (Int × CGovernanceVote)}

theorem greatest_mono (sub : votes ⊆ votes') : greatest votes p signal ≤ greatest votes' p signal :=
  maximum_mono (map_subset _ (filter_subset _ sub))

structure Holds (votes : List CGovernanceVote) (o : CGovernanceObject) : Prop where
  recorded : ∀ p signal, o.recorded p signal = greatest votes p signal
  file : ∀ it ∈ o.fileVotes, ∃ known ∈ votes, known.toVoteFields = it.toVoteFields

theorem Holds.next (holds : Holds votes o) {after : CGovernanceObject}
    (recorded : ∀ p signal, after.recorded p signal =
      if vote.On p signal then max (o.recorded p signal) vote.key else o.recorded p signal)
    (file : ∀ it ∈ after.fileVotes, it = vote ∨ it ∈ o.fileVotes) : Holds (votes ++ [vote]) after := by
  refine ⟨fun p signal => ?_, fun it inFile => ?_⟩
  · rw [recorded, holds.recorded]
    by_cases here : vote.On p signal
    · simp [greatest, filter_append, here, maximum_concat]
    · simp only [greatest, filter_append, here, if_false]
      simp [here]
  · rcases file it inFile with rfl | old
    · exact ⟨it, by simp, rfl⟩
    · obtain ⟨known, member, same⟩ := holds.file it old
      exact ⟨known, mem_append_left _ member, same⟩

theorem Holds.again (holds : Holds votes o) {known : CGovernanceVote} (member : known ∈ votes)
    (same : known.toVoteFields = vote.toVoteFields) : Holds (votes ++ [vote]) o := by
  refine holds.next (fun p signal => ?_) fun _ => .inr
  split_ifs with here
  · rw [holds.recorded]
    refine (max_eq_left (le_maximum_of_mem' (mem_map.mpr ⟨known, mem_filter.mpr ⟨member, ?_⟩, by rw [same]⟩))).symm
    simpa [same] using here
  · rfl

theorem recorded_setInstance (positive : 0 < vote.nTime) {inst : VoteInstance}
    (isMax : inst.key = max (o.voteInstance vote).key vote.key) : (o.setInstance vote inst).recorded p signal =
      if vote.On p signal then max (o.recorded p signal) vote.key else o.recorded p signal := by
  split_ifs with here
  · -- An instance that is emplaced is older than every vote.
    have older : VoteInstance.key {} ≤ vote.key := Lex.le_iff.mpr (.inl positive)
    rw [voteInstance] at isMax
    rw [← here.1, ← here.2]
    cases found : o.mapInstances vote.masternodeOutpoint vote.nVoteSignal with
    | none =>
      rw [found, Option.getD_none, max_eq_right older] at isMax
      simp_all [CGovernanceObject.recorded, setInstance, setRecord, mapInstances]
    | some inst =>
      rw [found, Option.getD_some] at isMax
      simp_all [CGovernanceObject.recorded, setInstance, setRecord, mapInstances]
  · simp only [CGovernanceObject.recorded, setInstance, setRecord, mapInstances]
    by_cases own : p = vote.masternodeOutpoint
    · have other : signal ≠ vote.nVoteSignal := fun same => here ⟨own.symm, same.symm⟩
      simp [own, update_of_ne other]
    · simp [update_of_ne own]

open CGovernanceVote

/-- A vote that counts is recorded if it is the greatest so far. -/
theorem Holds.processVote (holds : Holds votes o) (counts : Counts env o.isProposal now vote)
    (admitted : (o.processVote env now vote fRateChecksEnabled).2 ≠ some .tooOften) :
    Holds (votes ++ [vote]) (o.processVote env now vote fRateChecksEnabled).1 := by
  have valid := counts.valid
  have supported : ¬ vote.nVoteSignal > MAX_SUPPORTED_VOTE_SIGNAL := by
    intro beyond
    simp [isValid, beyond] at valid
  have listed : env.getMNByCollateral vote.masternodeOutpoint ≠ none := by
    intro absent
    simp [isValid, checkSignature, absent] at valid
  have kept (older : vote.key < (o.voteInstance vote).key) :
      Holds (votes ++ [vote]) (o.setInstance vote (o.voteInstance vote)) :=
    holds.next (fun _ _ => recorded_setInstance counts.positive (max_eq_left older.le).symm) fun _ => .inr
  by_cases known : o.hasVote vote = true
  · obtain ⟨it, inFile, same⟩ := any_eq_true.mp known
    obtain ⟨first, member, alike⟩ := holds.file it inFile
    rw [CGovernanceObject.processVote, if_pos known]
    exact holds.again member (alike.trans (of_decide_eq_true same))
  simp only [CGovernanceObject.processVote, known, listed, counts.signal, supported, valid, Bool.false_eq_true,
    if_false, reduceCtorEq] at admitted ⊢
  by_cases older : vote.nTime < (o.voteInstance vote).nCreationTime
  · rw [if_pos older]
    exact kept (Lex.lt_iff.mpr (.inl older))
  by_cases tied : vote.nTime = (o.voteInstance vote).nCreationTime ∧ vote.nVoteOutcome < (o.voteInstance vote).eOutcome
  · rw [if_neg older, if_pos tied]
    exact kept (Lex.lt_iff.mpr (.inr tied))
  rw [if_neg older, if_neg tied] at admitted ⊢
  split at admitted
  · exact absurd rfl admitted
  next admits =>
    rw [if_neg admits]
    have newer : (o.voteInstance vote).key ≤ vote.key := not_lt.mp fun less => (Lex.lt_iff.mp less).elim older tied
    refine holds.next (fun _ _ => recorded_setInstance counts.positive (max_eq_right newer).symm) fun it inFile => ?_
    exact mem_cons.mp (mem_filter.mp inFile).1

theorem processVote_frame (o : CGovernanceObject) : let after := (o.processVote env now vote fRateChecksEnabled).1
    after.isProposal = o.isProposal ∧ after.fCachedDelete = o.fCachedDelete ∧ after.fExpired = o.fExpired := by
  simp only [CGovernanceObject.processVote, setInstance, setRecord]
  split_ifs <;> exact ⟨rfl, rfl, rfl⟩

theorem processVote_ne_invalid (counts : Counts env o.isProposal now vote) :
    (o.processVote env now vote fRateChecksEnabled).2 ≠ some .invalid := by
  simp only [CGovernanceObject.processVote, counts.valid, reduceCtorEq, if_false]
  split_ifs <;> simp

theorem processVote_admitted (o : CGovernanceObject) : (o.processVote env now vote false).2 ≠ some .tooOften := by
  simp only [CGovernanceObject.processVote, Bool.false_and, Bool.false_eq_true, if_false]
  split_ifs <;> simp

theorem processVotes_holds (counts : ∀ call ∈ calls, Counts env isProposal call.1 call.2) :
    (processVotes env isProposal calls).isProposal = isProposal ∧
      Holds (calls.map snd) (processVotes env isProposal calls) := by
  induction calls using reverseRecOn with
  | nil => exact ⟨rfl, fun _ _ => rfl, fun _ inFile => by cases inFile⟩
  | append_singleton earlier call ih =>
    obtain ⟨kind, holds⟩ := ih fun other member => counts other (mem_append_left _ member)
    rw [processVotes, foldl_append, map_append]
    refine ⟨(processVote_frame _).1.trans kind, holds.processVote ?_ (processVote_admitted _)⟩
    rw [kind]
    exact counts call (by simp)

theorem outcome_iff_recorded {outcome : Int} : (∃ inst, o.mapInstances p signal = some inst ∧ inst.eOutcome = outcome) ↔
    ∃ time : ℤ, o.recorded p signal = ↑(toLex (time, outcome)) := by
  rw [CGovernanceObject.recorded]
  cases o.mapInstances p signal with
  | none => simp
  | some inst => simp [VoteInstance.key, WithBot.coe_inj]

def sampleEnv : Env := ⟨fun p => some ⟨1, 0, p, 0, {}⟩, fun _ _ => true, fun _ _ => true⟩

def sampleVote : CGovernanceVote := ⟨⟨⟨1, 0⟩, 2, VOTE_SIGNAL_FUNDING, 1, 3601⟩, []⟩

theorem sampleVote_counts (late : 1 ≤ now) : Counts sampleEnv true now sampleVote := by
  refine ⟨by decide, by decide, ?_⟩
  have inTime : ¬ sampleVote.nTime > now + 60 * 60 := by
    simp only [sampleVote]
    omega
  rw [isValid, if_neg inTime]
  rfl

/-! A vote that is refused may leave an empty instance, which counts as a vote without outcome. -/

/-- `GetCurrentVotes`. The order of the list is that of the keys. -/
def CGovernanceObject.getCurrentVotes (o : CGovernanceObject) (env : Env) (nParentHash : Uint256)
    (mnCollateralOutpointFilter : COutPoint) : Set VoteFields :=
  {vote | (env.getMNByCollateral vote.masternodeOutpoint).isSome ∧
    (mnCollateralOutpointFilter.isNull ∨ vote.masternodeOutpoint = mnCollateralOutpointFilter) ∧
    vote.nParentHash = nParentHash ∧ ∃ inst, o.mapInstances vote.masternodeOutpoint vote.nVoteSignal = some inst ∧
      vote.nVoteOutcome = inst.eOutcome ∧ vote.nTime = inst.nCreationTime}

structure SameResults (o after : CGovernanceObject) : Prop where
  votes : after.mapCurrentMNVotes = o.mapCurrentMNVotes
  counts : ∀ signal outcome, after.countMatchingVotes signal outcome = o.countMatchingVotes signal outcome
  file : after.fileVotes = o.fileVotes
  current : ∀ env nParentHash filter,
    after.getCurrentVotes env nParentHash filter = o.getCurrentVotes env nParentHash filter

theorem SameResults.refl (o : CGovernanceObject) : SameResults o o := ⟨rfl, fun _ _ => rfl, rfl, fun _ _ _ => rfl⟩

theorem sameResults_setRecord {record : Int → Option VoteInstance} : SameResults o (o.setRecord vote record) ↔
    o.mapCurrentMNVotes vote.masternodeOutpoint = some record := by
  refine ⟨fun same => (update_eq_self_iff.mp same.votes).symm, fun stored => ?_⟩
  have unchanged : o.setRecord vote record = o := by rw [setRecord, ← stored, update_eq_self]
  rw [unchanged]
  exact .refl o

/-- A refused vote leaves no trace exactly if it is known or its masternode is not listed, or if the masternode has a
record and, when its signal is supported, an instance of that. -/
theorem processVote_rejected_iff {why : Rejection}
    (rejected : (o.processVote env now vote fRateChecksEnabled).2 = some why) :
    SameResults o (o.processVote env now vote fRateChecksEnabled).1 ↔
      o.hasVote vote = true ∨ env.getMNByCollateral vote.masternodeOutpoint = none ∨
      ∃ record, o.mapCurrentMNVotes vote.masternodeOutpoint = some record ∧
        (vote.nVoteSignal = VOTE_SIGNAL_NONE ∨ vote.nVoteSignal > MAX_SUPPORTED_VOTE_SIGNAL ∨
          (record vote.nVoteSignal).isSome) := by
  have onRecord : SameResults o (o.setRecord vote (o.mapInstances vote.masternodeOutpoint)) ↔
      ∃ record, o.mapCurrentMNVotes vote.masternodeOutpoint = some record := by
    rw [sameResults_setRecord, mapInstances]
    cases o.mapCurrentMNVotes vote.masternodeOutpoint <;> simp
  have onInstance : SameResults o (o.setInstance vote (o.voteInstance vote)) ↔
      ∃ record, o.mapCurrentMNVotes vote.masternodeOutpoint = some record ∧ (record vote.nVoteSignal).isSome := by
    rw [setInstance, sameResults_setRecord, voteInstance, mapInstances]
    cases o.mapCurrentMNVotes vote.masternodeOutpoint with
    | none => simp
    | some record =>
      simp only [Option.getD_some, Option.some.injEq, eq_update_self_iff, exists_eq_left']
      cases record vote.nVoteSignal <;> simp
  revert rejected
  simp only [CGovernanceObject.processVote]
  split_ifs with known unlisted noSignal beyond
  · simp [known, SameResults.refl]
  · simp [unlisted, SameResults.refl]
  · simp [known, unlisted, noSignal, onRecord]
  · simp [known, unlisted, beyond, onRecord]
  all_goals simp [known, unlisted, noSignal, beyond, onInstance]

theorem processVote_rejected_unlisted :
    let env : Env := { sampleEnv with getMNByCollateral := fun _ => none }
    let o : CGovernanceObject := { isProposal := true }
    (o.processVote env 0 sampleVote false).2 = some .masternodeNotFound ∧
      SameResults o (o.processVote env 0 sampleVote false).1 :=
  ⟨rfl, (processVote_rejected_iff rfl).mpr (.inr (.inl rfl))⟩

/-- The vote that comes too early is refused, and its masternode has a vote of time 0 without outcome. -/
theorem processVote_leaves_instance : let o : CGovernanceObject := { isProposal := true }
    let after := (o.processVote sampleEnv 0 sampleVote false).1
    (o.processVote sampleEnv 0 sampleVote false).2 = some .invalid ∧
      o.getCurrentVotes sampleEnv 2 .null = ∅ ∧
      ⟨⟨1, 0⟩, 2, VOTE_SIGNAL_FUNDING, 0, 0⟩ ∈ after.getCurrentVotes sampleEnv 2 .null := by
  refine ⟨rfl, ?_, rfl, .inl rfl, rfl, {}, rfl, rfl, rfl⟩
  simp [CGovernanceObject.getCurrentVotes, mapInstances]

/-! The manager keeps a copy of the object that it receives and replays an orphan vote on the original. -/

def MAX_CACHE_SIZE : Nat := 1000000
def GOVERNANCE_ORPHAN_EXPIRATION_TIME : Int := 10 * 60

/-- `Insert` of the caches. No orphan vote of an object is less than another, so that a key has one value there too.
-/
def cacheInsert {κ ν : Type} [DecidableEq κ] (items : List (κ × ν)) (key : κ) (value : ν) : List (κ × ν) :=
  if key ∈ items.map fst then items else (key, value) :: items.take (MAX_CACHE_SIZE - 1)

structure CGovernanceManager where
  mapObjects : Uint256 → Option CGovernanceObject := fun _ => none
  cmapVoteToObject : List (VoteFields × Uint256) := []
  cmapInvalidVotes : List (VoteFields × CGovernanceVote) := []
  cmmapOrphanVotes : List (Uint256 × CGovernanceVote × Int) := []
  fRateChecksEnabled : Bool := true

namespace CGovernanceManager
variable (m : CGovernanceManager) (env : Env) (now : Int) (vote : CGovernanceVote) (nHash : Uint256)

/-- An object that finds the vote invalid tells the manager. -/
def addInvalidVote (why : Option Rejection) : CGovernanceManager :=
  if why = some .invalid then { m with cmapInvalidVotes := cacheInsert m.cmapInvalidVotes vote.toVoteFields vote }
  else m

def processVote : CGovernanceManager × Bool :=
  if vote.toVoteFields ∈ m.cmapVoteToObject.map fst then (m, false) else
  if vote.toVoteFields ∈ m.cmapInvalidVotes.map fst then (m, false) else
  match m.mapObjects vote.nParentHash with
  | none =>
    let orphan := (vote, now + GOVERNANCE_ORPHAN_EXPIRATION_TIME)
    ({ m with cmmapOrphanVotes := cacheInsert m.cmmapOrphanVotes vote.nParentHash orphan }, false)
  | some govobj =>
    if govobj.fCachedDelete || govobj.fExpired then (m, false) else
    let (govobj, why) := govobj.processVote env now vote m.fRateChecksEnabled
    let m := { m.addInvalidVote vote why with mapObjects := update m.mapObjects vote.nParentHash (some govobj) }
    if why = none then
      ({ m with cmapVoteToObject := cacheInsert m.cmapVoteToObject vote.toVoteFields vote.nParentHash }, true)
    else (m, false)

/-- The manager and the object that was received, on which the orphan vote is replayed. -/
def checkOrphanVotes (govobj : CGovernanceObject) : CGovernanceManager × CGovernanceObject :=
  match m.cmmapOrphanVotes.find? fun it => it.1 = nHash with
  | none => (m, govobj)
  | some (_, vote, expiration) =>
    let removed := { m with cmmapOrphanVotes := m.cmmapOrphanVotes.filter fun it => it.1 ≠ nHash }
    if expiration < now then (removed, govobj) else
    let (govobj, why) := govobj.processVote env now vote false
    (if why = none then removed else m.addInvalidVote vote why, govobj)

/-- A refused trigger stays, marked as deleted. -/
def addGovernanceObject (govobj : CGovernanceObject) (isValidLocally refused : Bool) : CGovernanceManager :=
  if isValidLocally = false ∨ (m.mapObjects nHash).isSome then m else
  let stored := { govobj with fCachedDelete := govobj.fCachedDelete || refused }
  let m := { m with mapObjects := update m.mapObjects nHash (some stored) }
  if refused then m else (m.checkOrphanVotes env now nHash govobj).1

def receive (calls : List (Int × CGovernanceVote)) : CGovernanceManager :=
  calls.foldl (fun m call => (m.processVote env call.1 call.2).1) m

/-- The rate checks refuse none of these votes. -/
def Admits (env : Env) : CGovernanceManager → List (Int × CGovernanceVote) → Prop
  | _, [] => True
  | m, (now, vote) :: calls => (∀ o, m.mapObjects vote.nParentHash = some o →
      (o.processVote env now vote m.fRateChecksEnabled).2 ≠ some .tooOften) ∧ Admits env (m.processVote env now vote).1 calls

end CGovernanceManager

open CGovernanceManager

noncomputable def tally (votes : List CGovernanceVote) (signal outcome : Int) : Nat :=
  {p | ∃ time : ℤ, greatest votes p signal = ↑(toLex (time, outcome))}.ncard

/-- The object has not come. An orphan vote on it is one of these. -/
structure Waiting (nHash : Uint256) (votes : List CGovernanceVote) (m : CGovernanceManager) : Prop where
  absent : m.mapObjects nHash = none
  known : ∀ it ∈ m.cmapVoteToObject, it.1.nParentHash ≠ nHash
  invalid : ∀ it ∈ m.cmapInvalidVotes, it.1.nParentHash ≠ nHash
  orphan : ∀ it ∈ m.cmmapOrphanVotes, it.1 = nHash → it.2.1 ∈ votes

/-- The object has come and these votes after it. -/
structure Running (isProposal : Bool) (nHash : Uint256) (votes : List CGovernanceVote) (m : CGovernanceManager) : Prop where
  stored : ∃ o : CGovernanceObject, m.mapObjects nHash = some o ∧ o.isProposal = isProposal ∧
    o.fCachedDelete = false ∧ o.fExpired = false ∧ Holds votes o
  known : ∀ it ∈ m.cmapVoteToObject, it.1.nParentHash = nHash → ∃ vote ∈ votes, vote.toVoteFields = it.1
  invalid : ∀ it ∈ m.cmapInvalidVotes, it.1.nParentHash ≠ nHash

section
variable {m : CGovernanceManager} {nHash : Uint256}

theorem mem_cacheInsert {κ ν : Type} [DecidableEq κ] {items : List (κ × ν)} {key : κ} {value : ν} {item : κ × ν}
    (member : item ∈ cacheInsert items key value) : item = (key, value) ∨ item ∈ items := by
  unfold cacheInsert at member
  split at member
  · exact .inr member
  · exact (mem_cons.mp member).imp_right mem_of_mem_take

theorem not_mem_fst {ν : Type} {items : List (VoteFields × ν)} (others : ∀ it ∈ items, it.1.nParentHash ≠ vote.nParentHash) :
    vote.toVoteFields ∉ items.map fst := by
  intro member
  obtain ⟨it, inItems, same⟩ := mem_map.mp member
  exact others it inItems (by rw [same])

theorem Waiting.processVote (waiting : Waiting nHash votes m) (member : vote ∈ votes) (parent : vote.nParentHash = nHash) :
    Waiting nHash votes (m.processVote env now vote).1 := by
  subst parent
  simp only [processVote, not_mem_fst waiting.known, not_mem_fst waiting.invalid, waiting.absent,
    if_false]
  refine { waiting with orphan := fun it inserted key => ?_ }
  rcases mem_cacheInsert inserted with rfl | old
  · exact member
  · exact waiting.orphan it old key

/-- The replay changes the orphan votes only. -/
theorem Waiting.added (waiting : Waiting nHash votes m) (counts : ∀ vote ∈ votes, Counts env isProposal now vote) :
    Running isProposal nHash [] (m.addGovernanceObject env now nHash { isProposal } true false) := by
  have running : ∀ orphans, Running isProposal nHash [] { m with
      mapObjects := update m.mapObjects nHash (some { isProposal }), cmmapOrphanVotes := orphans } := by
    refine fun orphans => ⟨⟨_, update_self .., rfl, rfl, rfl, fun _ _ => rfl, fun _ inFile => by cases inFile⟩, ?_,
      waiting.invalid⟩
    exact fun it member parent => absurd parent (waiting.known it member)
  simp only [addGovernanceObject, waiting.absent, Option.isSome_none, Bool.false_eq_true,
    reduceCtorEq, or_self, if_false, checkOrphanVotes]
  split
  · exact running _
  next key orphan expiration found =>
    have own := waiting.orphan _ (mem_of_find?_eq_some found) (by simpa using find?_some found)
    have valid := @processVote_ne_invalid _ false _ { isProposal } _ (counts _ own)
    simp only [addInvalidVote, valid, if_false]
    split_ifs <;> exact running _

section
variable (running : Running isProposal nHash votes m)
include running

theorem Running.processVote (parent : vote.nParentHash = nHash)
    (counts : Counts env isProposal now vote) (admitted : ∀ o, m.mapObjects vote.nParentHash = some o →
      (o.processVote env now vote m.fRateChecksEnabled).2 ≠ some .tooOften) :
    Running isProposal nHash (votes ++ [vote]) (m.processVote env now vote).1 := by
  subst parent
  obtain ⟨o, stored, rfl, kept, live, holds⟩ := running.stored
  have known : ∀ it ∈ m.cmapVoteToObject, it.1.nParentHash = vote.nParentHash →
      ∃ first ∈ votes ++ [vote], first.toVoteFields = it.1 := by
    intro it member parent
    obtain ⟨first, earlier, same⟩ := running.known it member parent
    exact ⟨first, mem_append_left _ earlier, same⟩
  simp only [processVote, not_mem_fst running.invalid, stored, kept, live, if_false, Bool.or_false,
    Bool.false_eq_true, addInvalidVote, processVote_ne_invalid counts]
  by_cases again : vote.toVoteFields ∈ m.cmapVoteToObject.map fst
  · rw [if_pos again]
    obtain ⟨it, member, same⟩ := mem_map.mp again
    obtain ⟨first, earlier, alike⟩ := running.known it member (by rw [same])
    exact ⟨⟨o, stored, rfl, kept, live, holds.again earlier (alike.trans same)⟩, known, running.invalid⟩
  rw [if_neg again]
  obtain ⟨kind, deleted, expired⟩ := @processVote_frame env m.fRateChecksEnabled now vote o
  have after := holds.processVote counts (admitted o stored)
  split
  · refine ⟨⟨_, update_self .., kind, deleted.trans kept, expired.trans live, after⟩, fun it member parent => ?_, running.invalid⟩
    rcases mem_cacheInsert member with rfl | old
    · exact ⟨vote, by simp, rfl⟩
    · exact known it old parent
  · exact ⟨⟨_, update_self .., kind, deleted.trans kept, expired.trans live, after⟩, known, running.invalid⟩

theorem Running.receive
    (counts : ∀ call ∈ calls, call.2.nParentHash = nHash ∧ Counts env isProposal call.1 call.2)
    (admits : m.Admits env calls) : Running isProposal nHash (votes ++ calls.map snd) (m.receive env calls) := by
  induction calls generalizing votes m with
  | nil => rwa [map_nil, append_nil]
  | cons call calls ih =>
    rw [map_cons, append_cons]
    obtain ⟨parent, here⟩ := counts call (.head _)
    exact ih (running.processVote parent here admits.1) (fun other member => counts other (.tail _ member)) admits.2

theorem Running.tallies : ∃ o, m.mapObjects nHash = some o ∧
    ∀ signal outcome, o.countMatchingVotes signal outcome = tally votes signal outcome := by
  obtain ⟨o, stored, _, _, _, holds⟩ := running.stored
  refine ⟨o, stored, fun signal outcome => ?_⟩
  simp [countMatchingVotes, outcome_iff_recorded, holds.recorded, tally]

end

/-- An object with votes that come before it and after it, and the same object with all votes after it. -/
theorem stored_votes_iff {early late : List (Int × CGovernanceVote)} {added added' : Int} (fresh : Waiting nHash [] m)
    (counts : ∀ call ∈ early ++ late ++ calls, call.2.nParentHash = nHash ∧ Counts env isProposal call.1 call.2)
    (replayed : ∀ call ∈ early, Counts env isProposal added call.2) :
    let split := (m.receive env early).addGovernanceObject env added nHash { isProposal } true false
    let direct := m.addGovernanceObject env added' nHash { isProposal } true false
    split.Admits env late → direct.Admits env calls →
    ∃ o o', (split.receive env late).mapObjects nHash = some o ∧ (direct.receive env calls).mapObjects nHash = some o' ∧
      ((∀ signal outcome, o.countMatchingVotes signal outcome = o'.countMatchingVotes signal outcome) ↔
        ∀ signal outcome, tally (late.map snd) signal outcome = tally (calls.map snd) signal outcome) := by
  intro split direct admits admits'
  have waiting : Waiting nHash (early.map snd) (m.receive env early) := by
    have start : Waiting nHash (early.map snd) m :=
      { fresh with orphan := fun it member key => by cases fresh.orphan it member key }
    refine foldlRecOn early _ start fun m waiting call member => ?_
    exact waiting.processVote (mem_map_of_mem member) (counts call (by simp [member])).1
  have first : Running isProposal nHash [] split := waiting.added (by simpa using fun vote now => replayed (now, vote))
  have second : Running isProposal nHash [] direct := fresh.added fun _ none => by cases none
  obtain ⟨o, stored, tallies⟩ := (first.receive (fun call member => counts call (by simp [member])) admits).tallies
  obtain ⟨o', stored', tallies'⟩ := (second.receive (fun call member => counts call (by simp [member])) admits').tallies
  exact ⟨o, o', stored, stored', by simp [tallies, tallies']⟩

end

/-- The node receives the vote at 3600, then the object, and the votes again that are given. -/
def sampleStored (early late : List (Int × CGovernanceVote)) : Option CGovernanceObject :=
  let m : CGovernanceManager := {}
  let split := (m.receive sampleEnv early).addGovernanceObject sampleEnv 3600 2 { isProposal := true } true false
  (split.receive sampleEnv late).mapObjects 2

theorem sampleVote_repeated : Waiting 2 [] {} ∧
    ∃ o o', sampleStored [(3600, sampleVote)] [(3600, sampleVote)] = some o ∧
      sampleStored [] [(3600, sampleVote)] = some o' ∧
      ∀ signal outcome, o.countMatchingVotes signal outcome = o'.countMatchingVotes signal outcome := by
  have fresh : Waiting 2 [] {} := ⟨rfl, by simp, by simp, by simp⟩
  obtain ⟨o, o', stored, stored', same⟩ := @stored_votes_iff sampleEnv true [(3600, sampleVote)] {} 2
    [(3600, sampleVote)] [(3600, sampleVote)] 3600 3600 fresh
    (by simpa using ⟨rfl, sampleVote_counts (by decide)⟩) (by simpa using sampleVote_counts (by decide))
    ⟨fun o found => by cases found; decide, trivial⟩ ⟨fun o found => by cases found; decide, trivial⟩
  exact ⟨fresh, o, o', stored, stored', same.mpr fun _ _ => rfl⟩

/-- A vote that comes before its object is not counted. -/
theorem sampleVote_lost : Counts sampleEnv true 3600 sampleVote ∧
    ∃ o o', sampleStored [(3600, sampleVote)] [] = some o ∧ sampleStored [] [(3600, sampleVote)] = some o' ∧
      o.countMatchingVotes VOTE_SIGNAL_FUNDING 1 = 0 ∧ o'.countMatchingVotes VOTE_SIGNAL_FUNDING 1 = 1 := by
  refine ⟨sampleVote_counts (by decide), _, _, rfl, rfl, ?_, ?_⟩
  · simp [countMatchingVotes, mapInstances]
  · refine Set.ncard_eq_one.mpr ⟨⟨1, 0⟩, Set.ext fun p => ?_⟩
    by_cases own : p = ⟨1, 0⟩
    · subst own
      exact ⟨fun _ => rfl, fun _ => ⟨_, rfl, rfl⟩⟩
    · simp [mapInstances, setInstance, setRecord, sampleVote, own]

/-! No vote is less than another, so that the orphan votes of an object are all equal to the map that holds them. -/

/-- `operator<` of the votes, over that of the hashes. Each test goes on only if the fields just found to be less are
equal. -/
def CGovernanceVote.less (before : Uint256 → Uint256 → Bool) (vote1 vote2 : CGovernanceVote) : Bool :=
  let fResult := before vote1.masternodeOutpoint.hash vote2.masternodeOutpoint.hash ||
    vote1.masternodeOutpoint.hash = vote2.masternodeOutpoint.hash &&
      decide (vote1.masternodeOutpoint.n < vote2.masternodeOutpoint.n)
  if !fResult then false else
  let fResult := decide (vote1.masternodeOutpoint = vote2.masternodeOutpoint)
  let fResult := fResult && before vote1.nParentHash vote2.nParentHash
  if !fResult then false else
  let fResult := fResult && vote1.nParentHash = vote2.nParentHash
  let fResult := fResult && decide (vote1.nVoteOutcome < vote2.nVoteOutcome)
  if !fResult then false else
  let fResult := fResult && vote1.nVoteOutcome = vote2.nVoteOutcome
  let fResult := fResult && vote1.nVoteSignal = vote2.nVoteSignal
  if !fResult then false else
  fResult && decide (vote1.nTime < vote2.nTime)

/-- `CacheMultiMap::Insert`, where values of which none is less than the other are the same. -/
def multiInsert {κ ν : Type} [DecidableEq κ] (less : ν → ν → Bool) (items : List (κ × ν)) (key : κ) (value : ν) :
    List (κ × ν) :=
  if items.any fun it => it.1 = key && !less it.2 value && !less value it.2 then items
  else (key, value) :: items.take (MAX_CACHE_SIZE - 1)

def CGovernanceManager.getAll (m : CGovernanceManager) (nHash : Uint256) : List (CGovernanceVote × Int) :=
  (m.cmmapOrphanVotes.filter fun it => it.1 = nHash).map snd

theorem not_less (before : Uint256 → Uint256 → Bool) (vote1 vote2 : CGovernanceVote) :
    vote1.less before vote2 = false := by
  simp only [CGovernanceVote.less]
  split_ifs with _ _ _ equal
  iterate 4 rfl
  -- the outcomes would be both less and equal
  simp only [Bool.not_eq_true', Bool.not_eq_false, Bool.and_eq_true, decide_eq_true_eq] at equal
  omega

/-- Once there is an orphan vote on the object, it stays and keeps the others out. -/
theorem getAll_receive (waiting : Waiting nHash votes m)
    (own : ∀ call ∈ calls, call.2 ∈ votes ∧ call.2.nParentHash = nHash) :
    (m.receive env calls).getAll nHash = if m.getAll nHash = [] then
      (calls.take 1).map fun call => (call.2, call.1 + GOVERNANCE_ORPHAN_EXPIRATION_TIME) else m.getAll nHash := by
  induction calls generalizing m with
  | nil => by_cases none : m.getAll nHash = [] <;> simp [receive, none]
  | cons call calls ih =>
    obtain ⟨member, parent⟩ := own call (.head _)
    have step : (m.processVote env call.1 call.2).1.getAll nHash = if m.getAll nHash = [] then
        [(call.2, call.1 + GOVERNANCE_ORPHAN_EXPIRATION_TIME)] else m.getAll nHash := by
      have held : m.getAll nHash = [] ↔ nHash ∉ m.cmmapOrphanVotes.map fst := by
        simp only [getAll, map_eq_nil_iff, filter_eq_nil_iff, decide_eq_true_eq, mem_map, not_exists, not_and]
      subst parent
      simp only [processVote, not_mem_fst waiting.known, not_mem_fst waiting.invalid, waiting.absent, if_false, held,
        cacheInsert]
      split_ifs with present
      · rfl
      · simp only [getAll, filter_cons, decide_true, if_true, map_cons, cons.injEq, map_eq_nil_iff, filter_eq_nil_iff]
        refine ⟨trivial, fun it taken same => present (mem_map.mpr ⟨it, mem_of_mem_take taken, of_decide_eq_true same⟩)⟩
    rw [receive, foldl_cons, ← receive, ih (waiting.processVote member parent) fun other later => own other (.tail _ later),
      step]
    split_ifs <;> simp_all

/-- Of the votes on an object that has not come the first is kept. So all are kept exactly if there is at most one. -/
theorem orphans_kept_iff (before : Uint256 → Uint256 → Bool) (waiting : Waiting nHash [] m)
    (own : ∀ call ∈ calls, call.2.nParentHash = nHash) :
    (∀ items (orphan : CGovernanceVote × Int),
      multiInsert (fun p1 p2 => p1.1.less before p2.1) items nHash orphan = cacheInsert items nHash orphan) ∧
    ((((m.receive env calls).getAll nHash).map fst).Perm (calls.map snd) ↔ calls.length ≤ 1) := by
  have start : Waiting nHash (calls.map snd) m :=
    { waiting with orphan := fun it member key => by cases waiting.orphan it member key }
  have none : m.getAll nHash = [] := by
    simp only [getAll, map_eq_nil_iff, filter_eq_nil_iff, decide_eq_true_eq]
    intro it member key
    cases waiting.orphan it member key
  rw [getAll_receive start fun call member => ⟨mem_map_of_mem member, own call member⟩, if_pos none]
  refine ⟨fun items orphan => ?_, fun kept => ?_, fun few => ?_⟩
  · exact if_congr (by simp [not_less]) rfl rfl
  · simpa using kept.length_eq
  · simp [take_of_length_le few, comp_def]

theorem orphans_kept_single : Waiting 2 [] {} ∧
    (((CGovernanceManager.receive {} sampleEnv [(0, sampleVote)]).getAll 2).map fst).Perm [sampleVote] := by
  have fresh : Waiting 2 [] {} := ⟨rfl, by simp, by simp, by simp⟩
  exact ⟨fresh, (orphans_kept_iff (fun _ _ => false) fresh (by simp [sampleVote])).2.mpr le_rfl⟩

/-- The second of two votes on an object that has not come is lost. -/
theorem sampleVote_dropped : let later : CGovernanceVote := { sampleVote with nTime := 3602 }
    sampleVote.toVoteFields ≠ later.toVoteFields ∧
      (CGovernanceManager.receive {} sampleEnv [(0, sampleVote), (0, later)]).getAll 2 = [(sampleVote, 600)] :=
  ⟨by decide, rfl⟩

end Cspn.Governance
