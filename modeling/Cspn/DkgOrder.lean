import Cspn.DkgReflects

/-!
What a member concludes at the end of the phases from the messages that it got. The sets of the messages of each member
decide, and one thing that depends on their order: of two complaints of one member only the first is counted, also
when the second one makes its sender bad.
-/
namespace Cspn.DkgOrder
open Primitives List DkgSession File

variable {env : Env} {q : Quorum} {s start : CDKGSession} {i : Nat} {proTxHash : Uint256} {earlier batch : List Message}

section
variable {ms : List Message} {s' : CDKGSession} {f : File} {calls : QuorumPhase → Bool} {idx : Nat} {m : CDKGMember}
  {vvec : Option BLSVerificationVector}

theorem Agrees.receivePrematureCommitment (agrees : Agrees env q ms s) (inPhase : .commit = s.phase)
    {qc : CDKGPrematureCommitment} (place : SamePlace s s')
    (done : receivePrematureCommitment env q s qc = .ok s') : Agrees env q (ms ++ [.prematureCommitment qc]) s' := by
  have alike : ∀ i, Alike (s.members i) (s'.members i) ∧ s'.receivedVvecs i = s.receivedVvecs i := by
    have emplaced : ∀ idx i, Alike (s.members i) ((s.modify idx fun m =>
        { m with prematureCommitments := m.prematureCommitments.insert qc }).members i) := by
      intro idx i
      rw [CDKGSession.modify]
      dsimp only
      split_ifs <;> exact ⟨rfl, rfl, rfl, rfl, rfl, rfl⟩
    intro i
    rw [DkgSession.receivePrematureCommitment] at done
    split at done
    · cases done
    · next idx found =>
      split at done
      · cases done
      · split at done
        · cases done
          exact ⟨emplaced idx i, rfl⟩
        · split at done
          · cases done
          · cases done
            split_ifs <;> exact ⟨emplaced idx i, rfl⟩
  refine ⟨fun i inside => ?_, agrees.phases_append inPhase place⟩
  rw [called_congr place, file_append_prematureCommitment, (alike i).2]
  exact (alike i).1.reflects (agrees.members i inside)

variable {message : Message}

theorem Agrees.receiveMessage (agrees : Agrees env q ms s) (inPhase : message.phase = s.phase)
    (formed : wellFormed env q message = true) (fresh : message ∉ ms) (place : SamePlace s s')
    (done : receiveMessage env q s message = .ok s') : Agrees env q (ms ++ [message]) s' := by
  cases message with
  | contribution qc => exact agrees.receiveContribution inPhase formed place done
  | complaint qc => exact agrees.receiveComplaint inPhase formed fresh place done
  | justification qj => exact agrees.receiveJustification inPhase formed fresh place done
  | prematureCommitment qc => exact agrees.receivePrematureCommitment inPhase place done

theorem sentBy_mono {α : Type} {kind : α → Message} {ms' : List Message} (sub : ms ⊆ ms') :
    sentBy env q ms kind proTxHash ⊆ sentBy env q ms' kind proTxHash :=
  fun _ sent => ⟨sub sent.1, sent.2⟩

theorem Agrees.full (agrees : Agrees env q ms s)
    (agreed : Agrees env q earlier start) (sub : earlier ⊆ ms) (inPhase : message.phase = s.phase)
    (formed : wellFormed env q message = true) (found : q.getMember message.proTxHash = some idx)
    (enough : 2 ≤ message.received (start.members idx)) : Agrees env q (ms ++ [message]) s := by
  have inside := Quorum.getMember_lt found
  cases message with
  | contribution qc =>
    have two := ((agreed.members idx inside).contributions.two_iff.mp enough).mono (sentBy_mono sub)
    exact agrees.fullContribution inPhase formed found ((agrees.members idx inside).contributions.two_iff.mpr two)
  | complaint qc =>
    have two := ((agreed.members idx inside).complaints.two_iff.mp enough).mono (sentBy_mono sub)
    exact agrees.fullComplaint inPhase formed found ((agrees.members idx inside).complaints.two_iff.mpr two)
  | justification qj =>
    have two := ((agreed.members idx inside).justifications.two_iff.mp enough).mono (sentBy_mono sub)
    exact agrees.fullJustification inPhase formed found ((agrees.members idx inside).justifications.two_iff.mpr two)
  | prematureCommitment qc => exact agrees.unchanged inPhase fun _ _ => file_append_prematureCommitment qc

theorem Agrees.receiveAll (agreed : Agrees env q earlier start) (batch : List Message) :
    ∀ {ms seen : List Message} {s : CDKGSession}, Agrees env q ms s → Inv q s → earlier ⊆ ms →
      (∀ message, message ∈ seen ↔ message ∈ ms) → (∀ message ∈ batch, message.phase = s.phase) →
      ((unseen seen batch).filter (preVerifyMessage env q start)).foldlM (DkgSession.receiveMessage env q) s = .ok s' →
      Agrees env q (ms ++ batch) s' := by
  induction batch with
  | nil =>
    intro ms seen s agrees _ _ _ _ done
    cases done
    rw [append_nil]
    exact agrees
  | cons message rest ih =>
    intro ms seen s agrees inv sub known inPhase done
    obtain ⟨isPhase, restPhase⟩ := forall_mem_cons.mp inPhase
    have append : ms ++ message :: rest = ms ++ [message] ++ rest := by simp
    have grows : earlier ⊆ ms ++ [message] := fun m member => mem_append_left _ (sub member)
    rw [append]
    rw [unseen] at done
    split_ifs at done with already
    · have isOld := (known message).mp already
      refine ih (agrees.unchanged isPhase fun _ _ => file_append_of_unchanged fun _ => isOld) inv grows (fun m => ?_)
        restPhase done
      rw [known, mem_append, mem_singleton]
      exact ⟨.inl, fun either => either.elim id fun same => same ▸ isOld⟩
    · have nowKnown : ∀ m, m ∈ message :: seen ↔ m ∈ ms ++ [message] := fun m => by
        rw [mem_cons, known, mem_append, mem_singleton, or_comm]
      cases passes : preVerifyMessage env q start message with
      | false =>
        rw [filter_cons_of_neg (by simp [passes])] at done
        refine ih ?_ inv grows nowKnown restPhase done
        by_cases formed : wellFormed env q message = true
        · obtain ⟨idx, found⟩ := getMember_of_wellFormed formed
          refine agrees.full agreed sub isPhase formed found ?_
          simp only [wellFormed, Bool.and_eq_true, decide_eq_true_eq] at formed
          by_contra few
          rw [preVerifyMessage_iff.mpr ⟨formed.1.1, idx, found, formed.2, Nat.not_le.mp few⟩] at passes
          cases passes
        · exact agrees.unchanged isPhase fun _ _ => file_append_of_unchanged fun other => absurd other formed
      | true =>
        rw [filter_cons_of_pos passes, foldlM_cons] at done
        obtain ⟨middle, received, later⟩ := Folds.bind_eq_ok.mp done
        obtain ⟨sameQuorum, idx, found, content, -⟩ := preVerifyMessage_iff.mp passes
        have formed : wellFormed env q message = true := by simp [wellFormed, sameQuorum, found, content]
        obtain ⟨invMiddle, place⟩ := (inv.receiveMessage isPhase ⟨idx, found⟩ content).1 middle received
        refine ih (agrees.receiveMessage isPhase formed (fun old => already ((known message).mpr old)) place received)
          invMiddle grows nowKnown (fun m member => (restPhase m member).trans place.phase.symm) later

section
variable {calls' : QuorumPhase → Bool} (reflects : Reflects env q f calls i m vvec)
include reflects

theorem Reflects.congr
    (accused : f.Accused env q calls' i ↔ f.Accused env q calls i) : Reflects env q f calls' i m vvec :=
  { reflects with bad := reflects.bad.trans accused.symm }

theorem Reflects.mark {against : Bool} (accused : f.Accused env q calls' i ↔ m.bad = true ∨ against = true) :
    Reflects env q f calls' i (if against then { m with bad := true } else m) vvec := by
  cases against with
  | false => exact { reflects with bad := by rw [accused]; simp }
  | true =>
    exact { reflects with
      unanswered := unanswered_of_bad rfl
      bad := iff_of_true rfl (accused.mpr (.inr rfl)) }

end

theorem mem_proTxHashes_of_votesBad {voter : Uint256}
    (votes : (file env q ms proTxHash).votesBad voter i = true) : voter ∈ q.proTxHashes := by
  rw [votesBad] at votes
  cases first : firstComplaint env q ms voter with
  | none => simp [file, first] at votes
  | some qc =>
    obtain ⟨-, formed, rfl⟩ := mem_of_firstComplaint first
    obtain ⟨idx, found⟩ := getMember_of_wellFormed formed
    rw [← Quorum.proTxHash_of_getMember found, Quorum.proTxHash, getD_eq_getElem?_getD,
      getElem?_eq_getElem (Quorum.getMember_lt found)]
    exact getElem_mem _

theorem Agrees.startPhase (agrees : Agrees env q ms s) (weMember : q.areWeMember = true) (waiting : s.started = false)
    (done : startPhase env q s = .ok s') : Agrees env q ms { s' with started := true } := by
  have notObserver : ¬ (!q.areWeMember) = true := by rw [weMember]; decide
  have accused : ∀ {x : CDKGSession} (i : Nat), x.phase = s.phase →
      ((file env q ms (q.proTxHash i)).Accused env q (called { x with started := true }) i ↔
        (file env q ms (q.proTxHash i)).Accused env q (called s) i ∨
          (file env q ms (q.proTxHash i)).Charge q i s.phase) :=
    fun i samePhase => accused_call _ fun phase => by simp [called, samePhase, waiting, eq_comm (a := s.phase)]
  rw [DkgSession.startPhase] at done
  split at done
  · next phase =>
    rw [verifyAndComplain, if_neg notObserver] at done
    obtain ⟨verified, pending, marked⟩ := Folds.bind_eq_ok.mp done
    cases marked
    have samePhase := (Keeps.verifyPendingContributions pending).phase
    refine ⟨fun i inside => ?_, samePhase ▸ agrees.phases⟩
    obtain ⟨alike, vvecs⟩ := verifyPendingContributions_alike pending i
    have reflects := alike.reflects (agrees.members i inside)
    rw [← vvecs] at reflects
    refine reflects.mark ?_
    rw [accused (x := verified.markBadMembers _) i samePhase, phase, Charge, ← reflects.contributions.ne_nil_iff, not_not, reflects.bad,
      List.isEmpty_iff]
  · next phase =>
    rw [verifyAndJustify, if_neg notObserver] at done
    cases done
    refine ⟨fun i inside => ?_, agrees.phases⟩
    have reflects := agrees.members i inside
    refine reflects.mark ?_
    rw [accused (x := s.markBadMembers _) i rfl, phase, Charge, ← reflects.length_badMemberVotes fun _ => mem_proTxHashes_of_votesBad,
      ← reflects.bad, Bool.or_eq_true, decide_eq_true_eq, decide_eq_true_eq]
    -- two complaints have made the member bad before
    have two : 1 < (s.members i).complaints.length → (s.members i).bad = true := fun several =>
      reflects.bad.mpr (.inr (.inl (reflects.complaints.two_iff.mp several)))
    tauto
  · next phase =>
    rw [verifyAndCommit, if_neg notObserver] at done
    cases done
    refine ⟨fun i inside => ?_, agrees.phases⟩
    have reflects := agrees.members i inside
    refine reflects.mark ?_
    rw [accused (x := s.markBadMembers _) i rfl, phase, Charge, ← reflects.bad, Bool.not_eq_true', isEmpty_eq_false_iff_exists_mem]
    refine or_congr_right' fun notBad => ?_
    exact exists_congr fun complainer => (reflects.unanswered (Bool.eq_false_of_not_eq_true notBad) complainer).symm
  · next noComplain noJustify noCommit =>
    cases done
    refine ⟨fun i inside => ?_, agrees.phases⟩
    refine (agrees.members i inside).congr ?_
    rw [accused (x := s) i rfl, or_iff_left]
    intro charge
    cases phase : s.phase with
    | contribute => exact (phase ▸ charge : Charge _ q i .contribute)
    | complain => exact noComplain phase
    | justify => exact noJustify phase
    | commit => exact noCommit phase
    | finalize => exact (phase ▸ charge : Charge _ q i .finalize)

/-! ### Rounds -/

/-- What happened so far in a round, without regard to the session. -/
structure Log where
  phase : QuorumPhase := .contribute
  started : Bool := false
  messages : List Message := []

def Log.add (log : Log) : Event → Log
  | .messages batch => { log with messages := log.messages ++ batch.filter fun m => decide (m.phase = log.phase) }
  | .start => { log with started := true }
  | .next => if log.started then { log with phase := log.phase.next, started := false } else log

def logOf (events : List Event) : Log := events.foldl Log.add {}

structure Follows (env : Env) (q : Quorum) (log : Log) (s : CDKGSession) : Prop where
  inv : Inv q s
  agrees : Agrees env q log.messages s
  phase : s.phase = log.phase
  started : s.started = log.started
  seen : ∀ message, message ∈ s.seenMessages ↔ message ∈ log.messages

theorem follows_init : Follows env q {} {} where
  inv := inv_init
  agrees := by
    refine ⟨fun i _ => ?_, by simp⟩
    have empty : file env q [] (q.proTxHash i) = ⟨∅, ∅, ∅, fun _ => none⟩ := by
      rw [file, sentBy_eq_empty fun _ => not_mem_nil, sentBy_eq_empty fun _ => not_mem_nil,
        sentBy_eq_empty fun _ => not_mem_nil]
      rfl
    rw [empty]
    refine ⟨kept_empty, kept_empty, kept_empty, fun qc single => ?_, nodup_nil, ?_, ?_, ?_⟩
    · exact absurd single.symm (Set.singleton_ne_empty qc)
    · simp [votesBad]
    · simp [complains]
    · rw [accused_iff_contributions rfl rfl rfl rfl rfl]
      simp
  phase := rfl
  started := rfl
  seen := by simp

theorem Follows.messages {log : Log} (follows : Follows env q log s)
    (done : processPendingMessageBatch env q s batch = .ok s') : Follows env q (log.add (.messages batch)) s' := by
  have marked : Agrees env q log.messages (markSeen s batch) := ⟨follows.agrees.members, follows.agrees.phases⟩
  have ofPhase : ∀ message ∈ batch.filter (fun m => decide (m.phase = s.phase)), message.phase = s.phase :=
    fun message member => of_decide_eq_true (mem_filter.mp member).2
  obtain ⟨inv, place⟩ := (follows.inv.markSeen batch).receiveAll
    (fun m member => admitted_of_mem_preverified (s := s) member) done
  have agrees := follows.agrees.receiveAll _ marked (follows.inv.markSeen batch) (List.Subset.refl _) follows.seen
    ofPhase done
  refine ⟨inv, ?_, place.phase.trans follows.phase, place.started.trans follows.started, fun message => ?_⟩
  · rw [Log.add, ← follows.phase]
    exact agrees
  · rw [place.seenMessages, Log.add, ← follows.phase, markSeen, fresh]
    rw [mem_append, mem_append, mem_unseen, follows.seen]
    tauto

theorem called_next (started : s.started = true) {phase : QuorumPhase} (early : phase ≠ .finalize) :
    called { s with phase := s.phase.next, started := false } phase = called s phase := by
  rw [called, called, started]
  cases s.phase <;> cases phase <;> first | rfl | exact absurd rfl early

theorem rank_le_next (phase : QuorumPhase) : rank phase ≤ rank phase.next := by
  cases phase <;> decide

theorem Follows.step {log : Log} (follows : Follows env q log s) (weMember : q.areWeMember = true) {event : Event}
    (done : step env q s event = .ok s') : Follows env q (log.add event) s' := by
  have inv := follows.inv.step done
  cases event with
  | messages batch => exact follows.messages done
  | start =>
    rw [DkgSession.step] at done
    split_ifs at done with started
    · cases done
      exact ⟨inv, follows.agrees, follows.phase, started, follows.seen⟩
    · obtain ⟨after, phaseStarted, rfl⟩ := Folds.map_eq_ok.mp done
      have keeps := Keeps.startPhase phaseStarted
      refine ⟨inv, follows.agrees.startPhase weMember (Bool.eq_false_of_not_eq_true started) phaseStarted,
        keeps.phase.trans follows.phase, rfl, fun message => ?_⟩
      have seen := follows.seen message
      rw [← keeps.seenMessages] at seen
      exact seen
  | next =>
    rw [DkgSession.step] at done
    rw [Log.add, ← follows.started]
    split_ifs at done ⊢ with started
    · cases done
      refine ⟨inv, ⟨fun i inside => ?_, fun message member => ?_⟩, congrArg QuorumPhase.next follows.phase, rfl,
        follows.seen⟩
      · refine (follows.agrees.members i inside).congr ?_
        rw [Accused, Accused, exists_charge_iff, exists_charge_iff, called_next started (by decide),
          called_next started (by decide), called_next started (by decide)]
      · exact (follows.agrees.phases message member).trans (rank_le_next s.phase)
    · cases done
      exact follows

theorem follows_run {events : List Event} (weMember : q.areWeMember = true) (ran : run env q events = .ok s) :
    Follows env q (logOf events) s := by
  have go : ∀ (events : List Event) (log : Log) (start : CDKGSession), Follows env q log start →
      events.foldlM (step env q) start = .ok s → Follows env q (events.foldl Log.add log) s := by
    intro events
    induction events with
    | nil =>
      intro log start follows ran
      cases ran
      exact follows
    | cons event rest ih =>
      intro log start follows ran
      obtain ⟨middle, stepped, later⟩ := Folds.bind_eq_ok.mp ran
      exact ih _ middle (follows.step weMember stepped) later
  exact go events {} {} follows_init ran

end

/-- A round up to the call that decides which members are valid. -/
structure Round where
  events : List Event
  decides : (logOf events).phase = .commit ∧ (logOf events).started = true

def Round.messages (round : Round) : List Message := (logOf round.events).messages

theorem bad_iff_verdict (weMember : q.areWeMember = true) (round : Round)
    (ran : run env q round.events = .ok s) (inside : i < q.count) :
    (s.members i).bad = true ↔ Verdict env q round.messages i := by
  have follows := follows_run weMember ran
  have everything : ∀ phase, phase ≠ .finalize → called s phase = true := by
    intro phase early
    rw [called, follows.phase, follows.started, round.decides.1, round.decides.2]
    cases phase <;> first | rfl | exact absurd rfl early
  rw [(follows.agrees.members i inside).bad, Verdict, Accused, Accused, exists_charge_iff,
    exists_charge_iff, everything _ (by decide), everything _ (by decide), everything _ (by decide)]
  rfl

/-- Two rounds with the same messages in their phases, in any order and any batches. -/
structure Orders (q : Quorum) where
  weMember : q.areWeMember = true
  first : Round
  second : Round
  same : first.messages.Perm second.messages

namespace Orders
variable (env : Env) {q : Quorum} (orders : Orders q)

def Finish : Prop :=
  (∃ s, run env q orders.first.events = .ok s) ∧ ∃ s, run env q orders.second.events = .ok s

/-- Both rounds come to their end, with the same bad members and the same commitment. -/
def SameOutcome : Prop :=
  ∃ s s', run env q orders.first.events = .ok s ∧ run env q orders.second.events = .ok s' ∧
    (∀ i < q.count, (s.members i).bad = (s'.members i).bad) ∧ validMembers q s = validMembers q s'

/-- The order does not matter exactly if both rounds come to their end and the verdicts, which depend on the order only
through the first complaint of every member, are the same. -/
theorem sameOutcome_iff_verdicts : orders.SameOutcome env ↔ orders.Finish env ∧ ∀ i < q.count,
      (Verdict env q orders.first.messages i ↔ Verdict env q orders.second.messages i) := by
  constructor
  · rintro ⟨s, s', ran, ran', same, -⟩
    refine ⟨⟨⟨s, ran⟩, ⟨s', ran'⟩⟩, fun i inside => ?_⟩
    rw [← bad_iff_verdict orders.weMember orders.first ran inside,
      ← bad_iff_verdict orders.weMember orders.second ran' inside, same i inside]
  · rintro ⟨⟨⟨s, ran⟩, ⟨s', ran'⟩⟩, verdicts⟩
    have same : ∀ i < q.count, (s.members i).bad = (s'.members i).bad := by
      intro i inside
      rw [Bool.eq_iff_iff, bad_iff_verdict orders.weMember orders.first ran inside,
        bad_iff_verdict orders.weMember orders.second ran' inside]
      exact verdicts i inside
    refine ⟨s, s', ran, ran', same, map_congr_left fun i _ => ?_⟩
    by_cases inside : i < q.count
    · rw [same i inside]
    · simp [inside]

end Orders

def contributionOf (sender : Uint256) : Message :=
  .contribution ⟨7, sender, [some (3 * sender), some (3 * sender + 1), some (3 * sender + 2)],
    replicate 5 (some (some 1))⟩

/-- The member at index 1 complains about the member at index 2. -/
def complaint : Message := .complaint ⟨7, 11, replicate 5 false, [false, false, true, false, false]⟩

def noComplaint : Message := .complaint ⟨7, 11, replicate 5 false, replicate 5 false⟩

def roundWith (complaints : List Message) : List Event :=
  [.messages ([10, 11, 12, 13, 14].map contributionOf), .start, .next, .messages complaints, .start, .next, .start, .next,
    .start]

def doubleComplaint : Orders sampleMember where
  weMember := rfl
  first := ⟨roundWith [complaint, noComplaint], by decide⟩
  second := ⟨roundWith [noComplaint, complaint], by decide⟩
  same := by decide

theorem doubleComplaint_differs : ¬ doubleComplaint.SameOutcome sampleEnv := by
  rintro ⟨s, s', ran, ran', -, same⟩
  have first : (run sampleEnv sampleMember doubleComplaint.first.events).map
      (validMembers sampleMember) = .ok [true, false, false, true, true] := by decide
  have second : (run sampleEnv sampleMember doubleComplaint.second.events).map
      (validMembers sampleMember) = .ok [true, false, true, true, true] := by decide
  rw [ran] at first
  rw [ran'] at second
  rw [Except.map, same] at first
  rw [Except.map, first] at second
  cases second

end Cspn.DkgOrder
