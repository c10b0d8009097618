import Cspn.DkgFile

/-!
What receiving a message does to what a session knows of the members. A session agrees with the messages that came
so far when every member of it agrees with its file, and each of the three kinds of messages keeps it so.
-/
namespace Cspn.DkgOrder
open Primitives List DkgSession Nat DkgSession.CDKGSession File SamePlace
open Quorum

/-- Two states of a member that differ at most in what we complain about and in its commitments. -/
structure Alike (m m' : CDKGMember) : Prop where
  contributions : m'.contributions = m.contributions
  complaints : m'.complaints = m.complaints
  justifications : m'.justifications = m.justifications
  badMemberVotes : m'.badMemberVotes = m.badMemberVotes
  complaintsFromOthers : m'.complaintsFromOthers = m.complaintsFromOthers
  bad : m'.bad = m.bad

structure Reflects (env : Env) (q : Quorum) (f : File) (called : QuorumPhase → Bool) (i : Nat) (m : CDKGMember)
    (vvec : Option BLSVerificationVector) : Prop where
  contributions : Kept f.contributions m.contributions
  complaints : Kept f.complaints m.complaints
  justifications : Kept f.justifications m.justifications
  vvec : ∀ qc, f.contributions = {qc} → vvec = some qc.vvec
  nodup : m.badMemberVotes.Nodup
  votes : ∀ voter, voter ∈ m.badMemberVotes ↔ f.votesBad voter i = true
  unanswered : m.bad = false → ∀ complainer,
    complainer ∈ m.complaintsFromOthers ↔ f.complains complainer i = true ∧ ¬ f.Answers q complainer
  bad : m.bad = true ↔ f.Accused env q called i

variable {env : Env} {q : Quorum} {f : File} {i idx : Nat} {m : CDKGMember} {vvec : Option BLSVerificationVector}
  {s s' : CDKGSession} {qc : CDKGContribution} {qj : CDKGJustification} {proTxHash : Uint256}

section
variable {called : QuorumPhase → Bool} {m' : CDKGMember}

theorem Alike.refl (m : CDKGMember) : Alike m m := ⟨rfl, rfl, rfl, rfl, rfl, rfl⟩

theorem Alike.trans {m'' : CDKGMember} (first : Alike m m') (second : Alike m' m'') : Alike m m'' :=
  ⟨second.contributions.trans first.contributions, second.complaints.trans first.complaints,
    second.justifications.trans first.justifications, second.badMemberVotes.trans first.badMemberVotes,
    second.complaintsFromOthers.trans first.complaintsFromOthers, second.bad.trans first.bad⟩

theorem Alike.reflects (alike : Alike m m') (reflects : Reflects env q f called i m vvec) :
    Reflects env q f called i m' vvec where
  contributions := alike.contributions ▸ reflects.contributions
  complaints := alike.complaints ▸ reflects.complaints
  justifications := alike.justifications ▸ reflects.justifications
  vvec := reflects.vvec
  nodup := alike.badMemberVotes ▸ reflects.nodup
  votes := alike.badMemberVotes ▸ reflects.votes
  unanswered := by
    rw [alike.bad, alike.complaintsFromOthers]
    exact reflects.unanswered
  bad := by
    rw [alike.bad]
    exact reflects.bad

theorem Reflects.length_badMemberVotes (reflects : Reflects env q f called i m vvec)
    (members : ∀ voter, f.votesBad voter i = true → voter ∈ q.proTxHashes) :
    m.badMemberVotes.length = f.voteCount q i := by
  refine Perm.length_eq ((perm_ext_iff_of_nodup reflects.nodup (q.distinct.filter _)).mpr fun voter => ?_)
  rw [reflects.votes, mem_filter]
  exact ⟨fun votes => ⟨members voter votes, votes⟩, fun both => both.2⟩

end

/-! ### The functions that receive messages -/

def SameExcept (idx : Nat) (s s' : CDKGSession) : Prop :=
  ∀ i, i ≠ idx → Alike (s.members i) (s'.members i) ∧ s'.receivedVvecs i = s.receivedVvecs i

theorem SameExcept.refl (idx : Nat) (s : CDKGSession) : SameExcept idx s s := fun _ _ => ⟨Alike.refl _, rfl⟩

variable (change : CDKGMember → CDKGMember)

open Alike

theorem sameExcept_modify : SameExcept idx s (s.modify idx change) := by
  intro i apart
  rw [members_modify_of_ne _ apart]
  exact ⟨refl _, rfl⟩

theorem sameExcept_mark : SameExcept idx s ((s.modify idx change).markBadMember idx) := by
  intro i apart
  rw [markBadMember, members_modify_of_ne _ apart, members_modify_of_ne _ apart]
  exact ⟨refl _, rfl⟩

theorem members_mark :
    ((s.modify idx change).markBadMember idx).members idx = { change (s.members idx) with bad := true } := by
  rw [markBadMember, members_modify_self, members_modify_self]

theorem verifyPendingContributions_alike (done : verifyPendingContributions env q s = .ok s') (i : Nat) :
    Alike (s.members i) (s'.members i) ∧ s'.receivedVvecs = s.receivedVvecs := by
  rw [verifyPendingContributions] at done
  split_ifs at done
  · cases done
    exact ⟨refl _, rfl⟩
  · dsimp only at done
    split at done
    · cases done
    · split_ifs at done
      · cases done
        exact ⟨refl _, rfl⟩
      · cases done
        refine ⟨?_, rfl⟩
        dsimp only [complainAbout]
        split_ifs <;> exact ⟨rfl, rfl, rfl, rfl, rfl, rfl⟩

open SameExcept

/-- A message is the third of its sender or later, the second, or the first. -/
theorem filed_cases {n n' : Nat} {marked : CDKGSession} {rest : Except Crash CDKGSession}
    (done : (if 2 ≤ n then .ok s else if 1 < n' then .ok marked else rest) = .ok s') :
    (2 ≤ n ∧ s' = s) ∨ (n < 2 ∧ 2 ≤ n' ∧ s' = marked) ∨ (n < 2 ∧ n' < 2 ∧ rest = .ok s') := by
  split_ifs at done with enough several
  · exact .inl ⟨enough, (Except.ok.inj done).symm⟩
  · exact .inr (.inl ⟨not_le.mp enough, several, (Except.ok.inj done).symm⟩)
  · exact .inr (.inr ⟨not_le.mp enough, not_le.mp several, done⟩)

theorem receiveContribution_cases (found : q.getMember qc.proTxHash = some idx)
    (done : receiveContribution env q s qc = .ok s') : SameExcept idx s s' ∧
    ((2 ≤ (s.members idx).contributions.length ∧ s' = s) ∨
      ((s.members idx).contributions.length < 2 ∧ 2 ≤ ((s.members idx).contributions.insert qc).length ∧
        Alike { s.members idx with contributions := (s.members idx).contributions.insert qc, bad := true }
          (s'.members idx) ∧ s'.receivedVvecs idx = s.receivedVvecs idx) ∨
      ((s.members idx).contributions.length < 2 ∧ ((s.members idx).contributions.insert qc).length < 2 ∧
        Alike { s.members idx with contributions := (s.members idx).contributions.insert qc } (s'.members idx) ∧
        s'.receivedVvecs idx = some qc.vvec)) := by
  simp only [receiveContribution, found, members_modify_self] at done
  rcases filed_cases done with ⟨enough, rfl⟩ | ⟨few, several, rfl⟩ | ⟨few, single, done⟩
  · exact ⟨refl idx s', .inl ⟨enough, rfl⟩⟩
  · refine ⟨sameExcept_mark _, .inr (.inl ⟨few, several, ?_, rfl⟩)⟩
    rw [members_mark]
    exact refl _
  · have stored : ∀ i, Alike ((s.modify idx fun m => { m with contributions := m.contributions.insert qc }).members i)
        (s'.members i) ∧ s'.receivedVvecs = fun i => if i = idx then some qc.vvec else s.receivedVvecs i := by
      intro i
      split at done
      · cases done
        exact ⟨refl _, rfl⟩
      · rw [storeContribution] at done
        dsimp only at done
        split at done
        · cases done
          refine ⟨?_, rfl⟩
          dsimp only [CDKGSession.modify]
          split_ifs <;> exact ⟨rfl, rfl, rfl, rfl, rfl, rfl⟩
        · split_ifs at done
          · exact verifyPendingContributions_alike done i
          · cases done
            exact ⟨refl _, rfl⟩
    refine ⟨fun i apart => ⟨?_, ?_⟩, .inr (.inr ⟨few, single, ?_, ?_⟩)⟩
    · have alike := (stored i).1
      rw [members_modify_of_ne _ apart] at alike
      exact alike
    · rw [(stored i).2]
      exact if_neg apart
    · have alike := (stored idx).1
      rw [members_modify_self] at alike
      exact alike
    · rw [(stored idx).2]
      exact if_pos rfl

/-- The shares that pass take their complaints back, and the others make the sender bad. -/
structure Justifies (env : Env) (q : Quorum) (idx : Nat) (vvec : BLSVerificationVector)
    (shares : List (Nat × CBLSSecretKey)) (s s' : CDKGSession) : Prop where
  others : SameExcept idx s s'
  receivedVvec : s'.receivedVvecs idx = s.receivedVvecs idx
  contributions : (s'.members idx).contributions = (s.members idx).contributions
  complaints : (s'.members idx).complaints = (s.members idx).complaints
  justifications : (s'.members idx).justifications = (s.members idx).justifications
  badMemberVotes : (s'.members idx).badMemberVotes = (s.members idx).badMemberVotes
  bad : (s'.members idx).bad = true ↔ (s.members idx).bad = true ∨
    ∃ p ∈ shares, env.verifyContributionShare (q.proTxHash p.1) vvec p.2 = false
  complaintsFromOthers : ∀ complainer, complainer ∈ (s'.members idx).complaintsFromOthers ↔
    complainer ∈ (s.members idx).complaintsFromOthers ∧
      ∀ p ∈ shares, env.verifyContributionShare (q.proTxHash p.1) vvec p.2 = true → q.proTxHash p.1 ≠ complainer

theorem justifyOne_justifies (idx : Nat) (vvec : BLSVerificationVector) (p : Nat × CBLSSecretKey) (s : CDKGSession) :
    Justifies env q idx vvec [p] s (justifyOne env q idx vvec s p) := by
  cases passes : env.verifyContributionShare (q.proTxHash p.1) vvec p.2 with
  | true =>
    have members : (justifyOne env q idx vvec s p).members = (s.modify idx fun m => { m with
        complaintsFromOthers := m.complaintsFromOthers.filter (· != q.proTxHash p.1)
        weComplain := if q.myId = some (q.proTxHash p.1) then false else m.weComplain }).members := by
      rw [justifyOne, if_pos passes]
      split_ifs <;> rfl
    have vvecs : (justifyOne env q idx vvec s p).receivedVvecs = s.receivedVvecs := by
      rw [justifyOne, if_pos passes]
      split_ifs <;> rfl
    refine ⟨fun i apart => ⟨?_, by rw [vvecs]⟩, by rw [vvecs], ?_, ?_, ?_, ?_, ?_, ?_⟩
    · rw [members, members_modify_of_ne _ apart]
      exact refl _
    iterate 4 · simp [members, members_modify_self]
    · simp [members, members_modify_self, passes]
    · intro complainer
      rw [members, members_modify_self, mem_filter, bne_iff_ne]
      simp only [mem_singleton, forall_eq, passes, forall_const]
      rw [ne_comm]
  | false =>
    have marked : justifyOne env q idx vvec s p = s.markBadMember idx := by
      rw [justifyOne, passes]
      rfl
    rw [marked]
    refine ⟨sameExcept_modify _, rfl, ?_, ?_, ?_, ?_, ?_, ?_⟩
    all_goals simp [markBadMember, members_modify_self, passes]

theorem foldl_justifyOne_justifies (idx : Nat) (vvec : BLSVerificationVector) (shares : List (Nat × CBLSSecretKey)) :
    ∀ s, Justifies env q idx vvec shares s (shares.foldl (justifyOne env q idx vvec) s) := by
  induction shares with
  | nil =>
    intro s
    exact ⟨refl idx s, rfl, rfl, rfl, rfl, rfl, by simp, by simp⟩
  | cons p rest ih =>
    intro s
    have one : Justifies env q idx vvec [p] s (justifyOne env q idx vvec s p) := justifyOne_justifies idx vvec p s
    have later := ih (justifyOne env q idx vvec s p)
    rw [foldl_cons]
    refine ⟨fun i apart => ?_, later.receivedVvec.trans one.receivedVvec, later.contributions.trans one.contributions,
      later.complaints.trans one.complaints, later.justifications.trans one.justifications,
      later.badMemberVotes.trans one.badMemberVotes, ?_, fun complainer => ?_⟩
    · exact ⟨(one.others i apart).1.trans (later.others i apart).1,
        (later.others i apart).2.trans (one.others i apart).2⟩
    · rw [later.bad, one.bad, or_assoc]
      simp
    · rw [later.complaintsFromOthers, one.complaintsFromOthers, and_assoc]
      simp

/-! ### Sessions that agree with the messages -/

def rank : QuorumPhase → Nat
  | .contribute => 0
  | .complain => 1
  | .justify => 2
  | .commit => 3
  | .finalize => 4

def called (s : CDKGSession) (phase : QuorumPhase) : Bool :=
  decide (rank phase < rank s.phase) || (decide (s.phase = phase) && s.started)

/-- Every member agrees with its file, and no message came before its phase. -/
structure Agrees (env : Env) (q : Quorum) (ms : List Message) (s : CDKGSession) : Prop where
  members : ∀ i < q.count,
    Reflects env q (file env q ms (q.proTxHash i)) (called s) i (s.members i) (s.receivedVvecs i)
  phases : ∀ m ∈ ms, rank m.phase ≤ rank s.phase

section
variable {ms : List Message} {calls : QuorumPhase → Bool}

theorem called_congr (place : SamePlace s s') : called s' = called s := by
  funext phase
  rw [called, called, place.phase, place.started]

theorem sentBy_eq_empty {α : Type} {kind : α → Message} (absent : ∀ a, kind a ∉ ms) :
    sentBy env q ms kind proTxHash = ∅ :=
  Set.eq_empty_of_forall_notMem fun a sent => absent a sent.1

variable {message : Message}

theorem getMember_of_wellFormed (formed : wellFormed env q message = true) :
    ∃ idx, q.getMember message.proTxHash = some idx := by
  simp only [wellFormed, Bool.and_eq_true] at formed
  exact Option.isSome_iff_exists.mp formed.1.2

theorem unanswered_of_bad {p : Prop} (bad : m.bad = true) (good : m.bad = false) : p := by
  rw [bad] at good
  cases good

theorem not_singleton_of_nontrivial {α : Type} {S : Set α} (two : S.Nontrivial) (a : α) : S ≠ {a} := by
  rintro rfl
  exact Set.not_nontrivial_singleton two

theorem sender_ne {sender : Uint256} (found : q.getMember sender = some idx) (inside : i < q.count) (apart : i ≠ idx) :
    sender ≠ q.proTxHash i := by
  intro same
  rw [← proTxHash_of_getMember found, proTxHash, proTxHash, getD_eq_getElem?_getD, getD_eq_getElem?_getD,
    getElem?_eq_getElem inside, getElem?_eq_getElem (getMember_lt found), Option.getD_some, Option.getD_some] at same
  exact apart ((q.distinct.getElem_inj_iff).mp same).symm

section
variable (agrees : Agrees env q ms s) (inPhase : message.phase = s.phase)
include agrees inPhase

theorem Agrees.phases_append (place : SamePlace s s') : ∀ m ∈ ms ++ [message], rank m.phase ≤ rank s'.phase := by
  intro m member
  rw [place.phase]
  rcases mem_append.mp member with before | new
  · exact agrees.phases m before
  · rw [mem_singleton.mp new, inPhase]

theorem Agrees.unchanged
    (same : ∀ i < q.count, file env q (ms ++ [message]) (q.proTxHash i) = file env q ms (q.proTxHash i)) :
    Agrees env q (ms ++ [message]) s := by
  refine ⟨fun i inside => ?_, agrees.phases_append inPhase (refl s)⟩
  rw [same i inside]
  exact agrees.members i inside

/-- It is enough to look at the sender, the others keep their files. -/
theorem Agrees.extend (place : SamePlace s s') (found : q.getMember message.proTxHash = some idx) {g : Uint256 → File}
    (files : ∀ p, file env q (ms ++ [message]) p = if message.proTxHash = p then g p else file env q ms p)
    (others : SameExcept idx s s')
    (atSender : Reflects env q (g (q.proTxHash idx)) (called s) idx (s'.members idx) (s'.receivedVvecs idx)) :
    Agrees env q (ms ++ [message]) s' := by
  refine ⟨fun i inside => ?_, agrees.phases_append inPhase place⟩
  rw [called_congr place, files]
  by_cases same : i = idx
  · subst same
    rw [if_pos (proTxHash_of_getMember found).symm]
    exact atSender
  · rw [if_neg (sender_ne found inside same), (others i same).2]
    exact (others i same).1.reflects (agrees.members i inside)

end

theorem accused_iff_contributions (complaints : f.complaints = ∅) (justifications : f.justifications = ∅)
    (complain : calls .complain = false) (justify : calls .justify = false) (commit : calls .commit = false) :
    f.Accused env q calls i ↔ f.contributions.Nontrivial := by
  simp [Accused, exists_charge_iff, complaints, justifications, complain, justify, commit]

theorem Agrees.sentBy_later (agrees : Agrees env q ms s) {α : Type} {kind : α → Message}
    (later : ∀ a, rank s.phase < rank (kind a).phase) (proTxHash : Uint256) : sentBy env q ms kind proTxHash = ∅ :=
  sentBy_eq_empty fun a sent => absurd (later a) (not_lt.mpr (agrees.phases _ sent))

theorem called_later {phase : QuorumPhase} (later : rank s.phase < rank phase) : called s phase = false := by
  have apart : s.phase ≠ phase := fun same => by
    rw [same] at later
    exact lt_irrefl _ later
  simp [called, apart, le_of_lt later]

section
variable (agrees : Agrees env q ms s) (inPhase : .contribute = s.phase)
  (formed : wellFormed env q (.contribution qc) = true)
include agrees inPhase formed

theorem Agrees.fullContribution (found : q.getMember qc.proTxHash = some idx)
    (enough : 2 ≤ (s.members idx).contributions.length) : Agrees env q (ms ++ [.contribution qc]) s := by
  have reflects := agrees.members idx (getMember_lt found)
  have kept := reflects.contributions.full (a := qc) enough
  have two := kept.two_iff.mp enough
  have isBad := reflects.bad.mpr (.inl (reflects.contributions.two_iff.mp enough))
  exact agrees.extend inPhase (refl s) found (fun _ => file_append_contribution formed) (refl idx s)
    { reflects with
      contributions := kept
      vvec := fun other single => absurd single (not_singleton_of_nontrivial two other)
      unanswered := unanswered_of_bad isBad
      bad := iff_of_true isBad (.inl two) }

theorem Agrees.receiveContribution (place : SamePlace s s')
    (done : receiveContribution env q s qc = .ok s') : Agrees env q (ms ++ [.contribution qc]) s' := by
  obtain ⟨idx, found⟩ : ∃ idx, q.getMember qc.proTxHash = some idx := getMember_of_wellFormed formed
  obtain ⟨others, outcome⟩ := receiveContribution_cases found done
  have accused : ∀ contributions, (Accused { file env q ms (q.proTxHash idx) with contributions := contributions }
      env q (called s) idx ↔ contributions.Nontrivial) := fun contributions =>
    accused_iff_contributions (agrees.sentBy_later (fun _ => inPhase ▸ zero_lt_one) _)
      (agrees.sentBy_later (fun _ => inPhase ▸ zero_lt_two) _) (called_later (inPhase ▸ by decide))
      (called_later (inPhase ▸ by decide)) (called_later (inPhase ▸ by decide))
  rcases outcome with ⟨enough, rfl⟩ | second | first
  · exact agrees.fullContribution inPhase formed found enough
  all_goals
    have reflects := agrees.members idx (getMember_lt found)
    refine agrees.extend inPhase place found (fun _ => file_append_contribution formed) others ?_
  · obtain ⟨few, several, alike, vvecs⟩ := second
    have kept := reflects.contributions.insert (a := qc) few
    have two := kept.two_iff.mp several
    exact alike.reflects { reflects with
      contributions := kept
      vvec := fun other single => absurd single (not_singleton_of_nontrivial two other)
      unanswered := unanswered_of_bad rfl
      bad := iff_of_true rfl (.inl two) }
  · obtain ⟨few, single, alike, vvecs⟩ := first
    have kept := reflects.contributions.insert (a := qc) few
    refine alike.reflects { reflects with contributions := kept, vvec := fun other isSingle => ?_, bad := ?_ }
    · have member : qc ∈ ({other} : Set CDKGContribution) := isSingle ▸ Set.mem_insert qc _
      rw [vvecs, Set.mem_singleton_iff.mp member]
    · refine (reflects.bad.trans (accused _)).trans ((iff_of_false ?_ ?_).trans (accused _).symm)
      · exact reflects.contributions.two_iff.not.mp (not_le.mpr few)
      · exact kept.two_iff.not.mp (not_le.mpr single)

end

variable {qc : CDKGComplaint}

theorem file_append_complaint_again (formed : wellFormed env q (.complaint qc) = true)
    (before : (sentBy env q ms .complaint qc.proTxHash).Nonempty) : file env q (ms ++ [.complaint qc]) proTxHash =
      if qc.proTxHash = proTxHash then
        { file env q ms proTxHash with complaints := insert qc (file env q ms proTxHash).complaints }
      else file env q ms proTxHash := by
  have first : (fun sender => (firstComplaint env q ms sender).or (if qc.proTxHash = sender then some qc else none)) =
      firstComplaint env q ms := by
    funext sender
    split_ifs with same
    · subst same
      obtain ⟨other, found⟩ := Option.ne_none_iff_exists'.mp (firstComplaint_eq_none.not.mpr (not_not.mpr before))
      rw [found, Option.some_or]
    · rw [Option.or_none]
  rw [file_append_complaint formed, first]
  split_ifs <;> rfl

theorem accused_iff_complaints (justifications : f.justifications = ∅) (justify : calls .justify = false)
    (commit : calls .commit = false) : f.Accused env q calls i ↔
      f.contributions.Nontrivial ∨ f.complaints.Nontrivial ∨ (calls .complain = true ∧ f.Charge q i .complain) := by
  simp [Accused, exists_charge_iff, justifications, justify, commit]

theorem file_append_firstComplaint (formed : wellFormed env q (.complaint qc) = true)
    (none : firstComplaint env q ms qc.proTxHash = none) (proTxHash sender : Uint256) (i : Nat) :
    ((file env q (ms ++ [.complaint qc]) proTxHash).votesBad sender i = true ↔
      (qc.badMembers.getD i false = true ∧ sender = qc.proTxHash) ∨
        (file env q ms proTxHash).votesBad sender i = true) ∧
    ((file env q (ms ++ [.complaint qc]) proTxHash).complains sender i = true ↔
      (qc.complainForMembers.getD i false = true ∧ sender = qc.proTxHash) ∨
        (file env q ms proTxHash).complains sender i = true) := by
  simp only [file_append_complaint formed, votesBad, complains]
  by_cases same : qc.proTxHash = sender
  · subst same
    simp [file, none]
  · have apart : sender ≠ qc.proTxHash := fun other => same other.symm
    simp [file, same, apart]

theorem not_answers (none : f.justifications = ∅) (complainer : Uint256) : ¬ f.Answers q complainer := by
  rintro ⟨qj, member, -⟩
  rw [none] at member
  exact member

section
variable (agrees : Agrees env q ms s) (inPhase : .complain = s.phase) (formed : wellFormed env q (.complaint qc) = true)
include agrees inPhase formed

theorem Agrees.fullComplaint (found : q.getMember qc.proTxHash = some idx)
    (enough : 2 ≤ (s.members idx).complaints.length) : Agrees env q (ms ++ [.complaint qc]) s := by
  have reflects := agrees.members idx (getMember_lt found)
  have two := reflects.complaints.two_iff.mp enough
  have kept := reflects.complaints.full (a := qc) enough
  have before := proTxHash_of_getMember found ▸ two.nonempty
  have isBad := reflects.bad.mpr (.inr (.inl two))
  exact agrees.extend inPhase (refl s) found (fun _ => file_append_complaint_again formed before)
    (refl idx s) { reflects with
      complaints := kept
      unanswered := unanswered_of_bad isBad
      bad := iff_of_true isBad (.inr (.inl (kept.two_iff.mp enough))) }

theorem Agrees.receiveComplaint (fresh : .complaint qc ∉ ms) (place : SamePlace s s')
    (done : receiveComplaint q s qc = .ok s') : Agrees env q (ms ++ [.complaint qc]) s' := by
  obtain ⟨idx, found⟩ : ∃ idx, q.getMember qc.proTxHash = some idx := getMember_of_wellFormed formed
  have sender := proTxHash_of_getMember found
  have atIdx := agrees.members idx (getMember_lt found)
  simp only [DkgSession.receiveComplaint, found, members_modify_self] at done
  rcases filed_cases done with ⟨enough, rfl⟩ | ⟨few, several, rfl⟩ | ⟨few, single, counts⟩
  · exact agrees.fullComplaint inPhase formed found enough
  · have before := sender ▸ atIdx.complaints.nonempty_of_insert several
    refine agrees.extend inPhase place found (fun _ => file_append_complaint_again formed before) (sameExcept_mark _) ?_
    rw [members_mark]
    have kept := atIdx.complaints.insert (a := qc) few
    exact { atIdx with
      complaints := kept
      unanswered := unanswered_of_bad rfl
      bad := iff_of_true rfl (.inr (.inl (kept.two_iff.mp several))) }
  · split_ifs at counts
    cases counts
    have noneBefore : sentBy env q ms .complaint qc.proTxHash = ∅ :=
      sender ▸ atIdx.complaints.eq_empty_of_insert (fun sent => fresh sent.1) single
    have noFirst : firstComplaint env q ms qc.proTxHash = none := by
      rw [firstComplaint_eq_none, noneBefore]
      exact Set.not_nonempty_empty
    refine ⟨fun i inside => ?_, agrees.phases_append inPhase place⟩
    have reflects := agrees.members i inside
    have unjustified : (file env q ms (q.proTxHash i)).justifications = ∅ :=
      agrees.sentBy_later (fun _ => inPhase ▸ one_lt_two) _
    have grown : file env q (ms ++ [.complaint qc]) (q.proTxHash i) = _ := file_append_complaint formed
    have counted := fun voter => file_append_firstComplaint formed noFirst (q.proTxHash i) voter i
    set f := file env q ms (q.proTxHash i)
    set f' := file env q (ms ++ [.complaint qc]) (q.proTxHash i)
    set filed := s.modify idx fun m => { m with complaints := m.complaints.insert qc } with isFiled
    have complaints : Kept f'.complaints (filed.members i).complaints ∧
        (f'.complaints.Nontrivial ↔ f.complaints.Nontrivial) := by
      rw [grown]
      by_cases same : i = idx
      · subst same
        rw [if_pos sender.symm, members_modify_self]
        refine ⟨reflects.complaints.insert few, iff_of_false ?_ ?_⟩
        · exact (reflects.complaints.insert few).two_iff.not.mp (not_le.mpr single)
        · exact reflects.complaints.two_iff.not.mp (not_le.mpr few)
      · dsimp only
        rw [if_neg (sender_ne found inside same), members_modify_of_ne _ same]
        exact ⟨reflects.complaints, Iff.rfl⟩
    have emplaced : Alike { s.members i with complaints := (filed.members i).complaints } (filed.members i) := by
      rw [isFiled, CDKGSession.modify]
      dsimp only
      split_ifs <;> exact ⟨rfl, rfl, rfl, rfl, rfl, rfl⟩
    have contributions : f'.contributions = f.contributions := by rw [grown]
    have justifications : f'.justifications = f.justifications := by rw [grown]
    rw [called_congr place]
    refine ⟨?_, complaints.1, ?_, ?_, ?_, fun voter => ?_, fun good complainer => ?_, ?_⟩
    · rw [contributions]
      exact emplaced.contributions ▸ reflects.contributions
    · rw [justifications]
      exact emplaced.justifications ▸ reflects.justifications
    · rw [contributions]
      exact reflects.vvec
    · rw [addVotes]
      dsimp only
      rw [emplaced.badMemberVotes]
      split_ifs
      · exact reflects.nodup.insert
      · exact reflects.nodup
    · rw [(counted voter).1, ← reflects.votes, addVotes]
      dsimp only
      rw [emplaced.badMemberVotes]
      split_ifs with votes
      · rw [mem_insert_iff, and_iff_right votes]
      · rw [or_iff_right fun both => votes both.1]
    · have wasGood : (s.members i).bad = false := emplaced.bad ▸ good
      have unanswered := reflects.unanswered wasGood complainer
      rw [and_iff_left (not_answers unjustified complainer)] at unanswered
      rw [and_iff_left (not_answers (justifications.trans unjustified) complainer), (counted complainer).2, ← unanswered,
        addVotes]
      dsimp only
      rw [emplaced.complaintsFromOthers]
      split_ifs with complains
      · rw [mem_insert_iff, and_iff_right complains]
      · rw [or_iff_right fun both => complains both.1]
    · have later := called_later (s := s) (inPhase ▸ one_lt_two : rank s.phase < rank .justify)
      have last := called_later (s := s) (inPhase ▸ by decide : rank s.phase < rank .commit)
      have wasBad := reflects.bad.trans (accused_iff_complaints unjustified later last)
      rw [Charge] at wasBad
      rw [accused_iff_complaints (justifications.trans unjustified) later last, contributions, complaints.2,
        Charge, contributions, ← wasBad]
      exact iff_of_eq (congrArg (· = true) emplaced.bad)

end

def Suspect (q : Quorum) (f : File) (calls : QuorumPhase → Bool) (i : Nat) : Prop :=
  f.contributions.Nontrivial ∨ f.complaints.Nontrivial ∨ (calls .complain = true ∧ f.Charge q i .complain) ∨
    (calls .justify = true ∧ f.Charge q i .justify)

theorem accused_iff_suspect (commit : calls .commit = false) : f.Accused env q calls i ↔
      Suspect q f calls i ∨ f.justifications.Nontrivial ∨ ∃ qj ∈ f.justifications, ¬ f.Proves env q i qj := by
  simp only [Accused, exists_charge_iff, Suspect, commit, Bool.false_eq_true, false_and, or_false]
  exact iff_of_eq (by ac_rfl)

theorem reflects_justify (reflects : Reflects env q f calls idx (s.members idx) (s.receivedVvecs idx))
    (complained : calls .complain = true) (commit : calls .commit = false) (none : f.justifications = ∅)
    (good : (s.members idx).bad = false)
    (first : Kept (insert qj f.justifications) ((s.members idx).justifications.insert qj))
    (done : justify env q (s.modify idx fun m => { m with justifications := m.justifications.insert qj }) idx qj =
      .ok s') :
    SameExcept idx s s' ∧ Reflects env q { f with justifications := insert qj f.justifications } calls idx
      (s'.members idx) (s'.receivedVvecs idx) := by
  have single : insert qj f.justifications = {qj} := by rw [none, insert_empty_eq]
  have unsuspect : ¬ Suspect q f calls idx := by
    intro suspect
    rw [reflects.bad.mpr ((accused_iff_suspect commit).mpr (.inl suspect))] at good
    cases good
  obtain ⟨qc, isOnly⟩ : ∃ qc, f.contributions = {qc} := by
    simp only [Suspect, Charge, not_or, complained, true_and, not_not] at unsuspect
    obtain ⟨qc, member⟩ := unsuspect.2.2.1
    exact ⟨qc, (Set.not_nontrivial_iff.mp unsuspect.1).eq_singleton_of_mem member⟩
  have accused : Accused { f with justifications := {qj} } env q calls idx ↔ ¬ f.Proves env q idx qj := by
    rw [accused_iff_suspect commit]
    constructor
    · rintro (suspect | two | ⟨other, isOther, unproved⟩)
      · exact absurd suspect unsuspect
      · exact absurd two Set.not_nontrivial_singleton
      · exact (Set.mem_singleton_iff.mp isOther) ▸ unproved
    · exact fun unproved => .inr (.inr ⟨qj, rfl, unproved⟩)
  have complains : ∀ complainer, complainer ∈ (s.members idx).complaintsFromOthers ↔
      f.complains complainer idx = true := fun complainer => by
    rw [reflects.unanswered good, and_iff_left (not_answers none complainer)]
  rw [single] at first ⊢
  rw [justify, members_modify_self] at done
  split at done
  · cases done
  · split at done
    · next unasked =>
      cases done
      refine ⟨sameExcept_mark _, ?_⟩
      rw [members_mark]
      refine { reflects with
        justifications := first
        unanswered := unanswered_of_bad rfl
        bad := iff_of_true rfl (accused.mpr fun proves => ?_) }
      obtain ⟨p, member, notAsked⟩ := any_eq_true.mp unasked
      exact of_decide_eq_true notAsked ((complains _).mpr (proves p member).1)
    · next asked =>
      simp only [any_eq_true, decide_eq_true_eq, not_exists, not_and, not_not] at asked
      have vvec : (s.modify idx fun m => { m with justifications := m.justifications.insert qj }).receivedVvecs idx =
        some qc.vvec := reflects.vvec qc isOnly
      rw [vvec] at done
      cases done
      have justifies : Justifies env q idx qc.vvec qj.contributions _ _ :=
        foldl_justifyOne_justifies idx qc.vvec qj.contributions
          (s.modify idx fun m => { m with justifications := m.justifications.insert qj })
      obtain ⟨others, receivedVvec, contributions, complaints, justifications, badMemberVotes, bad, open'⟩ := justifies
      rw [members_modify_self] at contributions complaints justifications badMemberVotes bad open'
      have proves : f.Proves env q idx qj ↔ ∀ p ∈ qj.contributions,
          env.verifyContributionShare (q.proTxHash p.1) qc.vvec p.2 = true := by
        refine ⟨fun proved p member => ?_, fun passes p member =>
          ⟨(complains _).mp (asked p member), qc, isOnly ▸ rfl, passes p member⟩⟩
        obtain ⟨-, other, isOther, passes⟩ := proved p member
        rw [isOnly, Set.mem_singleton_iff] at isOther
        exact isOther ▸ passes
      refine ⟨fun i apart => ?_, ?_⟩
      · have alike := others i apart
        rw [members_modify_of_ne _ apart] at alike
        exact alike
      · refine ⟨contributions ▸ reflects.contributions, complaints ▸ reflects.complaints, justifications ▸ first,
          receivedVvec ▸ reflects.vvec, badMemberVotes ▸ reflects.nodup, badMemberVotes ▸ reflects.votes,
          fun isGood complainer => ?_, ?_⟩
        · have passes : ∀ p ∈ qj.contributions, env.verifyContributionShare (q.proTxHash p.1) qc.vvec p.2 = true := by
            intro p member
            by_contra fails
            rw [bad.mpr (.inr ⟨p, member, Bool.eq_false_of_not_eq_true fails⟩)] at isGood
            cases isGood
          rw [open' complainer, complains]
          refine and_congr_right fun _ => ⟨?_, fun unanswered p member _ same => unanswered ⟨qj, rfl, p, member, same⟩⟩
          rintro others ⟨other, isOther, p, member, same⟩
          rw [Set.mem_singleton_iff.mp isOther] at member
          exact others p member (passes p member) same
        · rw [bad, accused, proves]
          simp [good]

variable (agrees : Agrees env q ms s) (inPhase : .justify = s.phase)
  (formed : wellFormed env q (.justification qj) = true)
include agrees inPhase formed

theorem Agrees.fullJustification (found : q.getMember qj.proTxHash = some idx)
    (enough : 2 ≤ (s.members idx).justifications.length) : Agrees env q (ms ++ [.justification qj]) s := by
  have reflects := agrees.members idx (getMember_lt found)
  have kept := reflects.justifications.full (a := qj) enough
  have isBad := reflects.bad.mpr (.inr (.inr (.inl (reflects.justifications.two_iff.mp enough))))
  exact agrees.extend inPhase (refl s) found (fun _ => file_append_justification formed) (refl idx s)
    { reflects with
      justifications := kept
      unanswered := unanswered_of_bad isBad
      bad := iff_of_true isBad (.inr (.inr (.inl (kept.two_iff.mp enough)))) }

theorem Agrees.receiveJustification (fresh : .justification qj ∉ ms) (place : SamePlace s s')
    (done : receiveJustification env q s qj = .ok s') : Agrees env q (ms ++ [.justification qj]) s' := by
  obtain ⟨idx, found⟩ : ∃ idx, q.getMember qj.proTxHash = some idx := getMember_of_wellFormed formed
  have atIdx := agrees.members idx (getMember_lt found)
  have finish := fun others => @Agrees.extend _ _ idx s s' ms (.justification qj) agrees inPhase place found _
    (fun _ => file_append_justification formed) others
  simp only [DkgSession.receiveJustification, found, members_modify_self] at done
  rcases filed_cases done with ⟨enough, rfl⟩ | ⟨few, several, rfl⟩ | ⟨few, single, outcome⟩
  · exact agrees.fullJustification inPhase formed found enough
  · have kept := atIdx.justifications.insert (a := qj) few
    refine finish (sameExcept_mark _) ?_
    rw [members_mark]
    exact { atIdx with
      justifications := kept
      unanswered := unanswered_of_bad rfl
      bad := iff_of_true rfl (.inr (.inr (.inl (kept.two_iff.mp several)))) }
  · have kept := atIdx.justifications.insert (a := qj) few
    have none : (file env q ms (q.proTxHash idx)).justifications = ∅ :=
      atIdx.justifications.eq_empty_of_insert (fun sent => fresh sent.1) single
    have commit : called s .commit = false := called_later (inPhase ▸ lt_succ_self 2)
    split_ifs at outcome with bad
    · cases outcome
      refine finish (sameExcept_modify _) ?_
      rw [members_modify_self]
      refine { atIdx with
        justifications := kept
        unanswered := unanswered_of_bad bad
        bad := iff_of_true bad ?_ }
      rcases (accused_iff_suspect commit).mp (atIdx.bad.mp bad) with suspect | two | ⟨other, isOther, -⟩
      · exact (accused_iff_suspect commit).mpr (.inl suspect)
      · rw [none] at two
        exact absurd two.nonempty Set.not_nonempty_empty
      · rw [none] at isOther
        cases isOther
    · have complained : called s .complain = true := by simp [called, ← inPhase, rank]
      obtain ⟨others, atSender⟩ := reflects_justify atIdx complained commit none (Bool.eq_false_of_not_eq_true bad) kept
        outcome
      exact finish others atSender

end

end Cspn.DkgOrder
