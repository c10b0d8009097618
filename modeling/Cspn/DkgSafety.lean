import Cspn.DkgSession

/-!
A received message never reads behind the end of a vector or follows a null pointer, but for the first justification of
a sender that is not bad: it may name the index behind the last member, and an observer, which does not mark the
members without contribution, follows the null vector of such a sender.
-/
namespace Cspn.DkgSession
open List Folds ContributionVerifier

/-! ### What is kept -/

variable {qc : CDKGComplaint} {idx : Nat} {qj : CDKGJustification} {batch : List Message}

section
variable {env : Env} {q : Quorum} {s s' s'' : CDKGSession}

structure SamePlace (s s' : CDKGSession) : Prop where
  phase : s'.phase = s.phase
  started : s'.started = s.started
  seenMessages : s'.seenMessages = s.seenMessages

theorem SamePlace.refl (s : CDKGSession) : SamePlace s s := ⟨rfl, rfl, rfl⟩

theorem SamePlace.trans (first : SamePlace s s') (second : SamePlace s' s'') : SamePlace s s'' :=
  ⟨second.phase.trans first.phase, second.started.trans first.started, second.seenMessages.trans first.seenMessages⟩

structure Keeps (s s' : CDKGSession) : Prop extends SamePlace s s' where
  contributions : ∀ i, (s'.members i).contributions = (s.members i).contributions
  bad : ∀ i, (s.members i).bad = true → (s'.members i).bad = true
  receivedVvecs : s'.receivedVvecs = s.receivedVvecs
  verifiedVvecs : s'.verifiedVvecs = s.verifiedVvecs
  pending : s'.pendingContributionVerifications ⊆ s.pendingContributionVerifications
  prematureCommitments : s'.prematureCommitments = s.prematureCommitments
  validCommitments : s'.validCommitments = s.validCommitments

namespace Keeps

protected theorem refl (s : CDKGSession) : Keeps s s :=
  ⟨SamePlace.refl s, fun _ => rfl, fun _ => id, rfl, rfl, fun _ => id, rfl, rfl⟩

theorem trans (first : Keeps s s') (second : Keeps s' s'') : Keeps s s'' where
  toSamePlace := first.toSamePlace.trans second.toSamePlace
  contributions i := (second.contributions i).trans (first.contributions i)
  bad i wasBad := second.bad i (first.bad i wasBad)
  receivedVvecs := second.receivedVvecs.trans first.receivedVvecs
  verifiedVvecs := second.verifiedVvecs.trans first.verifiedVvecs
  pending := fun _ member => first.pending (second.pending member)
  prematureCommitments := second.prematureCommitments.trans first.prematureCommitments
  validCommitments := second.validCommitments.trans first.validCommitments

theorem members (change : Nat → CDKGMember) (contributions : ∀ i, (change i).contributions = (s.members i).contributions)
    (bad : ∀ i, (s.members i).bad = true → (change i).bad = true) : Keeps s { s with members := change } :=
  ⟨⟨rfl, rfl, rfl⟩, contributions, bad, rfl, rfl, fun _ => id, rfl, rfl⟩

theorem modify (idx : Nat) {change : CDKGMember → CDKGMember}
    (contributions : ∀ m, (change m).contributions = m.contributions)
    (bad : ∀ m, m.bad = true → (change m).bad = true) : Keeps s (s.modify idx change) := by
  refine members _ (fun i => ?_) (fun i wasBad => ?_)
  · split_ifs
    · exact contributions _
    · rfl
  · split_ifs
    · exact bad _ wasBad
    · exact wasBad

theorem markBadMember (idx : Nat) : Keeps s (s.markBadMember idx) :=
  modify idx (fun _ => rfl) (fun _ _ => rfl)

theorem markBadMembers (against : CDKGMember → Bool) : Keeps s (s.markBadMembers against) := by
  refine members _ (fun i => ?_) (fun i wasBad => ?_)
  · split_ifs <;> rfl
  · split_ifs
    · rfl
    · exact wasBad

theorem complainAbout (failed : List Nat) : Keeps s (complainAbout s failed) := by
  refine members _ (fun i => ?_) (fun i wasBad => ?_)
  · split_ifs <;> rfl
  · split_ifs <;> exact wasBad

theorem verifyPendingContributions (done : verifyPendingContributions env q s = .ok s') : Keeps s s' := by
  have emptied : Keeps s { s with pendingContributionVerifications := [] } :=
    ⟨⟨rfl, rfl, rfl⟩, fun _ => rfl, fun _ => id, rfl, rfl, nil_subset _, rfl, rfl⟩
  rw [DkgSession.verifyPendingContributions] at done
  split_ifs at done
  · cases done
    exact Keeps.refl s
  · dsimp only at done
    split at done
    · cases done
    · split_ifs at done
      · cases done
        exact emptied
      · cases done
        exact emptied.trans (complainAbout _)

theorem addVotes (qc : CDKGComplaint) : Keeps s (addVotes s qc) :=
  members _ (fun _ => rfl) (fun _ wasBad => wasBad)

theorem receiveComplaint (done : receiveComplaint q s qc = .ok s') : Keeps s s' := by
  rw [DkgSession.receiveComplaint] at done
  split at done
  · cases done
  · next idx found =>
    have emplaced : Keeps s (s.modify idx fun m => { m with complaints := m.complaints.insert qc }) :=
      modify idx (fun _ => rfl) (fun _ wasBad => wasBad)
    dsimp only at done
    split_ifs at done
    · cases done
      exact Keeps.refl s
    · cases done
      exact emplaced.trans (markBadMember idx)
    · cases done
      exact emplaced.trans (addVotes qc)

theorem justifyOne (idx : Nat) (vvec : BLSVerificationVector) (p : Nat × CBLSSecretKey) :
    Keeps s (justifyOne env q idx vvec s p) := by
  rw [DkgSession.justifyOne]
  split_ifs
  · exact ⟨⟨rfl, rfl, rfl⟩, fun i => by dsimp only [CDKGSession.modify]; split_ifs <;> rfl,
      fun i wasBad => by dsimp only [CDKGSession.modify]; split_ifs <;> exact wasBad, rfl, rfl, fun _ => id, rfl,
      rfl⟩
  · exact modify idx (fun _ => rfl) (fun _ wasBad => wasBad)
  · exact markBadMember idx

theorem justify (done : justify env q s idx qj = .ok s') : Keeps s s' := by
  rw [DkgSession.justify] at done
  split at done
  · cases done
  · split at done
    · cases done
      exact markBadMember idx
    · split at done
      · split_ifs at done
        cases done
        exact Keeps.refl s
      · cases done
        exact foldlRecOn _ _ (Keeps.refl s) fun _ keeps p _ => keeps.trans (justifyOne idx _ p)

theorem receiveJustification (done : receiveJustification env q s qj = .ok s') : Keeps s s' := by
  rw [DkgSession.receiveJustification] at done
  split at done
  · cases done
  · next idx found =>
    have emplaced : Keeps s (s.modify idx fun m => { m with justifications := m.justifications.insert qj }) :=
      modify idx (fun _ => rfl) (fun _ wasBad => wasBad)
    dsimp only at done
    split_ifs at done
    · cases done
      exact Keeps.refl s
    · cases done
      exact emplaced.trans (markBadMember idx)
    · cases done
      exact emplaced
    · exact emplaced.trans (justify done)

theorem receivePrematureCommitment {qc : CDKGPrematureCommitment}
    (done : receivePrematureCommitment env q s qc = .ok s') :
    Keeps s { s' with prematureCommitments := s.prematureCommitments, validCommitments := s.validCommitments } := by
  rw [DkgSession.receivePrematureCommitment] at done
  split at done
  · cases done
  · next idx found =>
    have emplaced : Keeps s (s.modify idx fun m =>
        { m with prematureCommitments := m.prematureCommitments.insert qc }) :=
      modify idx (fun _ => rfl) (fun _ wasBad => wasBad)
    split at done
    · cases done
    · split at done
      · cases done
        exact emplaced
      · split at done
        · cases done
        · cases done
          split_ifs <;> exact emplaced

end Keeps

/-- The part of a round in which a member has marked the members without contribution. -/
def Judged (s : CDKGSession) : Prop := s.phase ≠ .contribute ∧ (s.phase = .complain → s.started = true)

/-- Indexes in use are those of members, and vectors have the size of the threshold. One is known for every member
that contributed, and a member that runs the round holds all others for bad. -/
structure Inv (q : Quorum) (s : CDKGSession) : Prop where
  pending : ∀ i ∈ s.pendingContributionVerifications, i < q.count
  stored : ∀ i vvec, s.verifiedVvecs i = some vvec → vvec.length = q.params.threshold
  received : ∀ i, (s.members i).contributions ≠ [] → (s.receivedVvecs i).isSome
  judged : q.areWeMember = true → Judged s → ∀ i, (s.members i).bad = true ∨ (s.members i).contributions ≠ []

theorem inv_init : Inv q {} where
  pending := by simp
  stored := by simp
  received := by simp
  judged _ judged := absurd rfl judged.1

theorem Inv.keep (inv : Inv q s) (keeps : Keeps s s') : Inv q s' where
  pending i member := inv.pending i (keeps.pending member)
  stored := by
    rw [keeps.verifiedVvecs]
    exact inv.stored
  received i := by
    rw [keeps.contributions i, keeps.receivedVvecs]
    exact inv.received i
  judged weMember judged i := by
    rw [Judged, keeps.phase, keeps.started] at judged
    rw [keeps.contributions i]
    exact (inv.judged weMember judged i).imp_left (keeps.bad i)

theorem Inv.receivedVvec (inv : Inv q s) (weMember : q.areWeMember = true) (judged : Judged s) {i : Nat}
    (good : (s.members i).bad = false) : (s.receivedVvecs i).isSome := by
  rcases inv.judged weMember judged i with bad | contributed
  · rw [good] at bad
    cases bad
  · exact inv.received i contributed

theorem Inv.verifyPendingContributions (inv : Inv q s) :
    Yields (· = .stuck) (Keeps s) (verifyPendingContributions env q s) := by
  have inside : ¬ s.pendingContributionVerifications.any (decide <| q.count ≤ ·) = true := by
    intro outside
    obtain ⟨i, member, tooLarge⟩ := any_eq_true.mp outside
    exact absurd (inv.pending i member) (Nat.not_lt.mpr (of_decide_eq_true tooLarge))
  cases done : DkgSession.verifyPendingContributions env q s with
  | ok s' => exact Keeps.verifyPendingContributions done
  | error crash =>
    rw [DkgSession.verifyPendingContributions, if_neg inside] at done
    split_ifs at done
    dsimp only at done
    split at done
    · cases done
      rfl
    · split_ifs at done

variable {qc : CDKGContribution}

theorem Inv.receiveVvec (inv : Inv q s) (contributing : s.phase = .contribute) :
    Inv q { s.modify idx fun m => { m with contributions := m.contributions.insert qc } with
      receivedVvecs := fun i => if i = idx then some qc.vvec else s.receivedVvecs i } where
  pending := inv.pending
  stored := inv.stored
  received i contributed := by
    dsimp only [CDKGSession.modify] at contributed ⊢
    split_ifs with same
    · rfl
    · rw [if_neg same] at contributed
      exact inv.received i contributed
  judged _ judged := absurd contributing judged.1

theorem Inv.storeContribution (inv : Inv q s) {myIdx : Nat} (inside : idx < q.count)
    (size : qc.vvec.length = q.params.threshold) :
    Yields (· = .stuck) (fun s' => Inv q s' ∧ SamePlace s s') (storeContribution env q s myIdx idx qc) := by
  have written : Inv q { s with verifiedVvecs := fun i => if i = idx then some qc.vvec else s.verifiedVvecs i } := by
    refine { inv with stored := fun i vvec found => ?_ }
    dsimp only at found
    split_ifs at found
    · cases found
      exact size
    · exact inv.stored i vvec found
  rw [DkgSession.storeContribution]
  dsimp only
  split
  · exact ⟨written.keep (Keeps.modify idx (fun _ => rfl) (fun _ wasBad => wasBad)), rfl, rfl, rfl⟩
  · next skContribution decrypted =>
    have stored : Inv q { s with
        verifiedVvecs := fun i => if i = idx then some qc.vvec else s.verifiedVvecs i
        receivedSkContributions := fun i => if i = idx then skContribution else s.receivedSkContributions i
        pendingContributionVerifications := s.pendingContributionVerifications ++ [idx] } := by
      refine { written with pending := fun i member => ?_ }
      rcases mem_append.mp member with before | new
      · exact inv.pending i before
      · rw [mem_singleton.mp new]
        exact inside
    split_ifs
    · exact stored.verifyPendingContributions.imp fun _ keeps => ⟨stored.keep keeps, { keeps with }⟩
    · exact ⟨stored, rfl, rfl, rfl⟩

def contentOk (env : Env) (q : Quorum) : Message → Bool
  | .contribution qc => contributionOk env q qc
  | .complaint qc => complaintOk q qc
  | .justification qj => justificationOk q qj
  | .prematureCommitment qc => prematureCommitmentOk q qc

/-- How many messages of the kind of a message are known of a member. -/
def Message.received : Message → CDKGMember → Nat
  | .contribution _, m => m.contributions.length
  | .complaint _, m => m.complaints.length
  | .justification _, m => m.justifications.length
  | .prematureCommitment _, m => m.prematureCommitments.length

theorem preVerifyMessage_eq (env : Env) (q : Quorum) (s : CDKGSession) (m : Message) :
    preVerifyMessage env q s m = preVerify q s m.quorumHash m.proTxHash (contentOk env q m) m.received := by
  cases m <;> rfl

variable {m : Message}

theorem preVerifyMessage_iff : preVerifyMessage env q s m = true ↔
      m.quorumHash = q.quorumHash ∧ ∃ idx, q.getMember m.proTxHash = some idx ∧ contentOk env q m = true ∧
        m.received (s.members idx) < 2 := by
  rw [preVerifyMessage_eq, preVerify, Bool.and_eq_true, decide_eq_true_eq]
  cases found : q.getMember m.proTxHash with
  | none => simp
  | some idx => simp

theorem Inv.receiveContribution (inv : Inv q s) (contributing : s.phase = .contribute)
    (found : q.getMember qc.proTxHash = some idx) (content : contributionOk env q qc = true) :
    Yields (· = .stuck) (fun s' => Inv q s' ∧ SamePlace s s') (receiveContribution env q s qc) := by
  have size : qc.vvec.length = q.params.threshold := by
    simp only [contributionOk, Bool.and_eq_true, decide_eq_true_eq] at content
    exact content.1.2
  rw [DkgSession.receiveContribution]
  simp only [found]
  split_ifs with enough several
  · exact ⟨inv, SamePlace.refl s⟩
  · refine ⟨⟨inv.pending, inv.stored, fun i contributed => ?_, fun _ judged => absurd contributing judged.1⟩,
      rfl, rfl, rfl⟩
    -- a second contribution leaves the vector of the first one
    refine inv.received i fun noneBefore => ?_
    by_cases same : i = idx
    · subst same
      simp [CDKGSession.modify, noneBefore] at several
    · simp [CDKGSession.markBadMember, CDKGSession.modify, same, noneBefore] at contributed
  · split
    · exact ⟨inv.receiveVvec contributing, rfl, rfl, rfl⟩
    · exact ((inv.receiveVvec contributing).storeContribution (Quorum.getMember_lt found) size).imp
        fun _ ⟨invStored, place⟩ => ⟨invStored, { place with }⟩

theorem receivePrematureCommitment_ok (inv : Inv q s) {qc : CDKGPrematureCommitment}
    (found : q.getMember qc.proTxHash = some idx) (content : prematureCommitmentOk q qc = true) :
    ∃ s', receivePrematureCommitment env q s qc = .ok s' := by
  have inside : ¬ qc.validMembers.length < q.count := by
    simp only [prematureCommitmentOk, Bool.and_eq_true, decide_eq_true_eq] at content
    rw [content.1.1.1.1]
    exact Nat.not_lt.mpr q.fits
  simp only [receivePrematureCommitment, found, getVerifiedContributions, if_neg inside]
  split
  · exact ⟨_, rfl⟩
  · next quorumVvec built =>
    rw [Env.buildQuorumVerificationVector] at built
    split_ifs at built with rejected
    simp only [Bool.or_eq_true, List.isEmpty_iff, Bool.not_eq_true', not_or, Bool.not_eq_false] at rejected
    obtain ⟨first, member⟩ := exists_mem_of_ne_nil _ rejected.1
    obtain ⟨keys, rfl, size, -⟩ := Input.of_verifyVerificationVectors env.bls rejected.2 first member
    obtain ⟨i, -, stored⟩ := mem_map.mp member
    have positive : 0 < quorumVvec.length := by
      cases built
      rw [length_map, length_range, ← size, inv.stored i keys stored]
      exact q.hasThreshold
    obtain ⟨key, others, rfl⟩ := exists_cons_of_length_pos positive
    exact ⟨_, rfl⟩

/-- A justification that ends the node: it is the first of a sender that is not bad, and it names the index behind the
last member; or the node is an observer, did not get the contribution of the sender, and all named members
complained. -/
def Harmful (q : Quorum) (s : CDKGSession) (qj : CDKGJustification) : Prop :=
  ∃ idx, q.getMember qj.proTxHash = some idx ∧ ((s.members idx).justifications.insert qj).length ≤ 1 ∧
    (s.members idx).bad = false ∧
    ((∃ p ∈ qj.contributions, p.1 = q.count) ∨
      (q.areWeMember = false ∧ s.receivedVvecs idx = none ∧
        ∀ p ∈ qj.contributions, q.proTxHash p.1 ∈ (s.members idx).complaintsFromOthers))

def faults : Except Crash CDKGSession → Bool
  | .error .stuck => false
  | .error _ => true
  | .ok _ => false

theorem faults_iff {result : Except Crash CDKGSession} :
    faults result = true ↔ ∃ crash, result = .error crash ∧ crash ≠ .stuck := by
  cases result with
  | ok s => simp [faults]
  | error crash => cases crash <;> simp [faults]

theorem not_faults {P : CDKGSession → Prop} {result : Except Crash CDKGSession}
    (yields : Yields (· = .stuck) P result) : faults result = false := by
  cases result with
  | ok s => rfl
  | error crash => cases yields; rfl

theorem justify_faults (content : justificationOk q qj = true) : faults (justify env q s idx qj) = true ↔
      (∃ p ∈ qj.contributions, p.1 = q.count) ∨ (s.receivedVvecs idx = none ∧
          ∀ p ∈ qj.contributions, q.proTxHash p.1 ∈ (s.members idx).complaintsFromOthers) := by
  simp only [justificationOk, Bool.and_eq_true, Bool.not_eq_true', all_eq_true, decide_eq_true_eq] at content
  obtain ⟨⟨nonempty, bounded⟩, -⟩ := content
  have outside : (qj.contributions.any fun p => decide (q.count ≤ p.1)) = true ↔
      ∃ p ∈ qj.contributions, p.1 = q.count := by
    simp only [any_eq_true, decide_eq_true_eq]
    exact ⟨fun ⟨p, member, large⟩ => ⟨p, member, Nat.le_antisymm (bounded p member).1 large⟩,
      fun ⟨p, member, large⟩ => ⟨p, member, large.ge⟩⟩
  have unasked : (qj.contributions.any fun p => decide (q.proTxHash p.1 ∉ (s.members idx).complaintsFromOthers)) = true ↔
      ¬ ∀ p ∈ qj.contributions, q.proTxHash p.1 ∈ (s.members idx).complaintsFromOthers := by
    simp
  rw [justify]
  split
  · next large => exact ⟨fun _ => .inl (outside.mp large), fun _ => rfl⟩
  · next small =>
    rw [outside] at small
    split
    · next bad =>
      rw [unasked] at bad
      exact ⟨fun faulty => (by cases faulty), fun harm => absurd (harm.resolve_left small).2 bad⟩
    · next complained =>
      rw [unasked, not_not] at complained
      rw [nonempty]
      split
      · next noVvec => exact ⟨fun _ => .inr ⟨noVvec, complained⟩, fun _ => rfl⟩
      · next vvec known =>
        refine ⟨fun faulty => (by cases faulty), fun harm => ?_⟩
        have noVvec := (harm.resolve_left small).1
        rw [known] at noVvec
        cases noVvec

theorem receiveJustification_faults (inv : Inv q s) (judged : Judged s)
    (found : q.getMember qj.proTxHash = some idx) (content : justificationOk q qj = true) :
    faults (receiveJustification env q s qj) = true ↔ Harmful q s qj := by
  have harmful : Harmful q s qj ↔ ((s.members idx).justifications.insert qj).length ≤ 1 ∧
      (s.members idx).bad = false ∧ ((∃ p ∈ qj.contributions, p.1 = q.count) ∨
      (s.receivedVvecs idx = none ∧
        ∀ p ∈ qj.contributions, q.proTxHash p.1 ∈ (s.members idx).complaintsFromOthers)) := by
    constructor
    · rintro ⟨same, foundSame, first, good, harm⟩
      cases found.symm.trans foundSame
      exact ⟨first, good, harm.imp_right fun ⟨_, noVvec, complained⟩ => ⟨noVvec, complained⟩⟩
    · rintro ⟨first, good, harm⟩
      refine ⟨idx, found, first, good, harm.imp_right fun ⟨noVvec, complained⟩ => ⟨?_, noVvec, complained⟩⟩
      -- a member has the vector of everyone that is not bad
      by_contra weMember
      have known := inv.receivedVvec (Bool.eq_true_of_not_eq_false weMember) judged good
      rw [noVvec] at known
      cases known
  simp only [harmful, receiveJustification, found, CDKGSession.members_modify_self]
  split_ifs with enough several bad
  · refine ⟨fun faulty => (by cases faulty), fun ⟨first, _⟩ => ?_⟩
    have grows := length_le_length_insert (a := qj) (l := (s.members idx).justifications)
    omega
  · exact ⟨fun faulty => (by cases faulty), fun ⟨first, _⟩ => absurd several (Nat.not_lt.mpr first)⟩
  · refine ⟨fun faulty => (by cases faulty), fun ⟨_, good, _⟩ => ?_⟩
    rw [good] at bad
    cases bad
  · rw [justify_faults content, CDKGSession.members_modify_self]
    exact ⟨fun harm => ⟨Nat.not_lt.mp several, Bool.eq_false_iff.mpr bad, harm⟩, fun ⟨_, _, harm⟩ => harm⟩

/-! ### Rounds -/

def Admitted (env : Env) (q : Quorum) (phase : QuorumPhase) (m : Message) : Prop :=
  m.phase = phase ∧ (∃ idx, q.getMember m.proTxHash = some idx) ∧ contentOk env q m = true

theorem mem_unseen : ∀ {seen : List Message}, m ∈ unseen seen batch ↔ m ∈ batch ∧ m ∉ seen := by
  induction batch with
  | nil => simp [unseen]
  | cons first rest ih =>
    intro seen
    rw [unseen]
    split_ifs with already
    · rw [ih, mem_cons]
      exact ⟨fun ⟨inRest, new⟩ => ⟨.inr inRest, new⟩,
        fun ⟨either, new⟩ => ⟨either.resolve_left fun same => new (same ▸ already), new⟩⟩
    · rw [mem_cons, ih, mem_cons, mem_cons]
      by_cases same : m = first
      · simp [same, already]
      · simp [same]

theorem admitted_of_mem_preverified (member : m ∈ preverified env q s batch) : Admitted env q s.phase m := by
  obtain ⟨isFresh, passes⟩ := mem_filter.mp member
  obtain ⟨-, idx, found, content, -⟩ := preVerifyMessage_iff.mp passes
  exact ⟨of_decide_eq_true (mem_filter.mp (mem_unseen.mp isFresh).1).2, ⟨idx, found⟩, content⟩

theorem Keeps.startPhase (done : startPhase env q s = .ok s') : Keeps s s' := by
  rw [DkgSession.startPhase] at done
  split at done
  · rw [verifyAndComplain] at done
    split_ifs at done
    · cases done
      exact Keeps.refl s
    · obtain ⟨verified, pending, marked⟩ := bind_eq_ok.mp done
      cases marked
      exact (Keeps.verifyPendingContributions pending).trans (Keeps.markBadMembers _)
  · rw [verifyAndJustify] at done
    split_ifs at done
    · cases done
      exact Keeps.refl s
    · cases done
      exact Keeps.markBadMembers _
  · rw [verifyAndCommit] at done
    split_ifs at done
    · cases done
      exact Keeps.refl s
    · cases done
      exact Keeps.markBadMembers _
  · cases done
    exact Keeps.refl s

/-- No message that is received makes the node read behind the end of a vector or follow a null pointer. -/
def MemorySafe (env : Env) (q : Quorum) (events : List Event) : Prop := faults (run env q events) = false

section
variable (inv : Inv q s)
include inv

theorem Inv.receiveMessage (inPhase : m.phase = s.phase)
    (member : ∃ idx, q.getMember m.proTxHash = some idx) (content : contentOk env q m = true) :
    (∀ s', receiveMessage env q s m = .ok s' → Inv q s' ∧ SamePlace s s') ∧
      (faults (receiveMessage env q s m) = true ↔ ∃ qj, m = .justification qj ∧ Harmful q s qj) := by
  obtain ⟨idx, found⟩ := member
  cases m with
  | contribution qc =>
    have yields := inv.receiveContribution inPhase.symm found content
    exact ⟨fun s' => yields.result, by simp [receiveMessage, not_faults yields]⟩
  | complaint qc =>
    simp only [contentOk, complaintOk, Bool.and_eq_true, decide_eq_true_eq] at content
    have inside : ¬ (qc.badMembers.length < q.count ∨ qc.complainForMembers.length < q.count) := by
      rw [content.1, content.2, or_self]
      exact Nat.not_lt.mpr q.fits
    obtain ⟨after, done⟩ : ∃ s', receiveComplaint q s qc = .ok s' := by
      simp only [receiveComplaint, show q.getMember qc.proTxHash = some idx from found, if_neg inside]
      split_ifs <;> exact ⟨_, rfl⟩
    refine ⟨fun s' received => ?_, by simp [receiveMessage, done, faults]⟩
    have keeps := Keeps.receiveComplaint received
    exact ⟨inv.keep keeps, keeps.toSamePlace⟩
  | justification qj =>
    have judged : Judged s := by
      rw [Judged, ← inPhase]
      simp [Message.phase]
    refine ⟨fun s' received => ?_, by simp [receiveMessage, receiveJustification_faults inv judged found content]⟩
    have keeps := Keeps.receiveJustification received
    exact ⟨inv.keep keeps, keeps.toSamePlace⟩
  | prematureCommitment qc =>
    obtain ⟨after, done⟩ : ∃ s', receivePrematureCommitment env q s qc = .ok s' :=
      receivePrematureCommitment_ok inv found content
    refine ⟨fun s' received => ?_, by simp [receiveMessage, done, faults]⟩
    have keeps := Keeps.receivePrematureCommitment received
    exact ⟨{ inv.keep keeps with }, { keeps with }⟩

theorem Inv.markSeen (batch : List Message) : Inv q (markSeen s batch) := { inv with }

theorem Inv.receiveAll {messages : List Message} (admitted : ∀ m ∈ messages, Admitted env q s.phase m)
    (done : messages.foldlM (DkgSession.receiveMessage env q) s = .ok s') : Inv q s' ∧ SamePlace s s' := by
  refine foldlM_ok (P := fun x => Inv q x ∧ SamePlace s x) ?_ ⟨inv, SamePlace.refl s⟩ done
  rintro m member x y ⟨invX, place⟩ received
  obtain ⟨inPhase, isMember, content⟩ := admitted m member
  obtain ⟨kept, -⟩ := invX.receiveMessage (inPhase.trans place.phase.symm) isMember content
  exact ⟨(kept y received).1, place.trans (kept y received).2⟩

theorem Inv.startPhase (done : startPhase env q s = .ok s') : Inv q { s' with started := true } := by
  have keeps := Keeps.startPhase done
  have after := inv.keep keeps
  refine { after with judged := fun weMember judged i => ?_ }
  by_cases complaining : s.phase = .complain
  · rw [DkgSession.startPhase, complaining] at done
    dsimp only at done
    rw [verifyAndComplain, if_neg (by rw [weMember]; decide)] at done
    obtain ⟨verified, pending, marked⟩ := bind_eq_ok.mp done
    cases marked
    dsimp only [CDKGSession.markBadMembers]
    split_ifs with missing
    · exact .inl rfl
    · exact .inr fun noContribution => missing (isEmpty_iff.mpr noContribution)
  · exact after.judged weMember ⟨judged.1, fun other => absurd (keeps.phase.symm.trans other) complaining⟩ i

theorem startPhase_faults : faults (startPhase env q s) = false := by
  rw [startPhase]
  split
  · rw [verifyAndComplain]
    split_ifs
    · rfl
    · exact not_faults (inv.verifyPendingContributions.bind (Q := fun _ => True) fun _ _ => trivial)
  · rw [verifyAndJustify]
    split_ifs <;> rfl
  · rw [verifyAndCommit]
    split_ifs <;> rfl
  · rfl

theorem Inv.step {event : Event} (done : step env q s event = .ok s') : Inv q s' := by
  cases event with
  | messages batch =>
    exact ((inv.markSeen batch).receiveAll (fun m member => admitted_of_mem_preverified (s := s) member) done).1
  | start =>
    rw [DkgSession.step] at done
    split_ifs at done
    · cases done
      exact inv
    · obtain ⟨after, started, rfl⟩ := map_eq_ok.mp done
      exact inv.startPhase started
  | next =>
    cases done
    split_ifs with started
    · refine { inv with judged := fun weMember judged i => inv.judged weMember ?_ i }
      -- the phase before an unstarted phase was judged, unless that one is the phase of complaints
      refine ⟨fun contributing => ?_, fun _ => started⟩
      have notStarted := judged.2 (by simp [contributing, QuorumPhase.next])
      cases notStarted
    · exact inv

theorem step_faults (event : Event) : faults (step env q s event) = true ↔
      ∃ batch done qj rest middle, event = .messages batch ∧
        preverified env q s batch = done ++ .justification qj :: rest ∧
        done.foldlM (receiveMessage env q) (markSeen s batch) = .ok middle ∧ Harmful q middle qj := by
  cases event with
  | messages batch =>
    have admitted : ∀ m ∈ preverified env q s batch, Admitted env q (markSeen s batch).phase m :=
      fun m member => admitted_of_mem_preverified (s := s) member
    have known : ∀ {done m rest middle}, preverified env q s batch = done ++ m :: rest →
        done.foldlM (receiveMessage env q) (markSeen s batch) = .ok middle →
        (faults (receiveMessage env q middle m) = true ↔ ∃ qj, m = .justification qj ∧ Harmful q middle qj) := by
      intro done m rest middle split ran
      rw [split] at admitted
      obtain ⟨invMiddle, place⟩ := (inv.markSeen batch).receiveAll
        (fun m member => admitted m (mem_append_left _ member)) ran
      obtain ⟨inPhase, isMember, content⟩ := admitted m (mem_append_right _ (.head _))
      exact (invMiddle.receiveMessage (inPhase.trans place.phase.symm) isMember content).2
    constructor
    · intro faulty
      obtain ⟨crash, failed, memory⟩ := faults_iff.mp faulty
      obtain ⟨done, m, rest, middle, split, ran, received⟩ := foldlM_error_iff.mp failed
      obtain ⟨qj, rfl, harm⟩ := (known split ran).mp (faults_iff.mpr ⟨crash, received, memory⟩)
      exact ⟨batch, done, qj, rest, middle, rfl, split, ran, harm⟩
    · rintro ⟨_, done, qj, rest, middle, ⟨⟩, split, ran, harm⟩
      obtain ⟨crash, received, memory⟩ := faults_iff.mp ((known split ran).mpr ⟨qj, rfl, harm⟩)
      exact faults_iff.mpr ⟨crash, foldlM_error_iff.mpr ⟨done, _, rest, middle, split, ran, received⟩, memory⟩
  | start =>
    refine ⟨fun faulty => ?_, fun ⟨_, _, _, _, _, isOther, _⟩ => (by cases isOther)⟩
    rw [step] at faulty
    split_ifs at faulty
    · cases faulty
    · have fine : faults (startPhase env q s) = false := startPhase_faults inv
      cases started : startPhase env q s with
      | error crash =>
        rw [started] at faulty fine
        exact absurd (fine.symm.trans faulty) Bool.false_ne_true
      | ok after =>
        rw [started] at faulty
        cases faulty
  | next => exact ⟨fun faulty => (by cases faulty), fun ⟨_, _, _, _, _, isOther, _⟩ => (by cases isOther)⟩

end

theorem inv_run {events : List Event} (ran : run env q events = .ok s) : Inv q s :=
  foldlM_ok (P := Inv q) (fun _ _ _ _ inv done => inv.step done) inv_init ran

def Receives (env : Env) (q : Quorum) (events : List Event) (s : CDKGSession) (qj : CDKGJustification) : Prop :=
  ∃ before batch after start done rest, events = before ++ .messages batch :: after ∧ run env q before = .ok start ∧
    preverified env q start batch = done ++ .justification qj :: rest ∧
    done.foldlM (receiveMessage env q) (markSeen start batch) = .ok s

/-- A round is safe exactly if no justification is harmful in the state that it finds: no first one of a sender that
is not bad names the index behind the last member, and no observer receives one for complaints about a sender whose
contribution it did not get. -/
theorem memorySafe_iff_harmless (env : Env) (q : Quorum) (events : List Event) :
    MemorySafe env q events ↔ ∀ s qj, Receives env q events s qj → ¬ Harmful q s qj := by
  have faulty : faults (run env q events) = true ↔ ∃ s qj, Receives env q events s qj ∧ Harmful q s qj := by
    constructor
    · intro faulty
      obtain ⟨crash, failed, memory⟩ := faults_iff.mp faulty
      obtain ⟨before, event, after, start, split, ran, stepped⟩ := foldlM_error_iff.mp failed
      obtain ⟨batch, done, qj, rest, middle, rfl, preverifies, received, harm⟩ :=
        (step_faults (inv_run ran) event).mp (faults_iff.mpr ⟨crash, stepped, memory⟩)
      exact ⟨middle, qj, ⟨before, batch, after, start, done, rest, split, ran, preverifies, received⟩, harm⟩
    · rintro ⟨s, qj, ⟨before, batch, after, start, done, rest, split, ran, preverifies, received⟩, harm⟩
      obtain ⟨crash, stepped, memory⟩ := faults_iff.mp
        ((step_faults (inv_run ran) (.messages batch)).mpr ⟨batch, done, qj, rest, s, rfl, preverifies, received, harm⟩)
      exact faults_iff.mpr ⟨crash, foldlM_error_iff.mpr ⟨before, _, after, start, split, ran, stepped⟩, memory⟩
  rw [MemorySafe, ← Bool.not_eq_true, faulty]
  push Not
  rfl

end

def sampleParams : LLMQParams := ⟨5, 3, 3, 2⟩

def sampleQuorum (myIdx : Option (Fin 5)) : Quorum where
  params := sampleParams
  quorumHash := 7
  proTxHashes := [10, 11, 12, 13, 14]
  myIdx := myIdx.map (·.val)
  distinct := by decide
  fits := by decide
  hasThreshold := by decide
  mine idx isMine := by
    obtain ⟨mine, -, rfl⟩ := Option.map_eq_some_iff.mp isMine
    exact mine.isLt

abbrev sampleMember : Quorum := sampleQuorum (some 0)

def sampleEnv : Env where
  bls := sampleBls
  verifyContributionShares input := if input.vvecs = [] then none else some (input.vvecs.map fun _ => true)
  verifyInsecure sig pubKey hash := sig.isSome && pubKey.isSome && decide (hash ≠ 0)
  serializeHash vvec := vvec.length
  buildCommitmentHash quorumHash _ _ _ := quorumHash

/-- A member contributes and justifies itself to the index behind the last member. -/
def behindTheLast : List Event :=
  [.messages [.contribution ⟨7, 11, [some 1, some 2, some 3], replicate 5 (some (some 1))⟩], .start, .next,
    .start, .next, .messages [.justification ⟨7, 11, [(5, some 1)]⟩]]

/-- A member complains about another that did not contribute, and that one justifies itself. -/
def withoutContribution : List Event :=
  [.start, .next,
    .messages [.complaint ⟨7, 10, replicate 5 false, [false, true, false, false, false]⟩], .start, .next,
    .messages [.justification ⟨7, 11, [(0, some 1)]⟩]]

theorem justifications_unsafe : ¬ MemorySafe sampleEnv (sampleQuorum (some 0)) behindTheLast ∧
      ¬ MemorySafe sampleEnv (sampleQuorum none) withoutContribution := by
  rw [MemorySafe, MemorySafe]
  decide

end Cspn.DkgSession
