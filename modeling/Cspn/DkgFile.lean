import Cspn.DkgSafety

/-!
What the messages of a key generation say about a member. A member is judged by the sets of its contributions,
complaints and justifications, and by the first complaint of every member, which is all that depends on the order of
the messages.
-/
namespace Cspn.DkgOrder
open Primitives List DkgSession Message
set_option linter.unusedSectionVars false

section
variable {α : Type} [DecidableEq α] {S : Set α} {kept : List α} {a : α}

structure Kept (S : Set α) (kept : List α) : Prop where
  sub : ∀ a ∈ kept, a ∈ S
  nodup : kept.Nodup
  nonempty : S.Nonempty → kept ≠ []
  two : S.Nontrivial → 2 ≤ kept.length

theorem kept_empty : Kept (∅ : Set α) [] :=
  ⟨by simp, nodup_nil, fun some => absurd some Set.not_nonempty_empty, fun two => absurd two.nonempty Set.not_nonempty_empty⟩

namespace Kept

section
variable (holds : Kept S kept)
include holds

theorem ne_nil_iff : kept ≠ [] ↔ S.Nonempty := by
  refine ⟨fun filled => ?_, holds.nonempty⟩
  obtain ⟨a, member⟩ := exists_mem_of_ne_nil kept filled
  exact ⟨a, holds.sub a member⟩

theorem two_iff : 2 ≤ kept.length ↔ S.Nontrivial := by
  refine ⟨fun two => ?_, holds.two⟩
  match kept, two, holds with
  | a :: b :: rest, _, holds =>
    have apart : a ≠ b := fun same => (nodup_cons.mp holds.nodup).1 (same ▸ .head _)
    exact ⟨a, holds.sub a (.head _), b, holds.sub b (.tail _ (.head _)), apart⟩

theorem full (two : 2 ≤ kept.length) : Kept (insert a S) kept where
  sub b member := Set.mem_insert_of_mem a (holds.sub b member)
  nodup := holds.nodup
  nonempty _ filled := by
    rw [filled] at two
    cases two
  two _ := two

theorem insert (few : kept.length < 2) : Kept (insert a S) (kept.insert a) where
  sub b member := by
    rcases mem_insert_iff.mp member with rfl | before
    · exact Set.mem_insert _ _
    · exact Set.mem_insert_of_mem a (holds.sub b before)
  nodup := holds.nodup.insert
  nonempty _ filled := by
    have member : a ∈ kept.insert a := mem_insert_self
    rw [filled] at member
    cases member
  two nontrivial := by
    -- the set had at most one element, and the new one is another
    have single : S.Subsingleton := Set.not_nontrivial_iff.mp fun two => absurd (holds.two two) (Nat.not_le.mpr few)
    have new : a ∉ S := fun old => by
      rw [Set.insert_eq_of_mem old] at nontrivial
      exact Set.not_nontrivial_iff.mpr single nontrivial
    have filled : S.Nonempty := by
      by_contra empty
      rw [Set.not_nonempty_iff_eq_empty.mp empty] at nontrivial
      simp at nontrivial
    rw [insert_of_not_mem fun member => new (holds.sub a member), length_cons]
    have positive := length_pos_iff.mpr (holds.nonempty filled)
    omega

theorem nonempty_of_insert (several : 2 ≤ (kept.insert a).length) : S.Nonempty := by
  refine holds.ne_nil_iff.mp fun empty => ?_
  rw [empty] at several
  simp at several

theorem eq_empty_of_insert (new : a ∉ S) (single : (kept.insert a).length < 2) : S = ∅ := by
  rw [insert_of_not_mem fun member => new (holds.sub a member), length_cons] at single
  by_contra filled
  have positive := length_pos_iff.mpr (holds.nonempty (Set.nonempty_iff_ne_empty.mpr filled))
  omega

end

end Kept

end

/-! ### The messages of a member -/

def wellFormed (env : Env) (q : Quorum) (m : Message) : Bool :=
  decide (m.quorumHash = q.quorumHash) && (q.getMember m.proTxHash).isSome && contentOk env q m

section
variable (env : Env) (q : Quorum) (ms : List Message)

def sentBy {α : Type} (kind : α → Message) (proTxHash : Uint256) : Set α :=
  {a | kind a ∈ ms ∧ wellFormed env q (kind a) = true ∧ (kind a).proTxHash = proTxHash}

def asComplaint (proTxHash : Uint256) (m : Message) : Option CDKGComplaint :=
  match m with
  | .complaint qc => if wellFormed env q m && decide (qc.proTxHash = proTxHash) then some qc else none
  | _ => none

def firstComplaint (proTxHash : Uint256) : Option CDKGComplaint := ms.findSome? (asComplaint env q proTxHash)

structure File where
  contributions : Set CDKGContribution
  complaints : Set CDKGComplaint
  justifications : Set CDKGJustification
  first : Uint256 → Option CDKGComplaint

def file (proTxHash : Uint256) : File where
  contributions := sentBy env q ms .contribution proTxHash
  complaints := sentBy env q ms .complaint proTxHash
  justifications := sentBy env q ms .justification proTxHash
  first := firstComplaint env q ms

end

variable {q : Quorum} {i : Nat} {called : QuorumPhase → Bool} {env : Env}

namespace File
variable (f : File)

def votesBad (voter : Uint256) (i : Nat) : Bool := (f.first voter).any fun qc => qc.badMembers.getD i false

def complains (complainer : Uint256) (i : Nat) : Bool :=
  (f.first complainer).any fun qc => qc.complainForMembers.getD i false

def voteCount (q : Quorum) (i : Nat) : Nat := (q.proTxHashes.filter fun voter => f.votesBad voter i).length

def Proves (env : Env) (q : Quorum) (i : Nat) (qj : CDKGJustification) : Prop :=
  ∀ p ∈ qj.contributions, f.complains (q.proTxHash p.1) i = true ∧
    ∃ qc ∈ f.contributions, env.verifyContributionShare (q.proTxHash p.1) qc.vvec p.2 = true

def Answers (q : Quorum) (complainer : Uint256) : Prop :=
  ∃ qj ∈ f.justifications, ∃ p ∈ qj.contributions, q.proTxHash p.1 = complainer

def Charge (q : Quorum) (i : Nat) : QuorumPhase → Prop
  | .complain => ¬ f.contributions.Nonempty
  | .justify => q.params.dkgBadVotesThreshold ≤ f.voteCount q i
  | .commit => ∃ complainer, f.complains complainer i = true ∧ ¬ f.Answers q complainer
  | _ => False

/-- What is held against a member after the functions of the given phases were called. -/
def Accused (env : Env) (q : Quorum) (called : QuorumPhase → Bool) (i : Nat) : Prop :=
  f.contributions.Nontrivial ∨ f.complaints.Nontrivial ∨ f.justifications.Nontrivial ∨
    (∃ qj ∈ f.justifications, ¬ f.Proves env q i qj) ∨ ∃ phase, called phase = true ∧ f.Charge q i phase

theorem exists_charge_iff : (∃ phase, called phase = true ∧ f.Charge q i phase) ↔
      (called .complain = true ∧ f.Charge q i .complain) ∨ (called .justify = true ∧ f.Charge q i .justify) ∨
        (called .commit = true ∧ f.Charge q i .commit) := by
  constructor
  · rintro ⟨phase, isCalled, charge⟩
    cases phase with
    | contribute => exact charge.elim
    | complain => exact .inl ⟨isCalled, charge⟩
    | justify => exact .inr (.inl ⟨isCalled, charge⟩)
    | commit => exact .inr (.inr ⟨isCalled, charge⟩)
    | finalize => exact charge.elim
  · rintro (complain | justify | commit)
    · exact ⟨_, complain⟩
    · exact ⟨_, justify⟩
    · exact ⟨_, commit⟩

theorem accused_call {called' : QuorumPhase → Bool} {phase : QuorumPhase}
    (more : ∀ other, called' other = true ↔ called other = true ∨ other = phase) :
    f.Accused env q called' i ↔ f.Accused env q called i ∨ f.Charge q i phase := by
  have charges : (∃ other, called' other = true ∧ f.Charge q i other) ↔
      (∃ other, called other = true ∧ f.Charge q i other) ∨ f.Charge q i phase := by
    constructor
    · rintro ⟨other, isCalled, charge⟩
      rcases (more other).mp isCalled with before | rfl
      · exact .inl ⟨other, before, charge⟩
      · exact .inr charge
    · rintro (⟨other, before, charge⟩ | charge)
      · exact ⟨other, (more other).mpr (.inl before), charge⟩
      · exact ⟨phase, (more phase).mpr (.inr rfl), charge⟩
  rw [Accused, Accused, charges]
  simp [or_assoc]

end File

def Verdict (env : Env) (q : Quorum) (ms : List Message) (i : Nat) : Prop :=
  (file env q ms (q.proTxHash i)).Accused env q (fun _ => true) i

/-! ### Files that grow -/

section
variable {ms : List Message} {m : Message} {proTxHash : Uint256}

theorem sentBy_append_of_unchanged {α : Type} (kind : α → Message)
    (unchanged : ∀ a, kind a = m → wellFormed env q m = true → m.proTxHash = proTxHash → m ∈ ms) :
    sentBy env q (ms ++ [m]) kind proTxHash = sentBy env q ms kind proTxHash := by
  ext a
  simp only [sentBy, Set.mem_ofPred_eq, mem_append, mem_singleton]
  refine ⟨fun ⟨member, formed, sender⟩ => ⟨member.elim id fun same => ?_, formed, sender⟩,
    fun ⟨member, rest⟩ => ⟨.inl member, rest⟩⟩
  rw [same] at formed sender ⊢
  exact unchanged a same formed sender

theorem sentBy_append_of_kind {α : Type} {kind : α → Message} (other : ∀ a, kind a ≠ m) :
    sentBy env q (ms ++ [m]) kind proTxHash = sentBy env q ms kind proTxHash :=
  sentBy_append_of_unchanged kind fun a same => absurd same (other a)

theorem sentBy_append {α : Type} {kind : α → Message} (injective : Function.Injective kind) {a : α}
    (formed : wellFormed env q (kind a) = true) (sender : (kind a).proTxHash = proTxHash) :
    sentBy env q (ms ++ [kind a]) kind proTxHash = insert a (sentBy env q ms kind proTxHash) := by
  ext b
  simp only [sentBy, Set.mem_ofPred_eq, mem_append, mem_singleton, Set.mem_insert_iff]
  constructor
  · rintro ⟨before | same, rest⟩
    · exact .inr ⟨before, rest⟩
    · exact .inl (injective same)
  · rintro (rfl | ⟨before, rest⟩)
    · exact ⟨.inr rfl, formed, sender⟩
    · exact ⟨.inl before, rest⟩

variable {qc : CDKGComplaint}

theorem asComplaint_eq_some : asComplaint env q proTxHash m = some qc ↔
      m = .complaint qc ∧ wellFormed env q (.complaint qc) = true ∧ qc.proTxHash = proTxHash := by
  cases m with
  | complaint other =>
    simp only [asComplaint, Option.ite_none_right_eq_some, Bool.and_eq_true, decide_eq_true_eq, Option.some.injEq,
      complaint.injEq]
    constructor
    · rintro ⟨⟨formed, sender⟩, rfl⟩
      exact ⟨rfl, formed, sender⟩
    · rintro ⟨rfl, formed, sender⟩
      exact ⟨⟨formed, sender⟩, rfl⟩
  | contribution other => simp [asComplaint]
  | justification other => simp [asComplaint]
  | prematureCommitment other => simp [asComplaint]

theorem mem_of_firstComplaint (first : firstComplaint env q ms proTxHash = some qc) :
    qc ∈ sentBy env q ms .complaint proTxHash := by
  obtain ⟨m, member, isComplaint⟩ := exists_of_findSome?_eq_some first
  obtain ⟨rfl, formed, sender⟩ := asComplaint_eq_some.mp isComplaint
  exact ⟨member, formed, sender⟩

theorem firstComplaint_eq_none :
    firstComplaint env q ms proTxHash = none ↔ ¬ (sentBy env q ms .complaint proTxHash).Nonempty := by
  constructor
  · rintro nothing ⟨qc, member, formed, sender⟩
    have missed := findSome?_eq_none_iff.mp nothing _ member
    rw [asComplaint_eq_some.mpr ⟨rfl, formed, sender⟩] at missed
    cases missed
  · intro empty
    by_contra something
    obtain ⟨qc, first⟩ := Option.ne_none_iff_exists'.mp something
    exact empty ⟨qc, mem_of_firstComplaint first⟩

theorem firstComplaint_append :
    firstComplaint env q (ms ++ [m]) proTxHash = (firstComplaint env q ms proTxHash).or (asComplaint env q proTxHash m) := by
  rw [firstComplaint, findSome?_append]
  congr 1
  cases found : asComplaint env q proTxHash m <;> simp [found]

theorem firstComplaint_append_of_unchanged
    (unchanged : ∀ qc, m = .complaint qc → wellFormed env q m = true → m ∈ ms) :
    firstComplaint env q (ms ++ [m]) = firstComplaint env q ms := by
  funext sender
  rw [firstComplaint_append]
  cases isComplaint : asComplaint env q sender m with
  | none => rw [Option.or_none]
  | some qc =>
    obtain ⟨rfl, formed, isSender⟩ := asComplaint_eq_some.mp isComplaint
    have sent : (sentBy env q ms .complaint sender).Nonempty := ⟨qc, unchanged qc rfl formed, formed, isSender⟩
    obtain ⟨other, found⟩ := Option.ne_none_iff_exists'.mp (firstComplaint_eq_none.not.mpr (not_not.mpr sent))
    rw [found, Option.some_or]

theorem firstComplaint_append_of_other (other : ∀ qc, m ≠ .complaint qc) :
    firstComplaint env q (ms ++ [m]) = firstComplaint env q ms :=
  firstComplaint_append_of_unchanged fun qc same => absurd same (other qc)

theorem file_append_of_unchanged (unchanged : wellFormed env q m = true → m ∈ ms) :
    file env q (ms ++ [m]) proTxHash = file env q ms proTxHash := by
  simp [file, firstComplaint_append_of_unchanged fun _ _ => unchanged,
    sentBy_append_of_unchanged _ fun _ _ formed _ => unchanged formed]

theorem file_append_of_other_sender (sender : m.proTxHash ≠ proTxHash) (other : ∀ qc, m ≠ .complaint qc) :
    file env q (ms ++ [m]) proTxHash = file env q ms proTxHash := by
  have unchanged : ∀ {α : Type} (kind : α → Message), sentBy env q (ms ++ [m]) kind proTxHash =
      sentBy env q ms kind proTxHash := fun kind =>
    sentBy_append_of_unchanged kind fun _ _ _ isSender => absurd isSender sender
  simp [file, firstComplaint_append_of_other other, unchanged]

theorem file_append_contribution {qc : CDKGContribution} (formed : wellFormed env q (.contribution qc) = true) :
    file env q (ms ++ [.contribution qc]) proTxHash = if qc.proTxHash = proTxHash then
        { file env q ms proTxHash with contributions := insert qc (file env q ms proTxHash).contributions }
      else file env q ms proTxHash := by
  split_ifs with sender
  · simp [file, firstComplaint_append_of_other, sentBy_append_of_kind,
      sentBy_append (fun _ _ same => contribution.inj same) formed sender]
  · exact file_append_of_other_sender sender (by simp)

theorem file_append_complaint (formed : wellFormed env q (.complaint qc) = true) :
    file env q (ms ++ [.complaint qc]) proTxHash = { file env q ms proTxHash with
        complaints :=
          if qc.proTxHash = proTxHash then insert qc (file env q ms proTxHash).complaints
          else (file env q ms proTxHash).complaints
        first := fun sender => (firstComplaint env q ms sender).or (if qc.proTxHash = sender then some qc else none) } := by
  have first : firstComplaint env q (ms ++ [.complaint qc]) = fun sender =>
      (firstComplaint env q ms sender).or (if qc.proTxHash = sender then some qc else none) := by
    funext sender
    rw [firstComplaint_append, asComplaint, formed, Bool.true_and]
    simp
  have complaints : sentBy env q (ms ++ [.complaint qc]) .complaint proTxHash =
      if qc.proTxHash = proTxHash then insert qc (sentBy env q ms .complaint proTxHash)
      else sentBy env q ms .complaint proTxHash := by
    split_ifs with sender
    · exact sentBy_append (fun _ _ same => complaint.inj same) formed sender
    · exact sentBy_append_of_unchanged complaint fun _ _ _ isSender => absurd isSender sender
  simp [file, first, complaints, sentBy_append_of_kind]

theorem file_append_justification {qj : CDKGJustification} (formed : wellFormed env q (.justification qj) = true) :
    file env q (ms ++ [.justification qj]) proTxHash = if qj.proTxHash = proTxHash then
        { file env q ms proTxHash with justifications := insert qj (file env q ms proTxHash).justifications }
      else file env q ms proTxHash := by
  split_ifs with sender
  · simp [file, firstComplaint_append_of_other, sentBy_append_of_kind,
      sentBy_append (fun _ _ same => justification.inj same) formed sender]
  · exact file_append_of_other_sender sender (by simp)

theorem file_append_prematureCommitment (qc : CDKGPrematureCommitment) :
    file env q (ms ++ [.prematureCommitment qc]) proTxHash = file env q ms proTxHash := by
  simp [file, firstComplaint_append_of_other, sentBy_append_of_kind]

end

end Cspn.DkgOrder
