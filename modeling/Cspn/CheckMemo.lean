import Cspn.Growth

/-!
`CheckBlock` with the mark that it leaves on a block object. The mark is set before the signature of a stake block
is looked at, so a second call on a block with a bad signature accepts it.
-/
namespace Cspn.CheckMemo
open Primitives Validation Env BlockCheck List Growth

section
variable (ext : Externals) (block : CBlock)

/-- The checks of `CheckBlock` in front of that of the signature. -/
def unsignedChecks (fCheckPOW fCheckMerkleRoot : Bool) : Result Unit :=
  checkBlock { ext with checkBlockSignature := fun _ => true } block fCheckPOW fCheckMerkleRoot

def signatureCheck (fCheckMerkleRoot fCheckSignature : Bool) : Result Unit :=
  checks .CONSENSUS
    [(!(block.isProofOfStake && fCheckMerkleRoot && fCheckSignature) || ext.checkBlockSignature block, "bad-blk-sign")]

/-- `CheckBlock` on an object, with the value of `fChecked` afterwards. -/
def checkBlockMemo (fCheckPOW fCheckMerkleRoot fCheckSignature fChecked : Bool) : Result Unit × Bool :=
  if fChecked then (.ok (), true) else
  match unsignedChecks ext block fCheckPOW fCheckMerkleRoot with
  | .error e => (.error e, false)
  | .ok () => (signatureCheck ext block fCheckMerkleRoot fCheckSignature, fCheckPOW && fCheckMerkleRoot)

/-- The results of full checks of one object, one after the other at these times. -/
def results (fCheckSignature : Bool) : Bool → List Nat → List (Result Unit)
  | _, [] => []
  | fChecked, now :: rest =>
    let call := checkBlockMemo { ext with getAdjustedTime := now } block true true fCheckSignature fChecked
    call.1 :: results fCheckSignature call.2 rest

end

/-- Without the mark the result is that of the plain checks. -/
theorem checkBlockMemo_unmarked (ext : Externals) (block : CBlock) (fCheckPOW fCheckMerkleRoot : Bool) :
    (checkBlockMemo ext block fCheckPOW fCheckMerkleRoot true false).1 = .ok () ↔
      checkBlock ext block fCheckPOW fCheckMerkleRoot = .ok () := by
  have parts : checkBlock ext block fCheckPOW fCheckMerkleRoot = .ok () ↔
      unsignedChecks ext block fCheckPOW fCheckMerkleRoot = .ok () ∧
        signatureCheck ext block fCheckMerkleRoot true = .ok () := by
    simp only [unsignedChecks, signatureCheck, checkBlock, then_eq_ok, checks_cons, checks_nil, Bool.and_true,
      Bool.or_true, and_true, and_assoc]
    rfl
  rw [parts, checkBlockMemo]
  cases unsignedChecks ext block fCheckPOW fCheckMerkleRoot <;> simp

def StaysRejected (calls : List (Result Unit)) : Prop :=
  calls.Pairwise fun earlier later => earlier ≠ .ok () → later ≠ .ok ()

section
variable {ext : Externals} {block : CBlock} {fCheckSignature : Bool}

theorem results_marked (times : List Nat) : ∀ call ∈ results ext block fCheckSignature true times, call = .ok () := by
  induction times with
  | nil => simp [results]
  | cons now rest ih => exact forall_mem_cons.mpr ⟨rfl, ih⟩

theorem results_rejected {times : List Nat}
    (rejected : ∀ now ∈ times, unsignedChecks { ext with getAdjustedTime := now } block true true ≠ .ok ()) :
    ∀ call ∈ results ext block fCheckSignature false times, call ≠ .ok () := by
  induction times with
  | nil => simp [results]
  | cons now rest ih =>
    obtain ⟨first, others⟩ := forall_mem_cons.mp rejected
    simp only [results, checkBlockMemo]
    cases failed : unsignedChecks { ext with getAdjustedTime := now } block true true with
    | ok => exact absurd failed first
    | error e => exact forall_mem_cons.mpr ⟨by simp, ih others⟩

end

/-- What is rejected once stays rejected in every sequence of calls exactly if the block never passes the checks in
front of the signature, or always does and has a good signature. -/
theorem staysRejected_iff (ext : Externals) (block : CBlock) (fCheckSignature : Bool) (clock : Set Nat) :
    (∀ times, (∀ now ∈ times, now ∈ clock) → StaysRejected (results ext block fCheckSignature false times)) ↔
      (∀ now ∈ clock, unsignedChecks { ext with getAdjustedTime := now } block true true ≠ .ok ()) ∨
        signatureCheck ext block true fCheckSignature = .ok () ∧
          ∀ now ∈ clock, unsignedChecks { ext with getAdjustedTime := now } block true true = .ok () := by
  constructor
  · intro stays
    by_cases never : ∀ now ∈ clock, unsignedChecks { ext with getAdjustedTime := now } block true true ≠ .ok ()
    · exact .inl never
    · simp only [not_forall, not_not] at never
      obtain ⟨now, inside, passes⟩ := never
      have twice := stays [now, now] (by simp [inside])
      simp only [StaysRejected, results, checkBlockMemo, passes, Bool.false_eq_true, if_false, pairwise_pair] at twice
      have signed : signatureCheck ext block true fCheckSignature = .ok () := by_contra fun bad => twice bad rfl
      refine .inr ⟨signed, fun early before => by_contra fun rejected => ?_⟩
      have later := stays [early, now] (by simp [inside, before])
      cases failed : unsignedChecks { ext with getAdjustedTime := early } block true true with
      | ok => exact rejected failed
      | error e =>
        simp only [StaysRejected, results, checkBlockMemo, failed, passes, Bool.false_eq_true, if_false,
          pairwise_pair] at later
        exact later (by simp) signed
  · rintro (never | ⟨signed, always⟩) times inside
    · exact pairwise_of_forall_mem_list fun _ _ later member _ =>
        results_rejected (fun now member => never now (inside now member)) later member
    · have accepted : ∀ call ∈ results ext block fCheckSignature false times, call = .ok () := by
        cases times with
        | nil => simp [results]
        | cons now rest =>
          simp only [results, checkBlockMemo, always now (inside now (.head _)), Bool.false_eq_true, if_false]
          exact forall_mem_cons.mpr ⟨signed, results_marked rest⟩
      exact pairwise_of_forall_mem_list fun earlier first _ _ bad => absurd (accepted earlier first) bad

def badlySigned : Externals := { permissive (60 * 1501) with checkBlockSignature := fun _ => false }

/-- A stake block with a bad signature is rejected, and accepted when it is checked again at the same time. -/
theorem accepted_again :
    ¬ StaysRejected (results badlySigned (idle.blockAt 1501) true false [60 * 1501, 60 * 1501]) := by
  have passes : unsignedChecks { badlySigned with getAdjustedTime := 60 * 1501 } (idle.blockAt 1501) true true =
      .ok () := idle.checkBlock_blockAt 1501 true true
  have stake := idle.isProofOfStake_blockAt 1501
  have bad : signatureCheck badlySigned (idle.blockAt 1501) true true ≠ .ok () := by
    simp [signatureCheck, stake, badlySigned]
  intro stays
  simp only [StaysRejected, results, checkBlockMemo, passes, Bool.false_eq_true, if_false, pairwise_pair] at stays
  exact stays bad rfl

end Cspn.CheckMemo
