import Cspn.DkgSafety

/-!
The final commitments of a key generation. Enough premature commitments to the same valid members are aggregated;
those that differ from the first in quorum key or vector hash are left out, and the others are not counted again. A
final commitment is valid exactly if the others are enough, come from different members and agree with a key under
which the recovered signature is valid.
-/
namespace Cspn.FinalCommitments
open Primitives List DkgSession List

/-- The quorum, the operator keys of its members, and the aggregation of signatures. A secure aggregate of valid
signatures is valid for exactly their keys; enough valid shares recover a valid signature; a key has only one valid
signature for a hash. -/
structure Setting (env : Env) (q : Quorum) where
  type : Nat
  llmqs : Nat → Option LLMQParams
  registered : llmqs type = some q.params
  large : q.params.threshold ≤ q.params.minSize
  hash : CDKGPrematureCommitment → Uint256
  pubKeyOperator : Nat → CBLSPublicKey
  aggregateSecure : List (CBLSSignature × CBLSPublicKey) → Uint256 → CBLSSignature
  verifySecureAggregated : CBLSSignature → List CBLSPublicKey → Uint256 → Bool
  recover : List (Uint256 × CBLSSignature) → CBLSSignature
  aggregates : ∀ parts hash, parts ≠ [] → (∀ p ∈ parts, env.verifyInsecure p.1 p.2 hash = true) →
    (aggregateSecure parts hash).isSome ∧ ∀ keys,
      (verifySecureAggregated (aggregateSecure parts hash) keys hash = true ↔ keys.Perm (parts.map (·.2)))
  recovers : ∀ (key : CBLSPublicKey) (vvec : BLSVerificationVector) parts hash, (key :: vvec).length ≤ parts.length →
    (parts.map (·.1)).Nodup →
    (∀ p ∈ parts, env.verifyInsecure p.2 (env.buildPubKeyShare (key :: vvec) p.1) hash = true) →
    (recover parts).isSome ∧ env.verifyInsecure (recover parts) key hash = true
  verified : ∀ {sig : CBLSSignature} {key : CBLSPublicKey} {hash : Uint256}, env.verifyInsecure sig key hash = true →
    key.isSome = true
  unique : ∀ {sig sig' : CBLSSignature} {key : CBLSPublicKey} {hash : Uint256},
    env.verifyInsecure sig key hash = true → env.verifyInsecure sig' key hash = true → sig = sig'
  notNull : ∀ vvec, env.serializeHash vvec ≠ 0

variable {qc : CDKGContribution} {size n : Nat} {first : CDKGPrematureCommitment} {rest : List CDKGPrematureCommitment}

section
variable {env : Env} {q : Quorum} (setting : Setting env q)

/-! ### The source -/

namespace Setting

def verify (fqc : CFinalCommitment) : Bool :=
  decide (fqc.nVersion ≠ 0) && decide (fqc.nVersion ≤ 1) &&
    match setting.llmqs fqc.llmqType with
    | none => false
    | some params =>
      decide (fqc.signers.length = params.size) && decide (fqc.validMembers.length = params.size) &&
        decide (params.minSize ≤ fqc.validMembers.count true) && decide (params.minSize ≤ fqc.signers.count true) &&
        fqc.quorumPublicKey.isSome && decide (fqc.quorumVvecHash ≠ 0) && fqc.membersSig.isSome && fqc.quorumSig.isSome &&
        (fqc.validMembers.drop q.count).all (!·) && (fqc.signers.drop q.count).all (!·) &&
        let commitmentHash :=
          env.buildCommitmentHash fqc.quorumHash fqc.validMembers fqc.quorumPublicKey fqc.quorumVvecHash
        let memberPubKeys :=
          ((range q.count).filter fun i => fqc.signers.getD i false).map setting.pubKeyOperator
        setting.verifySecureAggregated fqc.membersSig memberPubKeys commitmentHash &&
          env.verifyInsecure fqc.quorumSig fqc.quorumPublicKey commitmentHash

def commitments (s : CDKGSession) : List CDKGPrematureCommitment :=
  (s.prematureCommitments.insertionSort fun a b => setting.hash a ≤ setting.hash b).filter
    fun qc => decide (qc ∈ s.validCommitments)

def commitmentsMap (s : CDKGSession) : List (List CDKGPrematureCommitment) :=
  (((setting.commitments s).map (·.validMembers)).dedup).map fun key =>
    (setting.commitments s).filter fun qc => decide (qc.validMembers = key)

end Setting

/-- The place of a sender; a hash that is not in the map would be put there with index 0. -/
def signerIndex (q : Quorum) (qc : CDKGPrematureCommitment) : Nat := (q.getMember qc.proTxHash).getD 0

/-- The commitments of a group that are not skipped. -/
def agreeing (first : CDKGPrematureCommitment) (cvec : List CDKGPrematureCommitment) : List CDKGPrematureCommitment :=
  cvec.filter fun qc =>
    decide (qc.quorumPublicKey = first.quorumPublicKey) && decide (qc.quorumVvecHash = first.quorumVvecHash)

def setSigners (size : Nat) (indexes : List Nat) : List Bool :=
  indexes.foldl (fun signers i => signers.set i true) (replicate size false)

namespace Setting

def recoverSig (qcs : List CDKGPrematureCommitment) : CBLSSignature :=
  setting.recover (qcs.map fun qc => (q.proTxHash (signerIndex q qc), qc.quorumSig))

def aggregate (first : CDKGPrematureCommitment) (qcs : List CDKGPrematureCommitment) : CFinalCommitment where
  llmqType := setting.type
  quorumHash := first.quorumHash
  validMembers := first.validMembers
  quorumPublicKey := first.quorumPublicKey
  quorumVvecHash := first.quorumVvecHash
  signers := setSigners q.params.size (qcs.map (signerIndex q))
  membersSig := setting.aggregateSecure (qcs.map fun qc => (qc.sig, setting.pubKeyOperator (signerIndex q qc)))
    (getSignHash env first)
  quorumSig := setting.recoverSig qcs

/-- What becomes of a group: it is too small, its signature cannot be recovered, or it is returned. -/
def finalizeGroup : List CDKGPrematureCommitment → Option CFinalCommitment
  | [] => none
  | first :: rest =>
    if (first :: rest).length < q.params.minSize then none
    else if (setting.recoverSig (agreeing first (first :: rest))).isNone then none
    else some (setting.aggregate first (agreeing first (first :: rest)))

/-- The final commitments, unless the assertion on the number of valid members fails. -/
def finalizeCommitments (s : CDKGSession) : Option (List CFinalCommitment) :=
  if !q.areWeMember then some []
  else if (setting.commitments s).any fun qc => decide (qc.validMembers.count true < q.params.minSize) then none
  else some ((setting.commitmentsMap s).filterMap setting.finalizeGroup)

end Setting

/-! ### Commitments that were received -/

structure Received (q : Quorum) (setting : Setting env q) (qc : CDKGPrematureCommitment) : Prop where
  quorumHash : qc.quorumHash = q.quorumHash
  member : ∃ idx, q.getMember qc.proTxHash = some idx
  content : prematureCommitmentOk q qc = true
  signed : env.verifyInsecure qc.sig (setting.pubKeyOperator (signerIndex q qc)) (getSignHash env qc) = true

def Checked (env : Env) (q : Quorum) (verifiedVvecs : Nat → Option BLSVerificationVector)
    (qc : CDKGPrematureCommitment) : Prop :=
  ∀ quorumVvec, env.buildQuorumVerificationVector
      (((range q.count).filter fun i => qc.validMembers.getD i false).map verifiedVvecs) = some quorumVvec →
    matchesVvec env quorumVvec qc = .ok true

/-- A round in which the signatures of all commitments were verified before they were received. -/
structure SignedRound (setting : Setting env q) where
  events : List Event
  signed : ∀ batch qc, .messages batch ∈ events → .prematureCommitment qc ∈ batch →
    env.verifyInsecure qc.sig (setting.pubKeyOperator (signerIndex q qc)) (getSignHash env qc) = true

variable {setting} {s s' : CDKGSession}

theorem receiveContribution_commitments (done : receiveContribution env q s qc = .ok s') :
    s'.prematureCommitments = s.prematureCommitments ∧ s'.validCommitments = s.validCommitments := by
  rw [receiveContribution] at done
  split at done
  · cases done
  · dsimp only at done
    split_ifs at done
    · cases done
      exact ⟨rfl, rfl⟩
    · cases done
      exact ⟨rfl, rfl⟩
    · split at done
      · cases done
        exact ⟨rfl, rfl⟩
      · rw [storeContribution] at done
        dsimp only at done
        split at done
        · cases done
          exact ⟨rfl, rfl⟩
        · split_ifs at done
          · have keeps := Keeps.verifyPendingContributions done
            exact ⟨keeps.prematureCommitments, keeps.validCommitments⟩
          · cases done
            exact ⟨rfl, rfl⟩

theorem receivePrematureCommitment_cases {qc : CDKGPrematureCommitment}
    (done : receivePrematureCommitment env q s qc = .ok s') :
    s'.prematureCommitments = s.prematureCommitments.insert qc ∧ (s'.validCommitments = s.validCommitments ∨
        (s'.validCommitments = s.validCommitments.insert qc ∧ Checked env q s.verifiedVvecs qc)) := by
  rw [receivePrematureCommitment] at done
  split at done
  · cases done
  · dsimp only at done
    split at done
    · cases done
    · next vvecs contributions =>
      rw [getVerifiedContributions] at contributions
      split_ifs at contributions
      cases contributions
      split at done
      · next noVvec =>
        cases done
        refine ⟨rfl, .inr ⟨rfl, fun quorumVvec built => ?_⟩⟩
        rw [noVvec] at built
        cases built
      · next quorumVvec built =>
        split at done
        · cases done
        · next passes checked =>
          cases done
          cases passes with
          | false => exact ⟨rfl, .inl rfl⟩
          | true =>
            refine ⟨rfl, .inr ⟨rfl, fun other builtOther => ?_⟩⟩
            cases built.symm.trans builtOther
            exact checked

structure Stored (setting : Setting env q) (s : CDKGSession) : Prop where
  received : ∀ qc ∈ s.prematureCommitments, Received q setting qc
  nodup : s.prematureCommitments.Nodup
  checked : ∀ qc ∈ s.validCommitments, Checked env q s.verifiedVvecs qc
  early : s.phase = .contribute → s.validCommitments = []

section
variable (stored : Stored setting s)
include stored

theorem Stored.keep (keeps : Keeps s s') : Stored setting s' where
  received := keeps.prematureCommitments ▸ stored.received
  nodup := keeps.prematureCommitments ▸ stored.nodup
  checked := by
    rw [keeps.validCommitments, keeps.verifiedVvecs]
    exact stored.checked
  early contributing := by
    rw [keeps.validCommitments]
    exact stored.early (keeps.phase ▸ contributing)

theorem Stored.receiveMessage {message : Message} (inPhase : message.phase = s.phase)
    (place : SamePlace s s') (received : ∀ qc, message = .prematureCommitment qc → Received q setting qc)
    (done : receiveMessage env q s message = .ok s') : Stored setting s' := by
  cases message with
  | contribution qc =>
    obtain ⟨premature, valid⟩ := receiveContribution_commitments done
    have none : s'.validCommitments = [] := valid.trans (stored.early inPhase.symm)
    refine ⟨premature ▸ stored.received, premature ▸ stored.nodup, ?_, fun _ => none⟩
    rw [none]
    simp
  | complaint qc => exact stored.keep (Keeps.receiveComplaint done)
  | justification qj => exact stored.keep (Keeps.receiveJustification done)
  | prematureCommitment qc =>
    have committing : s'.phase ≠ .contribute := by
      rw [place.phase, ← inPhase]
      simp [Message.phase]
    have vvecs := (Keeps.receivePrematureCommitment done).verifiedVvecs
    obtain ⟨premature, valid⟩ := receivePrematureCommitment_cases done
    refine ⟨?_, premature ▸ stored.nodup.insert, ?_, fun contributing => absurd contributing committing⟩
    · rw [premature]
      intro other member
      rcases mem_insert_iff.mp member with rfl | before
      · exact received other rfl
      · exact stored.received other before
    · dsimp only at vvecs
      rw [vvecs]
      rcases valid with same | ⟨added, checked⟩
      · rw [same]
        exact stored.checked
      · rw [added]
        intro other member
        rcases mem_insert_iff.mp member with rfl | before
        · exact checked
        · exact stored.checked other before

theorem Stored.step (inv : Inv q s) {event : Event}
    (signed : ∀ batch qc, event = .messages batch → .prematureCommitment qc ∈ batch →
      env.verifyInsecure qc.sig (setting.pubKeyOperator (signerIndex q qc)) (getSignHash env qc) = true)
    (done : step env q s event = .ok s') : Stored setting s' := by
  cases event with
  | messages batch =>
    have marked : Stored setting (markSeen s batch) := { stored with }
    have kept := Folds.foldlM_ok (P := fun x => (Stored setting x ∧ Inv q x) ∧ x.phase = s.phase) ?_
      ⟨⟨marked, inv.markSeen batch⟩, rfl⟩ done
    · exact kept.1.1
    · rintro message member x y ⟨⟨storedX, invX⟩, phaseX⟩ received
      obtain ⟨isFresh, passes⟩ := mem_filter.mp member
      have inBatch := mem_filter.mp (mem_unseen.mp isFresh).1
      have inPhase : message.phase = x.phase := (of_decide_eq_true inBatch.2).trans phaseX.symm
      obtain ⟨sameQuorum, idx, found, content, -⟩ := preVerifyMessage_iff.mp passes
      obtain ⟨invY, place⟩ := (invX.receiveMessage inPhase ⟨idx, found⟩ content).1 y received
      refine ⟨⟨storedX.receiveMessage inPhase place ?_ received, invY⟩, place.phase.trans phaseX⟩
      rintro qc rfl
      exact ⟨sameQuorum, ⟨idx, found⟩, content, signed batch qc rfl inBatch.1⟩
  | start =>
    rw [DkgSession.step] at done
    split_ifs at done
    · cases done
      exact stored
    · obtain ⟨after, started, rfl⟩ := Folds.map_eq_ok.mp done
      exact { stored.keep (Keeps.startPhase started) with }
  | next =>
    cases done
    split_ifs
    · refine { stored with early := fun contributing => ?_ }
      cases phase : s.phase <;> simp [phase, QuorumPhase.next] at contributing
    · exact stored

end

theorem stored_run (round : SignedRound setting) (ran : run env q round.events = .ok s) : Stored setting s ∧ Inv q s := by
  refine Folds.foldlM_ok (P := fun x => Stored setting x ∧ Inv q x) ?_ ⟨⟨by simp, nodup_nil, by simp, fun _ => rfl⟩, inv_init⟩ ran
  rintro event member x y ⟨stored, inv⟩ done
  refine ⟨stored.step inv (fun batch qc isBatch => ?_) done, inv.step done⟩
  rw [isBatch] at member
  exact round.signed batch qc member

theorem length_setSigners (size : Nat) (indexes : List Nat) : (setSigners size indexes).length = size := by
  refine foldlRecOn (motive := fun signers : List Bool => signers.length = size) indexes _ length_replicate ?_
  intro signers length i _
  rw [length_set, length]

theorem getElem?_setSigners {i : Nat} (indexes : List Nat) (inside : i < size) :
    (setSigners size indexes)[i]? = some (decide (i ∈ indexes)) := by
  have go : ∀ (indexes : List Nat) (signers : List Bool), signers.length = size →
      (indexes.foldl (fun signers i => signers.set i true) signers)[i]? =
        signers[i]?.map fun signer => signer || decide (i ∈ indexes) := by
    intro indexes
    induction indexes with
    | nil => simp
    | cons idx rest ih =>
      intro signers length
      rw [foldl_cons, ih _ (by rw [length_set, length]), getElem?_set]
      by_cases same : idx = i
      · subst same
        simp [length, inside]
      · have apart : i ≠ idx := fun other => same other.symm
        simp [same, apart]
  rw [setSigners, go indexes _ (length_replicate), getElem?_replicate_of_lt inside]
  simp

theorem setSigners_eq (size : Nat) (indexes : List Nat) :
    setSigners size indexes = (range size).map fun i => decide (i ∈ indexes) := by
  refine ext_getElem? fun i => ?_
  by_cases inside : i < size
  · rw [getElem?_setSigners indexes inside, getElem?_map, getElem?_range inside]
    rfl
  · rw [getElem?_eq_none (by rw [length_setSigners]; omega), getElem?_eq_none (by simp; omega)]

variable {indexes : List Nat}

theorem filter_range_perm (inside : ∀ i ∈ indexes, i < n) :
    ((range n).filter fun i => decide (i ∈ indexes)).Perm indexes.dedup := by
  refine (perm_ext_iff_of_nodup (nodup_range.filter _) (nodup_dedup _)).mpr fun i => ?_
  rw [mem_filter, mem_range, decide_eq_true_eq, mem_dedup, and_iff_right_of_imp (inside i)]

theorem count_setSigners (inside : ∀ i ∈ indexes, i < size) :
    (setSigners size indexes).count true = indexes.dedup.length := by
  rw [← (filter_range_perm inside).length_eq, setSigners_eq, count_eq_countP, countP_map,
    countP_eq_length_filter]
  congr 2
  funext i
  simp

theorem drop_setSigners (inside : ∀ i ∈ indexes, i < n) : ((setSigners size indexes).drop n).all (!·) = true := by
  rw [setSigners_eq, ← map_drop, all_map, all_eq_true]
  intro i member
  obtain ⟨k, bound, rfl⟩ := mem_iff_getElem.mp member
  have outside : n + k ∉ indexes := fun isSigner => absurd (inside _ isSigner) (by omega)
  simp [outside]

/-! ### Groups -/

/-- What the commitments of a group that were not skipped must be like: enough of them, from different members, with a
valid key and a hash, and with shares that recover a signature of that key. -/
structure Agreed (setting : Setting env q) (first : CDKGPrematureCommitment) (qcs : List CDKGPrematureCommitment) :
    Prop where
  senders : (qcs.map (·.proTxHash)).Nodup
  enough : q.params.minSize ≤ qcs.length
  key : first.quorumPublicKey.isSome = true
  vvecHash : first.quorumVvecHash ≠ 0
  quorumSig : env.verifyInsecure (setting.recoverSig qcs) first.quorumPublicKey (getSignHash env first) = true

structure SameAs (first qc : CDKGPrematureCommitment) : Prop where
  validMembers : qc.validMembers = first.validMembers
  quorumPublicKey : qc.quorumPublicKey = first.quorumPublicKey
  quorumVvecHash : qc.quorumVvecHash = first.quorumVvecHash

section
variable {qc : CDKGPrematureCommitment} {qcs : List CDKGPrematureCommitment}

theorem Received.signerIndex_spec (received : Received q setting qc) :
    q.proTxHash (signerIndex q qc) = qc.proTxHash ∧ signerIndex q qc < q.count := by
  obtain ⟨idx, found⟩ := received.member
  rw [signerIndex, found]
  exact ⟨Quorum.proTxHash_of_getMember found, Quorum.getMember_lt found⟩

theorem nodup_senders_iff (received : ∀ qc ∈ qcs, Received q setting qc) :
    (qcs.map (·.proTxHash)).Nodup ↔ (qcs.map (signerIndex q)).Nodup := by
  have indexes : qcs.map (signerIndex q) = (qcs.map (·.proTxHash)).map fun hash => (q.getMember hash).getD 0 := by
    rw [map_map]
    rfl
  have senders : qcs.map (·.proTxHash) = (qcs.map (signerIndex q)).map q.proTxHash := by
    rw [map_map]
    exact map_congr_left fun qc member => (received qc member).signerIndex_spec.1.symm
  constructor
  · intro distinct
    rw [senders] at distinct
    exact distinct.of_map
  · intro distinct
    rw [indexes] at distinct
    exact distinct.of_map

theorem verify_aggregate_iff (receivedFirst : Received q setting first) (member : first ∈ qcs)
    (received : ∀ qc ∈ qcs, Received q setting qc) (same : ∀ qc ∈ qcs, SameAs first qc)
    (recovered : (setting.recoverSig qcs).isSome = true) :
    setting.verify (setting.aggregate first qcs) = true ↔ Agreed setting first qcs := by
  have content := receivedFirst.content
  simp only [prematureCommitmentOk, Bool.and_eq_true, decide_eq_true_eq] at content
  obtain ⟨⟨⟨⟨size, members⟩, -⟩, -⟩, unset⟩ := content
  have inside : ∀ i ∈ qcs.map (signerIndex q), i < q.count := by
    intro i isSigner
    obtain ⟨qc, inGroup, rfl⟩ := mem_map.mp isSigner
    exact (received qc inGroup).signerIndex_spec.2
  have insideSize : ∀ i ∈ qcs.map (signerIndex q), i < q.params.size := fun i isSigner =>
    (inside i isSigner).trans_le q.fits
  have filled : (qcs.map fun qc => (qc.sig, setting.pubKeyOperator (signerIndex q qc))) ≠ [] := by
    rw [ne_eq, map_eq_nil_iff]
    exact ne_nil_of_mem member
  obtain ⟨sigValid, verifies⟩ := setting.aggregates
    (qcs.map fun qc => (qc.sig, setting.pubKeyOperator (signerIndex q qc))) (getSignHash env first) filled (by
      intro part inParts
      obtain ⟨qc, inGroup, rfl⟩ := mem_map.mp inParts
      have signed := (received qc inGroup).signed
      rw [getSignHash, (received qc inGroup).quorumHash, (same qc inGroup).validMembers, (same qc inGroup).quorumPublicKey,
        (same qc inGroup).quorumVvecHash, ← receivedFirst.quorumHash] at signed
      exact signed)
  have keys : (((range q.count).filter fun i =>
      (setSigners q.params.size (qcs.map (signerIndex q))).getD i false).map setting.pubKeyOperator).Perm
      ((qcs.map (signerIndex q)).dedup.map setting.pubKeyOperator) := by
    refine Perm.map _ ?_
    rw [filter_congr fun i inRange => ?_]
    · exact filter_range_perm inside
    · rw [getD_eq_getElem?_getD, getElem?_setSigners _ ((mem_range.mp inRange).trans_le q.fits)]
      rfl
  have parts : (qcs.map fun qc => (qc.sig, setting.pubKeyOperator (signerIndex q qc))).map (·.2) =
      (qcs.map (signerIndex q)).map setting.pubKeyOperator := by
    rw [map_map, map_map]
    rfl
  -- the keys of the set bits are those of the aggregate exactly if no sender comes twice
  have distinct : (((range q.count).filter fun i =>
      (setSigners q.params.size (qcs.map (signerIndex q))).getD i false).map setting.pubKeyOperator).Perm
      ((qcs.map fun qc => (qc.sig, setting.pubKeyOperator (signerIndex q qc))).map (·.2)) ↔
      (qcs.map (signerIndex q)).Nodup := by
    rw [parts]
    constructor
    · intro perm
      have lengths := keys.length_eq.symm.trans perm.length_eq
      rw [length_map, length_map] at lengths
      rw [← (dedup_sublist _).eq_of_length lengths]
      exact nodup_dedup _
    · intro nodup
      rw [nodup.dedup] at keys
      exact keys
  have hash : env.buildCommitmentHash first.quorumHash first.validMembers first.quorumPublicKey first.quorumVvecHash =
      getSignHash env first := rfl
  simp only [Setting.verify, Setting.aggregate, setting.registered, Bool.and_eq_true, decide_eq_true_eq, hash,
    length_setSigners, size, members, unset, drop_setSigners inside, sigValid, recovered, count_setSigners insideSize,
    verifies, distinct, true_and, and_true]
  constructor
  · rintro ⟨-, ⟨⟨enough, key⟩, vvecHash⟩, nodup, quorumSig⟩
    rw [nodup.dedup, length_map] at enough
    exact ⟨(nodup_senders_iff received).mpr nodup, enough, key, of_decide_eq_true vvecHash, quorumSig⟩
  · intro agreed
    have nodup := (nodup_senders_iff received).mp agreed.senders
    refine ⟨⟨rfl, rfl⟩, ⟨⟨?_, agreed.key⟩, decide_eq_true agreed.vvecHash⟩, nodup, agreed.quorumSig⟩
    rw [nodup.dedup, length_map]
    exact agreed.enough

theorem mem_commitments (member : qc ∈ setting.commitments s) :
    qc ∈ s.prematureCommitments ∧ qc ∈ s.validCommitments := by
  obtain ⟨sorted, valid⟩ := mem_filter.mp member
  exact ⟨(mem_insertionSort _).mp sorted, of_decide_eq_true valid⟩

theorem mem_group {cvec : List CDKGPrematureCommitment} (group : cvec ∈ setting.commitmentsMap s) (member : qc ∈ cvec) :
    qc ∈ setting.commitments s ∧ ∀ other ∈ cvec, other.validMembers = qc.validMembers := by
  obtain ⟨key, -, rfl⟩ := mem_map.mp group
  obtain ⟨isCommitment, sameKey⟩ := mem_filter.mp member
  refine ⟨isCommitment, fun other isOther => ?_⟩
  rw [of_decide_eq_true sameKey]
  exact of_decide_eq_true (mem_filter.mp isOther).2

end

/-- Every final commitment that is returned at the end of the round is valid, and the assertion holds. -/
def SignedRound.Minable (round : SignedRound setting) : Prop :=
  ∀ s, run env q round.events = .ok s →
    ∃ fqcs, setting.finalizeCommitments s = some fqcs ∧ ∀ fqc ∈ fqcs, setting.verify fqc = true

def Returned (setting : Setting env q) (first : CDKGPrematureCommitment) (rest : List CDKGPrematureCommitment) : Prop :=
  q.params.minSize ≤ (first :: rest).length ∧
    (setting.recoverSig (agreeing first (first :: rest))).isSome = true

def SignedRound.AllAgreed (round : SignedRound setting) : Prop :=
  ∀ s, run env q round.events = .ok s → q.areWeMember = true →
    ∀ first rest, first :: rest ∈ setting.commitmentsMap s → Returned setting first rest →
      Agreed setting first (agreeing first (first :: rest))

theorem finalizeGroup_cons {fqc : CFinalCommitment} : setting.finalizeGroup (first :: rest) = some fqc ↔
      Returned setting first rest ∧ setting.aggregate first (agreeing first (first :: rest)) = fqc := by
  rw [Setting.finalizeGroup, Returned]
  split_ifs with small lost
  · exact ⟨fun none => (by cases none), fun ⟨returned, _⟩ => absurd small (Nat.not_lt.mpr returned.1)⟩
  · refine ⟨fun none => (by cases none), fun ⟨returned, _⟩ => ?_⟩
    rw [Option.isNone_iff_eq_none.mp lost] at returned
    cases returned.2
  · rw [Option.some.injEq]
    refine ⟨fun isResult => ⟨⟨Nat.not_lt.mp small, ?_⟩, isResult⟩, fun both => both.2⟩
    rw [← Option.not_isNone, Bool.eq_false_of_not_eq_true lost]
    rfl

theorem Stored.verify_iff (stored : Stored setting s) (group : first :: rest ∈ setting.commitmentsMap s)
    (returned : Returned setting first rest) :
    setting.verify (setting.aggregate first (agreeing first (first :: rest))) = true ↔
      Agreed setting first (agreeing first (first :: rest)) := by
  have received : ∀ qc ∈ first :: rest, Received q setting qc := fun qc member =>
    stored.received qc (mem_commitments (mem_group group member).1).1
  have agrees : first ∈ agreeing first (first :: rest) :=
    mem_filter.mpr ⟨.head _, by simp⟩
  refine verify_aggregate_iff (received first (.head _)) agrees
    (fun qc member => received qc (mem_filter.mp member).1) (fun qc member => ?_) returned.2
  obtain ⟨inGroup, same⟩ := mem_filter.mp member
  rw [Bool.and_eq_true, decide_eq_true_eq, decide_eq_true_eq] at same
  exact ⟨(mem_group group (.head _)).2 qc inGroup, same.1, same.2⟩

theorem Stored.finalizeCommitments_eq (stored : Stored setting s) : setting.finalizeCommitments s =
      if q.areWeMember then some ((setting.commitmentsMap s).filterMap setting.finalizeGroup) else some [] := by
  have asserted : ¬ ((setting.commitments s).any fun qc =>
      decide (qc.validMembers.count true < q.params.minSize)) = true := by
    intro failed
    obtain ⟨qc, member, few⟩ := any_eq_true.mp failed
    have content := (stored.received qc (mem_commitments member).1).content
    simp only [prematureCommitmentOk, Bool.and_eq_true, decide_eq_true_eq] at content few
    exact absurd content.1.1.1.2 (Nat.not_le.mpr few)
  rw [Setting.finalizeCommitments, if_neg asserted]
  cases q.areWeMember <;> rfl

end

/-- Signatures that are the sum of the key and the hash, and quorum vectors of constant polynomials. -/
def sumEnv : Env where
  bls := ContributionVerifier.sampleBls
  verifyContributionShares input := if input.vvecs = [] then none else some (input.vvecs.map fun _ => true)
  verifyInsecure sig key hash := key.isSome && decide (sig = key.map (· + hash))
  serializeHash vvec := vvec.length + 1
  buildCommitmentHash quorumHash _ _ quorumVvecHash := quorumHash + quorumVvecHash

theorem sumEnv_buildPubKeyShare {key : CBLSPublicKey} {vvec : BLSVerificationVector} {id : Uint256}
    (valid : (sumEnv.buildPubKeyShare (key :: vvec) id).isSome = true) :
    sumEnv.buildPubKeyShare (key :: vvec) id = key := by
  rw [Env.buildPubKeyShare] at valid ⊢
  split_ifs at valid ⊢ with keys
  · cases key with
    | none => simp at keys
    | some k => simp [sumEnv, ContributionVerifier.sampleBls]
  · cases valid

def sumSetting : Setting sumEnv sampleMember where
  type := 100
  llmqs type := if type = 100 then some sampleParams else none
  registered := rfl
  large := by decide
  hash qc := qc.proTxHash
  pubKeyOperator i := some (100 + i)
  aggregateSecure parts _ := some (Encodable.encode (parts.map (·.2) : Multiset CBLSPublicKey))
  verifySecureAggregated sig keys _ := decide (sig = some (Encodable.encode (keys : Multiset CBLSPublicKey)))
  recover parts := parts.head?.bind (·.2)
  aggregates parts hash _ _ := by
    refine ⟨rfl, fun keys => ?_⟩
    rw [decide_eq_true_eq, Option.some.injEq, Encodable.encode_inj, Multiset.coe_eq_coe]
    exact perm_comm
  recovers key vvec parts hash enough _ shares := by
    obtain ⟨first, rest, rfl⟩ := exists_cons_of_length_pos (Nat.lt_of_lt_of_le (Nat.succ_pos _) enough)
    have share := shares first (.head _)
    rw [sumEnv_buildPubKeyShare (Bool.and_eq_true_iff.mp share).1] at share
    have isSum := of_decide_eq_true (Bool.and_eq_true_iff.mp share).2
    refine ⟨?_, share⟩
    rw [head?_cons, Option.bind_some, isSum, Option.isSome_map]
    exact (Bool.and_eq_true_iff.mp share).1
  verified verifies := (Bool.and_eq_true_iff.mp verifies).1
  unique verifies verifies' := by
    have first := of_decide_eq_true (Bool.and_eq_true_iff.mp verifies).2
    have second := of_decide_eq_true (Bool.and_eq_true_iff.mp verifies').2
    exact first.trans second.symm
  notNull vvec := Nat.succ_ne_zero _

/-- A member's commitment to all five members, with a quorum key that nobody can check. -/
def commitmentOf (i key : Nat) : CDKGPrematureCommitment :=
  ⟨7, 10 + i, replicate 5 true, some key, 4, some 5, some (111 + i)⟩

/-- Three members commit, the first of them to another key than the others. -/
def divided : SignedRound sumSetting where
  events := [.start, .next, .start, .next, .start, .next,
    .messages ([commitmentOf 0 1, commitmentOf 1 2, commitmentOf 2 2].map .prematureCommitment)]
  signed batch qc isEvent inBatch := by
    simp only [mem_cons, reduceCtorEq, false_or, not_mem_nil, or_false, Event.messages.injEq] at isEvent
    subst isEvent
    obtain ⟨sent, isSent, same⟩ := mem_map.mp inBatch
    cases same
    have each : ∀ sent ∈ [commitmentOf 0 1, commitmentOf 1 2, commitmentOf 2 2],
        sumEnv.verifyInsecure sent.sig (sumSetting.pubKeyOperator (signerIndex sampleMember sent))
          (getSignHash sumEnv sent) = true := by decide
    exact each qc isSent

/-! ### The values of the majority -/

section
variable {env : Env} {q : Quorum} {setting : Setting env q} {s : CDKGSession}

def values (qc : CDKGPrematureCommitment) : List Bool × CBLSPublicKey × Uint256 :=
  (qc.validMembers, qc.quorumPublicKey, qc.quorumVvecHash)

def Majority (setting : Setting env q) (s : CDKGSession) (qc : CDKGPrematureCommitment) : Prop :=
  q.params.minSize ≤ (((setting.commitments s).filter (values · = values qc)).map (·.proTxHash)).dedup.length

/-- A final commitment with the values of enough members is returned exactly by a member whose least commitment to the
same valid members has them too, if the signature is recovered and no assertion fails. -/
theorem majority_returned_iff {qc : CDKGPrematureCommitment} (enough : Majority setting s qc) :
    (∃ fqcs, setting.finalizeCommitments s = some fqcs ∧
      ∃ fqc ∈ fqcs, (fqc.validMembers, fqc.quorumPublicKey, fqc.quorumVvecHash) = values qc) ↔
    q.areWeMember = true ∧ (∀ other ∈ setting.commitments s, q.params.minSize ≤ other.validMembers.count true) ∧
      ∃ first rest, (setting.commitments s).filter (·.validMembers = qc.validMembers) = first :: rest ∧
        values first = values qc ∧ (setting.recoverSig (agreeing first (first :: rest))).isSome := by
  have asserts : ((setting.commitments s).any fun qc => decide (qc.validMembers.count true < q.params.minSize)) = true ↔
      ¬ ∀ other ∈ setting.commitments s, q.params.minSize ≤ other.validMembers.count true := by simp
  rw [Setting.finalizeCommitments]
  by_cases weMember : q.areWeMember = true
  swap
  · simp [weMember]
  by_cases asserted : ∀ other ∈ setting.commitments s, q.params.minSize ≤ other.validMembers.count true
  swap
  · simp [weMember, asserts, asserted]
  simp only [weMember, asserts, not_not.mpr asserted, Bool.not_true, Bool.false_eq_true, if_false, Option.some.injEq,
    exists_eq_left', mem_filterMap, true_and]
  constructor
  · rintro ⟨fqc, ⟨cvec, group, isResult⟩, same⟩
    cases cvec with
    | nil => cases isResult
    | cons first rest =>
      obtain ⟨returned, rfl⟩ := finalizeGroup_cons.mp isResult
      obtain ⟨key, -, isGroup⟩ := mem_map.mp group
      have isKey : first.validMembers = key := by
        have member : first ∈ first :: rest := .head _
        rw [← isGroup] at member
        exact of_decide_eq_true (mem_filter.mp member).2
      refine ⟨asserted, first, rest, ?_, same, returned.2⟩
      rw [← isGroup, ← isKey, show first.validMembers = qc.validMembers from congrArg Prod.fst same]
  · rintro ⟨-, first, rest, isGroup, same, recovered⟩
    have member : first ∈ (setting.commitments s).filter (·.validMembers = qc.validMembers) := isGroup ▸ .head _
    obtain ⟨stored, sameMembers⟩ := mem_filter.mp member
    have long : q.params.minSize ≤ (first :: rest).length := by
      refine enough.trans ((dedup_sublist _).length_le.trans ?_)
      rw [length_map, ← isGroup]
      refine (monotone_filter_right _ fun other same => ?_).length_le
      exact decide_eq_true (congrArg Prod.fst (of_decide_eq_true same))
    refine ⟨_, ⟨first :: rest, ?_, finalizeGroup_cons.mpr ⟨⟨long, recovered⟩, rfl⟩⟩, same⟩
    exact mem_map.mpr ⟨_, mem_dedup.mpr (mem_map_of_mem stored), by rw [of_decide_eq_true sameMembers, isGroup]⟩

end

/-- Four members commit, three of them to the same key. -/
def outvoted (key : Nat) : CDKGSession :=
  ((run sumEnv sampleMember [.start, .next, .start, .next, .start, .next, .messages
    ([commitmentOf 0 key, commitmentOf 1 2, commitmentOf 2 2, commitmentOf 3 2].map .prematureCommitment)]).toOption).getD {}

theorem outvoted_returned : Majority sumSetting (outvoted 2) (commitmentOf 1 2) ∧
    ∃ fqcs, sumSetting.finalizeCommitments (outvoted 2) = some fqcs ∧ ∃ fqc ∈ fqcs,
      (fqc.validMembers, fqc.quorumPublicKey, fqc.quorumVvecHash) = values (commitmentOf 1 2) := by
  have enough : Majority sumSetting (outvoted 2) (commitmentOf 1 2) := by unfold Majority; decide
  exact ⟨enough, (majority_returned_iff enough).mpr ⟨rfl, by decide, _, _, rfl, rfl, rfl⟩⟩

/-- The key of the one member is returned. -/
theorem outvoted_lost : Majority sumSetting (outvoted 1) (commitmentOf 1 2) ∧
    (sumSetting.finalizeCommitments (outvoted 1)).map (·.map (·.quorumPublicKey)) = some [some 1] := by
  unfold Majority
  decide

end Cspn.FinalCommitments
