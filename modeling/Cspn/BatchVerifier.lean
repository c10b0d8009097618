import Mathlib

/-!
Batch verification of signed messages from several sources. A batch that fails is checked again source by source and
message by message. With a batch check that is sound and complete, the sources and messages found bad are those with a
message that does not verify.
-/
namespace Cspn.BatchVerifier
open List Prod AList

/-- The check of one message, and a sound and complete check of several. -/
structure Scheme (Msg : Type) where
  verifyInsecure : Msg → Bool
  verifyBatch : List Msg → Bool
  exact : ∀ msgs, verifyBatch msgs = msgs.all verifyInsecure

/-- The iterators into `messages` are the messages themselves here. -/
structure CBLSBatchVerifier (S M Msg : Type) where
  perMessageFallback : Bool
  subBatchSize : Nat
  messages : List (M × Msg)
  messagesBySource : AList fun _ : S => List (M × Msg)
  badSources : List S
  badMessages : List M

variable {S M Msg : Type} [DecidableEq S] [DecidableEq M]

namespace CBLSBatchVerifier

def new (perMessageFallback : Bool) (subBatchSize : Nat) : CBLSBatchVerifier S M Msg :=
  ⟨perMessageFallback, subBatchSize, [], ∅, [], []⟩

variable (scheme : Scheme Msg) (v : CBLSBatchVerifier S M Msg)

def clearMessages : CBLSBatchVerifier S M Msg :=
  { v with messages := [], messagesBySource := ∅ }

def verifyMessage (badMessages : List M) (message : M × Msg) : List M :=
  if message.1 ∈ badMessages then badMessages
  else if scheme.verifyInsecure message.2 then badMessages else message.1 :: badMessages

def verifySource (p : Sigma fun _ : S => List (M × Msg)) : CBLSBatchVerifier S M Msg :=
  let batchValid := decide (v.messagesBySource.entries.length ≠ 1) && scheme.verifyBatch (p.2.map snd)
  if batchValid then v
  else
    { v with
      badSources := v.badSources.insert p.1
      badMessages :=
        if v.perMessageFallback then
          match p.2 with
          | [message] => v.badMessages.insert message.1
          | messages => messages.foldl (verifyMessage scheme) v.badMessages
        else v.badMessages }

def verify : CBLSBatchVerifier S M Msg :=
  if scheme.verifyBatch (v.messages.map snd) then v
  else v.messagesBySource.entries.foldl (verifySource scheme) v

/-- `PushMessage` up to the check of a full batch. A message that is there already is not replaced. -/
def file (sourceId : S) (msgId : M) (msg : Msg) : CBLSBatchVerifier S M Msg :=
  let known := v.messages.find? fun message => message.1 = msgId
  { v with
    messages := if known.isSome then v.messages else v.messages ++ [(msgId, msg)]
    messagesBySource :=
      v.messagesBySource.insert sourceId
        ((v.messagesBySource.lookup sourceId).getD [] ++ [known.getD (msgId, msg)]) }

def pushMessage (sourceId : S) (msgId : M) (msg : Msg) : CBLSBatchVerifier S M Msg :=
  let v := v.file sourceId msgId msg
  if v.subBatchSize ≠ 0 ∧ v.subBatchSize ≤ v.messages.length then (v.verify scheme).clearMessages else v

/-- The messages that the verifier holds, with their sources, in the order of the pushes. -/
structure Holds (v : CBLSBatchVerifier S M Msg) (log : List (S × M × Msg)) : Prop where
  messages : v.messages = log.map snd
  bySource : ∀ source list, v.messagesBySource.lookup source = some list →
    list = (log.filter fun pushed => pushed.1 = source).map snd
  sources : ∀ pushed ∈ log, (v.messagesBySource.lookup pushed.1).isSome

variable {v : CBLSBatchVerifier S M Msg}

omit [DecidableEq M] in
theorem holds_nil (messages : v.messages = []) (bySource : v.messagesBySource = ∅) : v.Holds [] :=
  ⟨messages, by simp [bySource], by simp⟩

/-- The verifier holds the messages of the list, some of them from several sources. -/
structure Lists (v : CBLSBatchVerifier S M Msg) (log : List (S × M × Msg)) : Prop where
  messages : ∀ message, message ∈ v.messages ↔ ∃ pushed ∈ log, pushed.2 = message
  bySource : ∀ source list, v.messagesBySource.lookup source = some list →
    list = (log.filter fun pushed => pushed.1 = source).map snd
  sources : ∀ pushed ∈ log, (v.messagesBySource.lookup pushed.1).isSome

variable {log : List (S × M × Msg)}

omit [DecidableEq M] in
theorem Holds.lists (holds : v.Holds log) : v.Lists log :=
  ⟨fun message => by rw [holds.messages, mem_map], holds.bySource, holds.sources⟩

omit [DecidableEq M] in
theorem bySource_file (bySource : ∀ source list, v.messagesBySource.lookup source = some list →
      list = (log.filter fun pushed => pushed.1 = source).map snd)
    (sources : ∀ pushed ∈ log, (v.messagesBySource.lookup pushed.1).isSome) (sourceId : S) (message : M × Msg) :
    let bySourceAfter := v.messagesBySource.insert sourceId
      ((v.messagesBySource.lookup sourceId).getD [] ++ [message])
    (∀ source list, bySourceAfter.lookup source = some list →
        list = ((log ++ [(sourceId, message)]).filter fun pushed => pushed.1 = source).map snd) ∧
      ∀ pushed ∈ log ++ [(sourceId, message)], (bySourceAfter.lookup pushed.1).isSome := by
  constructor
  · intro source list found
    by_cases same : source = sourceId
    · subst same
      simp only [lookup_insert, Option.some.injEq] at found
      subst found
      cases before : v.messagesBySource.lookup source with
      | some old => simp [bySource source old before]
      | none =>
        have others : log.filter (fun pushed => pushed.1 = source) = [] := by
          rw [filter_eq_nil_iff]
          intro pushed member own
          have some := sources pushed member
          rw [of_decide_eq_true own, before] at some
          cases some
        simp [others]
    · simp only [lookup_insert_ne same] at found
      rw [bySource source list found]
      simp [filter_append, Ne.symm same]
  · intro pushed member
    by_cases same : pushed.1 = sourceId
    · rw [same, lookup_insert]
      rfl
    · simp only [lookup_insert_ne same]
      refine sources pushed ((mem_append.mp member).resolve_right fun last => ?_)
      rw [mem_singleton.mp last] at same
      exact same rfl

theorem Lists.file (lists : v.Lists log) (sourceId : S) (msgId : M) (msg : Msg) : (v.file sourceId msgId msg).Lists
      (log ++ [(sourceId, (v.messages.find? fun message => message.1 = msgId).getD (msgId, msg))]) := by
  obtain ⟨bySource, sources⟩ := bySource_file lists.bySource lists.sources sourceId
    ((v.messages.find? fun message => message.1 = msgId).getD (msgId, msg))
  refine ⟨fun message => ?_, bySource, sources⟩
  cases known : v.messages.find? (fun message => message.1 = msgId) with
  | none =>
    simp only [CBLSBatchVerifier.file, known, Option.isSome_none, Bool.false_eq_true, if_false, lists.messages,
      Option.getD_none, mem_append, mem_singleton, or_and_right, exists_or, exists_eq_left]
    rw [@eq_comm _ message]
  | some old =>
    have held := (lists.messages old).mp (mem_of_find?_eq_some known)
    simp only [CBLSBatchVerifier.file, known, Option.isSome_some, if_true, lists.messages, Option.getD_some,
      mem_append, mem_singleton, or_and_right, exists_or, exists_eq_left, iff_self_or]
    rintro rfl
    exact held

theorem Holds.file (holds : v.Holds log) {sourceId : S}
    {msgId : M} {msg : Msg} (fresh : ∀ pushed ∈ log, pushed.2.1 ≠ msgId) :
    (v.file sourceId msgId msg).Holds (log ++ [(sourceId, msgId, msg)]) := by
  have unknown : v.messages.find? (fun message => message.1 = msgId) = none := by
    rw [find?_eq_none, holds.messages]
    intro message member
    obtain ⟨pushed, old, rfl⟩ := mem_map.mp member
    simpa using fresh pushed old
  have filed : v.file sourceId msgId msg =
      { v with
        messages := v.messages ++ [(msgId, msg)]
        messagesBySource :=
          v.messagesBySource.insert sourceId ((v.messagesBySource.lookup sourceId).getD [] ++ [(msgId, msg)]) } := by
    simp [CBLSBatchVerifier.file, unknown]
  rw [filed]
  obtain ⟨bySource, sources⟩ := bySource_file holds.bySource holds.sources sourceId (msgId, msg)
  exact ⟨by simp [holds.messages], bySource, sources⟩

variable {scheme : Scheme Msg}

theorem mem_verifyMessages {messages : List (M × Msg)} {badMessages : List M} {id : M} :
    id ∈ messages.foldl (verifyMessage scheme) badMessages ↔
      id ∈ badMessages ∨ ∃ message ∈ messages, message.1 = id ∧ scheme.verifyInsecure message.2 = false := by
  induction messages generalizing badMessages with
  | nil => simp
  | cons message rest ih =>
    rw [foldl_cons, ih]
    have first : id ∈ verifyMessage scheme badMessages message ↔
        id ∈ badMessages ∨ (message.1 = id ∧ scheme.verifyInsecure message.2 = false) := by
      by_cases known : message.1 ∈ badMessages
      · simp only [verifyMessage, known]
        refine ⟨.inl, ?_⟩
        rintro (old | ⟨rfl, -⟩)
        · exact old
        · exact known
      · by_cases valid : scheme.verifyInsecure message.2 = true
        · simp [verifyMessage, known, valid]
        · simp [verifyMessage, known, valid, or_comm, eq_comm]
    rw [first, or_assoc]
    simp

theorem verifySource_spec (fallback : v.perMessageFallback = true) (p : Sigma fun _ => List (M × Msg))
    (failed : v.messagesBySource.entries.length = 1 → ∃ message ∈ p.2, scheme.verifyInsecure message.2 = false) :
    (∀ source, source ∈ (verifySource scheme v p).badSources ↔
        source ∈ v.badSources ∨ (p.1 = source ∧ ∃ message ∈ p.2, scheme.verifyInsecure message.2 = false)) ∧
      (∀ id, id ∈ (verifySource scheme v p).badMessages ↔
        id ∈ v.badMessages ∨ ∃ message ∈ p.2, message.1 = id ∧ scheme.verifyInsecure message.2 = false) ∧
      (verifySource scheme v p).messagesBySource = v.messagesBySource ∧
      (verifySource scheme v p).perMessageFallback = v.perMessageFallback ∧
      (verifySource scheme v p).subBatchSize = v.subBatchSize := by
  by_cases bad : ∃ message ∈ p.2, scheme.verifyInsecure message.2 = false
  · have invalid : scheme.verifyBatch (p.2.map snd) = false := by
      rw [scheme.exact, all_eq_false]
      obtain ⟨message, member, fails⟩ := bad
      exact ⟨message.2, mem_map_of_mem member, by simp [fails]⟩
    refine ⟨?_, ?_, by simp [verifySource, invalid], by simp [verifySource, invalid], by simp [verifySource, invalid]⟩
    · intro source
      have result : (verifySource scheme v p).badSources = v.badSources.insert p.1 := by simp [verifySource, invalid]
      rw [result, mem_insert_iff]
      constructor
      · rintro (rfl | old)
        · exact .inr ⟨rfl, bad⟩
        · exact .inl old
      · rintro (old | ⟨rfl, -⟩)
        · exact .inr old
        · exact .inl rfl
    · intro id
      obtain ⟨source, messages⟩ := p
      match messages with
      | [] => simp at bad
      | [message] =>
        have fails : scheme.verifyInsecure message.2 = false := by simpa using bad
        have result : (verifySource scheme v ⟨source, [message]⟩).badMessages = v.badMessages.insert message.1 := by
          simp only [verifySource, invalid, fallback, Bool.and_false, Bool.false_eq_true, if_false, if_true]
        rw [result, mem_insert_iff]
        constructor
        · rintro (rfl | old)
          · exact .inr ⟨message, .head _, rfl, fails⟩
          · exact .inl old
        · rintro (old | ⟨other, inside, rfl, -⟩)
          · exact .inr old
          · exact .inl (by rw [mem_singleton.mp inside])
      | first :: second :: rest =>
        have result : (verifySource scheme v ⟨source, first :: second :: rest⟩).badMessages =
            (first :: second :: rest).foldl (verifyMessage scheme) v.badMessages := by
          simp only [verifySource, invalid, fallback, Bool.and_false, Bool.false_eq_true, if_false, if_true]
        rw [result, mem_verifyMessages]
  · have many : v.messagesBySource.entries.length ≠ 1 := fun one => bad (failed one)
    have valid : scheme.verifyBatch (p.2.map snd) = true := by
      rw [scheme.exact, all_eq_true]
      intro msg member
      obtain ⟨message, inside, rfl⟩ := mem_map.mp member
      by_contra fails
      exact bad ⟨message, inside, by simpa using fails⟩
    have same : verifySource scheme v p = v := by simp [verifySource, many, valid]
    rw [same]
    refine ⟨fun source => by simp [bad], fun id => ?_, rfl, rfl, rfl⟩
    refine ⟨.inl, fun either => either.resolve_right ?_⟩
    rintro ⟨message, inside, -, fails⟩
    exact bad ⟨message, inside, fails⟩

/-- A source is bad if it was or has a message that does not verify; so is a message. -/
structure Verified (scheme : Scheme Msg) (v : CBLSBatchVerifier S M Msg) (log : List (S × M × Msg))
    (after : CBLSBatchVerifier S M Msg) : Prop where
  badSources : ∀ source, source ∈ after.badSources ↔
    source ∈ v.badSources ∨ ∃ pushed ∈ log, pushed.1 = source ∧ scheme.verifyInsecure pushed.2.2 = false
  badMessages : ∀ id, id ∈ after.badMessages ↔
    id ∈ v.badMessages ∨ ∃ pushed ∈ log, pushed.2.1 = id ∧ scheme.verifyInsecure pushed.2.2 = false
  perMessageFallback : after.perMessageFallback = v.perMessageFallback
  subBatchSize : after.subBatchSize = v.subBatchSize

theorem verifySources_spec
    (fallback : v.perMessageFallback = true) (entries : List (Sigma fun _ => List (M × Msg)))
    (failed : v.messagesBySource.entries.length = 1 →
      ∀ p ∈ entries, ∃ message ∈ p.2, scheme.verifyInsecure message.2 = false) :
    Verified scheme v (entries.flatMap fun p => p.2.map fun message => (p.1, message))
      (entries.foldl (verifySource scheme) v) := by
  induction entries generalizing v with
  | nil => exact ⟨by simp, by simp, rfl, rfl⟩
  | cons p rest ih =>
    obtain ⟨sources, messages, same, keeps, size⟩ :=
      verifySource_spec fallback p fun one => failed one p (.head _)
    have later := ih (v := verifySource scheme v p) (keeps.trans fallback)
      fun one q member => failed (same ▸ one) q (.tail _ member)
    rw [foldl_cons]
    refine ⟨fun source => ?_, fun id => ?_, later.perMessageFallback.trans keeps, later.subBatchSize.trans size⟩
    · rw [later.badSources, sources, flatMap_cons, or_assoc]
      refine or_congr_right ?_
      simp only [mem_append, or_and_right, exists_or, mem_map]
      refine or_congr_left ?_
      constructor
      · rintro ⟨rfl, message, inside, fails⟩
        exact ⟨_, ⟨message, inside, rfl⟩, rfl, fails⟩
      · rintro ⟨_, ⟨message, inside, rfl⟩, rfl, fails⟩
        exact ⟨rfl, message, inside, fails⟩
    · rw [later.badMessages, messages, flatMap_cons, or_assoc]
      refine or_congr_right ?_
      simp only [mem_append, or_and_right, exists_or, mem_map]
      refine or_congr_left ?_
      constructor
      · rintro ⟨message, inside, same, fails⟩
        exact ⟨_, ⟨message, inside, rfl⟩, same, fails⟩
      · rintro ⟨_, ⟨message, inside, rfl⟩, same, fails⟩
        exact ⟨message, inside, same, fails⟩

theorem Lists.verify
    (lists : v.Lists log) (fallback : v.perMessageFallback = true) : Verified scheme v log (v.verify scheme) := by
  cases valid : scheme.verifyBatch (v.messages.map snd) with
  | true =>
    have all : ∀ pushed ∈ log, scheme.verifyInsecure pushed.2.2 = true := by
      rw [scheme.exact, all_eq_true] at valid
      intro pushed member
      exact valid _ (mem_map_of_mem ((lists.messages pushed.2).mpr ⟨pushed, member, rfl⟩))
    have none : ∀ pushed ∈ log, ¬ scheme.verifyInsecure pushed.2.2 = false := fun pushed member => by
      simp [all pushed member]
    have same : v.verify scheme = v := by simp [CBLSBatchVerifier.verify, valid]
    rw [same]
    refine ⟨fun source => ⟨.inl, fun either => either.resolve_right ?_⟩,
      fun id => ⟨.inl, fun either => either.resolve_right ?_⟩, rfl, rfl⟩
    · rintro ⟨pushed, member, -, fails⟩
      exact none pushed member fails
    · rintro ⟨pushed, member, -, fails⟩
      exact none pushed member fails
  | false =>
    have same : v.verify scheme = v.messagesBySource.entries.foldl (verifySource scheme) v := by
      simp [CBLSBatchVerifier.verify, valid]
    -- The lists by source have the messages of the log, each under its source.
    have listed : ∀ pushed, pushed ∈ (v.messagesBySource.entries.flatMap fun p => p.2.map fun message => (p.1, message)) ↔
        pushed ∈ log := by
      rintro ⟨source, message⟩
      simp only [mem_flatMap, mem_map, Prod.mk.injEq]
      constructor
      · rintro ⟨⟨_, list⟩, entry, _, inside, rfl, rfl⟩
        rw [lists.bySource _ list (mem_lookup_iff.mpr entry)] at inside
        obtain ⟨⟨origin, kept⟩, filtered, rfl⟩ := mem_map.mp inside
        obtain ⟨member, own⟩ := mem_filter.mp filtered
        obtain rfl := of_decide_eq_true own
        exact member
      · intro member
        obtain ⟨list, found⟩ := Option.isSome_iff_exists.mp (lists.sources _ member)
        refine ⟨⟨source, list⟩, mem_lookup_iff.mp found, message, ?_, rfl, rfl⟩
        rw [lists.bySource source list found]
        exact mem_map.mpr ⟨(source, message), mem_filter.mpr ⟨member, by simp⟩, rfl⟩
    obtain ⟨pushed, member, fails⟩ : ∃ pushed ∈ log, scheme.verifyInsecure pushed.2.2 = false := by
      rw [scheme.exact, all_eq_false] at valid
      obtain ⟨msg, held, fails⟩ := valid
      obtain ⟨message, inside, rfl⟩ := mem_map.mp held
      obtain ⟨pushed, member, rfl⟩ := (lists.messages message).mp inside
      exact ⟨pushed, member, by simpa using fails⟩
    have failed : v.messagesBySource.entries.length = 1 → ∀ p ∈ v.messagesBySource.entries,
        ∃ message ∈ p.2, scheme.verifyInsecure message.2 = false := by
      intro one p inside
      obtain ⟨only, isOnly⟩ := length_eq_one_iff.mp one
      obtain ⟨q, entry, listedHere⟩ := mem_flatMap.mp ((listed pushed).mpr member)
      obtain ⟨message, inList, rfl⟩ := mem_map.mp listedHere
      rw [isOnly, mem_singleton] at inside entry
      rw [inside, ← entry]
      exact ⟨message, inList, fails⟩
    have spec : Verified scheme v _ _ := verifySources_spec fallback v.messagesBySource.entries failed
    rw [same]
    exact ⟨by simpa [listed] using spec.badSources, by simpa [listed] using spec.badMessages,
      spec.perMessageFallback, spec.subBatchSize⟩

theorem Holds.pushMessage (holds : v.Holds log)
    (fallback : v.perMessageFallback = true) (scheme : Scheme Msg) (sourceId : S) {msgId : M} (msg : Msg)
    (fresh : ∀ pushed ∈ log, pushed.2.1 ≠ msgId) : if v.subBatchSize ≠ 0 ∧ v.subBatchSize ≤ log.length + 1 then
      Verified scheme v (log ++ [(sourceId, msgId, msg)]) (v.pushMessage scheme sourceId msgId msg) ∧
        (v.pushMessage scheme sourceId msgId msg).Holds [] else
      Verified scheme v [] (v.pushMessage scheme sourceId msgId msg) ∧
        (v.pushMessage scheme sourceId msgId msg).Holds (log ++ [(sourceId, msgId, msg)]) := by
  have filed : (v.file sourceId msgId msg).Holds _ := holds.file fresh
  have length : (v.file sourceId msgId msg).messages.length = log.length + 1 := by rw [filed.messages]; simp
  have verified : Verified scheme _ _ _ := filed.lists.verify fallback
  by_cases full : v.subBatchSize ≠ 0 ∧ v.subBatchSize ≤ log.length + 1
  · have same : v.pushMessage scheme sourceId msgId msg =
        ((v.file sourceId msgId msg).verify scheme).clearMessages := by
      rw [CBLSBatchVerifier.pushMessage, length]
      exact if_pos full
    rw [if_pos full, same]
    exact ⟨{ verified with }, holds_nil rfl rfl⟩
  · have same : v.pushMessage scheme sourceId msgId msg = v.file sourceId msgId msg := by
      rw [CBLSBatchVerifier.pushMessage, length]
      exact if_neg full
    rw [if_neg full, same]
    exact ⟨⟨by simp [CBLSBatchVerifier.file], by simp [CBLSBatchVerifier.file], rfl, rfl⟩, filed⟩

end CBLSBatchVerifier

end Cspn.BatchVerifier
