import Cspn.Aggregates
import Cspn.BatchVerifier

/-!
The batch verifier down to its aggregates. The messages of a batch are grouped by hash and added up; a batch passes
exactly if each of its messages verifies. A second message under an id is not kept, so its source is judged by the
first. What is found bad is what is guilty as long as that makes no difference.
-/
namespace Cspn.BlsBatch
open BatchVerifier List Function CBLSBatchVerifier AList
set_option linter.unusedSectionVars false

structure Message (M Sig Key Hash : Type) where
  msgId : M
  msgHash : Hash
  sig : Sig
  pubKey : Key
deriving DecidableEq

variable {S M Sig Key Hash : Type} [DecidableEq S] [DecidableEq M] [DecidableEq Hash]

abbrev HashEntry (M Sig Key Hash : Type) := Sigma fun _ : Hash => List (Message M Sig Key Hash)

variable (msgs : List (Message M Sig Key Hash))

def byMessageHash : AList fun _ : Hash => List (Message M Sig Key Hash) :=
  msgs.foldl (fun groups msg => groups.insert msg.msgHash ((groups.lookup msg.msgHash).getD [] ++ [msg])) ∅

/-- What the functions that add up a batch collect; a sum is the list of its parts. -/
structure Sums (M Sig Key Hash : Type) where
  aggSig : List Sig := []
  msgHashes : List Hash := []
  pubKeys : List (List Key) := []
  dups : List M := []

section
variable (scheme : Aggregates.Scheme Sig Key Hash)

def addMessage (sums : List Sig × List Key × List M) (msg : Message M Sig Key Hash) : List Sig × List Key × List M :=
  if msg.msgId ∈ sums.2.2 then sums
  else (sums.1 ++ [msg.sig], sums.2.1 ++ [msg.pubKey], msg.msgId :: sums.2.2)

def addHash (sums : Sums M Sig Key Hash) (p : HashEntry M Sig Key Hash) : Sums M Sig Key Hash :=
  let added := p.2.foldl addMessage (sums.aggSig, [], sums.dups)
  if added.2.1.isEmpty then { sums with aggSig := added.1, dups := added.2.2 }
  else ⟨added.1, sums.msgHashes ++ [p.1], sums.pubKeys ++ [added.2.1], added.2.2⟩

def verifyBatchInsecure (byHash : List (HashEntry M Sig Key Hash)) : Bool :=
  let sums := byHash.foldl addHash {}
  sums.msgHashes.isEmpty || scheme.verifyAggregated sums.aggSig sums.pubKeys sums.msgHashes

/-- The last message of a hash is taken off into the sum; a hash with no message left is erased. -/
def popHash (acc : Sums M Sig Key Hash × List (HashEntry M Sig Key Hash)) (p : HashEntry M Sig Key Hash) :
    Sums M Sig Key Hash × List (HashEntry M Sig Key Hash) :=
  match p.2.getLast? with
  | none => acc
  | some msg =>
    let sums :=
      if msg.msgId ∈ acc.1.dups then acc.1
      else ⟨acc.1.aggSig ++ [msg.sig], acc.1.msgHashes ++ [p.1], acc.1.pubKeys ++ [[msg.pubKey]],
        msg.msgId :: acc.1.dups⟩
    (sums, if p.2.dropLast.isEmpty then acc.2 else acc.2 ++ [⟨p.1, p.2.dropLast⟩])

def verifyBatchSecureStep (byHash : List (HashEntry M Sig Key Hash)) : Bool × List (HashEntry M Sig Key Hash) :=
  let popped := byHash.foldl popHash ({}, [])
  (scheme.verifyAggregated popped.1.aggSig popped.1.pubKeys popped.1.msgHashes, popped.2)

/-- The loop takes a message off every hash, so there are no more rounds than messages. -/
def verifyBatchSecure : Nat → List (HashEntry M Sig Key Hash) → Bool
  | _, [] => true
  | 0, _ :: _ => false
  | rounds + 1, p :: rest =>
    let step := verifyBatchSecureStep scheme (p :: rest)
    step.1 && verifyBatchSecure rounds step.2

def verifyBatch (secureVerification : Bool) (msgs : List (Message M Sig Key Hash)) : Bool :=
  if secureVerification then verifyBatchSecure scheme msgs.length (byMessageHash msgs).entries
  else verifyBatchInsecure scheme (byMessageHash msgs).entries

def verifyOne (msg : Message M Sig Key Hash) : Bool := scheme.verify msg.sig msg.pubKey msg.msgHash

abbrev Verifier (S M Sig Key Hash : Type) := CBLSBatchVerifier S M (Message M Sig Key Hash)

variable (secureVerification : Bool)

def verifyMessage (badMessages : List M) (message : M × Message M Sig Key Hash) : List M :=
  if message.1 ∈ badMessages then badMessages
  else if verifyOne scheme message.2 then badMessages else message.1 :: badMessages

section
variable (v : Verifier S M Sig Key Hash)

/-- The messages of one source, once the whole batch has failed. -/
def verifySource (p : Sigma fun _ : S => List (M × Message M Sig Key Hash)) : Verifier S M Sig Key Hash :=
  let batchValid := decide (v.messagesBySource.entries.length ≠ 1) &&
    verifyBatch scheme secureVerification (p.2.map Prod.snd)
  if batchValid then v
  else
    { v with
      badSources := v.badSources.insert p.1
      badMessages :=
        if v.perMessageFallback then
          match p.2 with
          | [message] => v.badMessages.insert message.1
          | messages => messages.foldl (verifyMessage scheme) v.badMessages
        else v.badMessages }

def verify : Verifier S M Sig Key Hash :=
  if verifyBatch scheme secureVerification (v.messages.map Prod.snd) then v
  else v.messagesBySource.entries.foldl (verifySource scheme secureVerification) v

def pushMessage (sourceId : S) (msg : Message M Sig Key Hash) : Verifier S M Sig Key Hash :=
  let v := v.file sourceId msg.msgId msg
  if v.subBatchSize ≠ 0 ∧ v.subBatchSize ≤ v.messages.length then (verify scheme secureVerification v).clearMessages
  else v

def verifyAll (pushes : List (S × Message M Sig Key Hash)) : Verifier S M Sig Key Hash :=
  verify scheme secureVerification (pushes.foldl (fun v p => pushMessage scheme secureVerification v p.1 p.2) v)

end

end

def Consistent : Prop :=
  ∀ a ∈ msgs, ∀ b ∈ msgs, a.msgId = b.msgId → a = b

structure Grouped (byHash : List (HashEntry M Sig Key Hash)) : Prop where
  distinct : (byHash.map Sigma.fst).Nodup
  nonempty : ∀ p ∈ byHash, p.2 ≠ []
  hash : ∀ p ∈ byHash, ∀ msg ∈ p.2, msg.msgHash = p.1
  consistent : ∀ p ∈ byHash, ∀ q ∈ byHash, ∀ a ∈ p.2, ∀ b ∈ q.2, a.msgId = b.msgId → a = b

theorem byMessageHash_spec (hash : Hash) : (byMessageHash msgs).lookup hash =
      if msgs.any (fun msg => msg.msgHash = hash) then some (msgs.filter fun msg => msg.msgHash = hash) else none := by
  induction msgs using reverseRecOn with
  | nil => rfl
  | append_singleton msgs msg ih =>
    have step : byMessageHash (msgs ++ [msg]) = (byMessageHash msgs).insert msg.msgHash
        (((byMessageHash msgs).lookup msg.msgHash).getD [] ++ [msg]) := by
      simp [byMessageHash]
    rw [step]
    by_cases same : hash = msg.msgHash
    · subst same
      rw [lookup_insert, ih]
      by_cases some : msgs.any fun other => other.msgHash = msg.msgHash
      · simp [some]
      · have none : msgs.filter (fun other => other.msgHash = msg.msgHash) = [] := by
          simpa using some
        simp [some, none]
    · have differs : ¬ msg.msgHash = hash := fun equal => same equal.symm
      rw [lookup_insert_ne same, ih]
      simp [any_append, filter_append, differs]

variable {msgs : List (Message M Sig Key Hash)} {p : HashEntry M Sig Key Hash}

theorem mem_byMessageHash : p ∈ (byMessageHash msgs).entries ↔
      (∃ msg ∈ msgs, msg.msgHash = p.1) ∧ p.2 = msgs.filter fun msg => msg.msgHash = p.1 := by
  obtain ⟨hash, list⟩ := p
  rw [← mem_lookup_iff, byMessageHash_spec, Option.mem_def]
  by_cases some : msgs.any fun msg => msg.msgHash = hash
  · have member : ∃ msg ∈ msgs, msg.msgHash = hash := by simpa using some
    simp only [some, if_true, Option.some.injEq, member, true_and]
    exact eq_comm
  · have none : ¬ ∃ msg ∈ msgs, msg.msgHash = hash := by simpa using some
    simp [none]

variable {msg : Message M Sig Key Hash}

theorem mem_byMessageHash_msg : (∃ p ∈ (byMessageHash msgs).entries, msg ∈ p.2) ↔ msg ∈ msgs := by
  constructor
  · rintro ⟨p, entry, inside⟩
    rw [(mem_byMessageHash.mp entry).2] at inside
    exact (mem_filter.mp inside).1
  · intro member
    exact ⟨⟨msg.msgHash, msgs.filter fun other => other.msgHash = msg.msgHash⟩,
      mem_byMessageHash.mpr ⟨⟨msg, member, rfl⟩, rfl⟩, mem_filter.mpr ⟨member, by simp⟩⟩

theorem grouped_byMessageHash (consistent : Consistent msgs) : Grouped (byMessageHash msgs).entries where
  distinct := (byMessageHash msgs).nodupKeys
  nonempty p entry := by
    obtain ⟨⟨msg, member, same⟩, list⟩ := mem_byMessageHash.mp entry
    rw [list]
    exact ne_nil_of_mem (mem_filter.mpr ⟨member, by simpa using same⟩)
  hash p entry msg inside := by
    rw [(mem_byMessageHash.mp entry).2] at inside
    simpa using (mem_filter.mp inside).2
  consistent p entry q entry' a inside b inside' same :=
    consistent a (mem_byMessageHash_msg.mp ⟨p, entry, inside⟩) b (mem_byMessageHash_msg.mp ⟨q, entry', inside'⟩) same

variable {byHash : List (HashEntry M Sig Key Hash)}

theorem Grouped.tail (grouped : Grouped (p :: byHash)) : Grouped byHash where
  distinct := (nodup_cons.mp grouped.distinct).2
  nonempty q entry := grouped.nonempty q (.tail _ entry)
  hash q entry := grouped.hash q (.tail _ entry)
  consistent q entry r entry' := grouped.consistent q (.tail _ entry) r (.tail _ entry')

/-! ### The sum of the insecure mode -/

def fresh : List M → List (Message M Sig Key Hash) → List (Message M Sig Key Hash)
  | _, [] => []
  | dups, msg :: rest => if msg.msgId ∈ dups then fresh dups rest else msg :: fresh (msg.msgId :: dups) rest

open Message

def idsAfter (dups : List M) (msgs : List (Message M Sig Key Hash)) : List M :=
  ((fresh dups msgs).map msgId).reverse ++ dups

theorem foldl_addMessage (aggSig : List Sig) (aggPubKey : List Key) (dups : List M)
    (msgs : List (Message M Sig Key Hash)) : msgs.foldl addMessage (aggSig, aggPubKey, dups) =
      (aggSig ++ (fresh dups msgs).map sig, aggPubKey ++ (fresh dups msgs).map pubKey,
        idsAfter dups msgs) := by
  induction msgs generalizing aggSig aggPubKey dups with
  | nil => simp [fresh, idsAfter]
  | cons msg rest ih =>
    by_cases known : msg.msgId ∈ dups
    · simp [addMessage, fresh, idsAfter, known, ih]
    · simp [addMessage, fresh, idsAfter, known, ih]

def freshGroups : List M → List (HashEntry M Sig Key Hash) → List (Hash × List (Message M Sig Key Hash))
  | _, [] => []
  | dups, p :: rest =>
    if fresh dups p.2 = [] then freshGroups dups rest
    else (p.1, fresh dups p.2) :: freshGroups (idsAfter dups p.2) rest

theorem foldl_addHash (sums : Sums M Sig Key Hash) (byHash : List (HashEntry M Sig Key Hash)) :
    (byHash.foldl addHash sums).aggSig =
        sums.aggSig ++ (freshGroups sums.dups byHash).flatMap (fun group => group.2.map sig) ∧
      (byHash.foldl addHash sums).msgHashes = sums.msgHashes ++ (freshGroups sums.dups byHash).map Prod.fst ∧
      (byHash.foldl addHash sums).pubKeys =
        sums.pubKeys ++ (freshGroups sums.dups byHash).map fun group => group.2.map pubKey := by
  induction byHash generalizing sums with
  | nil => simp [freshGroups]
  | cons p rest ih =>
    rw [foldl_cons]
    have added := foldl_addMessage sums.aggSig ([] : List Key) sums.dups p.2
    by_cases none : fresh sums.dups p.2 = []
    · have step : addHash sums p = sums := by
        simp [addHash, added, none, idsAfter]
      rw [step, freshGroups, if_pos none]
      exact ih sums
    · have step : addHash sums p = ⟨sums.aggSig ++ (fresh sums.dups p.2).map sig, sums.msgHashes ++ [p.1],
          sums.pubKeys ++ [(fresh sums.dups p.2).map pubKey], idsAfter sums.dups p.2⟩ := by
        simp [addHash, added, none]
      rw [step, freshGroups, if_neg none]
      obtain ⟨sigs, hashes, keys⟩ := ih ⟨sums.aggSig ++ (fresh sums.dups p.2).map sig, sums.msgHashes ++ [p.1],
          sums.pubKeys ++ [(fresh sums.dups p.2).map pubKey], idsAfter sums.dups p.2⟩
      rw [sigs, hashes, keys]
      simp

variable {dups : List M}

theorem mem_fresh (member : msg ∈ fresh dups msgs) : msg ∈ msgs := by
  induction msgs generalizing dups with
  | nil => exact member
  | cons first rest ih =>
    rw [fresh] at member
    split_ifs at member with known
    · exact .tail _ (ih member)
    · rcases mem_cons.mp member with rfl | later
      · exact .head _
      · exact .tail _ (ih later)

theorem exists_fresh
    (member : msg ∈ msgs) (unknown : msg.msgId ∉ dups) : ∃ other ∈ fresh dups msgs, other.msgId = msg.msgId := by
  induction msgs generalizing dups with
  | nil => cases member
  | cons first rest ih =>
    rw [fresh]
    rcases mem_cons.mp member with rfl | later
    · rw [if_neg unknown]
      exact ⟨msg, .head _, rfl⟩
    · split_ifs with known
      · exact ih later unknown
      · by_cases same : first.msgId = msg.msgId
        · exact ⟨first, .head _, same⟩
        · have new : msg.msgId ∉ first.msgId :: dups := by simp [unknown, Ne.symm same]
          obtain ⟨other, inside, equal⟩ := ih later new
          exact ⟨other, .tail _ inside, equal⟩

theorem mem_freshGroups {group : Hash × List (Message M Sig Key Hash)} (member : group ∈ freshGroups dups byHash) :
    group.2 ≠ [] ∧ ∃ p ∈ byHash, group.1 = p.1 ∧ ∀ msg ∈ group.2, msg ∈ p.2 := by
  induction byHash generalizing dups with
  | nil => cases member
  | cons p rest ih =>
    rw [freshGroups] at member
    split_ifs at member with none
    · obtain ⟨some, q, entry, spec⟩ := ih member
      exact ⟨some, q, .tail _ entry, spec⟩
    · rcases mem_cons.mp member with rfl | later
      · exact ⟨none, p, .head _, rfl, fun msg => mem_fresh⟩
      · obtain ⟨some, q, entry, spec⟩ := ih later
        exact ⟨some, q, .tail _ entry, spec⟩

theorem freshGroups_sublist (dups : List M) (byHash : List (HashEntry M Sig Key Hash)) :
    ((freshGroups dups byHash).map Prod.fst).Sublist (byHash.map Sigma.fst) := by
  induction byHash generalizing dups with
  | nil => exact Sublist.refl _
  | cons p rest ih =>
    rw [freshGroups]
    split_ifs with none
    · exact (ih dups).cons _
    · exact (ih _).cons_cons _

theorem exists_freshGroups (entry : p ∈ byHash) (inside : msg ∈ p.2) (unknown : msg.msgId ∉ dups) :
    ∃ group ∈ freshGroups dups byHash, ∃ other ∈ group.2, other.msgId = msg.msgId := by
  induction byHash generalizing dups with
  | nil => cases entry
  | cons q rest ih =>
    rw [freshGroups]
    split_ifs with none
    · rcases mem_cons.mp entry with rfl | later
      · obtain ⟨other, added, -⟩ := exists_fresh inside unknown
        rw [none] at added
        cases added
      · exact ih later unknown
    · by_cases known : msg.msgId ∈ idsAfter dups q.2
      · rw [idsAfter, mem_append, mem_reverse, mem_map] at known
        obtain ⟨other, added, same⟩ := known.resolve_right unknown
        exact ⟨_, .head _, other, added, same⟩
      · rcases mem_cons.mp entry with rfl | later
        · obtain ⟨other, added, same⟩ := exists_fresh inside unknown
          exact ⟨_, .head _, other, added, same⟩
        · obtain ⟨group, added, spec⟩ := ih later known
          exact ⟨group, .tail _ added, spec⟩

variable (scheme : Aggregates.Scheme Sig Key Hash)

theorem verifyBatchInsecure_spec (grouped : Grouped byHash) :
    verifyBatchInsecure scheme byHash = true ↔ ∀ p ∈ byHash, ∀ msg ∈ p.2, verifyOne scheme msg = true := by
  obtain ⟨sigs, hashes, keys⟩ := foldl_addHash ({} : Sums M Sig Key Hash) byHash
  simp only [nil_append] at sigs hashes keys
  rw [verifyBatchInsecure, sigs, hashes, keys]
  -- A message that is left out has the id of one that is added, and is that message.
  have added : (∀ group ∈ freshGroups [] byHash, ∀ msg ∈ group.2, verifyOne scheme msg = true) ↔
      ∀ p ∈ byHash, ∀ msg ∈ p.2, verifyOne scheme msg = true := by
    constructor
    · intro all p entry msg inside
      have unknown : msg.msgId ∉ ([] : List M) := not_mem_nil
      obtain ⟨group, member, other, inGroup, same⟩ := exists_freshGroups entry inside unknown
      obtain ⟨-, q, entry', -, belongs⟩ := mem_freshGroups member
      rw [← grouped.consistent q entry' p entry other (belongs other inGroup) msg inside same]
      exact all group member other inGroup
    · intro all group member msg inGroup
      obtain ⟨-, q, entry, -, belongs⟩ := mem_freshGroups member
      exact all q entry msg (belongs msg inGroup)
  rw [← added]
  by_cases none : freshGroups [] byHash = []
  · simp [none]
  · let parts : Aggregates.Parts Sig Key Hash :=
      (freshGroups [] byHash).map fun group => (group.1, group.2.map fun msg => (msg.sig, msg.pubKey))
    have exact := scheme.exact parts (by simpa [parts] using none)
      (by simpa [parts, comp_def] using grouped.distinct.sublist (freshGroups_sublist [] byHash))
      (by
        intro part member
        obtain ⟨group, inside, rfl⟩ := mem_map.mp member
        simpa using (mem_freshGroups inside).1)
    have sums : scheme.verifyAggregated ((freshGroups [] byHash).flatMap fun group => group.2.map sig)
        ((freshGroups [] byHash).map fun group => group.2.map pubKey) ((freshGroups [] byHash).map Prod.fst) =
          parts.all fun part => part.2.all fun signed => scheme.verify signed.1 signed.2 part.1 := by
      rw [← exact]
      simp [parts, flatMap_map, comp_def]
    have some : ((freshGroups [] byHash).map Prod.fst).isEmpty = false := by simpa using none
    rw [some, Bool.false_or, sums]
    simp only [parts, all_map, all_eq_true, comp_apply, verifyOne]
    refine forall₂_congr fun group member => forall₂_congr fun msg inGroup => ?_
    obtain ⟨-, q, entry, same, belongs⟩ := mem_freshGroups member
    rw [same, grouped.hash q entry msg (belongs msg inGroup)]

/-! ### The rounds of the secure mode -/

def lasts (byHash : List (HashEntry M Sig Key Hash)) : List (Message M Sig Key Hash) :=
  byHash.filterMap fun p => p.2.getLast?

def leftOver (byHash : List (HashEntry M Sig Key Hash)) : List (HashEntry M Sig Key Hash) :=
  byHash.filterMap fun p => if p.2.dropLast.isEmpty then none else some ⟨p.1, p.2.dropLast⟩

theorem leftOver_cons (p : HashEntry M Sig Key Hash) (rest : List (HashEntry M Sig Key Hash)) :
    leftOver (p :: rest) = (if p.2.dropLast.isEmpty then [] else [⟨p.1, p.2.dropLast⟩]) ++ leftOver rest := by
  rw [leftOver, filterMap_cons]
  by_cases empty : p.2.dropLast.isEmpty
  · simp only [empty, if_true, nil_append]
    rfl
  · simp only [empty, Bool.false_eq_true, if_false, cons_append, nil_append]
    rfl

theorem mem_leftOver : p ∈ leftOver byHash ↔ ∃ q ∈ byHash, q.2.dropLast ≠ [] ∧ p = ⟨q.1, q.2.dropLast⟩ := by
  simp [leftOver, @eq_comm _ p]

section
variable (grouped : Grouped byHash)
include grouped

theorem Grouped.last (entry : p ∈ byHash) :
    ∃ msg ∈ p.2, p.2.getLast? = some msg ∧ p.2 = p.2.dropLast ++ [msg] ∧ msg.msgHash = p.1 := by
  have some := grouped.nonempty p entry
  exact ⟨p.2.getLast some, getLast_mem some, getLast?_eq_some_getLast some,
    (dropLast_append_getLast some).symm, grouped.hash p entry _ (getLast_mem some)⟩

theorem foldl_popHash (sums : Sums M Sig Key Hash) (left : List (HashEntry M Sig Key Hash))
    (unknown : ∀ p ∈ byHash, ∀ msg ∈ p.2, msg.msgId ∉ sums.dups) : byHash.foldl popHash (sums, left) =
      (⟨sums.aggSig ++ (lasts byHash).map sig, sums.msgHashes ++ (lasts byHash).map msgHash,
        sums.pubKeys ++ (lasts byHash).map (fun msg => [msg.pubKey]),
        ((lasts byHash).map msgId).reverse ++ sums.dups⟩, left ++ leftOver byHash) := by
  induction byHash generalizing sums left with
  | nil => simp [lasts, leftOver]
  | cons p rest ih =>
    obtain ⟨msg, inside, last, -, hash⟩ := grouped.last (.head _)
    have new : msg.msgId ∉ sums.dups := unknown p (.head _) msg inside
    have step : popHash (sums, left) p =
        (⟨sums.aggSig ++ [msg.sig], sums.msgHashes ++ [msg.msgHash], sums.pubKeys ++ [[msg.pubKey]],
          msg.msgId :: sums.dups⟩, left ++ if p.2.dropLast.isEmpty then [] else [⟨p.1, p.2.dropLast⟩]) := by
      by_cases empty : p.2.dropLast.isEmpty
      · simp [popHash, last, new, hash, empty]
      · simp [popHash, last, new, hash, empty]
    -- A later hash has none of the ids of this one, since an id has one message and that one hash.
    have later : ∀ q ∈ rest, ∀ other ∈ q.2, other.msgId ∉ msg.msgId :: sums.dups := by
      intro q entry other inQ known
      rcases mem_cons.mp known with same | old
      · have equal := grouped.consistent q (.tail _ entry) p (.head _) other inQ msg inside same
        have hashes : q.1 = p.1 := by
          rw [← hash, ← equal, grouped.hash q (.tail _ entry) other inQ]
        exact (nodup_cons.mp grouped.distinct).1 (hashes ▸ mem_map_of_mem entry)
      · exact unknown q (.tail _ entry) other inQ old
    rw [foldl_cons, step, ih grouped.tail _ _ later]
    have first : lasts (p :: rest) = msg :: lasts rest := by simp [lasts, last]
    rw [first, leftOver_cons]
    simp [map_cons, reverse_cons, append_assoc, cons_append, nil_append]

theorem lasts_hashes : (lasts byHash).map msgHash = byHash.map Sigma.fst := by
  induction byHash with
  | nil => rfl
  | cons p rest ih =>
    obtain ⟨msg, -, last, -, hash⟩ := grouped.last (.head _)
    have first : lasts (p :: rest) = msg :: lasts rest := by simp [lasts, last]
    rw [first, map_cons, map_cons, hash, ih grouped.tail]

theorem verifyBatchSecureStep_spec (some : byHash ≠ []) :
    verifyBatchSecureStep scheme byHash = ((lasts byHash).all (verifyOne scheme), leftOver byHash) := by
  have popped := foldl_popHash grouped ({} : Sums M Sig Key Hash) [] (by simp)
  have hashes := lasts_hashes grouped
  have nonempty : (lasts byHash).map (fun msg => (msg.msgHash, msg.sig, msg.pubKey)) ≠ [] := by
    intro none
    rw [map_eq_nil_iff.mp none, map_nil, eq_comm, map_eq_nil_iff] at hashes
    exact some hashes
  have single := scheme.verifyAggregated_singles nonempty (by simpa [comp_def, hashes] using grouped.distinct)
  simp only [map_map, comp_def, all_map] at single
  simp only [verifyBatchSecureStep, popped, nil_append, single]
  rfl

theorem forall_lasts_leftOver {property : Message M Sig Key Hash → Prop} : (∀ p ∈ byHash, ∀ msg ∈ p.2, property msg) ↔
      (∀ msg ∈ lasts byHash, property msg) ∧ ∀ p ∈ leftOver byHash, ∀ msg ∈ p.2, property msg := by
  simp only [lasts, mem_filterMap, mem_leftOver]
  constructor
  · intro all
    constructor
    · rintro msg ⟨p, entry, last⟩
      exact all p entry msg (mem_of_getLast? last)
    · rintro _ ⟨p, entry, -, rfl⟩ msg inside
      exact all p entry msg (dropLast_subset _ inside)
  · rintro ⟨ends, lefts⟩ p entry msg inside
    obtain ⟨final, -, last, split, -⟩ := grouped.last entry
    rw [split, mem_append, mem_singleton] at inside
    rcases inside with before | rfl
    · exact lefts _ ⟨p, entry, ne_nil_of_mem before, rfl⟩ msg before
    · exact ends msg ⟨p, entry, last⟩

theorem Grouped.leftOver : Grouped (leftOver byHash) := by
  have origin : ∀ q ∈ BlsBatch.leftOver byHash, q.2 ≠ [] ∧ ∃ p ∈ byHash, q.1 = p.1 ∧ ∀ msg ∈ q.2, msg ∈ p.2 := by
    intro q member
    obtain ⟨p, entry, nonempty, rfl⟩ := mem_leftOver.mp member
    exact ⟨nonempty, p, entry, rfl, fun msg inside => dropLast_subset _ inside⟩
  refine ⟨?_, fun q member => (origin q member).1, ?_, ?_⟩
  · refine grouped.distinct.sublist ?_
    clear origin grouped
    induction byHash with
    | nil => exact Sublist.refl _
    | cons p rest ih =>
      rw [leftOver_cons]
      split_ifs with empty
      · exact ih.cons _
      · exact ih.cons_cons _
  · intro q member msg inside
    obtain ⟨-, p, entry, same, belongs⟩ := origin q member
    rw [same, grouped.hash p entry msg (belongs msg inside)]
  · intro q member r member' a inside b inside' same
    obtain ⟨-, p, entry, -, belongs⟩ := origin q member
    obtain ⟨-, p', entry', -, belongs'⟩ := origin r member'
    exact grouped.consistent p entry p' entry' a (belongs a inside) b (belongs' b inside') same

end

theorem length_leftOver {rounds : Nat}
    (enough : ∀ p ∈ byHash, p.2.length ≤ rounds + 1) : ∀ p ∈ leftOver byHash, p.2.length ≤ rounds := by
  intro q member
  obtain ⟨p, entry, -, rfl⟩ := mem_leftOver.mp member
  rw [length_dropLast]
  exact Nat.sub_le_of_le_add (enough p entry)

theorem verifyBatchSecure_spec {rounds : Nat} (grouped : Grouped byHash)
    (enough : ∀ p ∈ byHash, p.2.length ≤ rounds) :
    verifyBatchSecure scheme rounds byHash = true ↔ ∀ p ∈ byHash, ∀ msg ∈ p.2, verifyOne scheme msg = true := by
  induction rounds generalizing byHash with
  | zero =>
    cases byHash with
    | nil => simp [verifyBatchSecure]
    | cons p rest =>
      have empty := eq_nil_of_length_eq_zero (Nat.le_zero.mp (enough p (.head _)))
      exact absurd empty (grouped.nonempty p (.head _))
  | succ rounds ih =>
    cases byHash with
    | nil => simp [verifyBatchSecure]
    | cons p rest =>
      rw [verifyBatchSecure, verifyBatchSecureStep_spec scheme grouped (cons_ne_nil _ _), Bool.and_eq_true,
        all_eq_true, ih grouped.leftOver (length_leftOver enough), ← forall_lasts_leftOver grouped]

theorem verifyBatch_spec (secureVerification : Bool) (consistent : Consistent msgs) :
    verifyBatch scheme secureVerification msgs = msgs.all (verifyOne scheme) := by
  have grouped := grouped_byMessageHash consistent
  have all : (∀ p ∈ (byMessageHash msgs).entries, ∀ msg ∈ p.2, verifyOne scheme msg = true) ↔
      msgs.all (verifyOne scheme) = true := by
    rw [all_eq_true]
    constructor
    · intro every msg member
      obtain ⟨p, entry, inside⟩ := mem_byMessageHash_msg.mpr member
      exact every p entry msg inside
    · intro every p entry msg inside
      exact every msg (mem_byMessageHash_msg.mp ⟨p, entry, inside⟩)
  rw [Bool.eq_iff_iff, ← all, verifyBatch]
  cases secureVerification with
  | true =>
    refine verifyBatchSecure_spec scheme grouped fun p entry => ?_
    rw [(mem_byMessageHash.mp entry).2]
    exact length_filter_le _ _
  | false => exact verifyBatchInsecure_spec scheme grouped

def plain (scheme : Aggregates.Scheme Sig Key Hash) : Scheme (Message M Sig Key Hash) where
  verifyInsecure := verifyOne scheme
  verifyBatch msgs := msgs.all (verifyOne scheme)
  exact _ := rfl

/-- What the verifier holds: one message for each id, and for each source some of these messages. -/
structure Filed (v : Verifier S M Sig Key Hash) : Prop where
  id : ∀ message ∈ v.messages, message.2.msgId = message.1
  distinct : (v.messages.map Prod.fst).Nodup
  bySource : ∀ p ∈ v.messagesBySource.entries, ∀ message ∈ p.2, message ∈ v.messages

variable {v : Verifier S M Sig Key Hash}

theorem filed_of_empty (messages : v.messages = []) (bySource : v.messagesBySource = ∅) : Filed v :=
  ⟨by simp [messages], by simp [messages], by simp [bySource]⟩

theorem Filed.consistent (filed : Filed v) {list : List (M × Message M Sig Key Hash)}
    (held : ∀ message ∈ list, message ∈ v.messages) : Consistent (list.map Prod.snd) := by
  intro a inside b inside' same
  obtain ⟨x, member, rfl⟩ := mem_map.mp inside
  obtain ⟨y, member', rfl⟩ := mem_map.mp inside'
  rw [filed.id x (held x member), filed.id y (held y member')] at same
  rw [inj_on_of_nodup_map filed.distinct (held x member) (held y member') same]

theorem Filed.file (filed : Filed v) (sourceId : S) (msg : Message M Sig Key Hash) :
    Filed (v.file sourceId msg.msgId msg) := by
  -- The lists by source grow by a message that is stored.
  have bySource : ∀ message, (∀ other ∈ v.messages, other ∈ (v.file sourceId msg.msgId msg).messages) →
      message ∈ (v.file sourceId msg.msgId msg).messages →
      ∀ p ∈ (v.messagesBySource.insert sourceId ((v.messagesBySource.lookup sourceId).getD [] ++ [message])).entries,
        ∀ other ∈ p.2, other ∈ (v.file sourceId msg.msgId msg).messages := by
    rintro message grows isStored ⟨source, list⟩ entry other inside
    have found := mem_lookup_iff.mpr entry
    by_cases same : source = sourceId
    · subst same
      rw [lookup_insert, Option.mem_some_iff] at found
      subst found
      rcases mem_append.mp inside with old | last
      · cases before : v.messagesBySource.lookup source with
        | none =>
          rw [before] at old
          cases old
        | some list =>
          rw [before] at old
          exact grows other (filed.bySource ⟨source, list⟩ (mem_lookup_iff.mp before) other old)
      · rw [mem_singleton.mp last]
        exact isStored
    · rw [lookup_insert_ne same] at found
      exact grows other (filed.bySource ⟨source, list⟩ (mem_lookup_iff.mp found) other inside)
  cases known : v.messages.find? fun message => message.1 = msg.msgId with
  | none =>
    have messages : (v.file sourceId msg.msgId msg).messages = v.messages ++ [(msg.msgId, msg)] := by
      simp [CBLSBatchVerifier.file, known]
    have new : msg.msgId ∉ v.messages.map Prod.fst := by
      rw [find?_eq_none] at known
      intro inside
      obtain ⟨message, held, same⟩ := mem_map.mp inside
      exact known message held (by simpa using same)
    refine ⟨?_, ?_, ?_⟩
    · rw [messages]
      intro message inside
      rcases mem_append.mp inside with held | last
      · exact filed.id message held
      · rw [mem_singleton.mp last]
    · rw [messages, map_append]
      exact filed.distinct.append (nodup_singleton _) (by simpa using new)
    · have lists := bySource (msg.msgId, msg) (fun other held => messages ▸ mem_append_left _ held)
        (by simp [messages])
      simpa [CBLSBatchVerifier.file, known] using lists
  | some old =>
    have messages : (v.file sourceId msg.msgId msg).messages = v.messages := by
      simp [CBLSBatchVerifier.file, known]
    refine ⟨?_, ?_, ?_⟩
    · rw [messages]
      exact filed.id
    · rw [messages]
      exact filed.distinct
    · have lists := bySource old (by simp [messages]) (by rw [messages]; exact mem_of_find?_eq_some known)
      simpa [CBLSBatchVerifier.file, known] using lists

variable (secureVerification : Bool)

theorem Filed.verify_eq (filed : Filed v) : verify scheme secureVerification v = v.verify (plain scheme) := by
  rw [verify, CBLSBatchVerifier.verify, verifyBatch_spec scheme secureVerification (filed.consistent fun _ held => held),
    foldl_ext _ (CBLSBatchVerifier.verifySource (plain scheme)) _ ?_]
  · rfl
  · intro w p entry
    rw [verifySource, CBLSBatchVerifier.verifySource,
      verifyBatch_spec scheme secureVerification (filed.consistent (filed.bySource p entry))]
    obtain ⟨source, messages⟩ := p
    rcases messages with _ | ⟨_, _ | _⟩ <;> rfl

/-! ### Who is blamed -/

/-- A message that was pushed, and the message that its source is judged by. -/
structure Judgement (S M Sig Key Hash : Type) where
  source : S
  msg : Message M Sig Key Hash
  judgedBy : Message M Sig Key Hash

/-- The first message of an id in a batch stands in for the later ones. -/
def judgements (subBatchSize : Nat) :
    List (Message M Sig Key Hash) → List (S × Message M Sig Key Hash) → List (Judgement S M Sig Key Hash)
  | _, [] => []
  | held, (source, msg) :: rest =>
    let known := held.find? fun other => other.msgId = msg.msgId
    let after := if known.isSome then held else held ++ [msg]
    ⟨source, msg, known.getD msg⟩ ::
      judgements subBatchSize (if subBatchSize ≠ 0 ∧ subBatchSize ≤ after.length then [] else after) rest

theorem judgements_id {subBatchSize : Nat} {held : List (Message M Sig Key Hash)}
    {pushes : List (S × Message M Sig Key Hash)} {j : Judgement S M Sig Key Hash}
    (member : j ∈ judgements subBatchSize held pushes) :
    j.judgedBy.msgId = j.msg.msgId ∧ (j.judgedBy ∈ held ∨ ∃ p ∈ pushes, p.2 = j.judgedBy) := by
  induction pushes generalizing held with
  | nil => cases member
  | cons p rest ih =>
    rcases mem_cons.mp member with rfl | later
    · cases known : held.find? fun other => other.msgId = p.2.msgId with
      | none => exact ⟨rfl, .inr ⟨p, .head _, rfl⟩⟩
      | some old =>
        have found := find?_some known
        exact ⟨by simpa using found, .inl (mem_of_find?_eq_some known)⟩
    · obtain ⟨same, origin⟩ := ih later
      refine ⟨same, ?_⟩
      rcases origin with inHeld | ⟨q, inside, equal⟩
      · by_cases known : (held.find? fun other => other.msgId = p.2.msgId).isSome
        · simp only [known, if_true] at inHeld
          split_ifs at inHeld with full
          · cases inHeld
          · exact .inl inHeld
        · simp only [known, Bool.false_eq_true, if_false] at inHeld
          split_ifs at inHeld with full
          · cases inHeld
          · rcases mem_append.mp inHeld with old | last
            · exact .inl old
            · exact .inr ⟨p, .head _, (mem_singleton.mp last).symm⟩
      · exact .inr ⟨q, .tail _ inside, equal⟩

def Judgement.checked (j : Judgement S M Sig Key Hash) : S × M × Message M Sig Key Hash :=
  (j.source, j.msg.msgId, j.judgedBy)

theorem Verified.trans {Msg : Type} {scheme : Scheme Msg} {v w after : CBLSBatchVerifier S M Msg}
    {log log' : List (S × M × Msg)} (first : v.Verified scheme log w) (second : w.Verified scheme log' after) :
    v.Verified scheme (log ++ log') after := by
  refine ⟨fun source => ?_, fun id => ?_, second.perMessageFallback.trans first.perMessageFallback,
    second.subBatchSize.trans first.subBatchSize⟩
  · rw [second.badSources, first.badSources, or_assoc]
    simp [or_and_right, exists_or]
  · rw [second.badMessages, first.badMessages, or_assoc]
    simp [or_and_right, exists_or]

theorem Filed.judgedBy (filed : Filed v) (msg : Message M Sig Key Hash) :
    (v.messages.find? fun message => message.1 = msg.msgId).getD (msg.msgId, msg) =
        (msg.msgId, ((v.messages.map Prod.snd).find? fun other => other.msgId = msg.msgId).getD msg) ∧
      (v.messages.find? fun message => message.1 = msg.msgId).isSome =
        ((v.messages.map Prod.snd).find? fun other => other.msgId = msg.msgId).isSome := by
  have same : (v.messages.map Prod.snd).find? (fun other => other.msgId = msg.msgId) =
      (v.messages.find? fun message => message.1 = msg.msgId).map Prod.snd := by
    rw [find?_map]
    congr 1
    refine find?_congr fun message held => ?_
    rw [comp_apply, filed.id message held]
  rw [same, Option.isSome_map]
  cases known : v.messages.find? fun message => message.1 = msg.msgId with
  | none => exact ⟨rfl, rfl⟩
  | some old =>
    have found : old.1 = msg.msgId := by simpa using find?_some known
    exact ⟨Prod.ext found rfl, rfl⟩

theorem verifyAll_spec (pushes : List (S × Message M Sig Key Hash)) {log : List (S × M × Message M Sig Key Hash)}
    (filed : Filed v) (lists : v.Lists log) (fallback : v.perMessageFallback = true) : v.Verified (plain scheme)
      (log ++ (judgements v.subBatchSize (v.messages.map Prod.snd) pushes).map Judgement.checked)
      (verifyAll scheme secureVerification v pushes) := by
  induction pushes generalizing v log with
  | nil =>
    have verified : v.Verified (plain scheme) log _ := lists.verify fallback
    rw [judgements, map_nil, append_nil, verifyAll, foldl_nil, filed.verify_eq]
    exact verified
  | cons p rest ih =>
    obtain ⟨source, msg⟩ := p
    obtain ⟨stands, known⟩ := filed.judgedBy msg
    have filed' := filed.file source msg
    have lists' := lists.file source msg.msgId msg
    rw [stands] at lists'
    have verified : (v.file source msg.msgId msg).Verified (plain scheme) _ _ := lists'.verify fallback
    have held : (v.file source msg.msgId msg).messages.map Prod.snd =
        if ((v.messages.map Prod.snd).find? fun other => other.msgId = msg.msgId).isSome then v.messages.map Prod.snd
        else v.messages.map Prod.snd ++ [msg] := by
      rw [file, ← known]
      split_ifs
      · rfl
      · rw [map_append]
        rfl
    have length : (v.file source msg.msgId msg).messages.length =
        ((v.file source msg.msgId msg).messages.map Prod.snd).length := by rw [length_map]
    have next : verifyAll scheme secureVerification v ((source, msg) :: rest) =
        verifyAll scheme secureVerification (pushMessage scheme secureVerification v source msg) rest := rfl
    rw [next, judgements, map_cons, ← held]
    by_cases full : v.subBatchSize ≠ 0 ∧ v.subBatchSize ≤ ((v.file source msg.msgId msg).messages.map Prod.snd).length
    · have pushed : pushMessage scheme secureVerification v source msg =
          ((v.file source msg.msgId msg).verify (plain scheme)).clearMessages := by
        rw [pushMessage, filed'.verify_eq, length]
        exact if_pos full
      have now : v.Verified (plain scheme) _ ((v.file source msg.msgId msg).verify (plain scheme)).clearMessages :=
        { verified with }
      have later := ih (filed_of_empty rfl rfl) (holds_nil rfl rfl).lists
        (now.perMessageFallback.trans fallback)
      rw [now.subBatchSize] at later
      have both := Verified.trans now later
      rw [append_assoc] at both
      rw [pushed, if_pos full]
      exact both
    · have pushed : pushMessage scheme secureVerification v source msg = v.file source msg.msgId msg := by
        rw [pushMessage, length]
        exact if_neg full
      rw [if_neg full, pushed]
      have later := ih filed' lists' fallback
      rw [append_assoc] at later
      exact { later with }

/-- An id is bad exactly if a message pushed under it is invalid, and a source exactly if it pushed one. -/
def BlamesExactly (scheme : Aggregates.Scheme Sig Key Hash) (pushes : List (S × Message M Sig Key Hash))
    (after : Verifier S M Sig Key Hash) : Prop :=
  (∀ id, id ∈ after.badMessages ↔ ∃ p ∈ pushes, p.2.msgId = id ∧ verifyOne scheme p.2 = false) ∧
    ∀ source, source ∈ after.badSources ↔ ∃ p ∈ pushes, p.1 = source ∧ verifyOne scheme p.2 = false

/-- The stand-ins make no difference: an invalid message has one under its id, and a source is judged as by its own
messages. -/
structure StandInsAgree (scheme : Aggregates.Scheme Sig Key Hash) (subBatchSize : Nat)
    (pushes : List (S × Message M Sig Key Hash)) : Prop where
  ids : ∀ p ∈ pushes, verifyOne scheme p.2 = false →
    ∃ j ∈ judgements subBatchSize [] pushes, j.msg.msgId = p.2.msgId ∧ verifyOne scheme j.judgedBy = false
  sources : ∀ source,
    (∃ j ∈ judgements subBatchSize [] pushes, j.source = source ∧ verifyOne scheme j.judgedBy = false) ↔
      ∃ p ∈ pushes, p.1 = source ∧ verifyOne scheme p.2 = false

theorem mem_bad (subBatchSize : Nat) (pushes : List (S × Message M Sig Key Hash)) :
    (∀ id, id ∈ (verifyAll scheme secureVerification (.new true subBatchSize) pushes).badMessages ↔
        ∃ j ∈ judgements subBatchSize [] pushes, j.msg.msgId = id ∧ verifyOne scheme j.judgedBy = false) ∧
      ∀ source, source ∈ (verifyAll scheme secureVerification (.new true subBatchSize) pushes).badSources ↔
        ∃ j ∈ judgements subBatchSize [] pushes, j.source = source ∧ verifyOne scheme j.judgedBy = false := by
  have empty : (new true subBatchSize : Verifier S M Sig Key Hash).Lists [] :=
    (holds_nil rfl rfl).lists
  have spec := verifyAll_spec scheme secureVerification pushes (filed_of_empty rfl rfl) empty rfl
  constructor
  · intro id
    rw [spec.badMessages]
    simp [new, Judgement.checked, plain]
  · intro source
    rw [spec.badSources]
    simp [new, Judgement.checked, plain]

theorem blamesExactly_iff (scheme : Aggregates.Scheme Sig Key Hash) (secureVerification : Bool) (subBatchSize : Nat)
    (pushes : List (S × Message M Sig Key Hash)) :
    BlamesExactly scheme pushes (verifyAll scheme secureVerification (.new true subBatchSize) pushes) ↔
      StandInsAgree scheme subBatchSize pushes := by
  obtain ⟨badMessages, badSources⟩ := mem_bad scheme secureVerification subBatchSize pushes
  simp only [BlamesExactly, badMessages, badSources]
  constructor
  · rintro ⟨ids, sources⟩
    exact ⟨fun p member invalid => (ids p.2.msgId).mpr ⟨p, member, rfl, invalid⟩, sources⟩
  · intro agree
    refine ⟨fun id => ⟨?_, ?_⟩, agree.sources⟩
    · rintro ⟨j, member, rfl, invalid⟩
      obtain ⟨same, held | ⟨p, pushed, isJudge⟩⟩ := judgements_id member
      · cases held
      · exact ⟨p, pushed, by rw [isJudge, same], by rw [isJudge]; exact invalid⟩
    · rintro ⟨p, member, rfl, invalid⟩
      exact agree.ids p member invalid

/-- Two sources push a message under one id. The first verifies and stands in for the second, which does not. -/
def sharedId : List (Nat × Message Nat Nat Nat Nat) := [(1, ⟨7, 5, 9, 4⟩), (2, ⟨7, 5, 8, 4⟩)]

theorem sharedId_unblamed :
    ¬ BlamesExactly (Aggregates.Scheme.ofVerify fun sig key hash => decide (sig = key + hash)) sharedId
      (verifyAll (Aggregates.Scheme.ofVerify fun sig key hash => decide (sig = key + hash)) true (.new true 0)
        sharedId) := by
  rintro ⟨-, sources⟩
  have blamed := (sources 2).mpr ⟨(2, ⟨7, 5, 8, 4⟩), by decide, by decide⟩
  revert blamed
  decide

end Cspn.BlsBatch
