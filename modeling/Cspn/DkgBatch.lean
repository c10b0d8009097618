import Cspn.Aggregates
import Cspn.Folds

/-!
The signature check of a batch of DKG messages. The signatures are added up and verified at once. If that fails, the
loop that asks whether all came from one node never leaves its first branch, so the node of the last message alone is
blamed. Only where two have the same hash are they verified one by one.
-/
namespace Cspn.DkgBatch
open List Function Except
set_option linter.unusedSectionVars false

/-- How a call is aborted: by an assertion of the BLS classes, or at a member that is not there. -/
inductive Failure where
  | assertion
  | nullMember
deriving DecidableEq

/-- The operator key of a message's member, its signature and what is signed; `none` for an invalid object. -/
structure Session (Msg Sig Key Hash : Type) where
  scheme : Aggregates.Scheme Sig Key Hash
  getMember : Msg → Option (Option Key)
  sig : Msg → Option Sig
  getSignHash : Msg → Hash

variable {Msg Sig Key Hash : Type} [DecidableEq Hash]

section
variable (scheme : Aggregates.Scheme Sig Key Hash)

def verifyInsecure (sig : Option Sig) (pubKey : Option Key) (hash : Hash) : Bool :=
  match sig, pubKey with
  | some sig, some pubKey => scheme.verify sig pubKey hash
  | _, _ => false

/-- A sum is the list of its parts; the sum that is not valid is `none`. -/
def verifyInsecureAggregated (aggSig : Option (List Sig)) (pubKeys : List (Option Key)) (hashes : List Hash) : Bool :=
  match aggSig with
  | none => false
  | some sigs =>
    pubKeys.all Option.isSome && scheme.verifyAggregated sigs (pubKeys.reduceOption.map fun key => [key]) hashes

def aggregateInsecure (aggSig : Option (List Sig)) (sig : Option Sig) : Except Failure (Option (List Sig)) :=
  match aggSig, sig with
  | some sigs, some sig => .ok (some (sigs ++ [sig]))
  | _, _ => .error .assertion

end

namespace Session
variable (session : Session Msg Sig Key Hash)

structure Sums (Sig Key Hash : Type) where
  ret : List Int := []
  first : Bool := true
  aggSig : Option (List Sig) := none
  pubKeys : List (Option Key) := []
  messageHashes : List Hash := []

def Sums.addSig (sums : Sums Sig Key Hash) (sig : Option Sig) : Except Failure (Option (List Sig)) :=
  if sums.first then .ok (sig.map fun sig => [sig]) else aggregateInsecure sums.aggSig sig

/-- The first loop, and whether it ended at a hash that was there already. -/
def addUp (sums : Sums Sig Key Hash) : List (Int × Msg) → Except Failure (Sums Sig Key Hash × Bool)
  | [] => .ok (sums, false)
  | p :: rest =>
    match session.getMember p.2 with
    | none => addUp { sums with ret := sums.ret.insert p.1 } rest
    | some pubKey => do
      let aggSig ← sums.addSig (session.sig p.2)
      let msgHash := session.getSignHash p.2
      if msgHash ∈ sums.messageHashes then .ok ({ sums with first := false, aggSig }, true)
      else
        addUp ⟨sums.ret, false, aggSig, sums.pubKeys ++ [pubKey], sums.messageHashes ++ [msgHash]⟩ rest

/-- The loop over the nodes: `firstNodeId` and `nodeIdsAllSame`. The flag `first` is only cleared in the branch
in which it is clear. -/
def compareNodes (first : Bool) (firstNodeId : Option Int) : List (Int × Msg) → Option Int × Bool
  | [] => (firstNodeId, true)
  | p :: rest =>
    if first then compareNodes first (some p.1) rest
    else if some p.1 ≠ firstNodeId then (firstNodeId, false)
    else compareNodes false firstNodeId rest

def verifySingle (ret : List Int) (p : Int × Msg) : Except Failure (List Int) :=
  if p.1 ∈ ret then .ok ret
  else
    match session.getMember p.2 with
    | none => .error .nullMember
    | some pubKey =>
      if verifyInsecure session.scheme (session.sig p.2) pubKey (session.getSignHash p.2) then .ok ret
      else .ok (ret.insert p.1)

def batchVerifyMessageSigs (messages : List (Int × Msg)) : Except Failure (List Int) :=
  if messages.isEmpty then .ok []
  else do
    let (sums, revertToSingleVerification) ← session.addUp {} messages
    if revertToSingleVerification then messages.foldlM session.verifySingle sums.ret
    else if verifyInsecureAggregated session.scheme sums.aggSig sums.pubKeys sums.messageHashes then .ok sums.ret
    else
      match compareNodes true none messages with
      | (some firstNodeId, true) => .ok (sums.ret.insert firstNodeId)
      | _ => messages.foldlM session.verifySingle sums.ret

/-- What a batch goes through: whether a message is accepted and its node banned, and the same for its reception. -/
structure Handler (State Msg : Type) where
  preVerifyMessage : State → Msg → Bool × Bool
  receiveMessage : State → Msg → State × Bool

/-- The session after a batch, the messages received, the bad nodes and the nodes reported. -/
structure Outcome (State Msg : Type) where
  state : State
  received : List (Int × Msg)
  badNodes : List Int
  misbehaving : List Int

section
variable {State : Type} (handler : Handler State Msg) (state : State) (msgs : List (Int × Option Msg))

def preverifiedMessages : List (Int × Msg) :=
  msgs.filterMap fun p => p.2.bind fun msg =>
    if (handler.preVerifyMessage state msg).1 then some (p.1, msg) else none

def preverificationBans : List Int :=
  (msgs.filter fun p => p.2.all fun msg =>
    !(handler.preVerifyMessage state msg).1 && (handler.preVerifyMessage state msg).2).map Prod.fst

def receive (outcome : Outcome State Msg) (p : Int × Msg) : Outcome State Msg :=
  if p.1 ∈ outcome.badNodes then outcome
  else
    let (state, ban) := handler.receiveMessage outcome.state p.2
    { state
      received := outcome.received ++ [p]
      badNodes := if ban then outcome.badNodes.insert p.1 else outcome.badNodes
      misbehaving := if ban then outcome.misbehaving ++ [p.1] else outcome.misbehaving }

def processPendingMessageBatch : Except Failure (Outcome State Msg) :=
  let preverified := preverifiedMessages handler state msgs
  let bans := preverificationBans handler state msgs
  if preverified.isEmpty then .ok ⟨state, [], [], bans⟩
  else do
    let badNodes ← session.batchVerifyMessageSigs preverified
    .ok (preverified.foldl (receive handler) ⟨state, [], badNodes, bans ++ badNodes⟩)

end

def signedByMember (p : Int × Msg) : Bool :=
  (session.getMember p.2).any fun pubKey =>
    verifyInsecure session.scheme (session.sig p.2) pubKey (session.getSignHash p.2)

section
variable (messages : List (Int × Msg))

def claimed : List (Int × Msg) :=
  messages.filter fun p => (session.getMember p.2).isSome

def signHashes : List Hash :=
  (session.claimed messages).map fun p => session.getSignHash p.2

def Guilty (node : Int) : Prop :=
  ∃ p ∈ messages, p.1 = node ∧ session.signedByMember p = false

def SentUnclaimed (node : Int) : Prop :=
  ∃ p ∈ messages, p.1 = node ∧ session.getMember p.2 = none

end

variable {messages : List (Int × Msg)}

theorem guilty_of_sentUnclaimed {node : Int} (sent : session.SentUnclaimed messages node) :
    session.Guilty messages node := by
  obtain ⟨p, member, same, none⟩ := sent
  exact ⟨p, member, same, by simp [signedByMember, none]⟩

def part (p : Int × Msg) (pubKey : Option Key) : Hash × Option Sig × Option Key :=
  (session.getSignHash p.2, session.sig p.2, pubKey)

def parts (messages : List (Int × Msg)) : List (Hash × Option Sig × Option Key) :=
  messages.filterMap fun p => (session.getMember p.2).map (session.part p)

structure SumsTo (sums : Sums Sig Key Hash) (added : List (Hash × Option Sig × Option Key)) : Prop where
  hashes : sums.messageHashes = added.map Prod.fst
  keys : sums.pubKeys = added.map fun part => part.2.2
  first : sums.first = true ↔ added = []
  valid : ∀ sigs, sums.aggSig = some sigs → sigs ≠ [] ∧ added.map (fun part => part.2.1) = sigs.map some
  invalid : sums.aggSig = none → ∀ part ∈ added, part.2.1 = none

theorem sumsTo_nil : SumsTo ({} : Sums Sig Key Hash) [] :=
  ⟨rfl, rfl, by simp, by simp, by simp⟩

variable {added : List (Hash × Option Sig × Option Key)} {sums : Sums Sig Key Hash}

theorem exists_signed {sigs : List Sig} (isSum : added.map (fun part => part.2.1) = sigs.map some)
    (keys : ∀ part ∈ added, part.2.2.isSome) :
    ∃ signed : List (Hash × Sig × Key), added = signed.map (fun s => (s.1, some s.2.1, some s.2.2)) ∧
      sigs = signed.map fun s => s.2.1 := by
  induction added generalizing sigs with
  | nil =>
    rw [map_nil, eq_comm, map_eq_nil_iff] at isSum
    exact ⟨[], rfl, isSum⟩
  | cons part rest ih =>
    obtain ⟨hash, sig, key⟩ := part
    cases sigs with
    | nil => cases isSum
    | cons s others =>
      obtain ⟨rfl, later⟩ := cons.inj isSum
      obtain ⟨k, rfl⟩ := Option.isSome_iff_exists.mp (keys _ (.head _))
      obtain ⟨signed, rfl, rfl⟩ := ih later fun part member => keys part (.tail _ member)
      exact ⟨(hash, s, k) :: signed, rfl, rfl⟩

section
variable (sumsTo : SumsTo sums added)
include sumsTo

theorem SumsTo.add {sig : Option Sig} {aggSig : Option (List Sig)}
    (sum : sums.addSig sig = .ok aggSig) (ret : List Int) (pubKey : Option Key) (msgHash : Hash) :
    SumsTo ⟨ret, false, aggSig, sums.pubKeys ++ [pubKey], sums.messageHashes ++ [msgHash]⟩
      (added ++ [(msgHash, sig, pubKey)]) := by
  rw [Sums.addSig] at sum
  refine ⟨by simp [sumsTo.hashes], by simp [sumsTo.keys], by simp, fun sigs isSum => ?_, fun isSum => ?_⟩
  · simp only at isSum
    subst isSum
    split_ifs at sum with first
    · rw [sumsTo.first.mp first]
      obtain ⟨s, isSig, rfl⟩ := Option.map_eq_some_iff.mp (ok.inj sum)
      simp [isSig]
    · cases before : sums.aggSig <;> cases isSig : sig <;> simp [aggregateInsecure, before, isSig] at sum
      subst sum
      simp [(sumsTo.valid _ before).2]
  · simp only at isSum
    subst isSum
    split_ifs at sum with first
    · have none : sig = none := by simpa using ok.inj sum
      rw [sumsTo.first.mp first, none]
      simp
    · cases before : sums.aggSig <;> cases isSig : sig <;> simp [aggregateInsecure, before, isSig] at sum

theorem addUp_spec {after : Sums Sig Key Hash} {repeated : Bool} (distinct : (added.map Prod.fst).Nodup)
    (result : session.addUp sums messages = .ok (after, repeated)) :
    (repeated = false → SumsTo after (added ++ session.parts messages) ∧
      ∀ node, node ∈ after.ret ↔ node ∈ sums.ret ∨ session.SentUnclaimed messages node) ∧
    (∀ node ∈ after.ret, node ∈ sums.ret ∨ session.SentUnclaimed messages node) ∧
    (repeated = false ↔ ((added ++ session.parts messages).map Prod.fst).Nodup) := by
  induction messages generalizing sums added with
  | nil =>
    obtain ⟨rfl, rfl⟩ := Prod.mk.inj (ok.inj result)
    have none : ∀ node, ¬ session.SentUnclaimed [] node := by simp [SentUnclaimed]
    exact ⟨fun _ => ⟨by simpa [parts] using sumsTo, by simp [none]⟩, fun node member => .inl member,
      by simpa [parts] using distinct⟩
  | cons p rest ih =>
    have sent : ∀ node, session.SentUnclaimed (p :: rest) node ↔
        (p.1 = node ∧ session.getMember p.2 = none) ∨ session.SentUnclaimed rest node := by
      simp [SentUnclaimed]
    rw [addUp] at result
    cases isMember : session.getMember p.2 with
    | none =>
      rw [isMember] at result
      have same : session.parts (p :: rest) = session.parts rest := by simp [parts, isMember]
      have sumsTo' : SumsTo { sums with ret := sums.ret.insert p.1 } added := { sumsTo with }
      obtain ⟨complete, sound, repeats⟩ := ih sumsTo' distinct result
      rw [same]
      refine ⟨fun noRepeat => ⟨(complete noRepeat).1, fun node => ?_⟩, fun node member => ?_, repeats⟩
      · rw [(complete noRepeat).2 node, sent node, mem_insert_iff, ← or_assoc]
        simp [isMember, eq_comm (a := node), or_comm (a := p.1 = node)]
      · rcases sound node member with inserted | later
        · rcases mem_insert_iff.mp inserted with rfl | old
          · exact .inr ((sent _).mpr (.inl ⟨rfl, isMember⟩))
          · exact .inl old
        · exact .inr ((sent node).mpr (.inr later))
    | some pubKey =>
      rw [isMember] at result
      obtain ⟨aggSig, sum, next⟩ := Folds.bind_eq_ok.mp result
      have first : session.parts (p :: rest) = session.part p pubKey :: session.parts rest := by
        simp [parts, isMember]
      have sentRest : ∀ node, session.SentUnclaimed (p :: rest) node ↔ session.SentUnclaimed rest node := by
        intro node
        simp [sent, isMember]
      simp only [sentRest]
      dsimp only at next
      split_ifs at next with known
      · obtain ⟨rfl, rfl⟩ := Prod.mk.inj (ok.inj next)
        refine ⟨by simp, fun node member => .inl member, ?_⟩
        rw [sumsTo.hashes] at known
        simp only [Bool.true_eq_false, false_iff]
        intro nodup
        rw [map_append, first, map_cons] at nodup
        exact (nodup_append.mp nodup).2.2 _ known _ (.head _) rfl
      · have unknown : session.getSignHash p.2 ∉ added.map Prod.fst := sumsTo.hashes ▸ known
        have after' := ih (sumsTo.add sum sums.ret pubKey (session.getSignHash p.2))
          (by
            rw [map_append]
            exact distinct.append (nodup_singleton _) (by simpa using unknown)) next
        rw [append_assoc, singleton_append] at after'
        rw [first]
        exact after'

theorem SumsTo.verifies (distinct : (added.map Prod.fst).Nodup) (scheme : Aggregates.Scheme Sig Key Hash) :
    verifyInsecureAggregated scheme sums.aggSig sums.pubKeys sums.messageHashes = true ↔
      added ≠ [] ∧ ∀ part ∈ added, verifyInsecure scheme part.2.1 part.2.2 part.1 = true := by
  cases isSum : sums.aggSig with
  | none =>
    simp only [verifyInsecureAggregated, Bool.false_eq_true, ne_eq, false_iff, not_and]
    intro some all
    obtain ⟨part, member⟩ := exists_mem_of_ne_nil added some
    have valid := all part member
    rw [sumsTo.invalid isSum part member] at valid
    cases valid
  | some sigs =>
    obtain ⟨nonempty, sum⟩ := sumsTo.valid sigs isSum
    rw [verifyInsecureAggregated, sumsTo.keys, sumsTo.hashes, Bool.and_eq_true, all_map, all_eq_true]
    by_cases keys : ∀ part ∈ added, part.2.2.isSome
    · obtain ⟨signed, rfl, rfl⟩ := exists_signed sum keys
      have some : signed ≠ [] := by simpa using nonempty
      have singles := scheme.verifyAggregated_singles some (by simpa [comp_def] using distinct)
      have keyList : ((signed.map fun s => (s.1, Option.some s.2.1, Option.some s.2.2)).map
          fun part => part.2.2).reduceOption.map (fun key => [key]) = signed.map fun s => [s.2.2] := by
        rw [map_map, reduceOption, filterMap_map, map_filterMap]
        simp [comp_def]
      have hashes : (signed.map fun s => (s.1, Option.some s.2.1, Option.some s.2.2)).map Prod.fst = signed.map Prod.fst := by
        simp [comp_def]
      rw [keyList, hashes, singles, all_eq_true, forall_mem_map, forall_mem_map]
      simp [some, verifyInsecure]
    · refine ⟨fun both => absurd both.1 keys, fun both => absurd (fun part member => ?_) keys⟩
      have valid := both.2 part member
      cases isKey : part.2.2 with
      | none =>
        rw [isKey] at valid
        cases isSig : part.2.1 <;> simp [verifyInsecure, isSig] at valid
      | some key => rfl

end

theorem verifySingle_spec {ret bad : List Int}
    (result : messages.foldlM session.verifySingle ret = .ok bad) (node : Int) :
    node ∈ bad ↔ node ∈ ret ∨ session.Guilty messages node := by
  induction messages generalizing ret with
  | nil =>
    cases result
    simp [Guilty]
  | cons p rest ih =>
    obtain ⟨middle, first, later⟩ := Folds.bind_eq_ok.mp result
    have step : node ∈ middle ∨ session.Guilty rest node ↔
        node ∈ ret ∨ (p.1 = node ∧ session.signedByMember p = false) ∨ session.Guilty rest node := by
      rw [verifySingle] at first
      split_ifs at first with known
      · cases first
        have old : p.1 = node → node ∈ ret := fun same => same ▸ known
        tauto
      · cases isMember : session.getMember p.2 with
        | none =>
          rw [isMember] at first
          cases first
        | some pubKey =>
          have signed : session.signedByMember p =
              verifyInsecure session.scheme (session.sig p.2) pubKey (session.getSignHash p.2) := by
            simp [signedByMember, isMember]
          simp only [isMember, ← signed] at first
          split_ifs at first with valid
          · cases first
            simp [valid]
          · cases first
            rw [mem_insert_iff]
            simp [valid, eq_comm (a := node), or_assoc, or_left_comm]
    rw [ih later, step]
    simp [Guilty]

/-! ### The check -/

theorem compareNodes_spec (firstNodeId : Option Int) (messages : List (Int × Msg)) :
    compareNodes true firstNodeId messages = ((messages.getLast?.map Prod.fst).or firstNodeId, true) := by
  induction messages generalizing firstNodeId with
  | nil => rfl
  | cons p rest ih =>
    rw [compareNodes, if_pos rfl, ih]
    cases rest with
    | nil => rfl
    | cons q others =>
      rw [getLast?_cons_cons]
      cases last : (q :: others).getLast? with
      | none => simp at last
      | some r => rfl

theorem mem_parts : (∀ part ∈ session.parts messages, verifyInsecure session.scheme part.2.1 part.2.2 part.1 = true) ↔
      ∀ p ∈ session.claimed messages, session.signedByMember p = true := by
  simp only [parts, claimed, mem_filterMap, mem_filter]
  constructor
  · rintro all p ⟨member, some⟩
    obtain ⟨pubKey, isMember⟩ := Option.isSome_iff_exists.mp some
    have valid := all (session.part p pubKey) ⟨p, member, by rw [isMember]; rfl⟩
    simpa [signedByMember, isMember, part] using valid
  · rintro all _ ⟨p, member, isPart⟩
    obtain ⟨pubKey, isMember, rfl⟩ := Option.map_eq_some_iff.mp isPart
    have valid := all p ⟨member, by rw [isMember]; rfl⟩
    simpa [signedByMember, isMember, part] using valid

theorem parts_hashes (messages : List (Int × Msg)) :
    (session.parts messages).map Prod.fst = session.signHashes messages := by
  induction messages with
  | nil => rfl
  | cons p rest ih =>
    cases isMember : session.getMember p.2 <;>
      simp_all [parts, signHashes, claimed, part]

/-- Where no two messages sign one hash and one is invalid, the node of the last message is blamed. -/
theorem batchVerifyMessageSigs_spec {bad : List Int}
    (result : session.batchVerifyMessageSigs messages = .ok bad) (node : Int) : node ∈ bad ↔
      if ¬ (session.signHashes messages).Nodup then session.Guilty messages node
      else if ∀ p ∈ session.claimed messages, session.signedByMember p = true then session.SentUnclaimed messages node
      else session.SentUnclaimed messages node ∨ messages.getLast?.map Prod.fst = some node := by
  rw [batchVerifyMessageSigs] at result
  split_ifs at result with empty
  · cases result
    obtain rfl := isEmpty_iff.mp empty
    simp [signHashes, claimed, SentUnclaimed]
  obtain ⟨⟨sums, repeated⟩, sum, rest⟩ := Folds.bind_eq_ok.mp result
  obtain ⟨complete, sound, repeats⟩ := session.addUp_spec sumsTo_nil nodup_nil sum
  simp only [nil_append, not_mem_nil, false_or, session.parts_hashes] at complete sound repeats
  cases repeated with
  | true =>
    have duplicate : ¬ (session.signHashes messages).Nodup := by simpa using repeats
    rw [if_pos duplicate, session.verifySingle_spec rest]
    exact ⟨fun either => either.elim (fun marked => session.guilty_of_sentUnclaimed (sound node marked)) id, .inr⟩
  | false =>
    have distinct := repeats.mp rfl
    obtain ⟨sumsTo, unclaimed⟩ := complete rfl
    have aggregate := sumsTo.verifies (by rw [session.parts_hashes]; exact distinct) session.scheme
    rw [session.mem_parts] at aggregate
    simp only [Bool.false_eq_true, if_false] at rest
    rw [if_neg (not_not.mpr distinct)]
    split_ifs at rest with verified
    · cases rest
      rw [if_pos (aggregate.mp verified).2, unclaimed]
    · obtain ⟨last, isLast⟩ : ∃ last, messages.getLast? = some last :=
        ⟨_, getLast?_eq_some_getLast (by simpa using empty)⟩
      simp only [compareNodes_spec, isLast, Option.map_some, Option.some_or] at rest
      cases rest
      rw [mem_insert_iff, unclaimed, isLast, Option.map_some, Option.some.injEq, or_comm, eq_comm (a := node)]
      split_ifs with valid
      · -- Every message with a member is valid and yet the sum is not: there is none, and the last is one of the others.
        have noParts : session.parts messages = [] := by
          by_contra some
          exact verified (aggregate.mpr ⟨some, valid⟩)
        have lastUnclaimed : session.getMember last.2 = none := by
          rw [parts, filterMap_eq_nil_iff] at noParts
          simpa using noParts last (mem_of_getLast? isLast)
        refine ⟨fun either => either.elim id fun same => ?_, .inl⟩
        exact ⟨last, mem_of_getLast? isLast, same, lastUnclaimed⟩
      · rfl

section
variable {State : Type} (handler : Handler State Msg)

theorem receive_badNodes (messages : List (Int × Msg)) (outcome : Outcome State Msg) :
    (∀ node ∈ outcome.badNodes, node ∈ (messages.foldl (receive handler) outcome).badNodes) ∧
      ∀ p ∈ (messages.foldl (receive handler) outcome).received,
        p ∈ outcome.received ∨ p ∈ messages ∧ p.1 ∉ outcome.badNodes := by
  induction messages generalizing outcome with
  | nil => exact ⟨fun _ member => member, fun _ member => .inl member⟩
  | cons p rest ih =>
    obtain ⟨grows, received⟩ := ih (receive handler outcome p)
    rw [foldl_cons]
    by_cases bad : p.1 ∈ outcome.badNodes
    · have same : receive handler outcome p = outcome := by simp [receive, bad]
      rw [same] at grows received ⊢
      exact ⟨grows, fun q member =>
        (received q member).imp_right fun later => ⟨.tail _ later.1, later.2⟩⟩
    · have kept : ∀ node ∈ outcome.badNodes, node ∈ (receive handler outcome p).badNodes := by
        intro node member
        simp only [receive, bad, if_false]
        split_ifs
        · exact mem_insert_of_mem member
        · exact member
      have own : (receive handler outcome p).received = outcome.received ++ [p] := by simp [receive, bad]
      refine ⟨fun node member => grows node (kept node member), fun q member => ?_⟩
      rcases received q member with now | ⟨later, good⟩
      · rw [own, mem_append, mem_singleton] at now
        rcases now with old | rfl
        · exact .inl old
        · exact .inr ⟨.head _, bad⟩
      · exact .inr ⟨.tail _ later, fun wasBad => good (kept _ wasBad)⟩

/-- The check of the batch returns exactly the guilty nodes, only validly signed messages are received,
and no node is found bad for valid messages alone. -/
def ChecksExactly (state : State) (msgs : List (Int × Option Msg)) : Prop :=
  ∃ badNodes outcome,
    session.batchVerifyMessageSigs (preverifiedMessages handler state msgs) = .ok badNodes ∧
    session.processPendingMessageBatch handler state msgs = .ok outcome ∧
    (∀ node, node ∈ badNodes ↔ session.Guilty (preverifiedMessages handler state msgs) node) ∧
    ∀ p ∈ outcome.received, session.signedByMember p = true

/-- The check is not aborted, and two messages sign one hash, or all are validly signed, or
the guilty nodes are those without a member and the one of the last message. -/
def Harmless (messages : List (Int × Msg)) : Prop :=
  (∃ badNodes, session.batchVerifyMessageSigs messages = .ok badNodes) ∧
    (¬ (session.signHashes messages).Nodup ∨
      (∀ p ∈ session.claimed messages, session.signedByMember p = true) ∨
      ∀ node, session.Guilty messages node ↔
        session.SentUnclaimed messages node ∨ messages.getLast?.map Prod.fst = some node)

theorem checksExactly_iff_harmless (state : State) (msgs : List (Int × Option Msg)) :
    session.ChecksExactly handler state msgs ↔ session.Harmless (preverifiedMessages handler state msgs) := by
  constructor
  · rintro ⟨badNodes, outcome, check, -, exact, -⟩
    refine ⟨⟨badNodes, check⟩, ?_⟩
    by_cases distinct : (session.signHashes (preverifiedMessages handler state msgs)).Nodup
    · by_cases valid : ∀ p ∈ session.claimed (preverifiedMessages handler state msgs), session.signedByMember p = true
      · exact .inr (.inl valid)
      · refine .inr (.inr fun node => ?_)
        rw [← exact node, session.batchVerifyMessageSigs_spec check node, if_neg (not_not.mpr distinct), if_neg valid]
    · exact .inl distinct
  · rintro ⟨⟨badNodes, check⟩, cases⟩
    have exact : ∀ node, node ∈ badNodes ↔ session.Guilty (preverifiedMessages handler state msgs) node := by
      intro node
      rw [session.batchVerifyMessageSigs_spec check node]
      split_ifs with distinct valid
      · refine ⟨session.guilty_of_sentUnclaimed, fun ⟨p, member, same, invalid⟩ => ⟨p, member, same, ?_⟩⟩
        by_contra some
        rw [valid p (mem_filter.mpr ⟨member, Option.isSome_iff_ne_none.mpr some⟩)] at invalid
        cases invalid
      · exact ((cases.resolve_left (not_not.mpr distinct)).resolve_left valid node).symm
      · rfl
    by_cases none : (preverifiedMessages handler state msgs).isEmpty
    · exact ⟨badNodes, _, check, by rw [processPendingMessageBatch, if_pos none], exact, by simp⟩
    · refine ⟨badNodes, _, check, by rw [processPendingMessageBatch, if_neg none, check]; rfl, exact, ?_⟩
      intro p received
      rcases (receive_badNodes handler _ _).2 p received with old | ⟨member, good⟩
      · cases old
      · by_contra invalid
        exact good ((exact p.1).mpr ⟨p, member, rfl, by simpa using invalid⟩)

end

end Session

structure SampleMessage where
  member : Nat
  hash : Nat
  sig : Nat
deriving DecidableEq

def sampleSession : Session SampleMessage Nat Nat Nat where
  scheme := Aggregates.Scheme.ofVerify fun sig key hash => decide (sig = key + hash)
  getMember msg := some (some msg.member)
  sig msg := some msg.sig
  getSignHash msg := msg.hash

def sampleHandler : Session.Handler Unit SampleMessage := ⟨fun _ _ => (true, false), fun state _ => (state, false)⟩

def invalidThenValid : List (Int × Option SampleMessage) := [(1, some ⟨4, 5, 8⟩), (2, some ⟨3, 6, 9⟩)]

theorem invalidThenValid_inexact : ¬ sampleSession.ChecksExactly sampleHandler () invalidThenValid := by
  rintro ⟨badNodes, outcome, check, -, exact, -⟩
  have blamed : sampleSession.batchVerifyMessageSigs
      (Session.preverifiedMessages sampleHandler () invalidThenValid) = .ok [2] := by decide
  obtain rfl := ok.inj (check.symm.trans blamed)
  have guilty : (1 : Int) ∈ [2] := (exact 1).mpr ⟨(1, ⟨4, 5, 8⟩), by decide, rfl, by decide⟩
  revert guilty
  decide

end Cspn.DkgBatch
