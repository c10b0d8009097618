import Cspn.Folds
import Cspn.Primitives

/-!
How a masternode keeps from signing two messages under one request. `AsyncSignIfMember` looks for a vote and writes
one under a lock; votes older than `maxAge` are cleaned up without it. The lock is released before the signing is
queued, so a delayed call may queue long after its vote is gone.
-/
namespace Cspn.SigningVotes
open Primitives List Option Function

/-- What is signed is asked for under a quorum type and an id. -/
structure Request where
  llmqType : Nat
  id : Uint256
deriving DecidableEq

/-- A record under `rs_v`. Its time is the one that its key under `rs_vt` was made of. -/
structure Vote where
  msgHash : Uint256
  time : Int
deriving DecidableEq

/-- The age after which votes are cleaned up, and where the clock starts. -/
structure Setting where
  maxAge : Int
  start : Int
  low : maxAge ≤ start
  high : start < 2 ^ 32

/-- How far the call that holds the lock is. -/
inductive Phase where
  | checking
  | comparing
  | recovering (hasVoted : Bool) (record : Option Int)
  | stamping
  | writing (time : Int)
deriving DecidableEq

structure Call where
  request : Request
  msgHash : Uint256
  allowReSign : Bool
  phase : Phase

/-- A signing that a call has passed or queued, with the time of its vote if it had one. -/
structure Pass where
  request : Request
  msgHash : Uint256
  record : Option Int
deriving DecidableEq

structure Signing extends Pass where
  time : Int

abbrev TimeKey := Nat × Request

/-- How far `CleanupOldVotes` is; it is called by one thread. -/
inductive Cleanup where
  | idle
  | scanning (keys : List TimeKey)
  | erasing (keys : List TimeKey)

/-- The database, the calls and the clock. The last two fields log the votes written and the signings queued. -/
structure State where
  clock : Int
  votes : Request → Option Vote
  timeKeys : List TimeKey
  holder : Option Call
  passed : List Pass
  cleanup : Cleanup
  written : List (Request × Vote)
  signings : List Signing

variable (setting : Setting) (s : State)

def Setting.init : State :=
  ⟨setting.start, fun _ => none, [], none, [], .idle, [], []⟩

def uint32 (time : Int) : Nat := (time % 2 ^ 32).toNat

namespace State

def release (s : State) : State := { s with holder := none }

def setPhase (s : State) (call : Call) (phase : Phase) : State := { s with holder := some { call with phase } }

/-- The lock is released, and the call goes on to select the quorum. -/
def pass (s : State) (call : Call) (record : Option Int) : State :=
  { s with holder := none, passed := s.passed ++ [⟨call.request, call.msgHash, record⟩] }

def hasVotedOnId (s : State) (request : Request) : Bool := (s.votes request).isSome

/-- `GetVoteForId`: the hash stays null if there is no vote any more. -/
def getVoteForId (s : State) (request : Request) : Uint256 := ((s.votes request).map Vote.msgHash).getD 0

def writeVoteForId (s : State) (request : Request) (vote : Vote) : State :=
  { s with
    votes := update s.votes request (some vote)
    timeKeys := (uint32 vote.time, request) :: s.timeKeys
    written := s.written ++ [(request, vote)] }

def advance (s : State) (call : Call) (hasRecoveredSigForId : Bool) : State :=
  match call.phase with
  | .checking =>
    if s.hasVotedOnId call.request then s.setPhase call .comparing else s.setPhase call (.recovering false none)
  | .comparing =>
    if call.msgHash ≠ s.getVoteForId call.request then s.release
    else if call.allowReSign then s.setPhase call (.recovering true ((s.votes call.request).map Vote.time))
    else s.release
  | .recovering hasVoted record =>
    if hasRecoveredSigForId then s.release
    else if hasVoted then s.pass call record
    else s.setPhase call .stamping
  | .stamping => s.setPhase call (.writing s.clock)
  | .writing time => (s.writeVoteForId call.request ⟨call.msgHash, time⟩).pass call (some time)

/-- The keys that are iterated before one that is not old enough; they are sorted by time. -/
def oldKeys (keys : List TimeKey) (endTime : Nat) : List TimeKey :=
  (keys.insertionSort fun a b => a.1 ≤ b.1).takeWhile fun key => key.1 < endTime

def clean (setting : Setting) (s : State) : State :=
  match s.cleanup with
  | .idle => { s with cleanup := .scanning s.timeKeys }
  | .scanning keys => { s with cleanup := .erasing (oldKeys keys (uint32 (s.clock - setting.maxAge))) }
  | .erasing keys =>
    { s with
      cleanup := .idle
      timeKeys := s.timeKeys.filter fun key => key ∉ keys
      votes := fun request => if keys.any (fun key => key.2 = request) then none else s.votes request }

end State

inductive Event where
  | tick (clock : Int)
  | enter (request : Request) (msgHash : Uint256) (allowReSign : Bool)
  | next (hasRecoveredSigForId : Bool)
  | clean
  | queue (i : Nat)
  | drop (i : Nat)

/-- One step; `none` for an event that cannot happen. -/
def step : Event → Option State
  | .tick clock => if s.clock ≤ clock ∧ clock < 2 ^ 32 then some { s with clock } else none
  | .enter request msgHash allowReSign =>
    if s.holder.isNone then some { s with holder := some ⟨request, msgHash, allowReSign, .checking⟩ } else none
  | .next hasRecoveredSigForId => s.holder.map fun call => s.advance call hasRecoveredSigForId
  | .clean => some (s.clean setting)
  | .queue i =>
    s.passed[i]?.map fun pass =>
      { s with passed := s.passed.eraseIdx i, signings := s.signings ++ [⟨pass, s.clock⟩] }
  | .drop i => if i < s.passed.length then some { s with passed := s.passed.eraseIdx i } else none

def run (events : List Event) : Option State := events.foldlM (step setting) setting.init

/-- No signing of another message is queued in the time of a vote that a signing was queued on. -/
def NoDoubleSign : Prop :=
  ∀ a ∈ s.signings, ∀ b ∈ s.signings, a.request = b.request → a.msgHash ≠ b.msgHash →
    ∀ t, a.record = some t → ¬ (t ≤ b.time ∧ b.time ≤ t + setting.maxAge)

/-- A signing is queued after the time of its vote, or without one. -/
def Late (signing : Signing) : Prop :=
  ∀ t, signing.record = some t → t + setting.maxAge < signing.time

/-! ### What holds in every run -/

def PassOk (pass : Pass) : Prop :=
  ∀ t, pass.record = some t → (pass.request, ⟨pass.msgHash, t⟩) ∈ s.written

def CallOk (call : Call) : Prop :=
  match call.phase with
  | .checking | .comparing => True
  | .recovering hasVoted record =>
    PassOk s ⟨call.request, call.msgHash, record⟩ ∧ (hasVoted = false → s.votes call.request = none)
  | .stamping => s.votes call.request = none
  | .writing time =>
    s.votes call.request = none ∧ setting.maxAge ≤ time ∧ time ≤ s.clock ∧
      ∀ r ∈ s.written, r.1 = call.request → r.2.time + setting.maxAge < time

def KeyOk (key : TimeKey) (vote : Vote) : Prop := s.votes key.2 = some vote ∧ key.1 = uint32 vote.time

/-- What is known about the keys that `CleanupOldVotes` has read. -/
def CleanupOk : Cleanup → Prop
  | .idle => True
  | .scanning keys => ∀ key ∈ keys, ∃ vote, KeyOk s key vote
  | .erasing keys => ∀ key ∈ keys, ∃ vote, KeyOk s key vote ∧ vote.time + setting.maxAge < s.clock

/-- A vote is erased only when its time is past, so that the votes of a request are more than `maxAge` apart. -/
structure Inv (setting : Setting) (s : State) : Prop where
  low : setting.maxAge ≤ s.clock
  high : s.clock < 2 ^ 32
  stamped : ∀ r ∈ s.written, setting.maxAge ≤ r.2.time ∧ r.2.time ≤ s.clock
  separate : s.written.Pairwise fun a b => a.1 = b.1 → a.2.time + setting.maxAge < b.2.time
  current : ∀ request vote, s.votes request = some vote → (request, vote) ∈ s.written
  expired : ∀ r ∈ s.written, s.votes r.1 ≠ some r.2 → r.2.time + setting.maxAge < s.clock
  keys : ∀ key ∈ s.timeKeys, ∃ vote, KeyOk s key vote
  cleanup : CleanupOk setting s s.cleanup
  holder : ∀ call, s.holder = some call → CallOk setting s call
  passed : ∀ pass ∈ s.passed, PassOk s pass
  signings : ∀ signing ∈ s.signings, PassOk s signing.toPass ∧ ∀ t, signing.record = some t → t ≤ signing.time

open Setting

theorem inv_init : Inv setting setting.init where
  low := setting.low
  high := setting.high
  stamped := by simp [init]
  separate := by simp [init]
  current := by simp [init]
  expired := by simp [init]
  keys := by simp [init]
  cleanup := trivial
  holder := by simp [init]
  passed := by simp [init]
  signings := by simp [init]

theorem uint32_of_range {time : Int} (low : 0 ≤ time) (high : time < 2 ^ 32) : (uint32 time : Int) = time := by
  rw [uint32, Int.emod_eq_of_lt low high, Int.toNat_of_nonneg low]

section
variable {setting : Setting} {s : State}

theorem CallOk.of_same {s' : State} {call : Call} (ok : CallOk setting s call) (clock : s.clock ≤ s'.clock)
    (written : s'.written = s.written) (votes : s.votes call.request = none → s'.votes call.request = none) :
    CallOk setting s' call := by
  obtain ⟨request, msgHash, allowReSign, phase⟩ := call
  cases phase with
  | checking => trivial
  | comparing => trivial
  | recovering hasVoted record =>
    refine ⟨fun t isRecord => ?_, fun unvoted => votes (ok.2 unvoted)⟩
    rw [written]
    exact ok.1 t isRecord
  | stamping => exact votes ok
  | writing time =>
    obtain ⟨unvoted, low, high, after⟩ := ok
    refine ⟨votes unvoted, low, high.trans clock, ?_⟩
    rw [written]
    exact after

section
variable (inv : Inv setting s)
include inv

theorem Inv.release : Inv setting s.release :=
  { inv with holder := by simp [State.release] }

theorem Inv.setPhase {call : Call} {phase : Phase}
    (ok : CallOk setting s { call with phase }) : Inv setting (s.setPhase call phase) :=
  { inv with
    holder := by
      rintro other same
      cases same
      exact ok }

theorem Inv.pass {call : Call} {record : Option Int}
    (ok : PassOk s ⟨call.request, call.msgHash, record⟩) : Inv setting (s.pass call record) :=
  { inv with
    holder := by simp [State.pass]
    passed := by
      intro pass member
      rcases mem_append.mp member with old | new
      · exact inv.passed pass old
      · rw [mem_singleton.mp new]
        exact ok }

theorem Inv.writeVoteForId {request : Request} {vote : Vote}
    (unvoted : s.votes request = none) (low : setting.maxAge ≤ vote.time) (high : vote.time ≤ s.clock)
    (after : ∀ r ∈ s.written, r.1 = request → r.2.time + setting.maxAge < vote.time) (unlocked : s.holder = none) :
    Inv setting (s.writeVoteForId request vote) := by
  have other : ∀ {key : TimeKey} {old : Vote}, KeyOk s key old → KeyOk (s.writeVoteForId request vote) key old := by
    rintro key old ⟨found, stamp⟩
    refine ⟨?_, stamp⟩
    have differs : key.2 ≠ request := by
      rintro same
      rw [same, unvoted] at found
      cases found
    simpa [State.writeVoteForId, update_of_ne differs] using found
  have grows : ∀ {pass : Pass}, PassOk s pass → PassOk (s.writeVoteForId request vote) pass :=
    fun ok t isRecord => mem_append_left _ (ok t isRecord)
  refine ⟨inv.low, inv.high, ?_, ?_, ?_, ?_, ?_, ?_, by simp [State.writeVoteForId, unlocked],
    fun pass member => grows (inv.passed pass member),
    fun signing member => ⟨grows (inv.signings signing member).1, (inv.signings signing member).2⟩⟩
  · intro r member
    rcases mem_append.mp member with old | new
    · exact inv.stamped r old
    · rw [mem_singleton.mp new]
      exact ⟨low, high⟩
  · refine pairwise_append.mpr ⟨inv.separate, pairwise_singleton _ _, fun a old b new same => ?_⟩
    rw [mem_singleton.mp new] at same ⊢
    exact after a old same
  · intro key found isVote
    by_cases same : key = request
    · subst same
      simp only [State.writeVoteForId, update_self, some.injEq] at isVote
      subst isVote
      exact mem_append_right _ (.head _)
    · simp only [State.writeVoteForId, update_of_ne same] at isVote
      exact mem_append_left _ (inv.current key found isVote)
  · intro r member notCurrent
    rcases mem_append.mp member with old | new
    · by_cases same : r.1 = request
      · exact lt_of_lt_of_le (after r old same) high
      · simp only [State.writeVoteForId, update_of_ne same] at notCurrent
        exact inv.expired r old notCurrent
    · rw [mem_singleton.mp new] at notCurrent
      simp [State.writeVoteForId] at notCurrent
  · intro key member
    rcases mem_cons.mp member with rfl | old
    · exact ⟨vote, by simp [State.writeVoteForId], rfl⟩
    · obtain ⟨found, ok⟩ := inv.keys key old
      exact ⟨found, other ok⟩
  · have cleaning := inv.cleanup
    change CleanupOk setting _ s.cleanup
    cases phase : s.cleanup with
    | idle => trivial
    | scanning keys =>
      rw [phase] at cleaning
      intro key member
      obtain ⟨found, ok⟩ := cleaning key member
      exact ⟨found, other ok⟩
    | erasing keys =>
      rw [phase] at cleaning
      intro key member
      obtain ⟨found, ok, past⟩ := cleaning key member
      exact ⟨found, other ok, past⟩

theorem Inv.advance {call : Call} (isHolder : s.holder = some call) (hasRecoveredSigForId : Bool) :
    Inv setting (s.advance call hasRecoveredSigForId) := by
  have ok := inv.holder call isHolder
  obtain ⟨request, msgHash, allowReSign, phase⟩ := call
  cases phase with
  | checking =>
    simp only [State.advance]
    split_ifs with voted
    · exact inv.setPhase trivial
    · refine inv.setPhase ⟨by simp [PassOk], fun _ => ?_⟩
      simpa [State.hasVotedOnId] using voted
  | comparing =>
    simp only [State.advance]
    split_ifs with differs reSign
    · exact inv.release
    · refine inv.setPhase ⟨fun t isRecord => ?_, by simp⟩
      obtain ⟨vote, found, rfl⟩ := map_eq_some_iff.mp isRecord
      have same : msgHash = vote.msgHash := by simpa [State.getVoteForId, found] using differs
      rw [same]
      exact inv.current request vote found
    · exact inv.release
  | recovering hasVoted record =>
    simp only [State.advance]
    split_ifs with recovered voted
    · exact inv.release
    · exact inv.pass ok.1
    · exact inv.setPhase (ok.2 (by simpa using voted))
  | stamping =>
    refine inv.setPhase ⟨ok, inv.low, le_refl _, fun r member same => ?_⟩
    refine inv.expired r member ?_
    rw [same, show s.votes request = none from ok]
    simp
  | writing time =>
    obtain ⟨unvoted, low, high, after⟩ := ok
    have wrote : Inv setting (s.release.writeVoteForId request ⟨msgHash, time⟩) :=
      inv.release.writeVoteForId unvoted low high after rfl
    refine wrote.pass fun t isRecord => ?_
    cases isRecord
    exact mem_append_right _ (.head _)

theorem Inv.tick {clock : Int} (low : s.clock ≤ clock) (high : clock < 2 ^ 32) : Inv setting { s with clock } where
  low := inv.low.trans low
  high := high
  stamped r member := ⟨(inv.stamped r member).1, (inv.stamped r member).2.trans low⟩
  separate := inv.separate
  current := inv.current
  expired r member notCurrent := (inv.expired r member notCurrent).trans_le low
  keys := inv.keys
  cleanup := by
    have cleaning := inv.cleanup
    cases phase : s.cleanup with
    | idle => trivial
    | scanning keys =>
      rw [phase] at cleaning
      exact cleaning
    | erasing keys =>
      rw [phase] at cleaning
      intro key member
      obtain ⟨found, ok, past⟩ := cleaning key member
      exact ⟨found, ok, past.trans_le low⟩
  holder call isHolder := (inv.holder call isHolder).of_same low rfl id
  passed := inv.passed
  signings := inv.signings

theorem Inv.clean (nonneg : 0 ≤ setting.maxAge) : Inv setting (s.clean setting) := by
  have cleaning := inv.cleanup
  rw [State.clean]
  cases phase : s.cleanup with
  | idle =>
    refine { inv with cleanup := ?_, holder := ?_ }
    · exact inv.keys
    · exact fun call isHolder => (inv.holder call isHolder).of_same (le_refl _) rfl id
  | scanning keys =>
    rw [phase] at cleaning
    refine { inv with cleanup := ?_, holder := ?_ }
    · intro key old
      have member := (mem_insertionSort _).mp ((takeWhile_sublist _).mem old)
      have less := mem_takeWhile_imp old
      rw [decide_eq_true_eq] at less
      obtain ⟨vote, found, stamp⟩ := cleaning key member
      refine ⟨vote, ⟨found, stamp⟩, ?_⟩
      obtain ⟨low, high⟩ := inv.stamped _ (inv.current _ _ found)
      have clockHigh := inv.high
      have voteTime := uint32_of_range (nonneg.trans low) (high.trans_lt clockHigh)
      have endTime := @uint32_of_range (s.clock - setting.maxAge) (by omega) (by omega)
      change vote.time + setting.maxAge < s.clock
      simp only at voteTime high
      omega
    · exact fun call isHolder => (inv.holder call isHolder).of_same (le_refl _) rfl id
  | erasing keys =>
    rw [phase] at cleaning
    have erased : ∀ request, keys.any (fun key => key.2 = request) = true → ∃ vote, s.votes request = some vote ∧
        vote.time + setting.maxAge < s.clock := by
      intro request some
      obtain ⟨key, member, same⟩ := any_eq_true.mp some
      obtain ⟨vote, ⟨found, -⟩, past⟩ := cleaning key member
      rw [of_decide_eq_true same] at found
      exact ⟨vote, found, past⟩
    refine { inv with current := ?_, expired := ?_, keys := ?_, cleanup := trivial, holder := ?_ }
    · intro request vote found
      simp only at found
      split_ifs at found
      exact inv.current request vote found
    · intro r member notCurrent
      by_cases current : s.votes r.1 = some r.2
      · simp only [current] at notCurrent
        split_ifs at notCurrent with old
        · obtain ⟨vote, found, past⟩ := erased r.1 old
          obtain rfl := some.inj (current.symm.trans found)
          exact past
        · exact absurd rfl notCurrent
      · exact inv.expired r member current
    · intro key member
      obtain ⟨inside, kept⟩ := mem_filter.mp member
      obtain ⟨vote, found, stamp⟩ := inv.keys key inside
      refine ⟨vote, ?_, stamp⟩
      simp only
      split_ifs with old
      · -- A key of the same request is that of the same vote, so this one would be erased as well.
        obtain ⟨other, isOld, same⟩ := any_eq_true.mp old
        obtain ⟨vote', ⟨found', stamp'⟩, -⟩ := cleaning other isOld
        rw [of_decide_eq_true same, found, some.injEq] at found'
        subst found'
        have equal : key = other := Prod.ext (stamp.trans stamp'.symm) (of_decide_eq_true same).symm
        rw [equal] at kept
        exact absurd isOld (of_decide_eq_true kept)
      · exact found
    · refine fun call isHolder => (inv.holder call isHolder).of_same (le_refl _) rfl fun unvoted => ?_
      simp [unvoted]

theorem Inv.apart {a b : Pass} (okA : PassOk s a) (okB : PassOk s b)
    (same : a.request = b.request) (differ : a.msgHash ≠ b.msgHash) {t u : Int} (isA : a.record = some t)
    (isB : b.record = some u) : t + setting.maxAge < u ∨ u + setting.maxAge < t := by
  have separate : s.written.Pairwise fun x y => x.1 = y.1 →
      x.2.time + setting.maxAge < y.2.time ∨ y.2.time + setting.maxAge < x.2.time :=
    inv.separate.imp fun earlier equal => .inl (earlier equal)
  have symmetric : Std.Symm fun x y : Request × Vote => x.1 = y.1 →
      x.2.time + setting.maxAge < y.2.time ∨ y.2.time + setting.maxAge < x.2.time :=
    ⟨fun x y either equal => (either equal.symm).symm⟩
  refine separate.forall (okA t isA) (okB u isB) ?_ same
  intro equal
  exact differ (congrArg (fun r => r.2.msgHash) equal)

end

theorem inv_step (nonneg : 0 ≤ setting.maxAge) {event : Event} {after : State} (inv : Inv setting s)
    (stepped : step setting s event = some after) : Inv setting after := by
  cases event with
  | tick clock =>
    rw [step] at stepped
    split_ifs at stepped with range
    cases stepped
    exact inv.tick range.1 range.2
  | enter request msgHash allowReSign =>
    rw [step] at stepped
    split_ifs at stepped with free
    cases stepped
    exact @Inv.setPhase _ _ inv ⟨request, msgHash, allowReSign, .checking⟩ .checking trivial
  | next hasRecoveredSigForId =>
    obtain ⟨call, isHolder, rfl⟩ := map_eq_some_iff.mp stepped
    exact inv.advance isHolder hasRecoveredSigForId
  | clean =>
    cases stepped
    exact inv.clean nonneg
  | queue i =>
    obtain ⟨pass, found, rfl⟩ := map_eq_some_iff.mp stepped
    have ok := inv.passed pass (mem_of_getElem? found)
    refine { inv with passed := ?_, signings := ?_ }
    · exact fun other member => inv.passed other (mem_of_mem_eraseIdx member)
    · intro signing member
      rcases mem_append.mp member with old | new
      · exact inv.signings signing old
      · rw [mem_singleton.mp new]
        exact ⟨ok, fun t isRecord => (inv.stamped _ (ok t isRecord)).2⟩
  | drop i =>
    rw [step] at stepped
    split_ifs at stepped with inside
    cases stepped
    exact { inv with passed := fun other member => inv.passed other (mem_of_mem_eraseIdx member) }

theorem inv_run (nonneg : 0 ≤ setting.maxAge) {events : List Event} (ran : run setting events = some s) :
    Inv setting s :=
  Folds.foldlM_some (fun _ _ _ _ inv stepped => inv_step nonneg inv stepped) (inv_init setting) ran

end

/-- Only a signing that is late can be queued in the time of a vote for another message. -/
theorem noDoubleSign_iff_late {setting : Setting} {events : List Event} {s : State} (ran : run setting events = some s) :
    NoDoubleSign setting s ↔
      ∀ a ∈ s.signings, ∀ b ∈ s.signings, a.request = b.request → a.msgHash ≠ b.msgHash → Late setting b →
        ∀ t, a.record = some t → ¬ (t ≤ b.time ∧ b.time ≤ t + setting.maxAge) := by
  constructor
  · exact fun none a isA b isB same differ _ => none a isA b isB same differ
  · rintro onlyLate a isA b isB same differ t record ⟨low, high⟩
    have inv := inv_run (by omega) ran
    refine onlyLate a isA b isB same differ (fun u recordB => ?_) t record ⟨low, high⟩
    have queued := (inv.signings b isB).2 u recordB
    rcases inv.apart (inv.signings a isA).1 (inv.signings b isB).1 same differ record recordB with before | after
    · omega
    · omega

/-- A call votes and signs at once, and is refused the second time. -/
def promptCalls : List Event :=
  [.enter ⟨1, 7⟩ 5 false, .next false, .next false, .next false, .next false, .queue 0,
    .enter ⟨1, 7⟩ 6 false, .next false, .next false]

theorem promptCalls_noDoubleSign : ∃ s, run ⟨10, 100, by decide, by decide⟩ promptCalls = some s ∧
    NoDoubleSign ⟨10, 100, by decide, by decide⟩ s := by
  refine ⟨_, rfl, (@noDoubleSign_iff_late _ promptCalls _ rfl).mpr fun a isA b isB same differ => ?_⟩
  have onlyA : a = ⟨⟨⟨1, 7⟩, 5, some 100⟩, 100⟩ := mem_singleton.mp isA
  have onlyB : b = ⟨⟨⟨1, 7⟩, 5, some 100⟩, 100⟩ := mem_singleton.mp isB
  rw [onlyA, onlyB] at differ
  exact absurd rfl differ

/-- A call votes for message 5 at time 100 and is delayed until the vote is cleaned up. Then another votes for message
6 and signs it, and the first signs message 5. -/
def delayed : Setting := ⟨10, 100, by decide, by decide⟩

def delayedCalls : List Event :=
  let request : Request := ⟨1, 7⟩
  [.enter request 5 false, .next false, .next false, .next false, .next false, .tick 111, .clean, .clean, .clean,
    .enter request 6 false, .next false, .next false, .next false, .next false, .queue 1, .queue 0]

theorem delayedCalls_doubleSign : ∃ s, run delayed delayedCalls = some s ∧ ¬ NoDoubleSign delayed s := by
  refine ⟨_, rfl, fun none => ?_⟩
  refine none ⟨⟨⟨1, 7⟩, 6, some 111⟩, 111⟩ ?_ ⟨⟨⟨1, 7⟩, 5, some 100⟩, 111⟩ ?_ rfl (by decide) 111 rfl (by decide)
  · exact .head _
  · exact .tail _ (.head _)

end Cspn.SigningVotes
