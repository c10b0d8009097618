import Cspn.Primitives

/-!
The spork manager. The holders of the spork keys vote with signed messages on the value of a spork. What they sign is
the decimal numbers of a message run together, so a signature may fit another message as well. The clean-up of what
was loaded never gets past a signer without an authorised key.
-/
namespace Cspn.Sporks
open Primitives List Function

structure CSporkMessage where
  nSporkID : Int32
  nValue : Int64
  nTimeSigned : Int64
  vchSig : Nat

/-- What is hashed and signed: a text, or the fields of a message, without collisions. -/
inductive Preimage where
  | text (strMessage : String)
  | fields (nSporkID : Int32) (nValue nTimeSigned : Int64)
deriving DecidableEq

structure Setting where
  getHash : CSporkMessage → Uint256
  /-- `RecoverCompact`, with the id of the key. -/
  recoverCompact : Preimage → Nat → Option CKeyID

abbrev Signers := List (CKeyID × CSporkMessage)
abbrev SporksByHash := List (Uint256 × CSporkMessage)

structure CSporkManager where
  mapSporksByHash : SporksByHash := []
  mapSporksActive : List (Int32 × Signers) := []

namespace CSporkMessage
variable (setting : Setting) (spork : CSporkMessage)

def triple : Int32 × Int64 × Int64 := (spork.nSporkID, spork.nValue, spork.nTimeSigned)

def strMessage : String :=
  toString spork.nSporkID.toInt ++ toString spork.nValue.toInt ++ toString spork.nTimeSigned.toInt

def getSignatureHash : Preimage := .fields spork.nSporkID spork.nValue spork.nTimeSigned

def verifyHash (hash : Preimage) (keyID : CKeyID) : Bool :=
  decide (setting.recoverCompact hash spork.vchSig = some keyID)

def checkSignature (pubKeyId : CKeyID) (fSporkSixActive : Bool) : Bool :=
  if fSporkSixActive then spork.verifyHash setting spork.getSignatureHash pubKeyId
  else spork.verifyHash setting (.text spork.strMessage) pubKeyId ||
    spork.verifyHash setting spork.getSignatureHash pubKeyId

def getSignerKeyID (fSporkSixActive : Bool) : Option CKeyID :=
  setting.recoverCompact (if fSporkSixActive then spork.getSignatureHash else .text spork.strMessage) spork.vchSig

end CSporkMessage

/-- `map[key] = value`. -/
def assign {K V : Type} [DecidableEq K] (key : K) (value : V) (map : List (K × V)) : List (K × V) :=
  (key, value) :: map.filter (·.1 ≠ key)

def erase (hash : Uint256) (byHash : SporksByHash) : SporksByHash := byHash.filter (·.1 ≠ hash)

def setMinSporkKeys (keys : Finset CKeyID) (minSporkKeys : Int) : Bool :=
  !(decide (minSporkKeys ≤ keys.card / 2) || decide (minSporkKeys > keys.card))

/-- The authorised keys, with a threshold that was accepted. -/
structure SporkKeys where
  setSporkPubKeyIDs : Finset CKeyID
  nMinSporkKeys : Int
  accepted : setMinSporkKeys setSporkPubKeyIDs nMinSporkKeys = true

theorem SporkKeys.majority (sporkKeys : SporkKeys) : sporkKeys.setSporkPubKeyIDs.card < 2 * sporkKeys.nMinSporkKeys := by
  have accepted := sporkKeys.accepted
  simp only [setMinSporkKeys, Bool.not_eq_true', Bool.or_eq_false_iff, decide_eq_false_iff_not] at accepted
  omega

def signersOf (m : CSporkManager) (nSporkID : Int32) : Signers := (m.mapSporksActive.lookup nSporkID).getD []

/-- The loop of `SporkValueIsActive` over the values of the signers; `counts` is `mapValueCounts`. -/
def countValues (nMinSporkKeys : Int) : List Int64 → (Int64 → Nat) → Option Int64
  | [], _ => none
  | nValue :: rest, counts =>
    let counts := update counts nValue (counts nValue + 1)
    if nMinSporkKeys ≤ counts nValue then some nValue else countValues nMinSporkKeys rest counts

def sporkValueIsActive (sporkKeys : SporkKeys) (signers : Signers) : Option Int64 :=
  countValues sporkKeys.nMinSporkKeys (signers.map (·.2.nValue)) fun _ => 0

section
variable (setting : Setting) (keys : Finset CKeyID)

def store (m : CSporkManager) (spork : CSporkMessage) (keyIDSigner : CKeyID) : CSporkManager where
  mapSporksByHash := assign (setting.getHash spork) spork m.mapSporksByHash
  mapSporksActive :=
    assign spork.nSporkID (assign keyIDSigner spork (signersOf m spork.nSporkID)) m.mapSporksActive

/-- A message at the adjusted time `now`; an error is the misbehaviour score of a message that is not accepted. -/
def processSpork (now : Int) (m : CSporkManager) (spork : CSporkMessage) : Except Nat CSporkManager :=
  if spork.nTimeSigned.toInt > now + 2 * 60 * 60 then .error 100 else
  match spork.getSignerKeyID setting false with
  | none => .error 100
  | some keyIDSigner =>
    if keyIDSigner ∉ keys then .error 100
    else if ((signersOf m spork.nSporkID).lookup keyIDSigner).any (·.nTimeSigned ≥ spork.nTimeSigned) then .error 0
    else .ok (store setting m spork keyIDSigner)

/-- The message is signed by the key, in one of the two formats. -/
def validFor (signer : CKeyID) (spork : CSporkMessage) : Bool :=
  spork.checkSignature setting signer false || spork.checkSignature setting signer true

/-- The inner loop of `CheckAndRemove`, for at most `fuel` rounds. -/
def removeSigners : Nat → Signers → SporksByHash → Option (Signers × SporksByHash)
  | _, [], byHash => some ([], byHash)
  | 0, _ :: _, _ => none
  | fuel + 1, (signer, spork) :: rest, byHash =>
    if signer ∉ keys then
      -- the iterator is not moved
      removeSigners fuel ((signer, spork) :: rest) (erase (setting.getHash spork) byHash)
    else if validFor setting signer spork then
      (removeSigners fuel rest byHash).map fun (kept, byHash) => ((signer, spork) :: kept, byHash)
    else removeSigners fuel rest (erase (setting.getHash spork) byHash)

def removeSporks (fuel : Nat) :
    List (Int32 × Signers) → SporksByHash → Option (List (Int32 × Signers) × SporksByHash)
  | [], byHash => some ([], byHash)
  | (nSporkID, signers) :: rest, byHash => do
    let (kept, byHash) ← removeSigners setting keys fuel signers byHash
    let (others, byHash) ← removeSporks fuel rest byHash
    some (if kept.isEmpty then others else (nSporkID, kept) :: others, byHash)

/-- `none` where the assertion fails or the rounds are not enough. -/
def checkAndRemove (fuel : Nat) (m : CSporkManager) : Option CSporkManager :=
  if keys = ∅ then none else
  (removeSporks setting keys fuel m.mapSporksActive m.mapSporksByHash).map fun (active, byHash) =>
    ⟨byHash.filter fun entry => ∃ signer ∈ keys, validFor setting signer entry.2, active⟩

/-! ### The clean-up -/

def Holds (m : CSporkManager) (nSporkID : Int32) (signer : CKeyID) (spork : CSporkMessage) : Prop :=
  ∃ signers, (nSporkID, signers) ∈ m.mapSporksActive ∧ (signer, spork) ∈ signers

structure CleanedUp (m final : CSporkManager) : Prop where
  active : ∀ nSporkID signer spork, Holds final nSporkID signer spork ↔
    Holds m nSporkID signer spork ∧ signer ∈ keys ∧ validFor setting signer spork = true
  nonempty : ∀ nSporkID signers, (nSporkID, signers) ∈ final.mapSporksActive → signers ≠ []
  byHash : ∀ hash spork, (hash, spork) ∈ final.mapSporksByHash → ∃ signer ∈ keys, validFor setting signer spork = true

def AllAuthorised (signers : Signers) : Prop := ∀ entry ∈ signers, entry.1 ∈ keys

variable {keys}

theorem removeSigners_ends {signers : Signers} (all : AllAuthorised keys signers) {fuel : Nat}
    (enough : signers.length ≤ fuel) (byHash : SporksByHash) :
    ∃ left, removeSigners setting keys fuel signers byHash =
      some (signers.filter fun entry => validFor setting entry.1 entry.2, left) := by
  induction signers generalizing fuel byHash with
  | nil => exact ⟨byHash, by cases fuel <;> rfl⟩
  | cons entry rest ih =>
    obtain ⟨signer, spork⟩ := entry
    obtain ⟨first, others⟩ := forall_mem_cons.mp all
    cases fuel with
    | zero => simp at enough
    | succ fuel =>
      have enough : rest.length ≤ fuel := by simpa using enough
      by_cases valid : validFor setting signer spork = true
      · obtain ⟨left, ended⟩ := ih others enough byHash
        exact ⟨left, by simp [removeSigners, first, valid, ended]⟩
      · obtain ⟨left, ended⟩ := ih others enough (erase (setting.getHash spork) byHash)
        exact ⟨left, by simp [removeSigners, first, valid, ended]⟩

theorem removeSigners_stuck {signers : Signers} (stranger : ¬ AllAuthorised keys signers) (fuel : Nat)
    (byHash : SporksByHash) : removeSigners setting keys fuel signers byHash = none := by
  induction fuel generalizing signers byHash with
  | zero =>
    cases signers with
    | nil => simp [AllAuthorised] at stranger
    | cons entry rest => rfl
  | succ fuel ih =>
    cases signers with
    | nil => simp [AllAuthorised] at stranger
    | cons entry rest =>
      obtain ⟨signer, spork⟩ := entry
      by_cases first : signer ∈ keys
      · have later : ¬ AllAuthorised keys rest := fun others => stranger (forall_mem_cons.mpr ⟨first, others⟩)
        simp [removeSigners, first, ih later]
      · simp [removeSigners, first, ih stranger]

theorem removeSporks_ends {active : List (Int32 × Signers)} (all : ∀ entry ∈ active, AllAuthorised keys entry.2) :
    ∃ bound, ∀ fuel, bound ≤ fuel → ∀ byHash, ∃ left, removeSporks setting keys fuel active byHash =
      some ((active.map fun entry => (entry.1, entry.2.filter fun entry => validFor setting entry.1 entry.2)).filter
        (!·.2.isEmpty), left) := by
  induction active with
  | nil => exact ⟨0, fun _ _ byHash => ⟨byHash, rfl⟩⟩
  | cons entry rest ih =>
    obtain ⟨nSporkID, signers⟩ := entry
    obtain ⟨first, others⟩ := forall_mem_cons.mp all
    obtain ⟨bound, ends⟩ := ih others
    refine ⟨max signers.length bound, fun fuel enough byHash => ?_⟩
    obtain ⟨middle, ended⟩ := removeSigners_ends setting first (le_of_max_le_left enough) byHash
    obtain ⟨left, rested⟩ := ends fuel (le_of_max_le_right enough) middle
    refine ⟨left, ?_⟩
    rw [removeSporks, ended]
    simp only [bind, Option.bind, rested, map_cons, filter_cons]
    cases signers.filter fun entry => validFor setting entry.1 entry.2 <;> rfl

theorem removeSporks_stuck {active : List (Int32 × Signers)}
    (stranger : ¬ ∀ entry ∈ active, AllAuthorised keys entry.2) (fuel : Nat) (byHash : SporksByHash) :
    removeSporks setting keys fuel active byHash = none := by
  induction active generalizing byHash with
  | nil => simp at stranger
  | cons entry rest ih =>
    obtain ⟨nSporkID, signers⟩ := entry
    rw [removeSporks]
    by_cases first : AllAuthorised keys signers
    · have later : ¬ ∀ entry ∈ rest, AllAuthorised keys entry.2 := fun others =>
        stranger (forall_mem_cons.mpr ⟨first, others⟩)
      cases removeSigners setting keys fuel signers byHash with
      | none => rfl
      | some result => simp [bind, Option.bind, ih later]
    · rw [removeSigners_stuck setting first]
      rfl

end

/-- The clean-up ends, and leaves what it should, exactly if no loaded entry is of a key that is not authorised. -/
theorem checkAndRemove_iff (setting : Setting) (keys : Finset CKeyID) (m : CSporkManager) :
    (∃ fuel final, checkAndRemove setting keys fuel m = some final ∧ CleanedUp setting keys m final) ↔
      keys ≠ ∅ ∧ ∀ entry ∈ m.mapSporksActive, AllAuthorised keys entry.2 := by
  constructor
  · rintro ⟨fuel, final, ended, -⟩
    rw [checkAndRemove] at ended
    split_ifs at ended with empty
    refine ⟨empty, ?_⟩
    by_contra stranger
    rw [removeSporks_stuck setting stranger] at ended
    cases ended
  · rintro ⟨nonempty, all⟩
    obtain ⟨bound, ends⟩ := removeSporks_ends setting all
    obtain ⟨left, ended⟩ := ends bound le_rfl m.mapSporksByHash
    refine ⟨bound, _, by rw [checkAndRemove, if_neg nonempty, ended]; rfl, ?_, ?_, ?_⟩
    · intro nSporkID signer spork
      constructor
      · rintro ⟨signers, member, inside⟩
        obtain ⟨⟨id, before⟩, isBefore, same⟩ := mem_map.mp (mem_filter.mp member).1
        cases same
        obtain ⟨was, valid⟩ := mem_filter.mp inside
        exact ⟨⟨before, isBefore, was⟩, all _ isBefore _ was, valid⟩
      · rintro ⟨⟨signers, member, inside⟩, -, valid⟩
        have kept : (signer, spork) ∈ signers.filter fun entry => validFor setting entry.1 entry.2 :=
          mem_filter.mpr ⟨inside, valid⟩
        exact ⟨_, mem_filter.mpr ⟨mem_map_of_mem member, by simpa using ⟨_, _, inside, valid⟩⟩, kept⟩
    · intro nSporkID signers member
      simpa using (mem_filter.mp member).2
    · intro hash spork member
      simpa using (mem_filter.mp member).2

def plain : Setting := ⟨fun _ => 0, fun _ _ => some 2⟩

/-- The only entry is of key 2, and only key 1 is authorised. -/
def stranger : CSporkManager := { mapSporksActive := [(10001, [(2, ⟨10001, 0, 0, 0⟩)])] }

theorem checkAndRemove_never_ends : ¬ ∃ fuel final, checkAndRemove plain {1} fuel stranger = some final := by
  rintro ⟨fuel, final, ended⟩
  rw [checkAndRemove, removeSporks_stuck plain (by simp [stranger, AllAuthorised])] at ended
  simp at ended

/-! ### One active value -/

/-- As many signers as the threshold asks for agree on the value. -/
def Reaches (sporkKeys : SporkKeys) (signers : Signers) (nValue : Int64) : Prop :=
  sporkKeys.nMinSporkKeys ≤ (signers.map (·.2.nValue)).count nValue

/-- The messages come each at its time; what is not accepted changes nothing. -/
def run (setting : Setting) (keys : Finset CKeyID) (messages : List (Int × CSporkMessage)) : CSporkManager :=
  messages.foldl (fun m message => (processSpork setting keys message.1 m message.2).toOption.getD m) {}

structure Votes (keys : Finset CKeyID) (signers : Signers) : Prop where
  authorised : AllAuthorised keys signers
  nodup : (signers.map Prod.fst).Nodup

section
variable {setting : Setting} {sporkKeys : SporkKeys} {keys : Finset CKeyID} {m : CSporkManager} {signers : Signers}
  {spork : CSporkMessage}

theorem Votes.assign {key : CKeyID} (votes : Votes keys signers) (inside : key ∈ keys) :
    Votes keys (assign key spork signers) where
  authorised := forall_mem_cons.mpr ⟨inside, fun entry member => votes.authorised entry (mem_of_mem_filter member)⟩
  nodup := by
    rw [Sporks.assign, map_cons, nodup_cons]
    refine ⟨by simp, votes.nodup.sublist (filter_sublist.map _)⟩

theorem votes_signersOf (all : ∀ entry ∈ m.mapSporksActive, Votes keys entry.2) (nSporkID : Int32) :
    Votes keys (signersOf m nSporkID) := by
  rw [signersOf]
  cases found : m.mapSporksActive.lookup nSporkID with
  | none => exact ⟨by simp [AllAuthorised], by simp⟩
  | some signers =>
    obtain ⟨before, after, split, -⟩ := lookup_eq_some_iff.mp found
    exact all (nSporkID, signers) (by simp [split])

theorem processSpork_eq_ok {now : Int} {after : CSporkManager} :
    processSpork setting keys now m spork = .ok after ↔ ¬ spork.nTimeSigned.toInt > now + 2 * 60 * 60 ∧
      ∃ key ∈ keys, spork.getSignerKeyID setting false = some key ∧
        ((signersOf m spork.nSporkID).lookup key).any (·.nTimeSigned ≥ spork.nTimeSigned) = false ∧
        store setting m spork key = after := by
  rw [processSpork]
  by_cases late : spork.nTimeSigned.toInt > now + 2 * 60 * 60
  · rw [if_pos late]
    constructor
    · intro no
      cases no
    · rintro ⟨fine, -⟩
      exact absurd late fine
  · rw [if_neg late, and_iff_right late]
    cases spork.getSignerKeyID setting false with
    | none => simp
    | some key =>
      by_cases inside : key ∈ keys
      · by_cases seen : ((signersOf m spork.nSporkID).lookup key).any (·.nTimeSigned ≥ spork.nTimeSigned) = true
        · simp [inside, seen]
        · simp [inside, seen]
      · simp [inside]

theorem votes_run (setting : Setting) (keys : Finset CKeyID) (messages : List (Int × CSporkMessage)) :
    ∀ entry ∈ (run setting keys messages).mapSporksActive, Votes keys entry.2 := by
  refine foldlRecOn (motive := fun m : CSporkManager => ∀ entry ∈ m.mapSporksActive, Votes keys entry.2) messages _ (by simp) ?_
  rintro m all ⟨now, spork⟩ -
  dsimp only
  cases accepted : processSpork setting keys now m spork with
  | error score => exact all
  | ok after =>
    obtain ⟨-, key, inside, -, -, rfl⟩ := processSpork_eq_ok.mp accepted
    exact forall_mem_cons.mpr
      ⟨(votes_signersOf all _).assign inside, fun entry member => all entry (mem_of_mem_filter member)⟩

theorem Votes.reaches_unique (votes : Votes sporkKeys.setSporkPubKeyIDs signers) {v w : Int64}
    (one : Reaches sporkKeys signers v) (two : Reaches sporkKeys signers w) : v = w := by
  by_contra apart
  have all : signers.length ≤ sporkKeys.setSporkPubKeyIDs.card := by
    rw [← length_map Prod.fst, ← toFinset_card_of_nodup votes.nodup]
    refine Finset.card_le_card fun key member => ?_
    obtain ⟨entry, inside, rfl⟩ := mem_map.mp (mem_toFinset.mp member)
    exact votes.authorised entry inside
  have both : (signers.map (·.2.nValue)).count v + (signers.map (·.2.nValue)).count w ≤
      (signers.map (·.2.nValue)).length := by
    rw [length_eq_countP_add_countP (· == v)]
    refine Nat.add_le_add_left (countP_mono_left fun value _ isW => ?_) _
    simpa [eq_of_beq isW] using Ne.symm apart
  have majority := sporkKeys.majority
  rw [length_map] at both
  rw [Reaches] at one two
  omega

section
variable {nMinSporkKeys : Int} {values : List Int64} {counts : Int64 → Nat} {v : Int64}

theorem count_update (counts : Int64 → Nat) (value : Int64) (rest : List Int64) (v : Int64) :
    update counts value (counts value + 1) v + rest.count v = counts v + (value :: rest).count v := by
  by_cases same : v = value
  · subst same
    rw [update_self, count_cons_self]
    omega
  · rw [update_of_ne same, count_cons_of_ne (Ne.symm same)]

theorem countValues_reaches (found : countValues nMinSporkKeys values counts = some v) :
    nMinSporkKeys ≤ (counts v + values.count v : Nat) := by
  induction values generalizing counts with
  | nil => cases found
  | cons value rest ih =>
    rw [countValues] at found
    split_ifs at found with enough
    · cases found
      rw [← count_update]
      omega
    · rw [← count_update]
      exact ih found

theorem countValues_none (none : countValues nMinSporkKeys values counts = none) (below : counts v < nMinSporkKeys) :
    (counts v + values.count v : Nat) < nMinSporkKeys := by
  induction values generalizing counts with
  | nil => simpa using below
  | cons value rest ih =>
    rw [countValues] at none
    split_ifs at none with enough
    rw [← count_update]
    refine ih none ?_
    by_cases same : v = value
    · subst same
      exact Int.not_le.mp enough
    · rwa [update_of_ne same]

end

end

/-- In every state at most one value of a spork reaches the threshold, and it is the one that is reported, in whatever
order the signers are visited. -/
theorem one_active_value (setting : Setting) (sporkKeys : SporkKeys) (messages : List (Int × CSporkMessage))
    (nSporkID : Int32) : let signers := signersOf (run setting sporkKeys.setSporkPubKeyIDs messages) nSporkID
    (∀ v w, Reaches sporkKeys signers v → Reaches sporkKeys signers w → v = w) ∧
      ∀ order, order.Perm signers → ∀ v, sporkValueIsActive sporkKeys order = some v ↔ Reaches sporkKeys signers v := by
  intro signers
  have votes : Votes sporkKeys.setSporkPubKeyIDs signers := votes_signersOf (votes_run setting _ messages) nSporkID
  refine ⟨fun v w => votes.reaches_unique, fun order perm v => ?_⟩
  have counted : ∀ w, (order.map (·.2.nValue)).count w = (signers.map (·.2.nValue)).count w := fun w =>
    (perm.map _).count_eq w
  have reaches : ∀ w, sporkValueIsActive sporkKeys order = some w → Reaches sporkKeys signers w := by
    intro w found
    have enough := countValues_reaches found
    rwa [Nat.zero_add, counted] at enough
  refine ⟨reaches v, fun enough => ?_⟩
  cases found : sporkValueIsActive sporkKeys order with
  | some w => rw [votes.reaches_unique (reaches w found) enough]
  | none =>
    have positive := sporkKeys.majority
    have missed := @countValues_none _ _ _ v found (by simp; omega)
    rw [Nat.zero_add, counted] at missed
    exact absurd enough (Int.not_le.mpr missed)

/-! ### What was signed -/

/-- The messages that the holders of the keys have signed; nobody else can sign. -/
structure KeyUse (keys : Finset CKeyID) extends Setting where
  signed : CKeyID → CSporkMessage → Prop
  verifies : ∀ key spork, signed key spork → recoverCompact (.text spork.strMessage) spork.vchSig = some key
  unforgeable : ∀ key ∈ keys, ∀ strMessage vchSig, recoverCompact (.text strMessage) vchSig = some key →
    ∃ spork, signed key spork ∧ spork.strMessage = strMessage

/-- An authorised key has signed a message with the id, the value and the time of this one. -/
def KeyUse.SignedAsSuch {keys : Finset CKeyID} (use : KeyUse keys) (spork : CSporkMessage) : Prop :=
  ∃ key ∈ keys, ∃ original, use.signed key original ∧ original.triple = spork.triple

/-- Accepted messages were signed as such exactly if every message with the text of a signed one was. -/
theorem accepted_signed_iff {keys : Finset CKeyID} (use : KeyUse keys) :
    (∀ now m spork after, processSpork use.toSetting keys now m spork = .ok after → use.SignedAsSuch spork) ↔
      ∀ key ∈ keys, ∀ original, use.signed key original →
        ∀ spork, spork.strMessage = original.strMessage → use.SignedAsSuch spork := by
  constructor
  · intro accepted key inside original signed spork same
    refine accepted spork.nTimeSigned.toInt {} { spork with vchSig := original.vchSig } _
      (processSpork_eq_ok.mpr ⟨by dsimp only; omega, key, inside, ?_, rfl, rfl⟩)
    change use.recoverCompact (.text spork.strMessage) original.vchSig = some key
    rw [same]
    exact use.verifies key original signed
  · intro closed now m spork after accepted
    obtain ⟨-, key, inside, recovered, -⟩ := processSpork_eq_ok.mp accepted
    obtain ⟨original, signed, same⟩ := use.unforgeable key inside _ _ recovered
    exact closed key inside original signed spork same.symm

/-- What key 1 has signed, and what its signature fits as well. -/
def original : CSporkMessage := ⟨10002, 15, 1700000000, 5⟩
def misread : CSporkMessage := ⟨10002, 151, 700000000, 5⟩

def oneSigned : KeyUse {1} where
  getHash _ := 0
  recoverCompact hash vchSig := if hash = .text original.strMessage ∧ vchSig = 5 then some 1 else none
  signed key spork := key = 1 ∧ spork = original
  verifies := by
    rintro key spork ⟨rfl, rfl⟩
    simp [original]
  unforgeable := by
    intro key inside strMessage vchSig recovered
    simp only [Finset.mem_singleton] at inside
    split_ifs at recovered with made
    exact ⟨original, ⟨inside, rfl⟩, by simpa using made.1.symm⟩

theorem accepted_misread : ∃ after, processSpork oneSigned.toSetting {1} 1700000000 {} misread = .ok after ∧
    ¬ oneSigned.SignedAsSuch misread := by
  have same : misread.strMessage = original.strMessage := by decide
  have recovered : oneSigned.recoverCompact (.text misread.strMessage) 5 = some 1 := by
    rw [same]
    exact oneSigned.verifies 1 original ⟨rfl, rfl⟩
  refine ⟨_, processSpork_eq_ok.mpr ⟨by decide, 1, by simp, recovered, rfl, rfl⟩, ?_⟩
  rintro ⟨key, -, spork, ⟨-, rfl⟩, read⟩
  exact absurd read (by decide)

end Cspn.Sporks
