import Cspn.MnBuild

/-!
What a block does to the masternode list, one step at a time. Between the confirmations and the payment
`BuildNewListFromBlock` only updates, removes and adds masternodes; `Change` lists the ways in which it updates one, and
`Member` says where the masternodes come from.
-/
namespace Cspn.MnChange
open Primitives Index MnState MnList MnBuild Validation Option
open Std (ExtTreeMap)

structure Phases (env : BuildEnv) (block : CBlock) (pindexPrev : CBlockIndex)
    (oldList confirmed decreased processed spent newList : CDeterministicMNList) : Prop where
  confirm : (oldList.forEachMN false).foldlM (confirmMN env pindexPrev)
    { oldList with blockHash := 0, nHeight := pindexPrev.nHeight + 1 } = some confirmed
  decrease : decreasePoSePenalties env.hashing confirmed = some decreased
  process : block.vtx.tail.foldlM (processProTx env pindexPrev) decreased = .ok processed
  spend : (block.vtx.tail.flatMap fun tx => tx.vin.map CTxIn.prevout).foldlM
    (spendCollateral env oldList (pindexPrev.nHeight + 1)) processed = some spent
  pay : payMN env oldList (pindexPrev.nHeight + 1) spent = some newList

variable {env : BuildEnv} {oldList newList after base list confirmed : CDeterministicMNList} {nHeight : Int}
  {txs : List CTransaction} {p : Uint256} {state : CDeterministicMNState} {dmn : CDeterministicMN} {tx : CTransaction}
  {pindexPrev : CBlockIndex} {block : CBlock}

theorem buildNewListFromBlock_phases (built : buildNewListFromBlock env block pindexPrev oldList = .ok newList) :
    ∃ confirmed decreased processed spent,
      Phases env block pindexPrev oldList confirmed decreased processed spent newList := by
  obtain ⟨confirmed, first, built⟩ := bind_eq_ok.mp built
  obtain ⟨decreased, second, built⟩ := bind_eq_ok.mp built
  obtain ⟨processed, third, built⟩ := bind_eq_ok.mp built
  obtain ⟨spent, fourth, built⟩ := bind_eq_ok.mp built
  rw [assertSome_eq_ok] at first second fourth built
  exact ⟨confirmed, decreased, processed, spent, first, second, third, fourth, built⟩

def Carries (txs : List CTransaction) (nType : Int) (payload : ExtraPayload) : Prop :=
  ∃ tx ∈ txs, tx.nVersion = 2 ∧ tx.nType = nType ∧ tx.vExtraPayload = payload

/-- The updates of the masternode `p` between the confirmations and the payment. -/
inductive Change (nHeight : Int) (txs : List CTransaction) (p : Uint256) :
    CDeterministicMNState → CDeterministicMNState → Prop where
  | decrease {state : CDeterministicMNState} :
      Change nHeight txs p state { state with nPoSePenalty := state.nPoSePenalty - 1 }
  | punish {state : CDeterministicMNState} {nPoSePenalty nPoSeBanHeight : Int}
      (ban : nPoSeBanHeight = state.nPoSeBanHeight ∨ nPoSeBanHeight = nHeight) :
      Change nHeight txs p state { state with nPoSePenalty := nPoSePenalty, nPoSeBanHeight := nPoSeBanHeight }
  | service {state : CDeterministicMNState} {proTx : CProUpServTx} (target : proTx.proTxHash = p)
      (carried : Carries txs TRANSACTION_PROVIDER_UPDATE_SERVICE (.proUpServTx proTx)) :
      Change nHeight txs p state (servicedState nHeight proTx state)
  | registrar {state : CDeterministicMNState} {proTx : CProUpRegTx} (target : proTx.proTxHash = p)
      (carried : Carries txs TRANSACTION_PROVIDER_UPDATE_REGISTRAR (.proUpRegTx proTx)) :
      Change nHeight txs p state (registrarState nHeight proTx state)
  | revoke {state : CDeterministicMNState} {nReason : Nat} :
      Change nHeight txs p state (revokedState nHeight nReason state)

/-- What no change touches: the fields that registration, confirmation and payments set. A revival is at the height of
    the block, and only it lifts a ban. -/
structure Keeps (nHeight : Int) (state after : CDeterministicMNState) : Prop where
  registered : after.nRegisteredHeight = state.nRegisteredHeight
  paid : after.nLastPaidHeight = state.nLastPaidHeight
  confirmed : after.confirmedHash = state.confirmedHash
  confirmedWith : after.confirmedHashWithProRegTxHash = state.confirmedHashWithProRegTxHash
  owner : after.keyIDOwner = state.keyIDOwner
  revived : after.nPoSeRevivedHeight = nHeight ∨ after.nPoSeRevivedHeight = state.nPoSeRevivedHeight ∧
    (after.nPoSeBanHeight = state.nPoSeBanHeight ∨ after.nPoSeBanHeight = nHeight)

namespace Keeps
variable {first second third : CDeterministicMNState}

theorem refl (state : CDeterministicMNState) : Keeps nHeight state state :=
  ⟨rfl, rfl, rfl, rfl, rfl, .inr ⟨rfl, .inl rfl⟩⟩

theorem trans (one : Keeps nHeight first second) (two : Keeps nHeight second third) : Keeps nHeight first third where
  registered := two.registered.trans one.registered
  paid := two.paid.trans one.paid
  confirmed := two.confirmed.trans one.confirmed
  confirmedWith := two.confirmedWith.trans one.confirmedWith
  owner := two.owner.trans one.owner
  revived := by
    rcases two.revived with now | ⟨same, ban⟩
    · exact .inl now
    rcases one.revived with earlier | ⟨sameBefore, banBefore⟩
    · exact .inl (same.trans earlier)
    · refine .inr ⟨same.trans sameBefore, ?_⟩
      rcases ban with unchanged | now
      · rw [unchanged]; exact banBefore
      · exact .inr now

end Keeps

theorem keeps_reset (nHeight : Int) (state : CDeterministicMNState) :
    Keeps nHeight state (state.resetOperatorFields.banIfNotBanned nHeight) := by
  unfold CDeterministicMNState.banIfNotBanned CDeterministicMNState.resetOperatorFields
  split
  · exact ⟨rfl, rfl, rfl, rfl, rfl, .inr ⟨rfl, .inr rfl⟩⟩
  · exact ⟨rfl, rfl, rfl, rfl, rfl, .inr ⟨rfl, .inl rfl⟩⟩

theorem Change.keeps {after : CDeterministicMNState}
    (change : Change nHeight txs p state after) : Keeps nHeight state after := by
  cases change with
  | decrease => exact ⟨rfl, rfl, rfl, rfl, rfl, .inr ⟨rfl, .inl rfl⟩⟩
  | punish ban => exact ⟨rfl, rfl, rfl, rfl, rfl, .inr ⟨rfl, ban⟩⟩
  | service target carried =>
    unfold servicedState
    dsimp only
    split
    · exact ⟨rfl, rfl, rfl, rfl, rfl, .inl rfl⟩
    · exact ⟨rfl, rfl, rfl, rfl, rfl, .inr ⟨rfl, .inl rfl⟩⟩
  | registrar target carried =>
    unfold registrarState
    split
    · exact { keeps_reset nHeight state with }
    · exact ⟨rfl, rfl, rfl, rfl, rfl, .inr ⟨rfl, .inl rfl⟩⟩
  | revoke =>
    exact { keeps_reset nHeight state with }

/-! ### What a block keeps -/

/-- A property of lists that is kept by removals and by the updates of a block with these transactions. -/
structure Stable (h : Hashing) (nHeight : Int) (txs : List CTransaction) (P : CDeterministicMNList → Prop) : Prop where
  indexed : ∀ {list}, P list → Indexed h list
  height : ∀ {list}, P list → list.nHeight = nHeight
  update : ∀ {list after p dmn state}, P list → list.mnMap[p]? = some dmn → Change nHeight txs p dmn.pdmnState state →
    list.updateMN h p state = some after → P after
  remove : ∀ {list after p}, P list → list.removeMN h p = some after → P after

variable {h : Hashing} {issued : Nat}

namespace Stable
variable {P : CDeterministicMNList → Prop}

section
variable (stable : Stable h nHeight txs P) (holds : P list)
include stable holds

theorem poSePunish {penalty : Int} (punished : poSePunish h list p penalty = some after) : P after := by
  unfold MnBuild.poSePunish at punished
  split at punished
  · cases punished
  obtain ⟨dmn, found, updated⟩ := bind_eq_some_iff.mp punished
  refine stable.update holds found (.punish ?_) updated
  split
  · exact .inr (stable.height holds)
  · exact .inl rfl

theorem handleQuorumCommitment {qc : CFinalCommitment}
    {members : List CDeterministicMN} (handled : handleQuorumCommitment h qc members list = some after) : P after := by
  refine Folds.foldlM_some (P := P) ?_ holds handled
  intro member _ x y holds punished
  unfold punishMember at punished
  split at punished
  · split at punished
    · cases punished
    · cases punished; exact holds
    · exact stable.poSePunish holds punished
  · cases punished; exact holds

theorem decreasePoSePenalties (decreased : decreasePoSePenalties h list = some after) : P after := by
  refine Folds.foldlM_some (P := P) ?_ holds decreased
  intro p _ x y holds step
  obtain ⟨dmn, found, updated⟩ := bind_eq_some_iff.mp step
  split at updated
  · exact stable.update holds found .decrease updated
  · cases updated

end

section
variable (stable : Stable env.hashing nHeight txs P) (holds : P list)
include stable holds

theorem updateServiceMN {proTx : CProUpServTx}
    (carried : Carries txs TRANSACTION_PROVIDER_UPDATE_SERVICE (.proUpServTx proTx))
    (updated : updateServiceMN env nHeight list proTx = .ok after) : P after := by
  have inner : updateServiceMN.update env nHeight list proTx = .ok after → P after := by
    intro updated
    unfold updateServiceMN.update at updated
    split at updated
    · cases updated
    next dmn found => exact stable.update holds found (.service rfl carried) (assertSome_eq_ok.mp updated)
  unfold MnBuild.updateServiceMN at updated
  split at updated
  · obtain ⟨owner, _, updated⟩ := bind_eq_ok.mp updated
    split at updated
    · cases updated
    · exact inner updated
  · exact inner updated

theorem updateRegistrarMN {proTx : CProUpRegTx}
    (carried : Carries txs TRANSACTION_PROVIDER_UPDATE_REGISTRAR (.proUpRegTx proTx))
    (updated : updateRegistrarMN env nHeight list proTx = .ok after) : P after := by
  unfold MnBuild.updateRegistrarMN at updated
  split at updated
  · cases updated
  next dmn found => exact stable.update holds found (.registrar rfl carried) (assertSome_eq_ok.mp updated)

theorem revokeMN {proTx : CProUpRevTx} (revoked : revokeMN env nHeight list proTx = .ok after) : P after := by
  unfold MnBuild.revokeMN at revoked
  split at revoked
  · cases revoked
  next dmn found => exact stable.update holds found .revoke (assertSome_eq_ok.mp revoked)

theorem commitMN {qc : CFinalCommitmentTxPayload} (committed : commitMN env pindexPrev list qc = .ok after) :
    P after := by
  unfold MnBuild.commitMN at committed
  split at committed
  · cases committed; exact holds
  obtain ⟨interval, _, committed⟩ := bind_eq_ok.mp committed
  split at committed
  · cases committed
  split at committed
  · cases committed
  · exact stable.handleQuorumCommitment holds (assertSome_eq_ok.mp committed)

end

theorem processProTx (stable : Stable env.hashing (pindexPrev.nHeight + 1) txs P) (holds : P list) (member : tx ∈ txs)
    (processed : processProTx env pindexPrev list tx = .ok after) :
    isRegistration tx = false ∧ P after ∨ tx.nVersion = 2 ∧ tx.nType = TRANSACTION_PROVIDER_REGISTER ∧
      ∃ proTx, tx.vExtraPayload = .proRegTx proTx ∧ registerMN env (pindexPrev.nHeight + 1) list tx proTx = .ok after := by
  unfold MnBuild.processProTx at processed
  by_cases version : tx.nVersion = 2
  · rw [if_neg (not_not.mpr version)] at processed
    by_cases register : tx.nType = TRANSACTION_PROVIDER_REGISTER
    · rw [if_pos register] at processed
      split at processed
      next proTx payload => exact .inr ⟨version, register, proTx, payload, processed⟩
      next => cases processed
    · refine .inl ⟨by simp [isRegistration, register], ?_⟩
      rw [if_neg register] at processed
      split at processed
      next type =>
        split at processed
        next payload => exact stable.updateServiceMN holds ⟨tx, member, version, type, payload⟩ processed
        next => cases processed
      split at processed
      next type =>
        split at processed
        next payload => exact stable.updateRegistrarMN holds ⟨tx, member, version, type, payload⟩ processed
        next => cases processed
      split at processed
      · split at processed
        · exact stable.revokeMN holds processed
        · cases processed
      split at processed
      · split at processed
        · exact stable.commitMN holds processed
        · cases processed
      · cases processed; exact holds
  · rw [if_pos version] at processed
    cases processed
    exact .inl ⟨by simp [isRegistration, version], holds⟩

theorem spendCollateral (stable : Stable env.hashing nHeight txs P) (holds : P list) {parent : CDeterministicMNList}
    {prevout : COutPoint} (spent : spendCollateral env parent nHeight list prevout = some after) : P after := by
  unfold MnBuild.spendCollateral at spent
  split at spent
  · cases spent; exact holds
  next dmn found =>
    split at spent
    · cases spent; exact holds
    split at spent
    · exact stable.remove holds spent
    · obtain ⟨entry, -, listed⟩ := bind_eq_some_iff.mp found
      have key := (stable.indexed holds).keyed listed
      exact stable.update holds (key ▸ listed) .revoke spent

end Stable

/-! ### Members after the middle phases -/

/-- A masternode as the middle phases leave it: a listed or a newly registered one after some changes. -/
inductive Member (base : CDeterministicMNList) (nHeight : Int) (txs : List CTransaction) :
    Uint256 → CDeterministicMN → Prop where
  | kept {p : Uint256} {dmn : CDeterministicMN} (listed : base.mnMap[p]? = some dmn) : Member base nHeight txs p dmn
  | registered {tx : CTransaction} {proTx : CProRegTx} {internalId : Nat} (member : tx ∈ txs) (version : tx.nVersion = 2)
      (type : tx.nType = TRANSACTION_PROVIDER_REGISTER) (payload : tx.vExtraPayload = .proRegTx proTx) :
      Member base nHeight txs tx.hash (registeredMN tx proTx internalId nHeight)
  | changed {p : Uint256} {dmn : CDeterministicMN} {state : CDeterministicMNState} (before : Member base nHeight txs p dmn)
      (change : Change nHeight txs p dmn.pdmnState state) : Member base nHeight txs p { dmn with pdmnState := state }

variable {more : List CTransaction}

theorem Carries.mono {nType : Int} {payload : ExtraPayload} (inside : txs ⊆ more)
    (carried : Carries txs nType payload) : Carries more nType payload := by
  obtain ⟨tx, member, rest⟩ := carried
  exact ⟨tx, inside member, rest⟩

theorem Member.mono (inside : txs ⊆ more) (member : Member base nHeight txs p dmn) :
    Member base nHeight more p dmn := by
  induction member with
  | kept listed => exact .kept listed
  | registered member version type payload => exact .registered (inside member) version type payload
  | changed _ change ih =>
    refine .changed ih ?_
    cases change with
    | decrease => exact .decrease
    | punish ban => exact .punish ban
    | service target carried => exact .service target (carried.mono inside)
    | registrar target carried => exact .registrar target (carried.mono inside)
    | revoke => exact .revoke

/-- In the middle of a block a masternode differs from a listed or registered one only in what the changes may touch.
    -/
theorem Member.origin (member : Member base nHeight txs p dmn) :
    ∃ first, SameRegistration first dmn ∧ Keeps nHeight first.pdmnState dmn.pdmnState ∧
      (base.mnMap[p]? = some first ∨ ∃ tx ∈ txs, ∃ proTx internalId, isRegistration tx = true ∧
        tx.vExtraPayload = .proRegTx proTx ∧ p = tx.hash ∧ first = registeredMN tx proTx internalId nHeight) := by
  induction member with
  | kept listed => exact ⟨_, ⟨rfl, rfl, rfl⟩, Keeps.refl _, .inl listed⟩
  | @registered tx proTx internalId member version type payload =>
    exact ⟨_, ⟨rfl, rfl, rfl⟩, Keeps.refl _, .inr ⟨tx, member, proTx, internalId, by simp [isRegistration, version, type],
      payload, rfl, rfl⟩⟩
  | changed _ change ih =>
    obtain ⟨first, same, keeps, origin⟩ := ih
    exact ⟨first, same, keeps.trans change.keeps, origin⟩

structure Built (h : Hashing) (base : CDeterministicMNList) (nHeight : Int) (txs : List CTransaction)
    (list : CDeterministicMNList) : Prop where
  indexed : Indexed h list
  height : list.nHeight = nHeight
  member : ∀ {p : Uint256} {dmn : CDeterministicMN}, list.mnMap[p]? = some dmn → Member base nHeight txs p dmn

namespace Built

theorem start (indexed : Indexed h base) (height : base.nHeight = nHeight) : Built h base nHeight txs base :=
  ⟨indexed, height, .kept⟩

section
variable (built : Built h base nHeight txs list)
include built

theorem mono (inside : txs ⊆ more) :
    Built h base nHeight more list := ⟨built.indexed, built.height, fun found => (built.member found).mono inside⟩

theorem updateMN (found : list.mnMap[p]? = some dmn)
    (change : Change nHeight txs p dmn.pdmnState state) (updated : list.updateMN h p state = some after) :
    Built h base nHeight txs after := by
  have owner : state.keyIDOwner ≠ 0 := change.keeps.owner ▸ (built.indexed.nonNull found).2
  obtain ⟨indexed, old, listed, shape⟩ := built.indexed.updateMN updated owner
  rw [found] at listed
  cases listed
  refine ⟨indexed, by rw [shape]; exact built.height, ?_⟩
  rw [shape]
  exact forall_insert built.member (.changed (built.member found) change)

theorem removeMN (removed : list.removeMN h p = some after) : Built h base nHeight txs after := by
  obtain ⟨indexed, gone, -, shape⟩ := built.indexed.removeMN removed
  refine ⟨indexed, by rw [shape]; exact built.height, ?_⟩
  intro q other present
  rw [shape] at present
  exact built.member (erase_cases present).2

theorem countRegistration : Built h base nHeight txs list.countRegistration :=
  ⟨built.indexed.congr rfl rfl, built.height, built.member⟩

theorem addMN (member : Member base nHeight txs dmn.proTxHash dmn)
    (added : list.addMN h dmn = some after) : Built h base nHeight txs after := by
  obtain ⟨indexed, -, shape⟩ := built.indexed.addMN added
  refine ⟨indexed, by rw [shape]; exact built.height, ?_⟩
  rw [shape]
  exact forall_insert built.member member

end

theorem stable : Stable h nHeight txs (Built h base nHeight txs) :=
  ⟨indexed, height, updateMN, removeMN⟩

theorem registerMN {proTx : CProRegTx} (built : Built env.hashing base nHeight txs list)
    (member : tx ∈ txs) (version : tx.nVersion = 2) (type : tx.nType = TRANSACTION_PROVIDER_REGISTER)
    (payload : tx.vExtraPayload = .proRegTx proTx) (registered : registerMN env nHeight list tx proTx = .ok after) :
    Built env.hashing base nHeight txs after := by
  obtain ⟨middle, replaced, added⟩ := registerMN_spec registered
  have atMiddle : Built env.hashing base nHeight txs middle := by
    obtain rfl | ⟨q, replaced⟩ := replaced
    · exact built.countRegistration
    · exact built.countRegistration.removeMN replaced
  exact atMiddle.addMN (.registered member version type payload) added

theorem processProTx (built : Built env.hashing base (pindexPrev.nHeight + 1) txs list)
    (member : tx ∈ txs) (processed : processProTx env pindexPrev list tx = .ok after) :
    Built env.hashing base (pindexPrev.nHeight + 1) txs after := by
  obtain ⟨-, kept⟩ | ⟨version, type, proTx, payload, registered⟩ := stable.processProTx built member processed
  · exact kept
  · exact built.registerMN member version type payload registered

end Built

theorem Phases.built {decreased processed spent : CDeterministicMNList}
    (phases : Phases env block pindexPrev oldList confirmed decreased processed spent newList)
    (indexed : Indexed env.hashing confirmed) (height : confirmed.nHeight = pindexPrev.nHeight + 1) :
    Built env.hashing confirmed (pindexPrev.nHeight + 1) block.vtx.tail processed ∧
      Built env.hashing confirmed (pindexPrev.nHeight + 1) block.vtx.tail spent := by
  have start : Built env.hashing confirmed (pindexPrev.nHeight + 1) block.vtx.tail decreased :=
    Built.stable.decreasePoSePenalties (.start indexed height) phases.decrease
  have middle := Folds.foldlM_ok (fun tx member _ _ built processed => Built.processProTx built member processed)
    start phases.process
  exact ⟨middle, Folds.foldlM_some (fun _ _ _ _ built => Built.stable.spendCollateral built) middle phases.spend⟩

/-- The loop body that sets the confirmed hash, seen from one masternode. -/
def confirmedDmn (env : BuildEnv) (pindexPrev : CBlockIndex) (dmn : CDeterministicMN) : CDeterministicMN :=
  if dmn.pdmnState.confirmedHash = 0 ∧
      (pindexPrev.nHeight : Int) - dmn.pdmnState.nRegisteredHeight ≥ env.nMasternodeMinimumConfirmations then
    { dmn with pdmnState :=
      { dmn.pdmnState with
        confirmedHash := pindexPrev.getBlockHash
        confirmedHashWithProRegTxHash := env.hashing.sha256 dmn.proTxHash pindexPrev.getBlockHash } }
  else dmn

abbrev Confirms (env : BuildEnv) (pindexPrev : CBlockIndex) (oldList confirmed : CDeterministicMNList) : Prop :=
  ∀ p : Uint256, confirmed.mnMap[p]? = (oldList.mnMap[p]?).map (confirmedDmn env pindexPrev)

theorem confirmMN_spec (indexed : Indexed env.hashing list) (listed : list.mnMap[dmn.proTxHash]? = some dmn)
    (confirmed : confirmMN env pindexPrev list dmn = some after) :
    Indexed env.hashing after ∧ after.nHeight = list.nHeight ∧
      ∀ q, after.mnMap[q]? = if q = dmn.proTxHash then some (confirmedDmn env pindexPrev dmn) else list.mnMap[q]? := by
  have unchanged : confirmedDmn env pindexPrev dmn = dmn → ∀ q,
      list.mnMap[q]? = if q = dmn.proTxHash then some (confirmedDmn env pindexPrev dmn) else list.mnMap[q]? := by
    intro same q
    rw [same]
    split
    next here => rw [here, listed]
    next => rfl
  unfold confirmMN at confirmed
  split at confirmed
  next set => cases confirmed; exact ⟨indexed, rfl, unchanged (by rw [confirmedDmn, if_neg (by tauto)])⟩
  next unset =>
    split at confirmed
    next old =>
      obtain ⟨indexed', dmn', listed', shape⟩ := indexed.updateMN confirmed (indexed.nonNull listed).2
      rw [listed] at listed'
      cases listed'
      refine ⟨indexed', by rw [shape], ?_⟩
      intro q
      have value : confirmedDmn env pindexPrev dmn = _ := if_pos ⟨not_not.mp unset, old⟩
      rw [shape, value]
      by_cases here : q = dmn.proTxHash
      · simp [here]
      · simp [ExtTreeMap.getElem?_insert, here, Ne.symm here]
    next young => cases confirmed; exact ⟨indexed, rfl, unchanged (by rw [confirmedDmn, if_neg (by tauto)])⟩

theorem confirmMNs_eq (indexed : Indexed env.hashing oldList)
    (folded : (oldList.forEachMN false).foldlM (confirmMN env pindexPrev)
      { oldList with blockHash := 0, nHeight := pindexPrev.nHeight + 1 } = some confirmed) :
    Indexed env.hashing confirmed ∧ confirmed.nHeight = pindexPrev.nHeight + 1 ∧
      Confirms env pindexPrev oldList confirmed := by
  -- the masternodes that the loop has not reached are still those of the parent
  let P (rest : List CDeterministicMN) (list : CDeterministicMNList) : Prop :=
    Indexed env.hashing list ∧ list.nHeight = pindexPrev.nHeight + 1 ∧ rest.Nodup ∧ rest ⊆ oldList.forEachMN false ∧
      ∀ p : Uint256, list.mnMap[p]? =
        (oldList.mnMap[p]?).map fun dmn => if dmn ∈ rest then dmn else confirmedDmn env pindexPrev dmn
  have final : P [] confirmed := by
    refine Folds.foldlM_some_rest (P := P) ?_ ?_ folded
    · rintro dmn rest x y ⟨indexed', height, nodup, inside, spec⟩ step
      obtain ⟨fresh, nodup⟩ := List.nodup_cons.mp nodup
      obtain ⟨member, inside⟩ := List.cons_subset.mp inside
      obtain ⟨p, listed⟩ := mem_forEachMN.mp member
      have key := indexed.keyed listed
      have current : x.mnMap[dmn.proTxHash]? = some dmn := by
        rw [key, spec p, listed]
        simp
      obtain ⟨indexed', height', after⟩ := confirmMN_spec indexed' current step
      refine ⟨indexed', height'.trans height, nodup, inside, ?_⟩
      intro q
      rw [after q]
      split
      next here => rw [here, key, listed]; simp [fresh]
      next other =>
        rw [spec q]
        cases found : oldList.mnMap[q]? with
        | none => rfl
        | some dmn' =>
          have apart : dmn' ≠ dmn := by
            rintro rfl
            exact other (indexed.keyed found).symm
          simp [apart]
    · refine ⟨indexed.congr rfl rfl, rfl, indexed.forEachMN_nodup, fun _ member => member, ?_⟩
      intro p
      cases found : oldList.mnMap[p]? with
      | none => rfl
      | some dmn => simp [mem_forEachMN.mpr ⟨p, found⟩]
  obtain ⟨indexed', height, -, -, spec⟩ := final
  refine ⟨indexed', height, ?_⟩
  intro p
  simpa using spec p

/-- The collateral of a masternode in the middle of a block is that of the same masternode in the parent's list, or
    that of a registration of the block. -/
theorem Built.collateral (built : Built env.hashing confirmed (pindexPrev.nHeight + 1) txs list)
    (confirms : Confirms env pindexPrev oldList confirmed) (found : list.mnMap[p]? = some dmn) :
    (∃ old, oldList.mnMap[p]? = some old ∧ old.collateralOutpoint = dmn.collateralOutpoint) ∨
      ∃ tx ∈ txs, ∃ proTx, Carries [tx] TRANSACTION_PROVIDER_REGISTER (.proRegTx proTx) ∧
        (registeredMN tx proTx 0 0).collateralOutpoint = dmn.collateralOutpoint := by
  obtain ⟨first, ⟨-, same, -⟩, -, origin⟩ := (built.member found).origin
  rcases origin with before | ⟨tx, member, proTx, internalId, registers, payload, -, rfl⟩
  · rw [confirms] at before
    obtain ⟨old, listed, rfl⟩ := map_eq_some_iff.mp before
    exact .inl ⟨old, listed, by rw [← same, confirmedDmn]; split <;> rfl⟩
  · simp only [isRegistration, decide_eq_true_eq] at registers
    exact .inr ⟨tx, member, proTx, ⟨tx, List.mem_singleton.mpr rfl, registers.1, registers.2, payload⟩, same⟩

def paidDmn (oldList : CDeterministicMNList) (nHeight : Int) (dmn : CDeterministicMN) : CDeterministicMN :=
  if (getMNPayee oldList).map CDeterministicMN.proTxHash = some dmn.proTxHash then
    { dmn with pdmnState := { dmn.pdmnState with nLastPaidHeight := nHeight } }
  else dmn

theorem payMN_spec (indexed : Indexed env.hashing list) (paid : payMN env oldList nHeight list = some after) :
    Indexed env.hashing after ∧ ∀ p : Uint256, after.mnMap[p]? = (list.mnMap[p]?).map (paidDmn oldList nHeight) := by
  have unpaid : (∀ p : Uint256, ∀ dmn, list.mnMap[p]? = some dmn → paidDmn oldList nHeight dmn = dmn) →
      ∀ p : Uint256, list.mnMap[p]? = (list.mnMap[p]?).map (paidDmn oldList nHeight) := by
    intro same p
    cases found : list.mnMap[p]? with
    | none => rfl
    | some dmn => rw [map_some, same p dmn found]
  unfold payMN at paid
  split at paid
  next nobody => cases paid; exact ⟨indexed, unpaid fun p dmn _ => by simp [paidDmn, nobody]⟩
  next payee chosen =>
    split at paid
    next gone =>
      cases paid
      refine ⟨indexed, unpaid fun p dmn found => ?_⟩
      have apart : payee.proTxHash ≠ dmn.proTxHash := by
        intro same
        rw [CDeterministicMNList.getMN, same, indexed.keyed found, found] at gone
        cases gone
      simp [paidDmn, chosen, apart]
    next dmn found =>
      obtain ⟨indexed', old, listed, shape⟩ := indexed.updateMN paid (indexed.nonNull found).2
      change list.mnMap[payee.proTxHash]? = some dmn at found
      rw [found] at listed
      cases listed
      refine ⟨indexed', ?_⟩
      intro p
      rw [shape]
      simp only [ExtTreeMap.getElem?_insert, Std.compare_eq_iff_eq]
      split
      next here =>
        rw [← here, found, map_some, paidDmn, if_pos]
        rw [chosen, map_some, indexed.keyed found]
      next other =>
        cases present : list.mnMap[p]? with
        | none => rfl
        | some dmn' =>
          have key := indexed.keyed present
          rw [map_some, paidDmn, if_neg]
          rw [chosen, map_some, key]
          exact fun same => other (some.inj same)

/-! ### The counter and the ids -/

theorem evolves_stable : Stable h oldList.nHeight txs (Evolves h oldList · issued) where
  indexed := fun evolves => evolves.consistent.indexed
  height := Evolves.height
  update := fun evolves found change updated =>
    evolves.updateMN (change.keeps.owner ▸ (evolves.consistent.nonNull found).2) updated
  remove := Evolves.removeMN

theorem evolves_processProTxs (txs : List CTransaction)
    (height : oldList.nHeight = pindexPrev.nHeight + 1) (evolves : Evolves env.hashing oldList list issued)
    (processed : txs.foldlM (processProTx env pindexPrev) list = .ok after)
    (room : oldList.nTotalRegisteredCount + issued + txs.countP isRegistration < 2 ^ 32) :
    Evolves env.hashing oldList after (issued + txs.countP isRegistration) := by
  induction txs generalizing list issued with
  | nil => cases processed; simpa using evolves
  | cons tx rest ih =>
    obtain ⟨middle, first, tail⟩ := bind_eq_ok.mp processed
    rw [List.countP_cons] at room ⊢
    obtain ⟨other, kept⟩ | ⟨version, type, proTx, payload, registered⟩ :=
      Stable.processProTx (height ▸ evolves_stable) evolves (List.mem_singleton.mpr rfl) first
    · simp only [other, Bool.false_eq_true, ↓reduceIte] at room ⊢
      exact ih kept tail room
    · have counts : isRegistration tx = true := by simp [isRegistration, version, type]
      simp only [counts, ↓reduceIte] at room ⊢
      rw [Nat.add_comm _ 1, ← Nat.add_assoc]
      exact ih (evolves.registerMN registered (by omega)) tail (by omega)

theorem buildNewListFromBlock_evolves (consistent : Consistent env.hashing oldList oldList.nTotalRegisteredCount)
    (room : oldList.nTotalRegisteredCount + registrations block < 2 ^ 32)
    (built : buildNewListFromBlock env block pindexPrev oldList = .ok newList) :
    Evolves env.hashing { oldList with blockHash := 0, nHeight := pindexPrev.nHeight + 1 } newList
      (registrations block) := by
  obtain ⟨confirmed, decreased, processed, spent, first, second, third, fourth, last⟩ :=
    buildNewListFromBlock_phases built
  generalize base : { oldList with blockHash := 0, nHeight := (pindexPrev.nHeight : Int) + 1 } = start at first ⊢
  have atStart : Evolves env.hashing start start 0 := by subst base; exact .start (consistent.congr rfl rfl rfl)
  have afterConfirm := Folds.foldlM_some (P := fun list => Evolves env.hashing start list 0)
    (fun dmn listed _ _ evolves step => evolves.confirmMN consistent listed step) atStart first
  have height : start.nHeight = pindexPrev.nHeight + 1 := by rw [← base]
  have stable : ∀ issued, Stable env.hashing (pindexPrev.nHeight + 1) [] (Evolves env.hashing start · issued) :=
    fun _ => height ▸ evolves_stable
  have afterTxs := evolves_processProTxs block.vtx.tail height ((stable 0).decreasePoSePenalties afterConfirm second)
    third (by subst base; simpa [registrations] using room)
  rw [Nat.zero_add] at afterTxs
  have afterSpends := Folds.foldlM_some (P := fun list => Evolves env.hashing start list (registrations block))
    (fun _ _ _ _ evolves => (stable _).spendCollateral evolves) afterTxs fourth
  exact afterSpends.payMN last

end Cspn.MnChange
