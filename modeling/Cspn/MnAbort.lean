import Cspn.MnChain

/-!
Blocks that stop the node. The transactions of a block are checked against the list of the parent, but applied in
turn, under assertions. Two interactions get past the checks: an operator key that two transactions set, and a
collateral registered again and spent.
-/
namespace Cspn.MnAbort
open Primitives Coins Index MnState MnList MnBuild MnChange MnChain List Function Validation Env SpecialTx ProviderTx CDeterministicMNState COutPoint CCoinsView
  Overwrite BlockCheck MnDiff MnManager.CDeterministicMNManager
open Std (ExtTreeMap)
open CDeterministicMNList

variable {list : CDeterministicMNList} {pindexPrev : CBlockIndex} {block : CBlock}
  {h : Hashing} {base oldList : CDeterministicMNList} {p : Uint256} {dmn : CDeterministicMN} {nHeight : Int}
  {txs : List CTransaction} {env : BuildEnv} {failure : Failure} {tx spender : CTransaction} {txin : CTxIn}

theorem handleQuorumCommitment_isSome
    (built : Built h base nHeight txs list) {qc : CFinalCommitment} {members : List CDeterministicMN}
    (sized : members.length ≤ qc.validMembers.length) : ∃ after, handleQuorumCommitment h qc members list = some after := by
  let P (rest : List (CDeterministicMN × Nat)) (list : CDeterministicMNList) : Prop :=
    Built h base nHeight txs list ∧ ∀ member ∈ rest, member.2 < qc.validMembers.length
  have step : ∀ member rest x, P (member :: rest) x → ∃ y, punishMember h qc x member = some y ∧ P rest y := by
    rintro ⟨member, i⟩ rest list ⟨built, flags⟩
    obtain ⟨flagged, flags⟩ := forall_mem_cons.mp flags
    unfold punishMember
    split
    next listed =>
      obtain ⟨dmn, found⟩ := Option.isSome_iff_exists.mp listed
      rw [getElem?_eq_getElem flagged]
      cases qc.validMembers[i] with
      | true => exact ⟨list, rfl, built, flags⟩
      | false =>
        have enough : 100 ≤ calcMaxPoSePenalty list := le_max_left _ _
        obtain ⟨after, punished⟩ : ∃ after, poSePunish h list member.proTxHash (calcPenalty list 66) = some after := by
          rw [poSePunish, if_neg (by unfold calcPenalty; omega), show list.getMN member.proTxHash = some dmn from found]
          exact built.indexed.updateMN_isSome_own found rfl (.inl rfl) (.inl rfl)
        exact ⟨after, punished, Built.stable.poSePunish built punished, flags⟩
    next => exact ⟨list, rfl, built, flags⟩
  have start : P members.zipIdx list := by
    refine ⟨built, ?_⟩
    rintro ⟨member, i⟩ inside
    obtain ⟨-, lt, -⟩ := mem_zipIdx inside
    omega
  obtain ⟨after, handled, -⟩ := Folds.foldlM_isSome_rest step start
  exact ⟨after, handled⟩

theorem updateMN_own (indexed : Indexed h list) (found : list.mnMap[p]? = some dmn) (state : CDeterministicMNState)
    (owner : state.keyIDOwner = dmn.pdmnState.keyIDOwner) (addr : state.addr = dmn.pdmnState.addr ∨ state.addr = {})
    (operator : state.pubKeyOperator = dmn.pdmnState.pubKeyOperator ∨ state.pubKeyOperator = none) :
    ∃ after, list.updateMN h p state = some after ∧ Indexed h after ∧
      ∀ q, p ≠ q → after.mnMap[q]? = list.mnMap[q]? := by
  obtain ⟨after, updated⟩ := indexed.updateMN_isSome_own found owner addr operator
  obtain ⟨indexed', old, listed, shape⟩ := indexed.updateMN updated (owner ▸ (indexed.nonNull found).2)
  refine ⟨after, updated, indexed', ?_⟩
  intro q other
  rw [shape]
  simp [ExtTreeMap.getElem?_insert, other]

/-- A loop that changes each masternode in its turn finds every one as it was before. -/
theorem forEach_isSome {step : CDeterministicMNList → CDeterministicMN → Option CDeterministicMNList}
    {dmns : List CDeterministicMN} (indexed : Indexed h list) (nodup : dmns.Nodup)
    (listed : ∀ dmn ∈ dmns, list.mnMap[dmn.proTxHash]? = some dmn)
    (runs : ∀ dmn ∈ dmns, ∀ list, Indexed h list → list.mnMap[dmn.proTxHash]? = some dmn → ∃ after,
      step list dmn = some after ∧ Indexed h after ∧ ∀ q, dmn.proTxHash ≠ q → after.mnMap[q]? = list.mnMap[q]?) :
    ∃ after, dmns.foldlM step list = some after := by
  induction dmns generalizing list with
  | nil => exact ⟨list, rfl⟩
  | cons dmn rest ih =>
    obtain ⟨fresh, nodup⟩ := nodup_cons.mp nodup
    obtain ⟨found, others⟩ := forall_mem_cons.mp listed
    obtain ⟨run, runs⟩ := forall_mem_cons.mp runs
    obtain ⟨after, first, indexed', frame⟩ := run list indexed found
    have kept : ∀ other ∈ rest, after.mnMap[other.proTxHash]? = some other := by
      intro other member
      have present := others other member
      rw [frame, present]
      intro same
      rw [← same, found] at present
      cases present
      exact fresh member
    obtain ⟨final, tail⟩ := ih indexed' nodup kept runs
    exact ⟨final, by rw [foldlM_cons, first]; exact tail⟩

theorem decreasePoSePenalties_isSome (indexed : Indexed h list) : ∃ after, decreasePoSePenalties h list = some after := by
  rw [decreasePoSePenalties, foldlM_map]
  refine forEach_isSome indexed (indexed.forEachMN_nodup.filter _) ?_ ?_
  · intro dmn candidate
    obtain ⟨⟨p, found⟩, -⟩ := mem_forEachMN_true.mp (mem_filter.mp candidate).1
    exact indexed.keyed found ▸ found
  · intro dmn candidate list indexed found
    rw [poSeDecrease, getMN, found, Option.bind_some,
      if_pos (of_decide_eq_true (mem_filter.mp candidate).2)]
    exact updateMN_own indexed found _ rfl (.inl rfl) (.inl rfl)

theorem payMN_isSome (indexed : Indexed env.hashing list) : ∃ after, payMN env oldList nHeight list = some after := by
  unfold payMN
  split
  · exact ⟨list, rfl⟩
  split
  · exact ⟨list, rfl⟩
  next payee _ dmn found => exact indexed.updateMN_isSome_own found rfl (.inl rfl) (.inl rfl)

/-! ### Transactions of the first loop -/

/-- Rejections are the only failures in which a block may end. -/
def Fatal (failure : Failure) : Prop := ∀ reason text, failure ≠ .invalid reason text

open Avoids

theorem avoids_consensus {α : Type} (fatal : Fatal failure) (text : String) :
    Avoids failure (consensus text : Result α) := consensus (fatal _ _)

theorem replaced_spec (indexed : Indexed h list) (outpoint : COutPoint) :
    ∃ middle, (match list.getMNByCollateral h outpoint with
        | some replacedDmn => list.removeMN h replacedDmn.proTxHash | none => some list) = some middle ∧
      Indexed h middle ∧ (∀ q, held h middle.mnMap q (h.serializeHash (.outpoint outpoint)) = 0) ∧
      ∀ (q : Uint256) (dmn : CDeterministicMN), middle.mnMap[q]? = some dmn → list.mnMap[q]? = some dmn := by
  cases looked : list.getMNByCollateral h outpoint with
  | none =>
    refine ⟨list, rfl, indexed, ?_, fun _ _ found => found⟩
    intro q
    by_contra holds
    obtain ⟨dmn, found, member⟩ := held_pos.mp (Nat.pos_of_ne_zero holds)
    have holder := indexed.getUniquePropertyMN_eq_some.mpr ⟨indexed.keyed found ▸ found, member⟩
    cases holder.symm.trans looked
  | some replaced =>
    obtain ⟨found, member⟩ := indexed.getUniquePropertyMN_eq_some.mp looked
    obtain ⟨middle, removed⟩ := indexed.removeMN_isSome found
    obtain ⟨indexed', _, _, shape⟩ := indexed.removeMN removed
    refine ⟨middle, removed, indexed', ?_, ?_⟩
    · intro q
      rw [shape, held_erase]
      split
      next => rfl
      next other => exact indexed.held_other (held_pos.mpr ⟨replaced, found, member⟩) other
    · intro q dmn present
      rw [shape] at present
      exact (erase_cases present).2

theorem unheld_of_unused {v : UniqueProperty} (indexed : Indexed h list) (free : ¬ list.hasUniqueProperty h v = true)
    (q : Uint256) : held h list.mnMap q (h.serializeHash v) = 0 := by
  by_contra holds
  exact free (indexed.hasUniqueProperty_iff.mpr ⟨q, Nat.pos_of_ne_zero holds⟩)

theorem servicedState_kept (nHeight : Int) (proTx : CProUpServTx) (state : CDeterministicMNState) :
    (servicedState nHeight proTx state).keyIDOwner = state.keyIDOwner ∧
      (servicedState nHeight proTx state).addr = proTx.addr ∧
      (servicedState nHeight proTx state).pubKeyOperator = state.pubKeyOperator := by
  unfold servicedState
  dsimp only
  split
  · exact ⟨rfl, rfl, rfl⟩
  · exact ⟨rfl, rfl, rfl⟩

section
variable (fatal : Fatal failure) (indexed : Indexed env.hashing list)
include fatal indexed

/-- Once the former owner of its collateral is gone, a checked registration finds its place. -/
theorem avoids_registerMN
    {proTx : CProRegTx} (collateral : (registeredMN tx proTx 0 0).collateralOutpoint ≠ null)
    (owner : proTx.keyIDOwner ≠ 0) (same : ∀ dmn, list.mnMap[tx.hash]? = some dmn →
      dmn.collateralOutpoint = (registeredMN tx proTx 0 0).collateralOutpoint) :
    Avoids failure (registerMN env nHeight list tx proTx) := by
  have counted : Indexed env.hashing list.countRegistration := indexed.congr rfl rfl
  obtain ⟨middle, replaced, indexed', unheld, subset⟩ :=
    replaced_spec counted (registeredMN tx proTx 0 0).collateralOutpoint
  unfold registerMN
  dsimp only
  split
  · exact avoids_consensus fatal _
  refine bind (assertSome ⟨middle, replaced⟩) ?_
  intro middle' isMiddle
  cases (assertSome_eq_ok.mp isMiddle).symm.trans replaced
  split
  · exact avoids_consensus fatal _
  next addrFree =>
    split
    · exact avoids_consensus fatal _
    next keysFree =>
      rw [Bool.or_eq_true, not_or] at keysFree
      apply Avoids.assertSome
      refine indexed'.addMN_isSome ?_ collateral owner ?_
      · -- a masternode of this name would have the collateral that nobody holds
        by_contra present
        obtain ⟨dmn, found⟩ := Option.ne_none_iff_exists'.mp present
        have holds : 0 < held env.hashing middle.mnMap tx.hash
            (env.hashing.serializeHash (.outpoint dmn.collateralOutpoint)) :=
          held_pos.mpr ⟨dmn, found, mem_map_of_mem (mem_uniqueProperties.mpr (.inl rfl))⟩
        rw [same dmn (subset _ _ found), unheld] at holds
        omega
      · intro key member q _
        obtain ⟨v, property, rfl⟩ := mem_map.mp member
        rcases mem_uniqueProperties.mp property with rfl | ⟨-, rfl⟩ | rfl | ⟨-, rfl⟩
        · exact unheld q
        · exact unheld_of_unused indexed' addrFree q
        · exact unheld_of_unused indexed' keysFree.1 q
        · exact unheld_of_unused indexed' keysFree.2 q

theorem avoids_updateServiceMN {proTx : CProUpServTx} : Avoids failure (updateServiceMN env nHeight list proTx) := by
  have update : (∀ q, q ≠ proTx.proTxHash →
      held env.hashing list.mnMap q (env.hashing.serializeHash (.service proTx.addr)) = 0) →
      Avoids failure (updateServiceMN.update env nHeight list proTx) := by
    intro free
    unfold updateServiceMN.update
    split
    · exact avoids_consensus fatal _
    next dmn found =>
      obtain ⟨owner, addr, operator⟩ := servicedState_kept nHeight proTx dmn.pdmnState
      apply Avoids.assertSome
      refine indexed.updateMN_isSome found owner ?_ ?_
      · rw [addr]
        exact fun _ => free
      · intro set q other
        rw [operator] at set ⊢
        exact indexed.held_own found (mem_uniqueProperties.mpr (.inr (.inr (.inr ⟨set, rfl⟩)))) other
  unfold updateServiceMN
  split
  next present =>
    obtain ⟨q, holds⟩ := indexed.hasUniqueProperty_iff.mp present
    obtain ⟨holder, found, member⟩ := held_pos.mp holds
    obtain rfl := indexed.keyed found
    have looked := indexed.getUniquePropertyMN_eq_some.mpr ⟨found, member⟩
    refine bind (assertSome ⟨holder, looked⟩) ?_
    intro owner isOwner
    cases (assertSome_eq_ok.mp isOwner).symm.trans looked
    split
    · exact avoids_consensus fatal _
    next mine =>
      rw [not_not] at mine
      exact update fun q other => indexed.held_other (mine ▸ holds) other
  next absent => exact update fun q _ => unheld_of_unused indexed absent q

/-- A registrar update does not look whether somebody else has the operator key by now. -/
theorem avoids_updateRegistrarMN {proTx : CProUpRegTx} (free : ∀ q, q ≠ proTx.proTxHash →
      held env.hashing list.mnMap q (env.hashing.serializeHash (.blsKey proTx.pubKeyOperator)) = 0) :
    Avoids failure (updateRegistrarMN env nHeight list proTx) := by
  unfold updateRegistrarMN
  split
  · exact avoids_consensus fatal _
  next dmn found =>
    have kept : (registrarState nHeight proTx dmn.pdmnState).keyIDOwner = dmn.pdmnState.keyIDOwner ∧
        ((registrarState nHeight proTx dmn.pdmnState).addr = dmn.pdmnState.addr ∨
          (registrarState nHeight proTx dmn.pdmnState).addr = {}) ∧
        (registrarState nHeight proTx dmn.pdmnState).pubKeyOperator = proTx.pubKeyOperator := by
      unfold registrarState
      split
      · refine ⟨by simp [resetOperatorFields], .inr ?_, rfl⟩
        unfold banIfNotBanned
        split <;> rfl
      · exact ⟨rfl, .inl rfl, rfl⟩
    obtain ⟨owner, addr, operator⟩ := kept
    apply Avoids.assertSome
    refine indexed.updateMN_isSome found owner ?_ ?_
    · intro set q other
      have same := addr.resolve_right set
      rw [same] at set ⊢
      exact indexed.held_own found (mem_uniqueProperties.mpr (.inr (.inl ⟨set, rfl⟩))) other
    · rw [operator]
      exact fun _ => free

end

theorem revokedState_reset (nHeight : Int) (nReason : Nat) (state : CDeterministicMNState) :
    (revokedState nHeight nReason state).keyIDOwner = state.keyIDOwner ∧ (revokedState nHeight nReason state).addr = {} ∧
      (revokedState nHeight nReason state).pubKeyOperator = none := by
  unfold revokedState banIfNotBanned
  split
  · exact ⟨rfl, rfl, rfl⟩
  · exact ⟨rfl, rfl, rfl⟩

theorem revoked_isSome (indexed : Indexed h list) (found : list.mnMap[p]? = some dmn) (nReason : Nat) :
    ∃ after, list.updateMN h p (revokedState nHeight nReason dmn.pdmnState) = some after := by
  obtain ⟨owner, addr, operator⟩ := revokedState_reset nHeight nReason dmn.pdmnState
  exact indexed.updateMN_isSome_own found owner (.inr addr) (.inr operator)

theorem avoids_revokeMN (fatal : Fatal failure) (indexed : Indexed env.hashing list) {proTx : CProUpRevTx} :
    Avoids failure (revokeMN env nHeight list proTx) := by
  unfold revokeMN
  split
  · exact avoids_consensus fatal _
  next dmn found => exact assertSome (revoked_isSome indexed found _)

/-- The transaction gives the masternode `p` an operator key. -/
def SetsOperator (tx : CTransaction) (p : Uint256) (key : CBLSPublicKey) : Prop :=
  (∃ ptx, Carries [tx] TRANSACTION_PROVIDER_REGISTER (.proRegTx ptx) ∧ tx.hash = p ∧ ptx.pubKeyOperator = key) ∨
    ∃ ptx, Carries [tx] TRANSACTION_PROVIDER_UPDATE_REGISTRAR (.proUpRegTx ptx) ∧ ptx.proTxHash = p ∧
      ptx.pubKeyOperator = key

/-- No registrar update sets an operator key that an earlier transaction gave to another, and no collateral of the
    list is registered again and spent in the block. -/
structure Harmless (oldList : CDeterministicMNList) (block : CBlock) : Prop where
  operators : block.vtx.tail.Pairwise fun earlier later => ∀ ptx p,
    Carries [later] TRANSACTION_PROVIDER_UPDATE_REGISTRAR (.proUpRegTx ptx) →
      SetsOperator earlier p ptx.pubKeyOperator → p = ptx.proTxHash
  collaterals : ∀ tx ∈ block.vtx.tail, ∀ ptx, Carries [tx] TRANSACTION_PROVIDER_REGISTER (.proRegTx ptx) →
    ∀ dmn ∈ oldList.forEachMN false, dmn.collateralOutpoint = (registeredMN tx ptx 0 0).collateralOutpoint →
      ∀ spender ∈ block.vtx.tail, ∀ txin ∈ spender.vin, txin.prevout ≠ dmn.collateralOutpoint

theorem carries_single {nType : Int} {payload : ExtraPayload} :
    Carries [tx] nType payload ↔ tx.nVersion = 2 ∧ tx.nType = nType ∧ tx.vExtraPayload = payload := by
  simp [Carries]

theorem member_operator (member : Member base nHeight txs p dmn) (set : dmn.pdmnState.pubKeyOperator.isSome) :
    (∃ old, base.mnMap[p]? = some old ∧
        old.pdmnState.pubKeyOperator = dmn.pdmnState.pubKeyOperator) ∨
      ∃ tx ∈ txs, SetsOperator tx p dmn.pdmnState.pubKeyOperator := by
  induction member with
  | kept listed => exact .inl ⟨_, listed, rfl⟩
  | @registered tx proTx internalId member version type payload =>
    exact .inr ⟨tx, member, .inl ⟨proTx, carries_single.mpr ⟨version, type, payload⟩, rfl, rfl⟩⟩
  | @changed p dmn state _ change ih =>
    cases change with
    | decrease | punish => exact ih set
    | service =>
      rw [(servicedState_kept ..).2.2] at set ⊢
      exact ih set
    | @registrar proTx target carried =>
      obtain ⟨tx, member, version, type, payload⟩ := carried
      exact .inr ⟨tx, member, .inr ⟨proTx, carries_single.mpr ⟨version, type, payload⟩, target, rfl⟩⟩
    | revoke =>
      rw [(revokedState_reset ..).2.2] at set
      cases set

/-! ### The loops -/

/-- What the parent's list and the checks against it say about the transactions of a block. -/
structure Checked (oldList : CDeterministicMNList) (env : BuildEnv) (txs : List CTransaction) : Prop where
  register : ∀ tx ∈ txs, tx.nVersion = 2 → tx.nType = TRANSACTION_PROVIDER_REGISTER → ∃ ptx,
    tx.vExtraPayload = .proRegTx ptx ∧ ptx.keyIDOwner ≠ 0 ∧ (registeredMN tx ptx 0 0).collateralOutpoint ≠ null ∧
      oldList.mnMap[tx.hash]? = none
  service : ∀ tx ∈ txs, tx.nVersion = 2 → tx.nType = TRANSACTION_PROVIDER_UPDATE_SERVICE →
    ∃ ptx, tx.vExtraPayload = .proUpServTx ptx
  registrar : ∀ tx ∈ txs, tx.nVersion = 2 → tx.nType = TRANSACTION_PROVIDER_UPDATE_REGISTRAR → ∃ ptx,
    tx.vExtraPayload = .proUpRegTx ptx ∧ ptx.pubKeyOperator.isSome ∧ ∀ (p : Uint256) (dmn : CDeterministicMN),
      oldList.mnMap[p]? = some dmn → dmn.pdmnState.pubKeyOperator = ptx.pubKeyOperator → p = ptx.proTxHash
  revoke : ∀ tx ∈ txs, tx.nVersion = 2 → tx.nType = TRANSACTION_PROVIDER_UPDATE_REVOKE →
    ∃ ptx, tx.vExtraPayload = .proUpRevTx ptx
  commitment : ∀ tx ∈ txs, tx.nVersion = 2 → tx.nType = TRANSACTION_QUORUM_COMMITMENT → ∃ qc,
    tx.vExtraPayload = .quorumCommitment qc ∧ (∃ interval, env.dkgInterval qc.commitment.llmqType = some interval) ∧
      (qc.commitment.isNull = false → ∀ pindex,
        (env.getAllQuorumMembers qc.commitment.llmqType pindex).length ≤ qc.commitment.validMembers.length)
  ids : ∀ tx ∈ txs, ∀ other ∈ txs, tx.hash = other.hash →
    tx.vExtraPayload = other.vExtraPayload

section
variable {confirmed : CDeterministicMNList} {before later : List CTransaction}

section
variable (injective : Injective env.hashing.serializeHash) (harmless : Harmless oldList block)
  (confirms : Confirms env pindexPrev oldList confirmed) (position : block.vtx.tail = before ++ tx :: later)
  (built : Built env.hashing confirmed (pindexPrev.nHeight + 1) before list)
include injective harmless confirms position built

theorem operator_free {ptx : CProUpRegTx}
    (carried : Carries [tx] TRANSACTION_PROVIDER_UPDATE_REGISTRAR (.proUpRegTx ptx)) (set : ptx.pubKeyOperator.isSome)
    (unlisted : ∀ (p : Uint256) (dmn : CDeterministicMN), oldList.mnMap[p]? = some dmn →
      dmn.pdmnState.pubKeyOperator = ptx.pubKeyOperator → p = ptx.proTxHash) : ∀ q, q ≠ ptx.proTxHash →
      held env.hashing list.mnMap q (env.hashing.serializeHash (.blsKey ptx.pubKeyOperator)) = 0 := by
  intro q other
  by_contra holds
  obtain ⟨dmn, found, inside⟩ := held_pos.mp (Nat.pos_of_ne_zero holds)
  obtain ⟨v, property, same⟩ := mem_map.mp inside
  obtain rfl := injective same
  have key : dmn.pdmnState.pubKeyOperator = ptx.pubKeyOperator := by
    rcases mem_uniqueProperties.mp property with outpoint | ⟨-, service⟩ | owner | ⟨-, key⟩
    · cases outpoint
    · cases service
    · cases owner
    · exact (UniqueProperty.blsKey.inj key).symm
  rcases member_operator (built.member found) (key ▸ set) with ⟨old, listed, same⟩ | ⟨setter, inside, sets⟩
  · rw [confirms] at listed
    obtain ⟨old, present, rfl⟩ := Option.map_eq_some_iff.mp listed
    refine other (unlisted q old present ?_)
    rw [← key, ← same]
    unfold confirmedDmn
    split <;> rfl
  · have pairs := harmless.operators
    rw [position, pairwise_append] at pairs
    exact other (pairs.2.2 setter inside tx (.head _) ptx q carried (key ▸ sets))

theorem avoids_processProTx (fatal : Fatal failure) (checked : Checked oldList env block.vtx.tail) :
    Avoids failure (processProTx env pindexPrev list tx) := by
  have member : tx ∈ block.vtx.tail := by simp [position]
  have earlier : ∀ {other}, other ∈ before → other ∈ block.vtx.tail := fun inside => by simp [position, inside]
  unfold processProTx
  split
  · exact ok _
  next special =>
    have version := not_not.mp special
    split
    next type =>
      obtain ⟨ptx, payload, owner, collateral, unlisted⟩ := checked.register tx member version type
      rw [payload]
      refine avoids_registerMN fatal built.indexed collateral owner ?_
      intro dmn found
      obtain ⟨first, ⟨-, same, -⟩, -, origin⟩ := (built.member found).origin
      rcases origin with listed | ⟨other, inside, proTx, internalId, -, payload', hash, rfl⟩
      · rw [confirms, unlisted] at listed
        cases listed
      · -- the same transaction stands earlier in the block
        have equal := checked.ids tx member other (earlier inside) hash
        rw [payload, payload'] at equal
        cases equal
        rw [← same, registeredMN, registeredMN, hash]
    split
    next type =>
      obtain ⟨ptx, payload⟩ := checked.service tx member version type
      rw [payload]
      exact avoids_updateServiceMN fatal built.indexed
    split
    next type =>
      obtain ⟨ptx, payload, set, unlisted⟩ := checked.registrar tx member version type
      rw [payload]
      exact avoids_updateRegistrarMN fatal built.indexed (operator_free injective harmless confirms position built
        (carries_single.mpr ⟨version, type, payload⟩) set unlisted)
    split
    next type =>
      obtain ⟨ptx, payload⟩ := checked.revoke tx member version type
      rw [payload]
      exact avoids_revokeMN fatal built.indexed
    split
    next type =>
      obtain ⟨qc, payload, known, sized⟩ := checked.commitment tx member version type
      rw [payload]
      show Avoids failure (commitMN env pindexPrev list qc)
      unfold commitMN
      split
      · exact ok _
      next nonNull =>
        refine bind (assertSome known) ?_
        intro interval _
        split
        · exact avoids_consensus fatal _
        split
        · exact avoids_consensus fatal _
        · exact assertSome (handleQuorumCommitment_isSome built (sized (by simpa using nonNull) _))
    · exact ok _

end

theorem getMNByCollateral_eq_some (indexed : Indexed h list) (injective : Injective h.serializeHash)
    {outpoint : COutPoint} : list.getMNByCollateral h outpoint = some dmn ↔
      list.mnMap[dmn.proTxHash]? = some dmn ∧ dmn.collateralOutpoint = outpoint := by
  rw [getMNByCollateral, indexed.getUniquePropertyMN_eq_some]
  refine and_congr_right fun _ => ?_
  rw [mem_map_of_injective injective, mem_uniqueProperties]
  constructor
  · rintro (outpoint | ⟨-, service⟩ | owner | ⟨-, key⟩)
    · cases outpoint; rfl
    · cases service
    · cases owner
    · cases key
  · rintro rfl
    exact .inl rfl

section
variable (indexed : Indexed env.hashing oldList) (injective : Injective env.hashing.serializeHash) (harmless : Harmless oldList block) (confirms : Confirms env pindexPrev oldList confirmed)
  (built : Built env.hashing confirmed (pindexPrev.nHeight + 1) block.vtx.tail list)
include indexed injective harmless confirms built

theorem spendCollateral_isSome (inBlock : spender ∈ block.vtx.tail) (input : txin ∈ spender.vin) :
    ∃ after, spendCollateral env oldList (pindexPrev.nHeight + 1) list txin.prevout = some after := by
  unfold spendCollateral
  split
  · exact ⟨list, rfl⟩
  next dmn looked =>
    obtain ⟨found, collateral⟩ := (getMNByCollateral_eq_some built.indexed injective).mp looked
    rw [if_neg (not_not.mpr collateral)]
    split
    next old lookedOld =>
      obtain ⟨listed, same⟩ := (getMNByCollateral_eq_some indexed injective).mp lookedOld
      have owns := same.trans collateral.symm
      rcases built.collateral confirms found with ⟨holder, present, kept⟩ | ⟨tx, inside, proTx, carried, registered⟩
      · -- both are found under the outpoint in the parent's list
        have looked := indexed.getMNByCollateral_of_listed present
        rw [kept, ← owns, indexed.getMNByCollateral_of_listed listed] at looked
        cases looked
        rw [indexed.keyed present]
        exact built.indexed.removeMN_isSome found
      · refine absurd same.symm ?_
        exact harmless.collaterals tx inside proTx carried old (mem_forEachMN.mpr ⟨_, listed⟩)
          (owns.trans registered.symm) spender inBlock txin input
    next => exact revoked_isSome built.indexed found _

theorem spendCollaterals_isSome : ∃ after, (block.vtx.tail.flatMap fun tx => tx.vin.map CTxIn.prevout).foldlM
      (spendCollateral env oldList (pindexPrev.nHeight + 1)) list = some after := by
  let P (rest : List COutPoint) (list : CDeterministicMNList) : Prop :=
    Built env.hashing confirmed (pindexPrev.nHeight + 1) block.vtx.tail list ∧
      ∀ prevout ∈ rest, ∃ spender ∈ block.vtx.tail, ∃ txin ∈ spender.vin, txin.prevout = prevout
  have step : ∀ prevout rest x, P (prevout :: rest) x →
      ∃ y, spendCollateral env oldList (pindexPrev.nHeight + 1) x prevout = some y ∧ P rest y := by
    rintro prevout rest list ⟨built, inputs⟩
    obtain ⟨⟨spender, inBlock, txin, input, rfl⟩, others⟩ := forall_mem_cons.mp inputs
    obtain ⟨after, spent⟩ := spendCollateral_isSome indexed injective harmless confirms built inBlock input
    exact ⟨after, spent, Built.stable.spendCollateral built spent, others⟩
  have start : P (block.vtx.tail.flatMap fun tx => tx.vin.map CTxIn.prevout) list := by
    refine ⟨built, ?_⟩
    intro prevout member
    obtain ⟨spender, inBlock, inside⟩ := mem_flatMap.mp member
    obtain ⟨txin, input, same⟩ := mem_map.mp inside
    exact ⟨spender, inBlock, txin, input, same⟩
  obtain ⟨after, spent, -⟩ := Folds.foldlM_isSome_rest step start
  exact ⟨after, spent⟩

end

theorem avoids_buildNewListFromBlock (fatal : Fatal failure) (indexed : Indexed env.hashing oldList)
    (injective : Injective env.hashing.serializeHash)
    (checked : Checked oldList env block.vtx.tail) (harmless : Harmless oldList block) :
    Avoids failure (buildNewListFromBlock env block pindexPrev oldList) := by
  unfold buildNewListFromBlock
  refine bind (assertSome ?_) ?_
  · refine forEach_isSome (h := env.hashing) (indexed.congr rfl rfl) indexed.forEachMN_nodup ?_ ?_
    · intro dmn member
      obtain ⟨p, found⟩ := mem_forEachMN.mp member
      exact indexed.keyed found ▸ found
    · intro dmn _ list indexed found
      unfold confirmMN
      split
      · exact ⟨list, rfl, indexed, fun _ _ => rfl⟩
      split
      · exact updateMN_own indexed found _ rfl (.inl rfl) (.inl rfl)
      · exact ⟨list, rfl, indexed, fun _ _ => rfl⟩
  intro confirmed isConfirmed
  obtain ⟨indexedConfirmed, height, confirms⟩ := confirmMNs_eq indexed (assertSome_eq_ok.mp isConfirmed)
  refine bind (assertSome (decreasePoSePenalties_isSome indexedConfirmed)) ?_
  intro decreased isDecreased
  have start : Built env.hashing confirmed (pindexPrev.nHeight + 1) [] decreased :=
    Built.stable.decreasePoSePenalties (.start indexedConfirmed height) (assertSome_eq_ok.mp isDecreased)
  refine bind ?_ ?_
  · refine foldlM_split (P := Built env.hashing confirmed (pindexPrev.nHeight + 1)) ?_ start
    intro before tx later position list built
    refine ⟨avoids_processProTx injective harmless confirms position built fatal checked, ?_⟩
    intro after processed
    exact (built.mono (subset_append_left _ _)).processProTx (by simp) processed
  · intro processed isProcessed
    have middle : Built env.hashing confirmed (pindexPrev.nHeight + 1) block.vtx.tail processed :=
      Folds.foldlM_ok (fun tx member _ _ built processed => Built.processProTx built member processed)
        (start.mono (nil_subset _)) isProcessed
    refine bind (assertSome (spendCollaterals_isSome indexed injective harmless confirms middle)) ?_
    intro spent isSpent
    have last : Built env.hashing confirmed (pindexPrev.nHeight + 1) block.vtx.tail spent :=
      Folds.foldlM_some (fun _ _ _ _ built => Built.stable.spendCollateral built) middle
        (assertSome_eq_ok.mp isSpent)
    exact assertSome (payMN_isSome last.indexed)

end

/-! ### Checked blocks -/

section
variable {params : Params} {env : ProviderEnv} {ext : Externals} {front : Option (Wallet env.hash160)} {g : Globals}
  {block : CBlock} {blocks : List CBlock} {pindexPrev : CBlockIndex} {list : CDeterministicMNList}

theorem collateral_ne_null {ptx : CProRegTx} (named : tx.hash ≠ 0) : (registeredMN tx ptx 0 0).collateralOutpoint ≠ null := by
  simp only [registeredMN]
  split
  next inside =>
    intro null
    exact named (congrArg hash null)
  next outside =>
    intro null
    exact outside (congrArg hash null)

theorem payload_of_stripped {other : CTransaction} (same : stripped tx = stripped other) :
    tx.vExtraPayload = other.vExtraPayload := by
  have payload := congrArg CTransaction.vExtraPayload same
  exact payload

section
variable (chain : IsMnChain params ext.hashing blocks ⟨pindexPrev, list⟩) (stored : g.getListForBlock pindexPrev = list)
  (passed : ∀ tx ∈ block.vtx, checkSpecialTx params (withProviders env ext front) g pindexPrev tx = .ok ())
  (injective : Injective ext.hashing.serializeHash)
  (ids : DistinctIds ((block :: blocks).flatMap CBlock.vtx)) (named : ∀ tx ∈ block.vtx.tail, tx.hash ≠ 0)
  (sized : ∀ qc pindexQuorum, ext.verifyCommitment qc pindexQuorum false = true → ∀ pindex,
    (ext.getAllQuorumMembers qc.llmqType pindex).length ≤ qc.validMembers.length)
include chain stored passed ids named sized

theorem checked_of_passed : Checked list (buildEnv params ext g) block.vtx.tail := by
  have provider : ∀ tx ∈ block.vtx.tail, tx.nVersion = 2 → tx.nType ∈ providerTypes →
      checkProviderTx env ext.hashing front g.getUTXOCoin list tx pindexPrev = .ok () := by
    intro tx member version type
    exact stored ▸ checkSpecialTx_provider version type (passed tx (mem_of_mem_tail member))
  have indexed := chain.indexed
  refine ⟨?_, ?_, ?_, ?_, ?_, ?_⟩
  · intro tx member version type
    have accepted := provider tx member version (by rw [type]; decide)
    rw [checkProviderTx, if_pos type] at accepted
    obtain ⟨-, ptx, collateral, payload, fields, -, rest⟩ := checkProRegTx_eq_ok.mp accepted
    refine ⟨ptx, payload, (checkRegPayload_keys fields).1, collateral_ne_null (named tx member), ?_⟩
    by_contra listed
    obtain ⟨dmn, found⟩ := Option.ne_none_iff_exists'.mp listed
    -- the masternode was registered by this very transaction, so its owner key is taken
    obtain ⟨b, inBlocks, tx', inB, ptx', -, payload', hash, owner, -⟩ := chain.enrolled found
    have same := ids tx' (mem_flatMap.mpr ⟨b, .tail _ inBlocks, mem_of_mem_tail inB⟩) tx
      (mem_flatMap.mpr ⟨block, .head _, mem_of_mem_tail member⟩) hash
    have equal := payload_of_stripped same
    rw [payload, payload'] at equal
    cases equal
    have taken := indexed.hasUniqueProperty_of_mem found (mem_uniqueProperties.mpr (.inr (.inr (.inl rfl))))
    obtain ⟨-, rest⟩ := Validation.then_eq_ok.mp rest
    obtain ⟨-, rest⟩ := Validation.then_eq_ok.mp rest
    obtain ⟨unused, -⟩ := Validation.then_eq_ok.mp rest
    simp only [Validation.checks_cons, Bool.not_eq_true', Bool.or_eq_false_iff] at unused
    rw [owner, unused.1.1] at taken
    cases taken
  · intro tx member version type
    have accepted := provider tx member version (by rw [type]; decide)
    rw [checkProviderTx, if_neg (by rw [type]; decide), if_pos type] at accepted
    obtain ⟨ptx, payload, -⟩ := checkProUpServTx_ok accepted
    exact ⟨ptx, payload⟩
  · intro tx member version type
    have accepted := provider tx member version (by rw [type]; decide)
    rw [checkProviderTx, if_neg (by rw [type]; decide), if_neg (by rw [type]; decide), if_pos type] at accepted
    obtain ⟨ptx, payload, set, -, unused⟩ := checkProUpRegTx_ok accepted
    refine ⟨ptx, payload, set, ?_⟩
    intro p dmn found key
    obtain rfl := indexed.keyed found
    have property := mem_uniqueProperties.mpr (.inr (.inr (.inr ⟨key ▸ set, by rw [key]⟩)))
    rw [checkUnused, if_pos (indexed.hasUniqueProperty_of_mem found property),
      indexed.getUniquePropertyMN_eq_some.mpr ⟨found, List.mem_map_of_mem property⟩] at unused
    have mine : ptx.proTxHash = dmn.proTxHash := by simpa [Validation.assertSome, Except.bind] using unused
    exact mine.symm
  · intro tx member version type
    have accepted := provider tx member version (by rw [type]; decide)
    rw [checkProviderTx, if_neg (by rw [type]; decide), if_neg (by rw [type]; decide), if_neg (by rw [type]; decide)]
      at accepted
    exact checkProUpRevTx_ok accepted
  · intro tx member version type
    obtain ⟨qc, payload, -, known, pindexQuorum, verified⟩ :=
      checkSpecialTx_commitment (passed tx (mem_of_mem_tail member)) (by omega) type
    obtain ⟨llmq, isLlmq⟩ := Option.isSome_iff_exists.mp known
    refine ⟨qc, ?_, ⟨llmq.dkgInterval, by simp [buildEnv, isLlmq]⟩, ?_⟩
    · unfold commitmentPayload at payload
      split at payload
      next payload' => rw [payload']; cases payload; rfl
      next => cases payload
    · intro set pindex
      rw [verifyQuorum, if_neg (by simp [set])] at verified
      exact sized qc.commitment pindexQuorum (by simpa [withProviders] using verified) pindex
  · intro tx member other inside hash
    have inChain : ∀ tx ∈ block.vtx.tail, tx ∈ (block :: blocks).flatMap CBlock.vtx := fun tx member =>
      mem_flatMap.mpr ⟨block, .head _, mem_of_mem_tail member⟩
    exact payload_of_stripped (ids tx (inChain tx member) other (inChain other inside) hash)

include injective

/-- Connecting a checked block to a reachable list gives a new list or a rejection, unless a registrar update sets an
    operator key that the block gave to another before, or the block spends a collateral of the list that it registers
    again. -/
theorem buildNewListFromBlock_decided (harmless : Harmless list block) :
    (∃ newList, buildNewListFromBlock (buildEnv params ext g) block pindexPrev list = .ok newList) ∨
      ∃ reason text, buildNewListFromBlock (buildEnv params ext g) block pindexPrev list = .error (.invalid reason text) := by
  have checked := checked_of_passed chain stored passed ids named sized
  cases outcome : buildNewListFromBlock (buildEnv params ext g) block pindexPrev list with
  | ok newList => exact .inl ⟨newList, rfl⟩
  | error failure =>
    right
    by_contra others
    have fatal : Fatal failure := by
      rintro reason text rfl
      exact others ⟨reason, text, rfl⟩
    exact avoids_buildNewListFromBlock fatal chain.indexed injective checked harmless outcome

end

theorem buildNewListFromBlock_decided_sample :
    let block : CBlock := { vtx := [sampleCoinbase, insideRegistration], hash := 7 }
    Harmless (emptyList sampleGenesis) block ∧
      ((∃ newList, sampleBuild (empty 1) ⟨sampleGenesis, emptyList sampleGenesis⟩ block = .ok newList) ∨
        ∃ reason text, sampleBuild (empty 1) ⟨sampleGenesis, emptyList sampleGenesis⟩ block =
          .error (.invalid reason text)) := by
  intro block
  have harmless : Harmless (emptyList sampleGenesis) block := by
    refine ⟨pairwise_singleton _ _, ?_⟩
    intro tx _ ptx _ dmn member
    simp [forEachMN, emptyList] at member
  refine ⟨harmless, buildNewListFromBlock_decided (g := sampleGlobals (empty 1)
    ⟨sampleGenesis, emptyList sampleGenesis⟩) (.genesis _) rfl (checkEach_ok.mp (?_ : sampleCheck (empty 1)
      ⟨sampleGenesis, emptyList sampleGenesis⟩ block = .ok ())) pairHashing_injective ?_ ?_ ?_ harmless⟩
  · decide +kernel
  · intro tx inTx other inOther same
    simp only [block, flatMap_cons, flatMap_nil, append_nil, mem_cons, not_mem_nil,
      or_false] at inTx inOther
    rcases inTx with rfl | rfl <;> rcases inOther with rfl | rfl <;> first | rfl | exact absurd same (by decide)
  · simp [block, insideRegistration]
  · intro qc pindexQuorum _ pindex
    exact Nat.zero_le _

def collateralCoins : CCoinsView where
  coins o := if o = ⟨50, 0⟩ then some ⟨⟨1337 * COIN, payToKeyHash 5⟩, 1, false, false⟩ else none
  hashBlock := 1
  live := by
    intro o coin found
    split at found
    · cases found; exact ⟨by decide, by decide⟩
    · cases found

def outsideRegistrationOf (n : Nat) : CTransaction where
  vin := [{ prevout := ⟨60 + n, 0⟩ }]
  vout := [⟨1, payToKeyHash 3⟩]
  nType := TRANSACTION_PROVIDER_REGISTER
  vExtraPayload := .proRegTx
    { collateralOutpoint := ⟨50, 0⟩
      addr := ⟨0xffff01020300 + n, 9999⟩
      keyIDOwner := 10 + n
      pubKeyOperator := some n
      keyIDVoting := 20 + n
      scriptPayout := payToKeyHash 3
      inputsHash := 1
      vchSig := [1] }
  hash := 100 + n
  noPayload := fun no => absurd ⟨by decide, by decide⟩ no

def collateralSpend : CTransaction :=
  { vin := [{ prevout := ⟨50, 0⟩ }], vout := [⟨1, payToKeyHash 3⟩], hash := 200 }

def respendingBlock : CBlock := { vtx := [sampleCoinbase, outsideRegistrationOf 2, collateralSpend], hash := 8 }

/-- An owner registers a masternode anew and spends its collateral in one block. All checks pass, and the node stops
    on the assertion that the old masternode is still listed. -/
theorem buildNewListFromBlock_aborts :
    ∃ tip, sampleRun collateralCoins [{ vtx := [sampleCoinbase, outsideRegistrationOf 1], hash := 7 }] = .ok tip ∧
      sampleCheck collateralCoins tip respendingBlock = .ok () ∧
      sampleBuild collateralCoins tip respendingBlock = .error .aborted := by
  obtain ⟨tip, run, test⟩ := (okAnd_iff
    (sampleRun collateralCoins [{ vtx := [sampleCoinbase, outsideRegistrationOf 1], hash := 7 }]) fun tip =>
      decide (sampleCheck collateralCoins tip respendingBlock = .ok () ∧
        sampleBuild collateralCoins tip respendingBlock = .error .aborted)).mp (by decide +kernel)
  exact ⟨tip, run, of_decide_eq_true test⟩

end

end Cspn.MnAbort
