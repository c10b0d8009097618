import Cspn.MnManager
import Cspn.Overwrite
import Cspn.ProviderTx

/-!
Masternode lists along a chain. A step connects a block whose transactions passed
`CheckSpecialTx` against the list of its parent. Two facts hold after every block: a
masternode that is not banned is usable, and the confirmed hash of a masternode is
that of a fixed block of its chain.
-/
namespace Cspn.MnChain
open Primitives Coins Index MnState MnList MnBuild MnChange Validation Env List CDeterministicMNState CCoinsView Nat
  MnManager.CDeterministicMNManager Growth Overwrite MnDiff
open SpecialTx ProviderTx BlockCheck
open CBlockIndex

structure MnTip where
  pindex : CBlockIndex
  list : CDeterministicMNList

/-- A block is connected. What it is checked and built with may change from block to block. -/
inductive MnStep (params : Params) (h : Hashing) : MnTip → CBlock → MnTip → Prop where
  | connect {env : ProviderEnv} {ext : Externals} {front : Option (Wallet env.hash160)} {g : Globals} {block : CBlock}
      {pindexPrev : CBlockIndex} {fields : IndexFields} {list newList : CDeterministicMNList}
      (hashing : ext.hashing = h) (stored : g.getListForBlock pindexPrev = list)
      (checked : ∀ tx ∈ block.vtx, checkSpecialTx params (withProviders env ext front) g pindexPrev tx = .ok ())
      (built : buildNewListFromBlock (buildEnv params ext g) block pindexPrev list = .ok newList)
      (hash : fields.phashBlock = block.hash) :
      MnStep params h ⟨pindexPrev, list⟩ block ⟨.next pindexPrev fields, { newList with blockHash := block.hash }⟩

/-- The blocks, last one first, lead from a genesis block to the tip. -/
inductive IsMnChain (params : Params) (h : Hashing) : List CBlock → MnTip → Prop where
  | genesis (fields : IndexFields) : IsMnChain params h [] ⟨.genesis fields, emptyList (.genesis fields)⟩
  | connect {blocks : List CBlock} {tip next : MnTip} {block : CBlock} (chain : IsMnChain params h blocks tip)
      (step : MnStep params h tip block next) : IsMnChain params h (block :: blocks) next

structure PayloadsOk (txs : List CTransaction) : Prop where
  register : ∀ {ptx : CProRegTx}, Carries txs TRANSACTION_PROVIDER_REGISTER (.proRegTx ptx) →
    ptx.keyIDOwner ≠ 0 ∧ ptx.pubKeyOperator.isSome ∧ ptx.keyIDVoting ≠ 0
  service : ∀ {ptx : CProUpServTx}, Carries txs TRANSACTION_PROVIDER_UPDATE_SERVICE (.proUpServTx ptx) → ptx.addr ≠ {}
  registrar : ∀ {ptx : CProUpRegTx}, Carries txs TRANSACTION_PROVIDER_UPDATE_REGISTRAR (.proUpRegTx ptx) →
    ptx.pubKeyOperator.isSome ∧ ptx.keyIDVoting ≠ 0

variable {params : Params} {blocks : List CBlock} {tip : MnTip}
  {env : BuildEnv} {tx : CTransaction} {txs : List CTransaction} {next : MnTip} {block : CBlock}
  {coins : CCoinsView} {state after : CDeterministicMNState} {proTx : CProRegTx} {internalId : Nat}
  {pindex : CBlockIndex} {confirmed spent : CDeterministicMNList}

section
variable {env : ProviderEnv} {ext : Externals} {front : Option (Wallet env.hash160)} {g : Globals}
  {pindexPrev : CBlockIndex}

theorem checkSpecialTx_provider (version : tx.nVersion = 2) (type : tx.nType ∈ providerTypes)
    (passed : checkSpecialTx params (withProviders env ext front) g pindexPrev tx = .ok ()) :
    checkProviderTx env ext.hashing front g.getUTXOCoin (g.getListForBlock pindexPrev) tx pindexPrev = .ok () := by
  have special : isPlain tx = false := by
    simp only [isPlain, version, decide_eq_false_iff_not]
    rintro (old | normal | stake)
    · omega
    · rw [normal] at type; exact absurd type (by decide)
    · rw [stake] at type; exact absurd type (by decide)
  have notCoinbase : tx.nType ≠ TRANSACTION_COINBASE := by
    intro coinbase
    rw [coinbase] at type
    exact absurd type (by decide)
  rw [checkSpecialTx, if_neg (by simp [special]), if_neg notCoinbase, if_pos (contains_iff_mem.mpr type)] at passed
  exact passed

theorem payloadsOk
    (checked : ∀ tx ∈ txs, checkSpecialTx params (withProviders env ext front) g pindexPrev tx = .ok ()) :
    PayloadsOk txs where
  register := by
    rintro ptx ⟨tx, member, version, type, payload⟩
    have passed := checkSpecialTx_provider version (by rw [type]; decide) (checked tx member)
    rw [checkProviderTx, if_pos type] at passed
    obtain ⟨-, ptx', -, payload', fields, -⟩ := checkProRegTx_eq_ok.mp passed
    rw [payload] at payload'
    cases payload'
    exact checkRegPayload_keys fields
  service := by
    rintro ptx ⟨tx, member, version, type, payload⟩
    have passed := checkSpecialTx_provider version (by rw [type]; decide) (checked tx member)
    rw [checkProviderTx, if_neg (by rw [type]; decide), if_pos type] at passed
    obtain ⟨ptx', payload', service⟩ := checkProUpServTx_ok passed
    rw [payload] at payload'
    cases payload'
    exact checkService_ne_default service
  registrar := by
    rintro ptx ⟨tx, member, version, type, payload⟩
    have passed := checkSpecialTx_provider version (by rw [type]; decide) (checked tx member)
    rw [checkProviderTx, if_neg (by rw [type]; decide), if_neg (by rw [type]; decide), if_pos type] at passed
    obtain ⟨ptx', payload', operator, voting, -⟩ := checkProUpRegTx_ok passed
    rw [payload] at payload'
    cases payload'
    exact ⟨operator, voting⟩

end

structure StepSpec (params : Params) (h : Hashing) (tip : MnTip) (block : CBlock) (next : MnTip) (env : BuildEnv)
    (confirmed spent : CDeterministicMNList) : Prop where
  hashing : env.hashing = h
  confirmations : env.nMasternodeMinimumConfirmations = params.nMasternodeMinimumConfirmations
  pprev : next.pindex.pprev = some tip.pindex
  payloads : PayloadsOk block.vtx.tail
  confirms : Confirms env tip.pindex tip.list confirmed
  middle : Built h confirmed (tip.pindex.nHeight + 1) block.vtx.tail spent
  pays : ∀ p : Uint256, next.list.mnMap[p]? = (spent.mnMap[p]?).map (paidDmn tip.list (tip.pindex.nHeight + 1))
  indexed : Indexed h next.list

section
variable {h : Hashing} {blocks : List CBlock} {tip : MnTip}

theorem MnStep.spec (step : MnStep params h tip block next) (indexed : Indexed h tip.list) :
    ∃ env confirmed spent, StepSpec params h tip block next env confirmed spent := by
  cases step with
  | @connect env ext front g _ pindexPrev fields list newList hashing stored checked built hash =>
    subst hashing
    obtain ⟨confirmed, decreased, processed, spent, phases⟩ := buildNewListFromBlock_phases built
    obtain ⟨indexedConfirmed, height, confirms⟩ := confirmMNs_eq indexed phases.confirm
    obtain ⟨-, middle⟩ := phases.built indexedConfirmed height
    obtain ⟨indexed, pays⟩ := payMN_spec middle.indexed phases.pay
    exact ⟨buildEnv params ext g, confirmed, spent, rfl, rfl, rfl,
      payloadsOk fun tx member => checked tx (mem_of_mem_tail member), confirms, middle, pays,
      indexed.congr rfl rfl⟩

theorem IsMnChain.indexed (chain : IsMnChain params h blocks tip) : Indexed h tip.list := by
  induction chain with
  | genesis fields => exact Indexed.empty _ _ _
  | connect _ step ih =>
    obtain ⟨env, confirmed, spent, spec⟩ := step.spec ih
    exact spec.indexed

/-- What holds of no masternode in an empty list and is kept by every block holds along every chain. -/
theorem IsMnChain.induct {P : List CBlock → CBlockIndex → Uint256 → CDeterministicMN → Prop}
    (keeps : ∀ {blocks : List CBlock} {tip next : MnTip} {block : CBlock} {env : BuildEnv}
      {confirmed spent : CDeterministicMNList}, IsMnChain params h blocks tip →
      StepSpec params h tip block next env confirmed spent →
      (∀ {p dmn}, tip.list.mnMap[p]? = some dmn → dmn.proTxHash = p ∧ P blocks tip.pindex p dmn) →
      ∀ {p dmn}, Member confirmed (tip.pindex.nHeight + 1) block.vtx.tail p dmn →
        P (block :: blocks) next.pindex p (paidDmn tip.list (tip.pindex.nHeight + 1) dmn))
    (chain : IsMnChain params h blocks tip) :
    ∀ {p dmn}, tip.list.mnMap[p]? = some dmn → P blocks tip.pindex p dmn := by
  induction chain with
  | genesis fields =>
    intro p dmn found
    simp [emptyList] at found
  | connect chain step ih =>
    intro p dmn found
    obtain ⟨env, confirmed, spent, spec⟩ := step.spec chain.indexed
    rw [spec.pays p] at found
    obtain ⟨dmn, before, rfl⟩ := Option.map_eq_some_iff.mp found
    exact keeps chain spec (fun found => ⟨chain.indexed.keyed found, ih found⟩) (spec.middle.member before)

theorem IsMnChain.nHeight (chain : IsMnChain params h blocks tip) : tip.pindex.nHeight = blocks.length := by
  induction chain with
  | genesis fields => rfl
  | connect chain step ih =>
    obtain ⟨env, confirmed, spent, spec⟩ := step.spec chain.indexed
    rw [nHeight_pprev spec.pprev, ih, length_cons]

/-- The registration behind a listed masternode: its collateral and its owner are those of the payload. -/
def Enrolled (blocks : List CBlock) (p : Uint256) (dmn : CDeterministicMN) : Prop :=
  ∃ block ∈ blocks, ∃ tx ∈ block.vtx.tail, ∃ proTx, isRegistration tx = true ∧ tx.vExtraPayload = .proRegTx proTx ∧
    tx.hash = p ∧ dmn.pdmnState.keyIDOwner = proTx.keyIDOwner ∧
    dmn.collateralOutpoint = (registeredMN tx proTx 0 0).collateralOutpoint

variable {dmn : CDeterministicMN} {p : Uint256}

theorem IsMnChain.enrolled (chain : IsMnChain params h blocks tip)
    (found : tip.list.mnMap[p]? = some dmn) : Enrolled blocks p dmn := by
  refine IsMnChain.induct (P := fun blocks _ p dmn => Enrolled blocks p dmn) ?_ chain found
  intro blocks tip next block env confirmed spent _ spec before p dmn middle
  have paid : ∀ dmn, Enrolled (block :: blocks) p dmn →
      Enrolled (block :: blocks) p (paidDmn tip.list (tip.pindex.nHeight + 1) dmn) := by
    intro dmn enrolled
    unfold paidDmn
    split
    · exact enrolled
    · exact enrolled
  apply paid
  obtain ⟨first, ⟨-, collateral, -⟩, keeps, origin⟩ := middle.origin
  rcases origin with listed | ⟨tx, member, proTx, internalId, registers, payload, rfl, rfl⟩
  · rw [spec.confirms] at listed
    obtain ⟨old, found, rfl⟩ := Option.map_eq_some_iff.mp listed
    obtain ⟨-, b, inBlocks, tx, member, proTx, registers, payload, hash, owner, outpoint⟩ := before found
    refine ⟨b, .tail _ inBlocks, tx, member, proTx, registers, payload, hash, ?_, ?_⟩
    · rw [keeps.owner, ← owner]
      unfold confirmedDmn
      split <;> rfl
    · rw [← collateral, ← outpoint]
      unfold confirmedDmn
      split <;> rfl
  · exact ⟨block, .head _, tx, member, proTx, registers, payload, rfl, keeps.owner, collateral.symm⟩

/-! ### A chain that can be run -/

def pairHashing : Hashing where
  serializeHash
    | .outpoint o => 4 * pair o.hash o.n
    | .service addr => 4 * pair addr.ip addr.port + 1
    | .keyID key => 4 * key + 2
    | .blsKey none => 3
    | .blsKey (some key) => 4 * (key + 1) + 3
  sha256 a b := pair a b

theorem pairHashing_injective : Function.Injective pairHashing.serializeHash := by
  intro v w same
  replace same : @Eq ℕ (pairHashing.serializeHash v) (pairHashing.serializeHash w) := same
  -- the remainder modulo four tells the kinds apart
  rcases v with ⟨a, b⟩ | ⟨a, b⟩ | a | (_ | a) <;> rcases w with ⟨c, d⟩ | ⟨c, d⟩ | c | (_ | c) <;>
    simp only [pairHashing] at same <;> try omega
  · obtain ⟨rfl, rfl⟩ := pair_eq_pair.mp (by omega : pair a b = pair c d)
    rfl
  · obtain ⟨rfl, rfl⟩ := pair_eq_pair.mp (by omega : pair a b = pair c d)
    rfl
  · obtain rfl : @Eq ℕ a c := by omega
    rfl
  · rfl
  · obtain rfl : @Eq ℕ a c := by omega
    rfl

def sampleExt : Externals := { permissive 0 with hashing := pairHashing }

section
variable (coins : CCoinsView) (tip : MnTip)

def sampleGlobals : Globals :=
  { plainGlobals tip.pindex coins with getListForBlock := fun _ => tip.list }

/-- The checks of a node that has a wallet without scripts. -/
def sampleCheck (block : CBlock) : Result Unit :=
  checkEach (checkSpecialTx regtestParams (withProviders sampleProviderEnv sampleExt (some (Wallet.empty _)))
    (sampleGlobals coins tip) tip.pindex) block.vtx

def sampleBuild (block : CBlock) : Result CDeterministicMNList :=
  buildNewListFromBlock (buildEnv regtestParams sampleExt (sampleGlobals coins tip)) block tip.pindex tip.list

def sampleStep (block : CBlock) : Result MnTip :=
  (sampleCheck coins tip block).bind fun _ => (sampleBuild coins tip block).bind fun newList =>
  .ok ⟨.next tip.pindex { phashBlock := block.hash }, { newList with blockHash := block.hash }⟩

end

/-- Its list after some blocks, last one first. -/
def sampleRun (coins : CCoinsView) : List CBlock → Result MnTip
  | [] => .ok ⟨sampleGenesis, emptyList sampleGenesis⟩
  | block :: blocks => (sampleRun coins blocks).bind fun tip => sampleStep coins tip block

theorem sampleStep_mnStep
    (step : sampleStep coins tip block = .ok next) : MnStep regtestParams pairHashing tip block next := by
  obtain ⟨checked, step⟩ := then_eq_ok.mp step
  obtain ⟨newList, built, step⟩ := bind_eq_ok.mp step
  cases step
  exact .connect rfl rfl (checkEach_ok.mp checked) built rfl

theorem sampleRun_isMnChain
    (run : sampleRun coins blocks = .ok tip) : IsMnChain regtestParams pairHashing blocks tip := by
  induction blocks generalizing tip with
  | nil => cases run; exact .genesis _
  | cons block blocks ih =>
    obtain ⟨before, ran, step⟩ := bind_eq_ok.mp run
    exact .connect (ih ran) (sampleStep_mnStep step)

def insideRegistration : CTransaction where
  vin := [{ prevout := ⟨4, 0⟩ }]
  vout := [⟨1337 * COIN, payToKeyHash 5⟩]
  nType := TRANSACTION_PROVIDER_REGISTER
  vExtraPayload := .proRegTx
    { collateralOutpoint := ⟨0, 0⟩
      addr := ⟨0xffff01020304, 9999⟩
      keyIDOwner := 11
      pubKeyOperator := some 12
      keyIDVoting := 13
      scriptPayout := payToKeyHash 3
      inputsHash := 1 }
  hash := 6
  noPayload := fun no => absurd ⟨by decide, by decide⟩ no

def sampleBlocks : List CBlock :=
  [{ vtx := [sampleCoinbase], hash := 9 }, { vtx := [sampleCoinbase], hash := 8 },
    { vtx := [sampleCoinbase, insideRegistration], hash := 7 }]

def Usable (state : CDeterministicMNState) : Prop :=
  state.nPoSeBanHeight = -1 →
    state.addr ≠ {} ∧ state.pubKeyOperator.isSome ∧ state.keyIDOwner ≠ 0 ∧ state.keyIDVoting ≠ 0

variable {nHeight : Int}

theorem usable_banned (height : nHeight ≠ -1) : Usable (state.resetOperatorFields.banIfNotBanned nHeight) ∧
      (state.resetOperatorFields.banIfNotBanned nHeight).nPoSeBanHeight ≠ -1 := by
  have banned : (state.resetOperatorFields.banIfNotBanned nHeight).nPoSeBanHeight ≠ -1 := by
    unfold banIfNotBanned resetOperatorFields
    split
    · exact height
    next already => exact already
  exact ⟨fun valid => absurd valid banned, banned⟩

theorem usable_change (change : Change nHeight txs p state after) (payloads : PayloadsOk txs) (height : nHeight ≠ -1)
    (usable : Usable state) : Usable after := by
  cases change with
  | decrease => exact usable
  | punish ban =>
    rintro valid
    rcases ban with same | now
    · exact usable (same ▸ valid)
    · exact absurd (now ▸ valid) height
  | service target carried =>
    have address := payloads.service carried
    unfold servicedState
    dsimp only
    split
    next revived =>
      obtain ⟨-, operator, voting, owner⟩ := revived
      exact fun _ => ⟨address, operator, owner, voting⟩
    next =>
      intro valid
      exact ⟨address, (usable valid).2⟩
  | registrar target carried =>
    obtain ⟨operator, voting⟩ := payloads.registrar carried
    unfold registrarState
    split
    next => exact fun valid => absurd valid (usable_banned height).2
    next =>
      intro valid
      obtain ⟨address, -, owner, -⟩ := usable valid
      exact ⟨address, operator, owner, voting⟩
  | revoke => exact fun valid => absurd valid (usable_banned height).2

open CDeterministicMNList

/-- After every block, a masternode that is not banned has an address, a valid operator key, an owner and a voting
    key. -/
theorem valid_masternode_usable (chain : IsMnChain params h blocks tip) {dmn : CDeterministicMN}
    (member : dmn ∈ tip.list.forEachMN true) :
    dmn.pdmnState.addr ≠ {} ∧ dmn.pdmnState.pubKeyOperator.isSome ∧ dmn.pdmnState.keyIDOwner ≠ 0 ∧
      dmn.pdmnState.keyIDVoting ≠ 0 := by
  have usable : ∀ {p : Uint256} {dmn : CDeterministicMN}, tip.list.mnMap[p]? = some dmn → Usable dmn.pdmnState := by
    refine IsMnChain.induct (P := fun _ _ _ dmn => Usable dmn.pdmnState) ?_ chain
    intro blocks tip next block env confirmed spent _ spec before p dmn middle
    have height : (tip.pindex.nHeight : Int) + 1 ≠ -1 := by omega
    have grown : Usable dmn.pdmnState := by
      induction middle with
      | kept listed =>
        rw [spec.confirms] at listed
        obtain ⟨old, found, rfl⟩ := Option.map_eq_some_iff.mp listed
        have holds := (before found).2
        unfold confirmedDmn
        split
        · exact holds
        · exact holds
      | registered member version type payload =>
        obtain ⟨owner, operator, voting⟩ := spec.payloads.register ⟨_, member, version, type, payload⟩
        refine fun valid => ⟨fun unset => ?_, operator, owner, voting⟩
        simp only [registeredMN] at valid
        rw [if_pos (by simpa [registeredMN, ofProRegTx] using unset)] at valid
        exact height valid
      | changed _ change ih => exact usable_change change spec.payloads height ih
    unfold paidDmn
    split
    · exact grown
    · exact grown
  simp only [forEachMN, mem_filter, mem_map] at member
  obtain ⟨⟨⟨p, dmn⟩, listed, rfl⟩, valid⟩ := member
  refine usable (Std.ExtTreeMap.mem_toList_iff_getElem?_eq_some.mp listed) ?_
  simpa [isMNValid, isMNPoSeBanned] using valid

theorem valid_masternode_usable_sample :
    ∃ tip dmn, sampleRun (empty 1) sampleBlocks = .ok tip ∧ dmn ∈ tip.list.forEachMN true ∧ dmn.pdmnState.addr ≠ {} := by
  obtain ⟨tip, run, valid⟩ := (okAnd_iff (sampleRun (empty 1) sampleBlocks) fun tip => decide (tip.list.forEachMN true ≠ [])).mp
    (by decide +kernel)
  obtain ⟨dmn, member⟩ := exists_mem_of_ne_nil _ (of_decide_eq_true valid)
  exact ⟨tip, dmn, run, member, (valid_masternode_usable (sampleRun_isMnChain run) member).1⟩

/-! ### Confirmed hashes -/

def RegisteredAt (blocks : List CBlock) (proTxHash : Uint256) (height : Int) : Prop :=
  ∃ newer block older, blocks = newer ++ block :: older ∧ (older.length : Int) + 1 = height ∧
    ∃ tx ∈ block.vtx.tail, isRegistration tx = true ∧ tx.hash = proTxHash

/-- The confirmed hash of a masternode in the list after `pindex`. -/
structure Confirmation (params : Params) (h : Hashing) (pindex : CBlockIndex) (proTxHash : Uint256)
    (state : CDeterministicMNState) : Prop where
  young : (pindex.nHeight : Int) - 1 - state.nRegisteredHeight < params.nMasternodeMinimumConfirmations →
    state.confirmedHash = 0
  old : params.nMasternodeMinimumConfirmations ≤ (pindex.nHeight : Int) - 1 - state.nRegisteredHeight →
    ∃ a, AncestorOrEq a pindex ∧ (a.nHeight : Int) = state.nRegisteredHeight + params.nMasternodeMinimumConfirmations ∧
      state.confirmedHash = a.getBlockHash ∧ state.confirmedHashWithProRegTxHash = h.sha256 proTxHash a.getBlockHash

theorem Confirmation.congr
    (confirmation : Confirmation params h pindex p state) (registered : after.nRegisteredHeight = state.nRegisteredHeight)
    (confirmed : after.confirmedHash = state.confirmedHash)
    (confirmedWith : after.confirmedHashWithProRegTxHash = state.confirmedHashWithProRegTxHash) :
    Confirmation params h pindex p after := by
  constructor
  · rw [registered, confirmed]; exact confirmation.young
  · rw [registered, confirmed, confirmedWith]; exact confirmation.old

/-- What the list after `pindex` knows of the registration of a masternode. No block has the null hash. -/
structure Tracked (params : Params) (h : Hashing) (blocks : List CBlock) (pindex : CBlockIndex) (proTxHash : Uint256)
    (state : CDeterministicMNState) : Prop where
  registered : RegisteredAt blocks proTxHash state.nRegisteredHeight
  confirmation : (∀ a, AncestorOrEq a pindex → a.getBlockHash ≠ 0) → Confirmation params h pindex proTxHash state

theorem Tracked.keeps (tracked : Tracked params h blocks pindex p state) (keeps : Keeps nHeight state after) :
    Tracked params h blocks pindex p after :=
  ⟨keeps.registered ▸ tracked.registered,
    fun named => (tracked.confirmation named).congr keeps.registered keeps.confirmed keeps.confirmedWith⟩

section
variable (spec : StepSpec params h tip block next env confirmed spent)
include spec

theorem tracked_confirmedDmn (before : Tracked params h blocks tip.pindex dmn.proTxHash dmn.pdmnState) :
    Tracked params h (block :: blocks) next.pindex dmn.proTxHash (confirmedDmn env tip.pindex dmn).pdmnState where
  registered := by
    obtain ⟨newer, carrier, older, apart, level, carried⟩ := before.registered
    have same : (confirmedDmn env tip.pindex dmn).pdmnState.nRegisteredHeight = dmn.pdmnState.nRegisteredHeight := by
      unfold confirmedDmn
      split <;> rfl
    exact ⟨block :: newer, carrier, older, by rw [apart]; rfl, by rw [same]; exact level, carried⟩
  confirmation := by
    intro named
    have below := AncestorOrEq.pprev spec.pprev
    have named := fun a ancestor => named a (AncestorOrEq.trans ancestor below)
    have before := before.confirmation named
    have height := nHeight_pprev spec.pprev
    have depth := spec.confirmations
    by_cases due : params.nMasternodeMinimumConfirmations ≤ (tip.pindex.nHeight : Int) - dmn.pdmnState.nRegisteredHeight
    · by_cases done : params.nMasternodeMinimumConfirmations ≤
          (tip.pindex.nHeight : Int) - 1 - dmn.pdmnState.nRegisteredHeight
      · -- it has fired before, and no block has the null hash
        obtain ⟨a, ancestor, level, hash, withHash⟩ := before.old done
        have set : dmn.pdmnState.confirmedHash ≠ 0 := hash ▸ named a ancestor
        rw [confirmedDmn, if_neg (by tauto)]
        exact ⟨fun young => by omega, fun _ => ⟨a, ancestor.trans below, level, hash, withHash⟩⟩
      · have unset := before.young (by omega)
        rw [confirmedDmn, if_pos ⟨unset, by rw [depth]; omega⟩, spec.hashing]
        refine ⟨fun young => ?_, fun _ => ⟨tip.pindex, below, ?_, rfl, rfl⟩⟩
        · dsimp only at young; omega
        · dsimp only; omega
    · rw [confirmedDmn, if_neg (by rw [depth]; omega)]
      exact ⟨fun _ => before.young (by omega), fun old => by omega⟩

end

theorem IsMnChain.tracked (chain : IsMnChain params h blocks tip) (depth : 0 ≤ params.nMasternodeMinimumConfirmations)
    (found : tip.list.mnMap[p]? = some dmn) : Tracked params h blocks tip.pindex p dmn.pdmnState := by
  refine IsMnChain.induct (P := fun blocks pindex p dmn => Tracked params h blocks pindex p dmn.pdmnState) ?_ chain found
  intro blocks tip next block env confirmed spent chain spec before p dmn middle
  have grown : Tracked params h (block :: blocks) next.pindex p dmn.pdmnState := by
    induction middle with
    | kept listed =>
      rw [spec.confirms] at listed
      obtain ⟨old, found, rfl⟩ := Option.map_eq_some_iff.mp listed
      obtain ⟨rfl, tracked⟩ := before found
      exact tracked_confirmedDmn spec tracked
    | registered member version type payload =>
      refine ⟨⟨[], block, blocks, rfl, by rw [← chain.nHeight]; rfl, _, member, by simp [isRegistration, version, type],
        rfl⟩, fun _ => ⟨fun _ => rfl, fun old => ?_⟩⟩
      have height := nHeight_pprev spec.pprev
      simp only [registeredMN] at old
      omega
    | changed _ change ih => exact ih.keeps change.keeps
  unfold paidDmn
  split
  · exact ⟨grown.registered, fun named => (grown.confirmation named).congr rfl rfl rfl⟩
  · exact grown

/-- After every block, the confirmed hash of a masternode is null until enough blocks lie above its registration, and
    then for good the hash of the block that many blocks above it. -/
theorem confirmedHash_fixed (chain : IsMnChain params h blocks tip)
    (depth : 0 ≤ params.nMasternodeMinimumConfirmations) (named : ∀ a, AncestorOrEq a tip.pindex → a.getBlockHash ≠ 0)
    {dmn : CDeterministicMN} (member : dmn ∈ tip.list.forEachMN false) : let r := dmn.pdmnState.nRegisteredHeight
    let confirmations := params.nMasternodeMinimumConfirmations
    RegisteredAt blocks dmn.proTxHash r ∧
      ((tip.pindex.nHeight : Int) - 1 - r < confirmations → dmn.pdmnState.confirmedHash = 0) ∧
      (confirmations ≤ (tip.pindex.nHeight : Int) - 1 - r →
        ∃ a, tip.pindex.getAncestor (r + confirmations).toNat = some a ∧ dmn.pdmnState.confirmedHash = a.getBlockHash ∧
          dmn.pdmnState.confirmedHashWithProRegTxHash = h.sha256 dmn.proTxHash dmn.pdmnState.confirmedHash) := by
  obtain ⟨p, found⟩ := mem_forEachMN.mp member
  obtain rfl := chain.indexed.keyed found
  have tracked := chain.tracked depth found
  refine ⟨tracked.registered, (tracked.confirmation named).young, fun old => ?_⟩
  obtain ⟨a, ancestor, level, hash, withHash⟩ := (tracked.confirmation named).old old
  refine ⟨a, getAncestor_eq_some.mpr ⟨ancestor, ?_⟩, hash, hash ▸ withHash⟩
  omega

theorem confirmedHash_fixed_sample :
    ∃ tip dmn, sampleRun (empty 1) sampleBlocks = .ok tip ∧ dmn ∈ tip.list.forEachMN false ∧ dmn.pdmnState.confirmedHash = 8 := by
  obtain ⟨tip, run, test⟩ := (okAnd_iff (sampleRun (empty 1) sampleBlocks) fun tip =>
    decide ((tip.list.forEachMN false).map (fun dmn => dmn.pdmnState.nRegisteredHeight) = [1] ∧
      tip.pindex = .next (.next (.next sampleGenesis { phashBlock := 7 }) { phashBlock := 8 }) { phashBlock := 9 })).mp
    (by decide +kernel)
  obtain ⟨registered, index⟩ := of_decide_eq_true test
  obtain ⟨dmn, one, level⟩ := map_eq_singleton_iff.mp registered
  have member : dmn ∈ tip.list.forEachMN false := by rw [one]; exact mem_singleton_self dmn
  have named : ∀ a, AncestorOrEq a tip.pindex → a.getBlockHash ≠ 0 := by
    intro a above
    rw [index, ← mem_path] at above
    simp only [path, sampleGenesis, mem_cons, not_mem_nil, or_false] at above
    rcases above with rfl | rfl | rfl | rfl <;> decide
  obtain ⟨-, -, old⟩ := confirmedHash_fixed (sampleRun_isMnChain run) (by decide) named member
  obtain ⟨a, ancestor, hash, -⟩ := old (by rw [level, index]; decide)
  refine ⟨tip, dmn, run, member, hash.trans ?_⟩
  rw [level, index] at ancestor
  cases ancestor
  rfl

end

end Cspn.MnChain
