import Cspn.Env
import Cspn.Script

/-!
The checks of provider transactions against the coin tip and the masternode list of the parent block. A registration
with an outside collateral must be signed by its key, which the code looks up through the first wallet of the node:
for a script-hash collateral the verdict is the wallet's.
-/
namespace Cspn.ProviderTx
open Primitives Index Coins MnList Validation Env Script Option Bool

/-- Network constants and computations that the checks rely on. -/
structure ProviderEnv where
  fMain : Bool
  fRegtest : Bool
  nDefaultPort : Nat
  fAllowMultiplePorts : Bool
  isValid : CService → Bool
  isRoutable : CService → Bool
  hash160 : List UInt8 → Nat
  calcTxInputsHash : List COutPoint → Uint256
  /-- The payload's signature over its `MakeSignString`, by the key with this id. -/
  verifyMessage : CKeyID → CProRegTx → Bool
  verifyHash : CKeyID → CProUpRegTx → Bool
  verifyServInsecure : CBLSPublicKey → CProUpServTx → Bool
  verifyRevInsecure : CBLSPublicKey → CProUpRevTx → Bool

/-- The scripts a wallet holds, filed under their hashes. -/
structure Wallet (hash160 : List UInt8 → Nat) where
  mapScripts : Nat → Option CScript
  filed : ∀ {id : Nat} {script : CScript}, mapScripts id = some script → hash160 script = id

/-- `CProRegTx::CURRENT_VERSION`; the update checks use it too. -/
def PROTX_CURRENT_VERSION : Nat := 1

/-- The first twelve bytes are those of a mapped IPv4 address. -/
def isIPv4 (addr : CService) : Bool := decide (addr.ip / 2 ^ 32 = 0xffff)

section
variable (env : ProviderEnv) (h : Hashing) (ext : Externals) (front : Option (Wallet env.hash160))
  (getUTXOCoin : COutPoint → Option Coin) (mnList : CDeterministicMNList) (tx : CTransaction)

/-- `mainnetDefaultPort` is the default port of the network the node is on. -/
def checkService (addr : CService) : Result Unit :=
  let mainnetDefaultPort := env.nDefaultPort
  checks .CONSENSUS
    [(env.isValid addr, "bad-protx-addr"),
      (env.fRegtest || env.isRoutable addr, "bad-protx-addr"),
      (if env.fMain then decide (addr.port = mainnetDefaultPort) || env.fAllowMultiplePorts
        else !decide (addr.port = mainnetDefaultPort) || env.fAllowMultiplePorts, "bad-protx-addr-port"),
      (isIPv4 addr, "bad-protx-addr")]

def checkInputsHash (inputsHash : Uint256) : Result Unit :=
  checks .CONSENSUS [(decide (env.calcTxInputsHash (tx.vin.map CTxIn.prevout) = inputsHash), "bad-protx-inputs-hash")]

def versionOk (nVersion : Nat) : Bool := decide (nVersion ≠ 0 ∧ nVersion ≤ PROTX_CURRENT_VERSION)

def keysApart (dest : CTxDestination) (keyIDOwner keyIDVoting : CKeyID) : Bool :=
  !(decide (dest = .pkHash keyIDOwner) || decide (dest = .pkHash keyIDVoting))

/-! ### Registration -/

/-- The checks of `CheckProRegTx` that look at the payload only. -/
def checkRegPayload (ptx : CProRegTx) : Result Unit :=
  (checks .CONSENSUS
    [(versionOk ptx.nVersion, "bad-protx-version"),
      (decide (ptx.nType = 0), "bad-protx-type"),
      (decide (ptx.nMode = 0), "bad-protx-mode"),
      (decide (ptx.keyIDOwner ≠ 0) && ptx.pubKeyOperator.isSome && decide (ptx.keyIDVoting ≠ 0), "bad-protx-key-null"),
      (isPayToPublicKeyHash ptx.scriptPayout || isPayToScriptHash ptx.scriptPayout, "bad-protx-payee")]).bind fun _ =>
  match extractDestination env.hash160 ptx.scriptPayout with
  | none => consensus "bad-protx-payee-dest"
  | some payoutDest =>
    (checks .CONSENSUS [(keysApart payoutDest ptx.keyIDOwner ptx.keyIDVoting, "bad-protx-payee-reuse")]).bind fun _ =>
    (if ptx.addr = {} then .ok () else checkService env ptx.addr).bind fun _ =>
    checks .CONSENSUS [(decide (ptx.nOperatorReward ≤ 10000), "bad-protx-operator-reward")]

def innerKey : Option CTxDestination → CKeyID
  | some (.witnessV0KeyHash id) => id
  | _ => 0

/-- The null id where the destination does not lead to a single key. -/
def getKeyForDestination (wallet : Wallet env.hash160) : CTxDestination → CKeyID
  | .pkHash id => id
  | .witnessV0KeyHash id => id
  | .scriptHash id => innerKey ((wallet.mapScripts id).bind (extractDestination env.hash160))
  | _ => 0

/-- The collateral a registration names, and the key that must have signed for it. -/
structure Collateral where
  dest : CTxDestination
  keyForPayloadSig : CKeyID
  outpoint : COutPoint

/-- A collateral outside the transaction; `front` is the first wallet. -/
def externalCollateral (ptx : CProRegTx) : Result Collateral :=
  match (getUTXOCoin ptx.collateralOutpoint).filter fun coin => decide (coin.out.nValue = 1337 * COIN) with
  | none => consensus "bad-protx-collateral"
  | some coin =>
    match extractDestination env.hash160 coin.out.scriptPubKey with
    | none => consensus "bad-protx-collateral-dest"
    | some dest =>
      match front with
      | none => consensus "bad-protx-wallet"
      | some wallet =>
        let keyForPayloadSig := getKeyForDestination env wallet dest
        if keyForPayloadSig = 0 then consensus "bad-protx-collateral-pkh"
        else .ok ⟨dest, keyForPayloadSig, ptx.collateralOutpoint⟩

def internalCollateral (ptx : CProRegTx) : Result Collateral :=
  match tx.vout[ptx.collateralOutpoint.n]? with
  | none => consensus "bad-protx-collateral-index"
  | some out =>
    if out.nValue ≠ 1337 * COIN then consensus "bad-protx-collateral"
    else
      match extractDestination env.hash160 out.scriptPubKey with
      | none => consensus "bad-protx-collateral-dest"
      | some dest => .ok ⟨dest, 0, ⟨tx.hash, ptx.collateralOutpoint.n⟩⟩

def findCollateral (ptx : CProRegTx) : Result Collateral :=
  if ptx.collateralOutpoint.hash ≠ 0 then externalCollateral env front getUTXOCoin ptx else internalCollateral env tx ptx

/-- An address or key of the parent's list may be used again by whom `mayUse` says. -/
def checkUnused (v : UniqueProperty) (mayUse : CDeterministicMN → Bool) (strRejectReason : String) : Result Unit :=
  if mnList.hasUniqueProperty h v then
    -- the holder is dereferenced without a test
    (assertSome (mnList.getUniquePropertyMN h v)).bind fun holder => checks .CONSENSUS [(mayUse holder, strRejectReason)]
  else .ok ()

/-- The checks of `CheckProRegTx` once the collateral is known. -/
def checkRegCollateral (ptx : CProRegTx) (collateral : Collateral) : Result Unit :=
  (checks .CONSENSUS
    [(keysApart collateral.dest ptx.keyIDOwner ptx.keyIDVoting, "bad-protx-collateral-reuse")]).bind fun _ =>
  (checkUnused h mnList (.service ptx.addr) (fun mn => decide (mn.collateralOutpoint = collateral.outpoint))
    "bad-protx-dup-addr").bind fun _ =>
  (checks .CONSENSUS
    [(!(mnList.hasUniqueProperty h (.keyID ptx.keyIDOwner) || mnList.hasUniqueProperty h (.blsKey ptx.pubKeyOperator)),
      "bad-protx-dup-key")]).bind fun _ =>
  (checkInputsHash env tx ptx.inputsHash).bind fun _ =>
  checks .CONSENSUS
    [(if collateral.keyForPayloadSig ≠ 0 then env.verifyMessage collateral.keyForPayloadSig ptx else ptx.vchSig.isEmpty,
      "bad-protx-sig")]

def checkProRegTx : Result Unit :=
  if tx.nType ≠ TRANSACTION_PROVIDER_REGISTER then consensus "bad-protx-type"
  else
    match tx.vExtraPayload with
    | .proRegTx ptx =>
      (checkRegPayload env ptx).bind fun _ =>
      (findCollateral env front getUTXOCoin tx ptx).bind fun collateral =>
      checkRegCollateral env h mnList tx ptx collateral
    | _ => consensus "bad-protx-payload"

/-- A payout to the operator needs a reward, and may only go to a script hash. -/
def operatorPayeeOk (mn : CDeterministicMN) (scriptOperatorPayout : CScript) : Bool :=
  scriptOperatorPayout.isEmpty || (decide (mn.nOperatorReward ≠ 0) && isPayToScriptHash scriptOperatorPayout)

def checkProUpServTx : Result Unit :=
  if tx.nType ≠ TRANSACTION_PROVIDER_UPDATE_SERVICE then consensus "bad-protx-type"
  else
    match tx.vExtraPayload with
    | .proUpServTx ptx =>
      (checks .CONSENSUS [(versionOk ptx.nVersion, "bad-protx-version")]).bind fun _ =>
      (checkService env ptx.addr).bind fun _ =>
      match mnList.getMN ptx.proTxHash with
      | none => consensus "bad-protx-hash"
      | some mn =>
        (checkUnused h mnList (.service ptx.addr) (fun other => decide (other.proTxHash = ptx.proTxHash))
          "bad-protx-dup-addr").bind fun _ =>
        (checks .CONSENSUS [(operatorPayeeOk mn ptx.scriptOperatorPayout, "bad-protx-operator-payee")]).bind fun _ =>
        (checkInputsHash env tx ptx.inputsHash).bind fun _ =>
        checks .CONSENSUS [(env.verifyServInsecure mn.pdmnState.pubKeyOperator ptx, "bad-protx-sig")]
    | _ => consensus "bad-protx-payload"

/-- The checks of `CheckProUpRegTx` against the masternode it updates. -/
def checkRegistrar (ptx : CProUpRegTx) (payoutDest : CTxDestination) (dmn : CDeterministicMN) : Result Unit :=
  (checks .CONSENSUS
    [(keysApart payoutDest dmn.pdmnState.keyIDOwner ptx.keyIDVoting, "bad-protx-payee-reuse")]).bind fun _ =>
  match getUTXOCoin dmn.collateralOutpoint with
  | none => consensus "bad-protx-collateral"
  | some coin =>
    match extractDestination env.hash160 coin.out.scriptPubKey with
    | none => consensus "bad-protx-collateral-dest"
    | some collateralTxDest =>
      (checks .CONSENSUS
        [(keysApart collateralTxDest dmn.pdmnState.keyIDOwner ptx.keyIDVoting, "bad-protx-collateral-reuse")]).bind fun _ =>
      (checkUnused h mnList (.blsKey ptx.pubKeyOperator) (fun other => decide (ptx.proTxHash = other.proTxHash))
        "bad-protx-dup-key").bind fun _ =>
      (checkInputsHash env tx ptx.inputsHash).bind fun _ =>
      checks .CONSENSUS [(env.verifyHash dmn.pdmnState.keyIDOwner ptx, "bad-protx-sig")]

def checkProUpRegTx : Result Unit :=
  if tx.nType ≠ TRANSACTION_PROVIDER_UPDATE_REGISTRAR then consensus "bad-protx-type"
  else
    match tx.vExtraPayload with
    | .proUpRegTx ptx =>
      (checks .CONSENSUS
        [(versionOk ptx.nVersion, "bad-protx-version"),
          (decide (ptx.nMode = 0), "bad-protx-mode"),
          (ptx.pubKeyOperator.isSome && decide (ptx.keyIDVoting ≠ 0), "bad-protx-key-null"),
          (isPayToPublicKeyHash ptx.scriptPayout || isPayToScriptHash ptx.scriptPayout,
            "bad-protx-payee")]).bind fun _ =>
      match extractDestination env.hash160 ptx.scriptPayout with
      | none => consensus "bad-protx-payee-dest"
      | some payoutDest =>
        match mnList.getMN ptx.proTxHash with
        | none => consensus "bad-protx-hash"
        | some dmn => checkRegistrar env h getUTXOCoin mnList tx ptx payoutDest dmn
    | _ => consensus "bad-protx-payload"

def checkProUpRevTx : Result Unit :=
  if tx.nType ≠ TRANSACTION_PROVIDER_UPDATE_REVOKE then consensus "bad-protx-type"
  else
    match tx.vExtraPayload with
    | .proUpRevTx ptx =>
      (checks .CONSENSUS
        [(versionOk ptx.nVersion, "bad-protx-version"),
          (decide (ptx.nReason ≤ REASON_LAST), "bad-protx-reason")]).bind fun _ =>
      match mnList.getMN ptx.proTxHash with
      | none => consensus "bad-protx-hash"
      | some dmn =>
        (checkInputsHash env tx ptx.inputsHash).bind fun _ =>
        checks .CONSENSUS [(env.verifyRevInsecure dmn.pdmnState.pubKeyOperator ptx, "bad-protx-sig")]
    | _ => consensus "bad-protx-payload"

/-- The four provider cases of `CheckSpecialTx`. -/
def checkProviderTx (_pindexPrev : CBlockIndex) : Result Unit :=
  if tx.nType = TRANSACTION_PROVIDER_REGISTER then checkProRegTx env h front getUTXOCoin mnList tx
  else if tx.nType = TRANSACTION_PROVIDER_UPDATE_SERVICE then checkProUpServTx env h mnList tx
  else if tx.nType = TRANSACTION_PROVIDER_UPDATE_REGISTRAR then checkProUpRegTx env h getUTXOCoin mnList tx
  else checkProUpRevTx env mnList tx

def withProviders : Externals :=
  { ext with checkProviderTx := checkProviderTx env ext.hashing front }

end

/-! ### What a checked transaction is known to be -/

variable {env : ProviderEnv} {h : Hashing} {getUTXOCoin : COutPoint → Option Coin} {mnList : CDeterministicMNList}
  {tx : CTransaction} {ptx : CProRegTx} {collateral : Collateral} {wallet : Wallet env.hash160}

section
variable {front : Option (Wallet env.hash160)}

theorem checkService_ne_default {addr : CService} (passed : checkService env addr = .ok ()) : addr ≠ {} := by
  rintro rfl
  simp only [checkService, checks_cons] at passed
  exact absurd passed.2.2.2.1 (by decide)

theorem checkProRegTx_eq_ok : checkProRegTx env h front getUTXOCoin mnList tx = .ok () ↔
      tx.nType = TRANSACTION_PROVIDER_REGISTER ∧ ∃ ptx collateral, tx.vExtraPayload = .proRegTx ptx ∧
        checkRegPayload env ptx = .ok () ∧ findCollateral env front getUTXOCoin tx ptx = .ok collateral ∧
        checkRegCollateral env h mnList tx ptx collateral = .ok () := by
  unfold checkProRegTx
  by_cases type : tx.nType = TRANSACTION_PROVIDER_REGISTER
  · rw [if_neg (not_not.mpr type)]
    constructor
    · intro passed
      split at passed
      next ptx payload =>
        obtain ⟨fields, rest⟩ := then_eq_ok.mp passed
        obtain ⟨collateral, found, rest⟩ := bind_eq_ok.mp rest
        exact ⟨type, ptx, collateral, payload, fields, found, rest⟩
      next => cases passed
    · rintro ⟨-, ptx, collateral, payload, fields, found, rest⟩
      rw [payload]
      exact then_eq_ok.mpr ⟨fields, bind_eq_ok.mpr ⟨collateral, found, rest⟩⟩
  · rw [if_pos type]
    simp [type]

theorem checkRegPayload_keys (passed : checkRegPayload env ptx = .ok ()) :
    ptx.keyIDOwner ≠ 0 ∧ ptx.pubKeyOperator.isSome ∧ ptx.keyIDVoting ≠ 0 := by
  obtain ⟨keys, -⟩ := then_eq_ok.mp passed
  simp only [checks_cons, and_eq_true, decide_eq_true_eq] at keys
  obtain ⟨-, -, -, ⟨⟨owner, operator⟩, voting⟩, -⟩ := keys
  exact ⟨owner, operator, voting⟩

/-- The collateral of a registration that passed has the value of a collateral: it is unspent at the tip, or a spendable
    output of the registration. -/
theorem findCollateral_ok (found : findCollateral env front getUTXOCoin tx ptx = .ok collateral) :
    if ptx.collateralOutpoint.hash ≠ 0 then
      ∃ coin, getUTXOCoin ptx.collateralOutpoint = some coin ∧ coin.out.nValue = 1337 * COIN else
      ∃ out, tx.vout[ptx.collateralOutpoint.n]? = some out ∧ out.nValue = 1337 * COIN ∧
        isUnspendable out.scriptPubKey = false := by
  unfold findCollateral at found
  split at found
  next outside =>
    rw [if_pos outside]
    unfold externalCollateral at found
    split at found
    · cases found
    next coin unspent =>
      obtain ⟨unspent, value⟩ := filter_eq_some_iff.mp unspent
      exact ⟨coin, unspent, of_decide_eq_true value⟩
  next inside =>
    rw [if_neg inside]
    unfold internalCollateral at found
    split at found
    · cases found
    next out output =>
      split at found
      · cases found
      next value =>
        split at found
        · cases found
        next dest extracted => exact ⟨out, output, not_not.mp value, extractDestination_spendable extracted⟩

theorem checkProUpServTx_ok (passed : checkProUpServTx env h mnList tx = .ok ()) :
    ∃ ptx, tx.vExtraPayload = .proUpServTx ptx ∧ checkService env ptx.addr = .ok () := by
  unfold checkProUpServTx at passed
  split at passed
  · cases passed
  split at passed
  next ptx payload =>
    obtain ⟨-, passed⟩ := then_eq_ok.mp passed
    exact ⟨ptx, payload, (then_eq_ok.mp passed).1⟩
  next => cases passed

/-- The operator key of a registrar update that passed is nobody else's in the list. -/
theorem checkProUpRegTx_ok (passed : checkProUpRegTx env h getUTXOCoin mnList tx = .ok ()) :
    ∃ ptx, tx.vExtraPayload = .proUpRegTx ptx ∧ ptx.pubKeyOperator.isSome ∧ ptx.keyIDVoting ≠ 0 ∧
      checkUnused h mnList (.blsKey ptx.pubKeyOperator) (fun other => decide (ptx.proTxHash = other.proTxHash))
        "bad-protx-dup-key" = .ok () := by
  unfold checkProUpRegTx at passed
  split at passed
  · cases passed
  split at passed
  next ptx payload =>
    obtain ⟨keys, passed⟩ := then_eq_ok.mp passed
    simp only [checks_cons, and_eq_true, decide_eq_true_eq] at keys
    obtain ⟨-, -, ⟨operator, voting⟩, -⟩ := keys
    split at passed
    · cases passed
    split at passed
    · cases passed
    obtain ⟨-, passed⟩ := then_eq_ok.mp passed
    split at passed
    · cases passed
    split at passed
    · cases passed
    obtain ⟨-, passed⟩ := then_eq_ok.mp passed
    exact ⟨ptx, payload, operator, voting, (then_eq_ok.mp passed).1⟩
  next => cases passed

theorem checkProUpRevTx_ok (passed : checkProUpRevTx env mnList tx = .ok ()) : ∃ ptx, tx.vExtraPayload = .proUpRevTx ptx := by
  unfold checkProUpRevTx at passed
  split at passed
  · cases passed
  split at passed
  next ptx payload => exact ⟨ptx, payload⟩
  next => cases passed

end

/-! ### The wallet's part -/

/-- The registration hangs on the wallet: its outside collateral pays to a script hash, the hidden script to the
    witness hash of one key, that key signed, and nothing else is wrong. -/
structure WalletDecides (env : ProviderEnv) (h : Hashing) (getUTXOCoin : COutPoint → Option Coin)
    (mnList : CDeterministicMNList) (tx : CTransaction) (ptx : CProRegTx) (coin : Coin) (redeemScript : CScript)
    (key : CKeyID) : Prop where
  type : tx.nType = TRANSACTION_PROVIDER_REGISTER
  payload : tx.vExtraPayload = .proRegTx ptx
  fields : checkRegPayload env ptx = .ok ()
  outside : ptx.collateralOutpoint.hash ≠ 0
  unspent : getUTXOCoin ptx.collateralOutpoint = some coin
  value : coin.out.nValue = 1337 * COIN
  pays : extractDestination env.hash160 coin.out.scriptPubKey = some (.scriptHash (env.hash160 redeemScript))
  hides : extractDestination env.hash160 redeemScript = some (.witnessV0KeyHash key)
  keyed : key ≠ 0
  free : checkUnused h mnList (.service ptx.addr) (fun mn => decide (mn.collateralOutpoint = ptx.collateralOutpoint))
    "bad-protx-dup-addr" = .ok ()
  keys : mnList.hasUniqueProperty h (.keyID ptx.keyIDOwner) = false ∧
    mnList.hasUniqueProperty h (.blsKey ptx.pubKeyOperator) = false
  inputs : checkInputsHash env tx ptx.inputsHash = .ok ()
  signed : env.verifyMessage key ptx = true

def Wallet.empty (hash160 : List UInt8 → Nat) : Wallet hash160 := ⟨fun _ => none, by simp⟩

def Wallet.single (hash160 : List UInt8 → Nat) (script : CScript) : Wallet hash160 where
  mapScripts id := if id = hash160 script then some script else none
  filed := by
    intro id other found
    split at found
    next here => cases found; exact here.symm
    next => cases found

theorem externalCollateral_eq_ok : externalCollateral env (some wallet) getUTXOCoin ptx = .ok collateral ↔
      ∃ coin, getUTXOCoin ptx.collateralOutpoint = some coin ∧ coin.out.nValue = 1337 * COIN ∧
        extractDestination env.hash160 coin.out.scriptPubKey = some collateral.dest ∧
        collateral.keyForPayloadSig = getKeyForDestination env wallet collateral.dest ∧
        collateral.keyForPayloadSig ≠ 0 ∧ collateral.outpoint = ptx.collateralOutpoint := by
  unfold externalCollateral
  constructor
  · intro found
    split at found
    · cases found
    next coin valued =>
      obtain ⟨unspent, value⟩ := filter_eq_some_iff.mp valued
      split at found
      · cases found
      next dest pays =>
        dsimp only at found
        split at found
        · cases found
        next keyed =>
          cases found
          exact ⟨coin, unspent, of_decide_eq_true value, pays, rfl, keyed, rfl⟩
  · rintro ⟨coin, unspent, value, pays, key, keyed, outpoint⟩
    rw [unspent, filter_some, if_pos (decide_eq_true value)]
    dsimp only
    rw [pays]
    dsimp only
    rw [← key, if_neg keyed, ← outpoint]

theorem getKeyForDestination_scriptHash {id : Nat} (keyed : getKeyForDestination env wallet (.scriptHash id) ≠ 0) :
    ∃ script, env.hash160 script = id ∧
      extractDestination env.hash160 script = some (.witnessV0KeyHash (getKeyForDestination env wallet (.scriptHash id))) := by
  rw [getKeyForDestination] at keyed ⊢
  generalize looked : (wallet.mapScripts id).bind (extractDestination env.hash160) = inner at keyed ⊢
  unfold innerKey at keyed ⊢
  split at keyed
  next key =>
    obtain ⟨script, held, hides⟩ := bind_eq_some_iff.mp looked
    exact ⟨script, wallet.filed held, hides⟩
  next => exact absurd rfl keyed

theorem checkRegCollateral_eq_ok (signs : collateral.keyForPayloadSig ≠ 0) :
    checkRegCollateral env h mnList tx ptx collateral = .ok () ↔
      keysApart collateral.dest ptx.keyIDOwner ptx.keyIDVoting = true ∧
      checkUnused h mnList (.service ptx.addr) (fun mn => decide (mn.collateralOutpoint = collateral.outpoint))
        "bad-protx-dup-addr" = .ok () ∧ (mnList.hasUniqueProperty h (.keyID ptx.keyIDOwner) = false ∧
        mnList.hasUniqueProperty h (.blsKey ptx.pubKeyOperator) = false) ∧
      checkInputsHash env tx ptx.inputsHash = .ok () ∧ env.verifyMessage collateral.keyForPayloadSig ptx = true := by
  unfold checkRegCollateral
  rw [then_eq_ok, then_eq_ok, then_eq_ok, then_eq_ok]
  simp [signs]

section
variable {coin : Coin} {redeemScript : CScript} {key : CKeyID} (decides : WalletDecides env h getUTXOCoin mnList tx ptx coin redeemScript key)
include decides

theorem WalletDecides.accepted :
    checkProRegTx env h (some (Wallet.single env.hash160 redeemScript)) getUTXOCoin mnList tx = .ok () := by
  have looked : getKeyForDestination env (Wallet.single env.hash160 redeemScript) (.scriptHash (env.hash160 redeemScript)) =
      key := by
    simp [getKeyForDestination, innerKey, Wallet.single, decides.hides]
  refine checkProRegTx_eq_ok.mpr ⟨decides.type, ptx, ⟨.scriptHash (env.hash160 redeemScript), key,
    ptx.collateralOutpoint⟩, decides.payload, decides.fields, ?_, ?_⟩
  · rw [findCollateral, if_pos decides.outside]
    exact externalCollateral_eq_ok.mpr ⟨coin, decides.unspent, decides.value, decides.pays, looked.symm, decides.keyed, rfl⟩
  · exact (checkRegCollateral_eq_ok decides.keyed).mpr
      ⟨by simp [keysApart], decides.free, decides.keys, decides.inputs, decides.signed⟩

theorem WalletDecides.rejected :
    checkProRegTx env h (some (Wallet.empty env.hash160)) getUTXOCoin mnList tx ≠ .ok () := by
  intro passed
  obtain ⟨-, ptx', collateral, payload, -, found, -⟩ := checkProRegTx_eq_ok.mp passed
  rw [decides.payload] at payload
  cases payload
  rw [findCollateral, if_pos decides.outside] at found
  obtain ⟨coin', unspent, -, pays, key, keyed, -⟩ := externalCollateral_eq_ok.mp found
  rw [decides.unspent] at unspent
  cases unspent
  rw [decides.pays] at pays
  rw [key, ← some.inj pays] at keyed
  exact keyed rfl

end

/-- A registration that one wallet lets pass and another does not hangs on the wallet. -/
theorem walletDecides_of_accepted {a b : Wallet env.hash160}
    (accepted : checkProRegTx env h (some a) getUTXOCoin mnList tx = .ok ())
    (rejected : checkProRegTx env h (some b) getUTXOCoin mnList tx ≠ .ok ()) :
    ∃ ptx coin redeemScript key, WalletDecides env h getUTXOCoin mnList tx ptx coin redeemScript key := by
  obtain ⟨type, ptx, collateral, payload, fields, found, rest⟩ := checkProRegTx_eq_ok.mp accepted
  have differs : findCollateral env (some b) getUTXOCoin tx ptx ≠ .ok collateral := fun same =>
    rejected (checkProRegTx_eq_ok.mpr ⟨type, ptx, collateral, payload, fields, same, rest⟩)
  unfold findCollateral at found differs
  split at found
  next outside =>
    rw [if_pos outside] at differs
    obtain ⟨coin, unspent, value, pays, key, keyed, outpoint⟩ := externalCollateral_eq_ok.mp found
    obtain ⟨dest, sig, point⟩ := collateral
    subst outpoint
    cases dest with
    | scriptHash id =>
      obtain ⟨redeemScript, filed, hides⟩ := getKeyForDestination_scriptHash (key ▸ keyed)
      subst filed
      rw [← key] at hides
      obtain ⟨-, free, keys, inputs, signed⟩ := (checkRegCollateral_eq_ok keyed).mp rest
      exact ⟨ptx, coin, redeemScript, sig, type, payload, fields, outside, unspent, value, pays, hides, keyed, free, keys,
        inputs, signed⟩
    | pkHash | witnessV0KeyHash | witnessV0ScriptHash | witnessUnknown =>
      -- Only a script hash is looked up in the wallet.
      refine absurd (externalCollateral_eq_ok.mpr ⟨coin, unspent, value, pays, ?_, keyed, rfl⟩) differs
      exact key
  next inside =>
    rw [if_neg inside] at differs
    exact absurd found differs

/-- Any two nodes with a wallet reach the same verdict on a registration, unless it hangs on the wallet. -/
theorem checkProRegTx_sameVerdict_iff (env : ProviderEnv) (h : Hashing) (getUTXOCoin : COutPoint → Option Coin)
    (mnList : CDeterministicMNList) (tx : CTransaction) :
    (∀ a b, (checkProRegTx env h (some a) getUTXOCoin mnList tx).isOk =
        (checkProRegTx env h (some b) getUTXOCoin mnList tx).isOk) ↔
      ¬∃ ptx coin redeemScript key, WalletDecides env h getUTXOCoin mnList tx ptx coin redeemScript key := by
  have isOk : ∀ x : Result Unit, x.isOk = true ↔ x = .ok () := by
    intro x
    cases x <;> simp [Except.isOk, Except.toBool]
  constructor
  · rintro same ⟨ptx, coin, redeemScript, key, decides⟩
    have equal := same (Wallet.single env.hash160 redeemScript) (Wallet.empty env.hash160)
    rw [(isOk _).mpr decides.accepted] at equal
    exact decides.rejected ((isOk _).mp equal.symm)
  · intro free a b
    rw [Bool.eq_iff_iff, isOk, isOk]
    constructor
    · intro accepted
      by_contra rejected
      exact free (walletDecides_of_accepted accepted rejected)
    · intro accepted
      by_contra rejected
      exact free (walletDecides_of_accepted accepted rejected)

/-- An environment in which every signature is good; the hash of a script is its first twenty bytes. -/
def sampleProviderEnv : ProviderEnv where
  fMain := false
  fRegtest := true
  nDefaultPort := 19999
  fAllowMultiplePorts := false
  isValid addr := decide (addr.ip ≠ 0)
  isRoutable addr := decide (addr.ip ≠ 0)
  hash160 bytes := uintOfBytes (bytes.take 20)
  calcTxInputsHash prevouts := prevouts.length
  verifyMessage _ _ := true
  verifyHash _ _ := true
  verifyServInsecure _ _ := true
  verifyRevInsecure _ _ := true

def payToKeyHash (id : UInt8) : CScript := [OP_DUP, OP_HASH160, 0x14] ++ List.replicate 20 id ++ [OP_EQUALVERIFY, OP_CHECKSIG]

def witnessScript : CScript := [OP_0, 0x14] ++ List.replicate 20 7

def collateralOut : CTxOut := ⟨1337 * COIN, [OP_HASH160, 0x14] ++ witnessScript.take 20 ++ [OP_EQUAL]⟩

def outsideRegistration : CTransaction where
  vin := [{ prevout := ⟨4, 0⟩ }]
  vout := [⟨1, payToKeyHash 3⟩]
  nType := TRANSACTION_PROVIDER_REGISTER
  vExtraPayload := .proRegTx
    { collateralOutpoint := ⟨5, 0⟩
      addr := ⟨0xffff01020304, 9999⟩
      keyIDOwner := 11
      pubKeyOperator := some 12
      keyIDVoting := 13
      scriptPayout := payToKeyHash 3
      inputsHash := 1
      vchSig := [1] }
  hash := 6
  noPayload := fun no => absurd ⟨by decide, by decide⟩ no

/-- Two nodes that differ in one script of their wallets disagree about a registration. -/
theorem checkProRegTx_verdict_differs :
    let coins := fun o => if o = ⟨5, 0⟩ then some (⟨collateralOut, 1, false, false⟩ : Coin) else none
    let h : Hashing := ⟨fun _ => 0, fun _ _ => 0⟩
    (checkProRegTx sampleProviderEnv h (some (Wallet.single _ witnessScript)) coins {} outsideRegistration).isOk = true ∧
      (checkProRegTx sampleProviderEnv h (some (Wallet.empty _)) coins {} outsideRegistration).isOk = false := by
  decide +kernel

end Cspn.ProviderTx
