import Cspn.Primitives
import Cspn.Journal

/-!
Unspent coins and the view that holds them. A view maps an outpoint to the coin that is unspent there, with the layers
of the cache merged, so `AddCoin` replaces a coin also where the code throws. No coin in a view is spent, and none has
a script that can never be spent.
-/
namespace Cspn.Coins
open Primitives List Function CTxIn Journal

structure Coin where
  out : CTxOut
  nHeight : Nat
  fCoinBase : Bool
  fCoinStake : Bool
deriving DecidableEq

def Coin.isSpent (coin : Coin) : Bool := coin.out.isNull

/-- What `AddCoin` lets in. -/
structure Coin.Live (coin : Coin) : Prop where
  unspent : coin.isSpent = false
  spendable : isUnspendable coin.out.scriptPubKey = false

def coinEmpty : Coin := ⟨CTxOut.null, 0, false, false⟩

structure CCoinsView where
  coins : COutPoint → Option Coin
  hashBlock : Uint256
  live : ∀ {o coin}, coins o = some coin → coin.Live

variable {outpoint : COutPoint} {tx : CTransaction} {nHeight i : Nat} {entry : COutPoint × Coin} {vprevout : List Coin}

namespace CCoinsView

def empty (hashBlock : Uint256) : CCoinsView := ⟨fun _ => none, hashBlock, by simp⟩

variable (view : CCoinsView)

def haveCoin (outpoint : COutPoint) : Bool := (view.coins outpoint).isSome

def accessCoin (outpoint : COutPoint) : Coin := (view.coins outpoint).getD coinEmpty

def setBestBlock (hashBlock : Uint256) : CCoinsView := { view with hashBlock }

def spendCoin (outpoint : COutPoint) : CCoinsView where
  coins := update view.coins outpoint none
  hashBlock := view.hashBlock
  live := by
    intro o coin found
    by_cases same : o = outpoint
    · simp [same] at found
    · rw [update_of_ne same] at found
      exact view.live found

def addCoin (outpoint : COutPoint) (coin : Coin) : Option CCoinsView :=
  if unspent : coin.isSpent = false then
    if spendable : isUnspendable coin.out.scriptPubKey = false then
      some
        { coins := update view.coins outpoint (some coin)
          hashBlock := view.hashBlock
          live := by
            intro o c found
            by_cases same : o = outpoint
            · rw [same, update_self] at found
              exact Option.some.inj found ▸ ⟨unspent, spendable⟩
            · rw [update_of_ne same] at found
              exact view.live found }
    else some view
  else none

def coinOf (tx : CTransaction) (nHeight : Nat) (out : CTxOut) : Coin := ⟨out, nHeight, tx.isCoinBase, tx.isCoinStake⟩

def addCoinsFrom (tx : CTransaction) (nHeight : Nat) : Nat → List CTxOut → CCoinsView → Option CCoinsView
  | _, [], view => some view
  | i, out :: rest, view =>
    (view.addCoin (tx.outpoint i) (coinOf tx nHeight out)).bind (addCoinsFrom tx nHeight (i + 1) rest)

def addCoins (tx : CTransaction) (nHeight : Nat) : Option CCoinsView :=
  addCoinsFrom tx nHeight 0 tx.vout view

/-- The loop of `UpdateCoins` over the inputs: the coins for the undo record and the view without them;
    `none` where its assertion fails. -/
def spendInputs : List CTxIn → CCoinsView → Option (List Coin × CCoinsView)
  | [], view => some ([], view)
  | txin :: rest, view =>
    (view.coins txin.prevout).bind fun coin =>
      (spendInputs rest (view.spendCoin txin.prevout)).map fun spent => (coin :: spent.1, spent.2)

def updateCoins (tx : CTransaction) (nHeight : Nat) : Option (List Coin × CCoinsView) :=
  if tx.isCoinBase then (view.addCoins tx nHeight).map fun view => ([], view)
  else
    (spendInputs tx.vin view).bind fun spent =>
      (spent.2.addCoins tx nHeight).map fun view => (spent.1, view)

def getValueIn (tx : CTransaction) : Int :=
  if tx.isCoinBase then 0 else (tx.vin.map fun txin => (view.accessCoin txin.prevout).out.nValue).sum

def haveInputs (tx : CTransaction) : Bool :=
  tx.isCoinBase || tx.vin.all fun txin => view.haveCoin txin.prevout

/-- `MAX_BLOCK_WEIGHT` over four times the nine bytes of an empty output. -/
def MAX_OUTPUTS_PER_BLOCK : Nat := 111111

def accessByTxid (txid : Uint256) : Coin :=
  ((range MAX_OUTPUTS_PER_BLOCK).findSome? fun n => view.coins ⟨txid, n⟩).getD coinEmpty

@[simp] theorem coins_setBestBlock (hashBlock : Uint256) : (view.setBestBlock hashBlock).coins = view.coins := rfl

@[simp] theorem coins_spendCoin (outpoint : COutPoint) :
    (view.spendCoin outpoint).coins = update view.coins outpoint none := rfl

variable {coin : Coin}

theorem accessCoin_of_coins {view : CCoinsView}
    (found : view.coins outpoint = some coin) : view.accessCoin outpoint = coin := by
  rw [accessCoin, found, Option.getD_some]

theorem addCoin_eq_some {view after : CCoinsView} : view.addCoin outpoint coin = some after →
      coin.isSpent = false ∧ after.hashBlock = view.hashBlock ∧
      after.coins = if isUnspendable coin.out.scriptPubKey then view.coins
        else update view.coins outpoint (some coin) := by
  unfold addCoin
  split
  next unspent =>
    split
    next spendable => intro added; cases added; exact ⟨unspent, rfl, by simp [spendable]⟩
    next spendable => intro added; cases added; exact ⟨unspent, rfl, (if_pos (by simpa using spendable)).symm⟩
  next => intro added; cases added

theorem addCoin_isSome (outpoint : COutPoint) (unspent : coin.isSpent = false) :
    ∃ after, view.addCoin outpoint coin = some after := by
  rw [addCoin, dif_pos unspent]
  split
  · exact ⟨_, rfl⟩
  · exact ⟨_, rfl⟩

/-! ### The journal of a transaction -/

def newCoinsFrom (tx : CTransaction) (nHeight : Nat) : Nat → List CTxOut → List (COutPoint × Coin)
  | _, [] => []
  | i, out :: rest =>
    if isUnspendable out.scriptPubKey then newCoinsFrom tx nHeight (i + 1) rest
    else (tx.outpoint i, coinOf tx nHeight out) :: newCoinsFrom tx nHeight (i + 1) rest

def newCoins (tx : CTransaction) (nHeight : Nat) : List (COutPoint × Coin) := newCoinsFrom tx nHeight 0 tx.vout

def spends (tx : CTransaction) (vprevout : List Coin) : List (Change COutPoint Coin) :=
  (tx.vin.zip vprevout).map fun spent => .drop spent.1.prevout spent.2

/-- What a transaction with undo record `vprevout` does to the coins. -/
def txChanges (tx : CTransaction) (nHeight : Nat) (vprevout : List Coin) : List (Change COutPoint Coin) :=
  spends tx vprevout ++ additions (newCoins tx nHeight)

theorem spends_eq (tx : CTransaction) (vprevout : List Coin) :
    spends tx vprevout = ((tx.vin.map prevout).zip vprevout).map fun entry => .drop entry.1 entry.2 := by
  rw [spends, zip_map_left, map_map]
  rfl

variable {outs : List CTxOut}

theorem mem_newCoinsFrom : entry ∈ newCoinsFrom tx nHeight i outs ↔
      ∃ n out, outs[n]? = some out ∧ isUnspendable out.scriptPubKey = false ∧
        entry = (tx.outpoint (i + n), coinOf tx nHeight out) := by
  induction outs generalizing i with
  | nil => simp [newCoinsFrom]
  | cons first rest ih =>
    have split : (∃ n out, (first :: rest)[n]? = some out ∧ isUnspendable out.scriptPubKey = false ∧
        entry = (tx.outpoint (i + n), coinOf tx nHeight out)) ↔
        (isUnspendable first.scriptPubKey = false ∧ entry = (tx.outpoint i, coinOf tx nHeight first)) ∨
          entry ∈ newCoinsFrom tx nHeight (i + 1) rest := by
      rw [ih]
      constructor
      · rintro ⟨n, out, found, spendable, same⟩
        cases n with
        | zero => cases found; exact .inl ⟨spendable, same⟩
        | succ n => exact .inr ⟨n, out, found, spendable, by rw [same]; congr 2; omega⟩
      · rintro (⟨spendable, same⟩ | ⟨n, out, found, spendable, same⟩)
        · exact ⟨0, first, rfl, spendable, same⟩
        · exact ⟨n + 1, out, found, spendable, by rw [same]; congr 2; omega⟩
    rw [split, newCoinsFrom]
    split <;> simp_all

theorem newCoinsFrom_nodup (tx : CTransaction) (nHeight i : Nat) (outs : List CTxOut) :
    ((newCoinsFrom tx nHeight i outs).map Prod.fst).Nodup := by
  induction outs generalizing i with
  | nil => simp [newCoinsFrom]
  | cons first rest ih =>
    rw [newCoinsFrom]
    split
    · exact ih (i + 1)
    · refine nodup_cons.mpr ⟨fun again => ?_, ih (i + 1)⟩
      obtain ⟨entry, added, same⟩ := mem_map.mp again
      obtain ⟨n, out, -, -, rfl⟩ := mem_newCoinsFrom.mp added
      simp only [CTransaction.outpoint, COutPoint.mk.injEq, true_and] at same
      omega

theorem newCoins_nodup (tx : CTransaction) (nHeight : Nat) : ((newCoins tx nHeight).map Prod.fst).Nodup :=
  newCoinsFrom_nodup tx nHeight 0 tx.vout

theorem mem_newCoins : entry ∈ newCoins tx nHeight ↔
      ∃ n out, tx.vout[n]? = some out ∧ isUnspendable out.scriptPubKey = false ∧
        entry = (tx.outpoint n, coinOf tx nHeight out) := by
  simp [newCoins, mem_newCoinsFrom]

theorem addCoinsFrom_coins {view after : CCoinsView} (added : addCoinsFrom tx nHeight i outs view = some after) :
    after.coins = applyAll view.coins (additions (newCoinsFrom tx nHeight i outs)) ∧
      after.hashBlock = view.hashBlock := by
  induction outs generalizing i view with
  | nil => cases added; exact ⟨rfl, rfl⟩
  | cons first rest ih =>
    obtain ⟨middle, head, tail⟩ := Option.bind_eq_some_iff.mp added
    obtain ⟨-, hash, coins⟩ := addCoin_eq_some head
    obtain ⟨rest, restHash⟩ := ih tail
    refine ⟨?_, restHash.trans hash⟩
    rw [rest, coins, newCoinsFrom]
    by_cases lost : isUnspendable first.scriptPubKey = true
    · simp [coinOf, lost]
    · simp only [coinOf, lost]
      rfl

theorem addCoins_coins {view after : CCoinsView} (added : view.addCoins tx nHeight = some after) :
    after.coins = applyAll view.coins (additions (newCoins tx nHeight)) ∧ after.hashBlock = view.hashBlock :=
  addCoinsFrom_coins added

theorem addCoinsFrom_isSome (tx : CTransaction) (nHeight i : Nat) (view : CCoinsView)
    (real : ∀ out ∈ outs, out.isNull = false) : ∃ after, addCoinsFrom tx nHeight i outs view = some after := by
  induction outs generalizing i view with
  | nil => exact ⟨view, rfl⟩
  | cons first rest ih =>
    have unspent : (coinOf tx nHeight first).isSpent = false := real first (.head _)
    obtain ⟨middle, head⟩ := addCoin_isSome view (tx.outpoint i) unspent
    obtain ⟨after, tail⟩ := ih (i + 1) middle (fun out later => real out (.tail _ later))
    exact ⟨after, Option.bind_eq_some_iff.mpr ⟨middle, head, tail⟩⟩

variable {vin : List CTxIn}

theorem spendInputs_spec {view after : CCoinsView} (spent : spendInputs vin view = some (vprevout, after)) :
    (vin.map fun txin => view.coins txin.prevout) = vprevout.map some ∧ (vin.map prevout).Nodup ∧
      after.coins = without view.coins (vin.map prevout) ∧ after.hashBlock = view.hashBlock := by
  induction vin generalizing view vprevout with
  | nil => cases spent; simp
  | cons txin rest ih =>
    obtain ⟨coin, found, tail⟩ := Option.bind_eq_some_iff.mp spent
    obtain ⟨⟨later, last⟩, restSpent, same⟩ := Option.map_eq_some_iff.mp tail
    cases same
    obtain ⟨coins, distinct, left, hash⟩ := ih restSpent
    -- A second input with the same outpoint would find it spent.
    have fresh : txin.prevout ∉ rest.map prevout := by
      intro again
      obtain ⟨other, inRest, same⟩ := mem_map.mp again
      have spentTwice := mem_map_of_mem (f := fun next => (view.spendCoin txin.prevout).coins next.prevout) inRest
      rw [coins, same, coins_spendCoin, update_self] at spentTwice
      simp at spentTwice
    have others : (rest.map fun other => view.coins other.prevout) = later.map some := by
      rw [← coins]
      refine map_congr_left fun other inRest => ?_
      rw [coins_spendCoin, update_of_ne]
      exact fun same => fresh (same ▸ mem_map_of_mem inRest)
    refine ⟨by simp [found, others], by simpa using ⟨by simpa using fresh, distinct⟩, ?_, hash⟩
    rw [left, coins_spendCoin, map_cons, without_cons]

theorem spendInputs_isSome (distinct : (vin.map prevout).Nodup)
    (present : ∀ txin ∈ vin, view.haveCoin txin.prevout = true) : ∃ spent, spendInputs vin view = some spent := by
  induction vin generalizing view with
  | nil => exact ⟨_, rfl⟩
  | cons txin rest ih =>
    simp only [map_cons, nodup_cons] at distinct
    obtain ⟨coin, found⟩ := Option.isSome_iff_exists.mp (present txin (.head _))
    obtain ⟨spent, restSpent⟩ := ih (view.spendCoin txin.prevout) distinct.2 fun other inRest => by
      have apart : other.prevout ≠ txin.prevout := fun same => distinct.1 (same ▸ mem_map_of_mem inRest)
      rw [haveCoin, coins_spendCoin, update_of_ne apart]
      exact present other (.tail _ inRest)
    exact ⟨_, Option.bind_eq_some_iff.mpr ⟨coin, found, Option.map_eq_some_iff.mpr ⟨spent, restSpent, rfl⟩⟩⟩

theorem spends_spec {m : COutPoint → Option Coin}
    (coins : (vin.map fun txin => m txin.prevout) = vprevout.map some) (distinct : (vin.map prevout).Nodup) :
    Fits m ((vin.zip vprevout).map fun spent => .drop spent.1.prevout spent.2) ∧
      applyAll m ((vin.zip vprevout).map fun spent => .drop spent.1.prevout spent.2) =
        without m (vin.map prevout) := by
  induction vin generalizing m vprevout with
  | nil => simp [Fits]
  | cons txin rest ih =>
    cases vprevout with
    | nil => simp at coins
    | cons coin later =>
      simp only [map_cons, cons.injEq, nodup_cons] at coins distinct
      have others : (rest.map fun other => update m txin.prevout none other.prevout) = later.map some := by
        rw [← coins.2]
        refine map_congr_left fun other inRest => update_of_ne ?_ _ _
        exact fun same => distinct.1 (same ▸ mem_map_of_mem inRest)
      obtain ⟨fits, left⟩ := ih others distinct.2
      refine ⟨⟨coins.1, fits⟩, ?_⟩
      rw [map_cons, without_cons]
      exact left

theorem updateCoins_isSome {view : CCoinsView} (nHeight : Nat)
    (distinct : (tx.vin.map prevout).Nodup) (present : view.haveInputs tx = true)
    (real : ∀ out ∈ tx.vout, out.isNull = false) : ∃ updated, view.updateCoins tx nHeight = some updated := by
  rw [updateCoins]
  split
  next =>
    obtain ⟨after, added⟩ := addCoinsFrom_isSome tx nHeight 0 view real
    exact ⟨_, Option.map_eq_some_iff.mpr ⟨after, added, rfl⟩⟩
  next ordinary =>
    have inputs : ∀ txin ∈ tx.vin, view.haveCoin txin.prevout = true := by
      simpa [haveInputs, ordinary] using present
    obtain ⟨spent, spends⟩ := spendInputs_isSome view distinct inputs
    obtain ⟨after, added⟩ := addCoinsFrom_isSome tx nHeight 0 spent.2 real
    exact ⟨_, Option.bind_eq_some_iff.mpr ⟨spent, spends, Option.map_eq_some_iff.mpr ⟨after, added, rfl⟩⟩⟩

/-- What `UpdateCoins` does: the journal of the transaction. -/
structure Updates (view : CCoinsView) (tx : CTransaction) (nHeight : Nat) (vprevout : List Coin)
    (after : CCoinsView) : Prop where
  fits : Fits view.coins (txChanges tx nHeight vprevout)
  coins : after.coins = applyAll view.coins (txChanges tx nHeight vprevout)
  hashBlock : after.hashBlock = view.hashBlock
  /-- A coinbase spends nothing; the undo record of another transaction holds the coins of its inputs. -/
  undo : vprevout.map some = if tx.isCoinBase then [] else tx.vin.map fun txin => view.coins txin.prevout

theorem updateCoins_updates {view after : CCoinsView}
    (updated : view.updateCoins tx nHeight = some (vprevout, after)) : Updates view tx nHeight vprevout after := by
  unfold updateCoins at updated
  split at updated
  next coinbase =>
    obtain ⟨_, added, same⟩ := Option.map_eq_some_iff.mp updated
    cases same
    obtain ⟨coins, hash⟩ := addCoins_coins added
    have none : txChanges tx nHeight [] = additions (newCoins tx nHeight) := by simp [txChanges, spends]
    exact ⟨none ▸ fits_additions _ _, by rw [none, coins], hash, by simp [coinbase]⟩
  next notCoinbase =>
    obtain ⟨⟨_, middle⟩, spent, rest⟩ := Option.bind_eq_some_iff.mp updated
    obtain ⟨_, added, same⟩ := Option.map_eq_some_iff.mp rest
    cases same
    obtain ⟨undo, distinct, left, hash⟩ := spendInputs_spec spent
    obtain ⟨coins, addedHash⟩ := addCoins_coins added
    obtain ⟨fits, dropped⟩ := spends_spec undo distinct
    refine ⟨fits_append.mpr ⟨fits, fits_additions _ _⟩, ?_, addedHash.trans hash, ?_⟩
    · rw [coins, left, txChanges, applyAll_append, spends, dropped]
    · rw [if_neg notCoinbase, undo]

def spentBy (tx : CTransaction) : List COutPoint := if tx.isCoinBase then [] else tx.vin.map prevout

namespace Updates
variable {view after : CCoinsView}

section
variable (updates : Updates view tx nHeight vprevout after)
include updates

theorem coins_eq : after.coins = applyAll (without view.coins (spentBy tx)) (additions (newCoins tx nHeight)) := by
  have undo := updates.undo
  rw [updates.coins, txChanges, applyAll_append]
  congr 1
  have keys : ((tx.vin.map prevout).zip vprevout).map Prod.fst = spentBy tx := by
    unfold spentBy
    split at undo
    next coinbase => rw [map_eq_nil_iff.mp undo]; simp [coinbase]
    next ordinary =>
      have length := congrArg length undo
      simp only [length_map] at length
      rw [if_neg ordinary, map_fst_zip (by simp [length])]
  rw [spends_eq, applyAll_removals, keys]

variable {o : COutPoint}

theorem spentBy_found (spends : o ∈ spentBy tx) : ∃ coin, view.coins o = some coin := by
  have undo := updates.undo
  unfold spentBy at spends
  split at undo
  next coinbase => rw [if_pos coinbase] at spends; cases spends
  next ordinary =>
    rw [if_neg ordinary] at spends
    obtain ⟨txin, member, rfl⟩ := mem_map.mp spends
    have found := mem_map_of_mem (f := fun txin => view.coins txin.prevout) member
    rw [← undo] at found
    obtain ⟨coin, -, same⟩ := mem_map.mp found
    exact ⟨coin, same.symm⟩

theorem coins_other (foreign : o.hash ≠ tx.hash) : after.coins o = without view.coins (spentBy tx) o := by
  rw [updates.coins_eq]
  apply applyAll_additions_other
  intro inside
  obtain ⟨entry, added, rfl⟩ := mem_map.mp inside
  obtain ⟨n, out, -, -, rfl⟩ := mem_newCoins.mp added
  exact foreign rfl

theorem coins_new {n : Nat} {out : CTxOut}
    (found : tx.vout[n]? = some out) (spendable : isUnspendable out.scriptPubKey = false) :
    after.coins (tx.outpoint n) = some (coinOf tx nHeight out) := by
  rw [updates.coins_eq]
  exact applyAll_additions_mem (newCoins_nodup tx nHeight) (mem_newCoins.mpr ⟨n, out, found, spendable, rfl⟩)

theorem isSome_of_unspent (present : (view.coins o).isSome) (unspent : o ∉ spentBy tx) : (after.coins o).isSome := by
  rw [updates.coins_eq]
  by_cases inside : o ∈ (newCoins tx nHeight).map Prod.fst
  · obtain ⟨entry, added, rfl⟩ := mem_map.mp inside
    rw [applyAll_additions_mem (newCoins_nodup tx nHeight) added]
    rfl
  · rw [applyAll_additions_other inside, without, if_neg unspent]
    exact present

theorem coins_cases (found : after.coins o = some coin) :
    (o, coin) ∈ newCoins tx nHeight ∨ view.coins o = some coin ∧ o ∉ spentBy tx := by
  rw [updates.coins_eq] at found
  by_cases inside : o ∈ (newCoins tx nHeight).map Prod.fst
  · obtain ⟨entry, added, rfl⟩ := mem_map.mp inside
    rw [applyAll_additions_mem (newCoins_nodup tx nHeight) added] at found
    exact .inl (Option.some.inj found ▸ added)
  · rw [applyAll_additions_other inside, without] at found
    split at found
    · cases found
    next unspent => exact .inr ⟨found, unspent⟩

end

end Updates

end CCoinsView

end Cspn.Coins
