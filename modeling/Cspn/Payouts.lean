import Cspn.Overwrite

/-!
What the outputs of an accepted block pay. The masternode check looks for each required output by itself, and the
superblock check for each payment from the place of the one before on, so equal payments may share an output.
-/
namespace Cspn.Payouts
open Primitives Index MnList Env Payments Growth List

variable (params : Params) (ext : Externals) (g : Globals) (nBlockHeight : Nat) (blockReward : Int)

/-! ### Masternode payments -/

/-- The outputs that `IsTransactionValid` looks for, where there is a payee. -/
def Required (payments : List CTxOut) : Prop :=
  params.nLastPoWBlock ≤ nBlockHeight ∧ ∃ pindex, g.chainActive.get (nBlockHeight - 1) = some pindex ∧
    getBlockTxOuts params ext g pindex nBlockHeight blockReward = some payments

variable {params ext g nBlockHeight blockReward} {payments vout : List CTxOut} {tx : CTransaction}

/-- Every payment, with repetitions, has an output of its own. -/
def PaidApart (payments vout : List CTxOut) : Prop :=
  ∃ place : Fin payments.length ↪ Fin vout.length, ∀ i, payments.get i = vout.get (place i)

theorem Required.valid_iff (required : Required params ext g nBlockHeight blockReward payments) :
    isTransactionValid params ext g tx nBlockHeight blockReward = some true ↔ payments ⊆ tx.vout := by
  obtain ⟨late, pindex, below, outs⟩ := required
  simp [isTransactionValid, Nat.not_lt.mpr late, below, outs, subset_def]

theorem paidApart_of_nodup (distinct : payments.Nodup) (paid : payments ⊆ vout) : PaidApart payments vout := by
  have place (i : Fin payments.length) : vout.idxOf (payments.get i) < vout.length :=
    idxOf_lt_length_of_mem (paid (get_mem ..))
  refine ⟨⟨fun i => ⟨_, place i⟩, fun i j same => ?_⟩, fun i => (idxOf_get (place i)).symm⟩
  exact distinct.injective_get ((idxOf_inj (idxOf_lt_length_iff.mp (place i))).mp (Fin.mk.inj same))

theorem isTransactionValid_paidApart_iff : (∀ tx payments, Required params ext g nBlockHeight blockReward payments →
      isTransactionValid params ext g tx nBlockHeight blockReward = some true → PaidApart payments tx.vout) ↔
    ∀ payments, Required params ext g nBlockHeight blockReward payments → payments.Nodup := by
  constructor
  · intro apart payments required
    -- An output for each distinct payment is enough to be accepted.
    obtain ⟨place, -⟩ := apart { vin := [], vout := payments.dedup, hash := 0 } payments required
      (required.valid_iff.mpr (subset_dedup payments))
    have long := Fintype.card_le_of_embedding place
    rw [Fintype.card_fin, Fintype.card_fin] at long
    rw [← (dedup_sublist payments).eq_of_length_le long]
    exact nodup_dedup payments
  · intro distinct tx payments required valid
    exact paidApart_of_nodup (distinct payments required) (required.valid_iff.mp valid)

def twinPayment : CTxOut := ⟨95000000, [OP_TRUE]⟩

/-- The operator gets half of the reward, by the script of the owner. -/
def twinPayee : CDeterministicMN :=
  ⟨1, 0, ⟨1, 0⟩, 5000, { scriptPayout := [OP_TRUE], scriptOperatorPayout := [OP_TRUE] }⟩

theorem isTransactionValid_twinPayment :
    let list : CDeterministicMNList := { mnMap := .ofList [(1, twinPayee)] }
    let g := { idle.globalsAt 1500 (.empty 1) with getListForBlock := fun _ => list }
    let ext := { permissive 0 with masternodeShare := fun value => value * 76 / 100 }
    let tx : CTransaction := { vin := [], vout := [twinPayment], hash := 0 }
    Required mainParams ext g 1501 250000000 [twinPayment, twinPayment] ∧
      isTransactionValid mainParams ext g tx 1501 250000000 = some true ∧
      ¬ PaidApart [twinPayment, twinPayment] tx.vout := by
  intro list g ext tx
  have below : g.chainActive.get 1500 = some (idle.indexAt 1500) := by
    simp only [g, Plan.globalsAt, CChain.get, Option.bind_some, idle.getAncestor_indexAt le_rfl]
  have required : Required mainParams ext g 1501 250000000 [twinPayment, twinPayment] := ⟨by decide, _, below, rfl⟩
  refine ⟨required, required.valid_iff.mpr (by simp [tx]), ?_⟩
  rintro ⟨place, -⟩
  simpa [tx] using Fintype.card_le_of_embedding place

/-! ### Superblock payments -/

def PaidInOrder (payments vout : List CTxOut) : Prop :=
  ∃ place : Fin payments.length ↪o Fin vout.length, ∀ i, payments.get i = vout.get (place i)

theorem paymentsFound_append (found : paymentsFound payments vout = true) (before : List CTxOut) :
    paymentsFound payments (before ++ vout) = true := by
  induction payments generalizing vout before with
  | nil => rfl
  | cons payment rest ih =>
    simp only [paymentsFound, Bool.and_eq_true] at found ⊢
    generalize (fun out => decide (out ≠ payment)) = differs at found ⊢
    rw [dropWhile_append]
    split
    · exact found
    · next some =>
      have later := ih found.2 (before.dropWhile differs ++ vout.takeWhile differs)
      rw [append_assoc, takeWhile_append_dropWhile] at later
      exact ⟨by simpa using fun none => absurd none (by simpa using some), later⟩

theorem paymentsFound_append_append (found : paymentsFound payments vout = true) (first : List CTxOut) :
    paymentsFound (first ++ payments) (first ++ vout) = true := by
  induction first with
  | nil => exact found
  | cons payment rest ih => simpa [paymentsFound] using paymentsFound_append ih [payment]

theorem sublist_of_paymentsFound (apart : payments.IsChain (· ≠ ·)) (found : paymentsFound payments vout = true) :
    payments <+ vout := by
  induction payments generalizing vout with
  | nil => exact nil_sublist vout
  | cons payment rest ih =>
    simp only [paymentsFound, Bool.and_eq_true] at found
    obtain ⟨some, later⟩ := found
    refine .trans ?_ (dropWhile_sublist fun out => decide (out ≠ payment))
    have stops := head?_dropWhile_not (fun out => decide (out ≠ payment)) vout
    cases tail : vout.dropWhile fun out => decide (out ≠ payment) with
    | nil =>
      rw [tail] at some
      cases some
    | cons out more =>
      rw [tail] at stops later
      obtain rfl : out = payment := by simpa using stops
      refine .cons_cons out (ih apart.tail ?_)
      -- The next payment is another one, so its search passes this output.
      cases rest with
      | nil => rfl
      | cons next others =>
        have differs : out ≠ next := (isChain_cons_cons.mp apart).1
        simpa [paymentsFound, differs] using later

theorem superblockIsValid_paidInOrder_iff {chainActive : CChain}
    (best : ext.getBestSuperblock nBlockHeight = some payments) :
    (∀ tx, superblockIsValid params ext chainActive tx nBlockHeight blockReward = true → PaidInOrder payments tx.vout) ↔
      (isValidBlockHeight params nBlockHeight = true → (payments.map CTxOut.nValue).sum ≤
        getPaymentsLimit params chainActive nBlockHeight → payments.IsChain (· ≠ ·)) := by
  simp only [superblockIsValid, best, Option.any_some, Bool.and_eq_true, decide_eq_true_eq]
  constructor
  · intro ordered height limit
    refine isChain_iff_forall_rel_of_append_cons_cons.mpr ?_
    rintro payment _ first rest rfl rfl
    -- One of the two is left out, and an output to another script makes up the number.
    let other : CTxOut := ⟨min 0 (payment.nValue + blockReward), 0 :: ((payment :: rest).getLast (by simp)).scriptPubKey⟩
    have found : paymentsFound (payment :: payment :: rest) (payment :: rest ++ [other]) = true := by
      have rest := paymentsFound_append_append (rfl : paymentsFound [] [other] = true) rest
      simpa [paymentsFound] using paymentsFound_append rest [payment]
    have paid := ordered { vin := [], vout := first ++ (payment :: rest ++ [other]), hash := 0 }
      ⟨⟨⟨⟨height, by simp⟩, limit⟩, by simp [CTransaction.valueOut, other]; omega⟩, paymentsFound_append_append found first⟩
    have equal := (sublist_iff_exists_fin_orderEmbedding_get_eq.mpr paid).eq_of_length (by simp)
    have last := congrArg getLast? (append_cancel_left equal)
    rw [getLast?_cons_cons, getLast?_append, getLast?_eq_some_getLast (by simp)] at last
    have script := congrArg (fun out : CTxOut => out.scriptPubKey.length) (Option.some.inj last)
    simp [other] at script
  · intro apart tx valid
    exact sublist_iff_exists_fin_orderEmbedding_get_eq.mp
      (sublist_of_paymentsFound (apart valid.1.1.1.1 valid.1.1.2) valid.2)

def budgetTip : CChain := supplyTip (3093000 * COIN)

def withBest (payments : List CTxOut) : Externals := { permissive 0 with getBestSuperblock := fun _ => some payments }

theorem superblockIsValid_paidInOrder_single : isValidBlockHeight mainParams 20571 = true ∧
    ∀ tx, superblockIsValid mainParams (withBest [twinPayment]) budgetTip tx 20571 0 = true →
      PaidInOrder [twinPayment] tx.vout :=
  ⟨by decide, (superblockIsValid_paidInOrder_iff rfl).mpr fun _ _ => by decide⟩

theorem superblockIsValid_twinPayment :
    let tx : CTransaction := { vin := [], vout := [twinPayment, ⟨0, []⟩], hash := 0 }
    superblockIsValid mainParams (withBest [twinPayment, twinPayment]) budgetTip tx 20571 0 = true ∧
      ¬ PaidInOrder [twinPayment, twinPayment] tx.vout :=
  ⟨by decide, fun paid => absurd (sublist_iff_exists_fin_orderEmbedding_get_eq.mpr paid) (by decide)⟩

end Cspn.Payouts
