import Cspn.MnChain
import Cspn.Rotation

/-!
Payment of masternodes. The valid masternodes are a queue that waits since they were
last paid, revived or registered; every block serves the first. The heights a block
notes are its own, so whoever it touches goes to the end, and the projected payees are
paid in their order.
-/
namespace Cspn.Payees
open Primitives Coins Index MnState MnList MnBuild MnChange MnChain Validation Env List Rotation Overwrite MnDiff
  CDeterministicMNList
open CDeterministicMN

/-! ### The projection -/

variable (list : CDeterministicMNList)

def getValidMNsCount : Nat := list.mnMap.toList.countP fun entry => isMNValid entry.2

/-- No two masternodes compare equal, so any way of sorting gives this order. -/
def getProjectedMNPayees (nCount : Nat) : List CDeterministicMN :=
  let nCount := if nCount > getValidMNsCount list then getValidMNsCount list else nCount
  ((list.forEachMN true).insertionSort fun a b => ¬compareByLastPaid b a).take nCount

/-- The valid masternodes wait since the height they are compared by. -/
def queueOf : Queue Uint256 Int := fun p =>
  (list.mnMap[p]?).bind fun dmn => if isMNValid dmn then some (compareByLastPaidGetHeight dmn) else none

def isPayee (p : Uint256) : Bool :=
  decide ((getMNPayee list).map proTxHash = some p)

variable {h : Hashing} {list : CDeterministicMNList} {p : Uint256} {dmn a b : CDeterministicMN} {paid : Bool} {k : ℕ}

theorem queueOf_eq_some {height : Int} : queueOf list p = some height ↔
      ∃ dmn, list.mnMap[p]? = some dmn ∧ isMNValid dmn = true ∧ compareByLastPaidGetHeight dmn = height := by
  rw [queueOf, Option.bind_eq_some_iff]
  refine exists_congr fun dmn => and_congr_right fun _ => ?_
  split
  next valid => simp [valid]
  next banned => simp [banned]

theorem queueOf_member (indexed : Indexed h list) (member : dmn ∈ list.forEachMN true) :
    queueOf list dmn.proTxHash = some (compareByLastPaidGetHeight dmn) := by
  obtain ⟨⟨p, found⟩, valid⟩ := mem_forEachMN_true.mp member
  exact queueOf_eq_some.mpr ⟨dmn, indexed.keyed found ▸ found, valid, rfl⟩

theorem exists_member_of_queueOf (indexed : Indexed h list) (waits : (queueOf list p).isSome) :
    ∃ dmn ∈ list.forEachMN true, dmn.proTxHash = p := by
  obtain ⟨height, waits⟩ := Option.isSome_iff_exists.mp waits
  obtain ⟨dmn, found, valid, -⟩ := queueOf_eq_some.mp waits
  exact ⟨dmn, mem_forEachMN_true.mpr ⟨⟨p, found⟩, valid⟩, indexed.keyed found⟩

def place (dmn : CDeterministicMN) : Int ×ₗ Uint256 := toLex (compareByLastPaidGetHeight dmn, dmn.proTxHash)

theorem compareByLastPaid_iff : compareByLastPaid a b = true ↔ place a < place b := by
  rw [place, place, Prod.Lex.toLex_lt_toLex, compareByLastPaid]
  split
  next same => simp [same]
  next apart => simp [apart]

section
variable (indexed : Indexed h list) (memberA : a ∈ list.forEachMN true) (memberB : b ∈ list.forEachMN true)
include indexed memberA memberB

theorem ahead_of_place (order : place a < place b) : Ahead (queueOf list) a.proTxHash b.proTxHash :=
  ⟨_, _, queueOf_member indexed memberA, queueOf_member indexed memberB, order⟩

theorem eq_of_place (same : place a = place b) : a = b := by
  obtain ⟨⟨p, foundA⟩, -⟩ := mem_forEachMN_true.mp memberA
  obtain ⟨⟨q, foundB⟩, -⟩ := mem_forEachMN_true.mp memberB
  have key : a.proTxHash = b.proTxHash := congrArg (fun place => (ofLex place).2) same
  rw [indexed.keyed foundA, indexed.keyed foundB] at key
  subst key
  exact Option.some.inj (foundA.symm.trans foundB)

end

def keepBest (best : Option CDeterministicMN) (dmn : CDeterministicMN) : Option CDeterministicMN :=
  match best with
  | none => some dmn
  | some other => if compareByLastPaid dmn other then some dmn else some other

theorem keepBest_spec (best : Option CDeterministicMN) (dmn : CDeterministicMN) :
    ∃ winner, keepBest best dmn = some winner ∧ (winner = dmn ∨ best = some winner) ∧ place winner ≤ place dmn ∧
      ∀ other ∈ best, place winner ≤ place other := by
  cases best with
  | none => exact ⟨dmn, rfl, .inl rfl, le_rfl, by simp⟩
  | some other =>
    by_cases better : compareByLastPaid dmn other = true
    · refine ⟨dmn, if_pos better, .inl rfl, le_rfl, ?_⟩
      rintro _ ⟨⟩
      exact (compareByLastPaid_iff.mp better).le
    · refine ⟨other, if_neg better, .inr rfl, not_lt.mp (compareByLastPaid_iff.not.mp better), ?_⟩
      rintro _ ⟨⟩
      exact le_rfl

theorem foldl_keepBest (members : List CDeterministicMN) (best : Option CDeterministicMN)
    (some : best.isSome ∨ members ≠ []) :
    ∃ payee, members.foldl keepBest best = .some payee ∧ (payee ∈ members ∨ best = .some payee) ∧
      (∀ dmn ∈ members, place payee ≤ place dmn) ∧ ∀ other ∈ best, place payee ≤ place other := by
  induction members generalizing best with
  | nil =>
    obtain ⟨payee, rfl⟩ := Option.isSome_iff_exists.mp (some.resolve_right (by simp))
    exact ⟨payee, rfl, .inr rfl, by simp, by simp⟩
  | cons dmn rest ih =>
    obtain ⟨winner, step, source, first, others⟩ := keepBest_spec best dmn
    obtain ⟨payee, chosen, member, least, start⟩ := ih (keepBest best dmn) (.inl (by rw [step]; rfl))
    rw [step] at member start
    have leWinner := start winner rfl
    refine ⟨payee, chosen, ?_, forall_mem_cons.mpr ⟨leWinner.trans first, least⟩,
      fun other inBest => leWinner.trans (others other inBest)⟩
    rcases member with inRest | same
    · exact .inl (.tail _ inRest)
    · cases same
      rcases source with rfl | before
      · exact .inl (.head _)
      · exact .inr before

theorem pairwise_place (indexed : Indexed h list) :
    ((list.forEachMN true).insertionSort fun a b => ¬compareByLastPaid b a).Pairwise fun a b => place a < place b := by
  have sorted : ((list.forEachMN true).insertionSort fun a b => ¬compareByLastPaid b a).Pairwise
      fun a b => ¬compareByLastPaid b a := by
    refine @pairwise_insertionSort _ (fun a b => ¬compareByLastPaid b a) _ ⟨?_⟩ ⟨?_⟩ _
    · intro a b
      simp only [compareByLastPaid_iff, not_lt]
      exact le_total _ _
    · intro a b c
      simp only [compareByLastPaid_iff, not_lt]
      exact le_trans
  have distinct := (perm_insertionSort (fun a b => ¬compareByLastPaid b a) (list.forEachMN true)).nodup_iff.mpr
    indexed.forEachMN_nodup
  refine (sorted.and distinct).imp_of_mem ?_
  rintro a b inA inB ⟨le, apart⟩
  rw [compareByLastPaid_iff, not_lt] at le
  refine lt_of_le_of_ne le fun same => apart ?_
  exact eq_of_place indexed ((mem_insertionSort _).mp inA) ((mem_insertionSort _).mp inB) same

theorem projected_line (indexed : Indexed h list) (nCount : Nat) :
    Line (queueOf list) ((getProjectedMNPayees list nCount).map proTxHash) := by
  unfold getProjectedMNPayees
  generalize (if nCount > getValidMNsCount list then getValidMNsCount list else nCount) = count
  generalize order : ((list.forEachMN true).insertionSort fun a b => ¬compareByLastPaid b a) = members
  have placed : members.Pairwise fun a b => place a < place b := order ▸ pairwise_place indexed
  have inList : ∀ {dmn}, dmn ∈ members ↔ dmn ∈ list.forEachMN true := by
    intro dmn
    rw [← order]
    exact mem_insertionSort _
  have ahead : members.Pairwise fun a b => Ahead (queueOf list) a.proTxHash b.proTxHash := by
    refine placed.imp_of_mem ?_
    intro a b inA inB before
    exact ahead_of_place indexed (inList.mp inA) (inList.mp inB) before
  rw [← take_append_drop count members, pairwise_append] at ahead
  obtain ⟨taken, -, apart⟩ := ahead
  refine ⟨pairwise_map.mpr taken, ?_, ?_⟩
  · intro p member
    obtain ⟨dmn, inTaken, rfl⟩ := mem_map.mp member
    rw [queueOf_member indexed (inList.mp (mem_of_mem_take inTaken))]
    rfl
  · intro p q member outside waits
    obtain ⟨dmn, inTaken, rfl⟩ := mem_map.mp member
    obtain ⟨other, valid, rfl⟩ := exists_member_of_queueOf indexed waits
    refine apart dmn inTaken other ?_
    have somewhere := inList.mpr valid
    rw [← take_append_drop count members, mem_append] at somewhere
    exact somewhere.resolve_left fun inside => outside (mem_map_of_mem inside)

/-! ### Heights -/

/-- What a block does to the heights of a masternode; `first` is the state before the block or at the registration. -/
structure Aged (nHeight : Int) (paid : Bool) (first after : CDeterministicMNState) : Prop where
  registered : after.nRegisteredHeight = first.nRegisteredHeight
  lastPaid : after.nLastPaidHeight = if paid then nHeight else first.nLastPaidHeight
  revived : after.nPoSeRevivedHeight = nHeight ∨ after.nPoSeRevivedHeight = first.nPoSeRevivedHeight ∧
    (after.nPoSeBanHeight = first.nPoSeBanHeight ∨ after.nPoSeBanHeight = nHeight)

def Fresh (nHeight : Int) (first : CDeterministicMNState) : Prop :=
  first.nRegisteredHeight = nHeight ∧ first.nLastPaidHeight = 0 ∧ first.nPoSeRevivedHeight = -1

structure Heights (nHeight : Int) (state : CDeterministicMNState) : Prop where
  registered : state.nRegisteredHeight ≤ nHeight
  lastPaid : state.nLastPaidHeight ≤ nHeight
  revived : state.nPoSeRevivedHeight ≤ nHeight

section
variable {params : Params} {h : Hashing} {blocks : List CBlock} {tip next : MnTip} {block : CBlock} {env : BuildEnv}
  {confirmed spent : CDeterministicMNList} {first : CDeterministicMNState} {nHeight : Int}

theorem aged_of_step (spec : StepSpec params h tip block next env confirmed spent)
    (found : next.list.mnMap[p]? = some dmn) :
    ∃ first, Aged (tip.pindex.nHeight + 1) (isPayee tip.list p) first dmn.pdmnState ∧
      ((∃ old, tip.list.mnMap[p]? = some old ∧ first = old.pdmnState) ∨
        Fresh (tip.pindex.nHeight + 1) first) := by
  rw [spec.pays p] at found
  obtain ⟨dmn, before, rfl⟩ := Option.map_eq_some_iff.mp found
  obtain rfl := spec.middle.indexed.keyed before
  obtain ⟨first, -, keeps, origin⟩ := (spec.middle.member before).origin
  have aged : Aged (tip.pindex.nHeight + 1) (isPayee tip.list dmn.proTxHash) first.pdmnState
      (paidDmn tip.list (tip.pindex.nHeight + 1) dmn).pdmnState := by
    unfold paidDmn isPayee
    split
    next paid => exact ⟨keeps.registered, by simp [paid], keeps.revived⟩
    next unpaid => exact ⟨keeps.registered, by simp [unpaid, keeps.paid], keeps.revived⟩
  rcases origin with listed | ⟨tx, -, proTx, internalId, -, -, -, rfl⟩
  · rw [spec.confirms] at listed
    obtain ⟨old, found, rfl⟩ := Option.map_eq_some_iff.mp listed
    refine ⟨old.pdmnState, ?_, .inl ⟨old, found, rfl⟩⟩
    unfold confirmedDmn at aged
    split at aged
    · exact { aged with }
    · exact aged
  · exact ⟨_, aged, .inr ⟨rfl, rfl, rfl⟩⟩

theorem Aged.heights {after : CDeterministicMNState} (aged : Aged nHeight paid first after)
    (before : Heights nHeight first) : Heights nHeight after where
  registered := aged.registered ▸ before.registered
  lastPaid := by
    rw [aged.lastPaid]
    split
    · exact le_rfl
    · exact before.lastPaid
  revived := by
    rcases aged.revived with now | ⟨same, -⟩
    · exact now.le
    · exact same ▸ before.revived

theorem heights_of_chain (chain : IsMnChain params h blocks tip)
    (found : tip.list.mnMap[p]? = some dmn) : Heights tip.pindex.nHeight dmn.pdmnState := by
  induction chain generalizing p dmn with
  | genesis fields => simp [MnManager.CDeterministicMNManager.emptyList] at found
  | connect chain step ih =>
    obtain ⟨env, confirmed, spent, spec⟩ := step.spec chain.indexed
    rw [CBlockIndex.nHeight_pprev spec.pprev]
    push_cast
    obtain ⟨first, aged, ⟨old, listed, rfl⟩ | ⟨registered, lastPaid, revived⟩⟩ := aged_of_step spec found
    · obtain ⟨registered, lastPaid, revived⟩ := ih listed
      exact aged.heights ⟨by omega, by omega, by omega⟩
    · exact aged.heights ⟨by omega, by omega, by omega⟩

/-- A masternode that was paid, revived or registered in the block goes to the end. -/
theorem Aged.late
    (aged : Aged nHeight paid first dmn.pdmnState) (before : Heights (nHeight - 1) first ∨ Fresh nHeight first)
    (positive : 0 < nHeight)
    (touched : paid = true ∨ dmn.pdmnState.nPoSeRevivedHeight = nHeight ∨ Fresh nHeight first) :
    nHeight ≤ compareByLastPaidGetHeight dmn := by
  obtain ⟨registered, lastPaid, revived⟩ := aged
  unfold compareByLastPaidGetHeight
  rcases before with ⟨registered', lastPaid', revived'⟩ | ⟨registered', lastPaid', revived'⟩
  · rcases touched with rfl | now | ⟨new, -, -⟩
    · simp only [↓reduceIte] at lastPaid
      split_ifs <;> omega
    · split at lastPaid <;> split_ifs <;> omega
    · omega
  · split at lastPaid <;> split_ifs <;> omega

theorem serve_of_step (chain : IsMnChain params h blocks tip) (spec : StepSpec params h tip block next env confirmed spent)
    {payee : CDeterministicMN} (chosen : getMNPayee tip.list = some payee) :
    Serve (queueOf tip.list) payee.proTxHash (tip.pindex.nHeight + 1 : Int) (queueOf next.list) where
  past := by
    intro p height waits
    obtain ⟨dmn, found, -, rfl⟩ := queueOf_eq_some.mp waits
    obtain ⟨registered, lastPaid, revived⟩ := heights_of_chain chain found
    unfold compareByLastPaidGetHeight
    split_ifs <;> omega
  kept := by
    intro p height waits
    obtain ⟨dmn, found, valid, rfl⟩ := queueOf_eq_some.mp waits
    obtain ⟨first, aged, ⟨old, listed, rfl⟩ | fresh⟩ := aged_of_step spec found
    · have before := heights_of_chain chain listed
      have past : Heights (tip.pindex.nHeight + 1 - 1) old.pdmnState := by simpa using before
      by_cases touched : isPayee tip.list p = true ∨ dmn.pdmnState.nPoSeRevivedHeight = tip.pindex.nHeight + 1
      · exact .inr (aged.late (.inl past) (by omega) (touched.imp_right .inl))
      · -- neither paid nor revived, it is where it was
        obtain ⟨unpaid, unrevived⟩ := not_or.mp touched
        obtain ⟨same, ban⟩ := aged.revived.resolve_left unrevived
        have lastPaid := aged.lastPaid
        rw [if_neg unpaid] at lastPaid
        refine .inl ⟨?_, queueOf_eq_some.mpr ⟨old, listed, ?_, ?_⟩⟩
        · rintro rfl
          exact unpaid (by simp [isPayee, chosen])
        · simp only [isMNValid, isMNPoSeBanned, Bool.not_eq_true', decide_eq_false_iff_not, not_not] at valid ⊢
          omega
        · unfold compareByLastPaidGetHeight
          rw [same, lastPaid, aged.registered]
    · exact .inr (aged.late (.inr fresh) (by omega) (.inr (.inr fresh)))

/-! ### Runs -/

/-- The masternode is still listed and valid, and has been neither removed nor revived in between. -/
def Undisturbed (dmn : CDeterministicMN) (list : CDeterministicMNList) : Prop :=
  ∃ now, list.getMN dmn.proTxHash = some now ∧ isMNValid now = true ∧
    now.pdmnState.nRegisteredHeight = dmn.pdmnState.nRegisteredHeight ∧
    now.pdmnState.nPoSeRevivedHeight = dmn.pdmnState.nPoSeRevivedHeight

structure MnRun (params : Params) (h : Hashing) (n : ℕ) (t : ℕ → MnTip) : Prop where
  start : ∃ blocks, IsMnChain params h blocks (t 0)
  step : ∀ i < n, ∃ block, MnStep params h (t i) block (t (i + 1))

variable {t : ℕ → MnTip} {n : ℕ} {i : ℕ}

theorem MnRun.chain (run : MnRun params h n t) (le : i ≤ n) : ∃ blocks, IsMnChain params h blocks (t i) := by
  induction i with
  | zero => exact run.start
  | succ i ih =>
    obtain ⟨blocks, chain⟩ := ih (by omega)
    obtain ⟨block, step⟩ := run.step i (by omega)
    exact ⟨block :: blocks, .connect chain step⟩

theorem stay_of_step (chain : IsMnChain params h blocks tip) (spec : StepSpec params h tip block next env confirmed spent)
    (before : Undisturbed dmn tip.list) (after : Undisturbed dmn next.list)
    (unpaid : isPayee tip.list dmn.proTxHash = false) :
    queueOf next.list dmn.proTxHash = queueOf tip.list dmn.proTxHash := by
  obtain ⟨old, listed, valid, registered, revived⟩ := before
  obtain ⟨new, found, validNew, registeredNew, revivedNew⟩ := after
  have same : compareByLastPaidGetHeight new = compareByLastPaidGetHeight old := by
    obtain ⟨first, aged, ⟨old', listed', rfl⟩ | ⟨fresh, -, -⟩⟩ := aged_of_step spec found
    · cases listed.symm.trans listed'
      have lastPaid := aged.lastPaid
      rw [unpaid] at lastPaid
      unfold compareByLastPaidGetHeight
      rw [revivedNew, ← revived, lastPaid, aged.registered]
      rfl
    · have past := (heights_of_chain chain listed).registered
      have level := aged.registered
      omega
  rw [queueOf_eq_some.mpr ⟨old, listed, valid, rfl⟩]
  exact queueOf_eq_some.mpr ⟨new, found, validNew, same⟩

theorem length_getProjectedMNPayees (le : k ≤ getValidMNsCount list) : (getProjectedMNPayees list k).length = k := by
  have count : (list.forEachMN true).length = getValidMNsCount list := by
    simp [forEachMN, getValidMNsCount, countP_eq_length_filter, filter_map,
      Function.comp_def]
  simp [getProjectedMNPayees, count, Nat.not_lt.mpr le, le]

theorem waits_of_undisturbed (undisturbed : Undisturbed dmn list) : (queueOf list dmn.proTxHash).isSome := by
  obtain ⟨now, found, valid, -⟩ := undisturbed
  rw [queueOf_eq_some.mpr ⟨now, found, valid, rfl⟩]
  rfl

section
variable (run : MnRun params h n t)
include run

theorem MnRun.serve (lt : i < n) {payee : CDeterministicMN} (chosen : getMNPayee (t i).list = some payee) :
    Serve (queueOf (t i).list) payee.proTxHash ((t i).pindex.nHeight + 1 : Int) (queueOf (t (i + 1)).list) ∧
      ∀ dmn, Undisturbed dmn (t i).list → Undisturbed dmn (t (i + 1)).list → dmn.proTxHash ≠ payee.proTxHash →
        queueOf (t (i + 1)).list dmn.proTxHash = queueOf (t i).list dmn.proTxHash := by
  obtain ⟨blocks, chain⟩ := run.chain lt.le
  obtain ⟨block, step⟩ := run.step i lt
  obtain ⟨env, confirmed, spent, spec⟩ := step.spec chain.indexed
  refine ⟨serve_of_step chain spec chosen, fun dmn before after apart => stay_of_step chain spec before after ?_⟩
  simp [isPayee, chosen, Ne.symm apart]

theorem MnRun.payee (le : i ≤ n) (waits : (queueOf (t i).list p).isSome) :
    ∃ payee, getMNPayee (t i).list = some payee ∧ First (queueOf (t i).list) payee.proTxHash := by
  obtain ⟨blocks, chain⟩ := run.chain le
  obtain ⟨dmn, member, -⟩ := exists_member_of_queueOf chain.indexed waits
  obtain ⟨payee, chosen, inList, least, -⟩ := foldl_keepBest ((t i).list.forEachMN true) none
    (.inr (ne_nil_of_mem member))
  have inList := inList.resolve_right (by simp)
  refine ⟨payee, chosen, by rw [queueOf_member chain.indexed inList]; rfl, ?_⟩
  intro b other waits
  obtain ⟨dmn, waiting, rfl⟩ := exists_member_of_queueOf chain.indexed waits
  refine ahead_of_place chain.indexed inList waiting (lt_of_le_of_ne (least dmn waiting) ?_)
  intro same
  exact other (congrArg proTxHash (eq_of_place chain.indexed inList waiting same)).symm

theorem MnRun.projected_first (le : k ≤ n) (enough : k ≤ getValidMNsCount (t 0).list)
    (undisturbed : ∀ dmn ∈ getProjectedMNPayees (t 0).list k, ∀ i ≤ k, Undisturbed dmn (t i).list)
    (lt : i < (getProjectedMNPayees (t 0).list k).length) :
    First (queueOf (t i).list) (getProjectedMNPayees (t 0).list k)[i].proTxHash := by
  have length := length_getProjectedMNPayees enough
  obtain ⟨blocks, chain⟩ := run.start
  have steps : ∀ i < ((getProjectedMNPayees (t 0).list k).map proTxHash).length, ∀ a,
      First (queueOf (t i).list) a →
      Serve (queueOf (t i).list) a ((t i).pindex.nHeight + 1 : Int) (queueOf (t (i + 1)).list) ∧
        ∀ p ∈ (getProjectedMNPayees (t 0).list k).map proTxHash, p ≠ a →
          queueOf (t (i + 1)).list p = queueOf (t i).list p := by
    intro i lt a first
    rw [length_map, length] at lt
    obtain ⟨payee, chosen, isFirst⟩ := run.payee (by omega) first.waits
    obtain rfl := first.unique isFirst
    obtain ⟨serve, stay⟩ := run.serve (by omega) chosen
    refine ⟨serve, ?_⟩
    intro p member apart
    obtain ⟨dmn, projected, rfl⟩ := mem_map.mp member
    exact stay dmn (undisturbed dmn projected i (by omega)) (undisturbed dmn projected (i + 1) (by omega)) apart
  have first := (projected_line chain.indexed k).first_getElem (q := fun i => queueOf (t i).list) steps
    (by rw [length_map]; exact lt)
  rwa [getElem_map] at first

theorem MnRun.paid_between {j : ℕ} (order : i < j) (le : j ≤ n) (apart : b.proTxHash ≠ a.proTxHash)
    (start : (getMNPayee (t i).list).map proTxHash = some a.proTxHash)
    (stop : (getMNPayee (t j).list).map proTxHash = some a.proTxHash)
    (undisturbed : ∀ l, i ≤ l → l ≤ j → Undisturbed b (t l).list) :
    ∃ l, i < l ∧ l < j ∧ (getMNPayee (t l).list).map proTxHash = some b.proTxHash := by
  let served (l : ℕ) : Uint256 := ((getMNPayee (t l).list).map proTxHash).getD 0
  -- as long as `b` waits there is a payee
  have chosen : ∀ l, i ≤ l → l ≤ j → ∃ payee, getMNPayee (t l).list = some payee ∧ served l = payee.proTxHash ∧
      First (queueOf (t l).list) payee.proTxHash := by
    intro l above below
    obtain ⟨payee, chosen, first⟩ := run.payee (below.trans le) (waits_of_undisturbed (undisturbed l above below))
    exact ⟨payee, chosen, by simp [served, chosen], first⟩
  have first : ∀ l, i ≤ l → l ≤ j → First (queueOf (t l).list) (served l) := by
    intro l above below
    obtain ⟨payee, -, here, first⟩ := chosen l above below
    rw [here]
    exact first
  have steps : ∀ l, i ≤ l → l < j → Serve (queueOf (t l).list) (served l) ((t l).pindex.nHeight + 1 : Int)
      (queueOf (t (l + 1)).list) ∧ (b.proTxHash ≠ served l →
        queueOf (t (l + 1)).list b.proTxHash = queueOf (t l).list b.proTxHash) := by
    intro l above below
    obtain ⟨payee, chosen, here, -⟩ := chosen l above below.le
    obtain ⟨serve, stay⟩ := run.serve (below.trans_le le) chosen
    rw [here]
    exact ⟨serve, stay b (undisturbed l above below.le) (undisturbed (l + 1) (by omega) below)⟩
  obtain ⟨l, above, below, here⟩ := served_between (q := fun l => queueOf (t l).list) apart order first
    (waits_of_undisturbed (undisturbed i le_rfl order.le)) steps (by simp [served, start]) (by simp [served, stop])
  obtain ⟨payee, isPayee, served, -⟩ := chosen l above.le below.le
  exact ⟨l, above, below, by rw [isPayee, Option.map_some, ← served, here]⟩

end

end

end Cspn.Payees
