import Cspn.Format
import Cspn.NodeState

/-!
What a stake kernel proves: the weight of the staked coin, the bytes behind the hash that the duplicate test compares,
and what the checks read of the staked transaction before anything is known about it.
-/
namespace Cspn.StakeProof
open Primitives Index Env Kernel Format Growth NodeState Overwrite Stake

/-! ### The weight of a stake -/

/-- `nValueIn * nTimeWeight / COIN / 200`, in 64 bits, as it enters the target. -/
def bnCoinDayWeight (nValueIn : Int) (nTimeWeight : Nat) : Nat :=
  (Int.tdiv (Int.tdiv (wrap64 (nValueIn * nTimeWeight)) COIN) 200 % 2 ^ 64).toNat

/-- The weight without bounds. -/
def coinDayWeight (nValueIn nTimeWeight : Nat) : Nat := nValueIn * nTimeWeight / 100000000 / 200

def timeWeight (params : Params) (nTimeTx txPrevTime : Nat) : Nat :=
  min (nTimeTx - txPrevTime) (params.nStakeMaxAge - params.nStakeMinAge)

theorem kernelTarget_eq (ext : Externals) (nBits : Nat) (v : Int) (age : Nat) :
    kernelTarget ext nBits v age = bnCoinDayWeight v age * ext.setCompact nBits % 2 ^ 256 := rfl

theorem tdiv_days (x : Int) :
    Int.tdiv (Int.tdiv x COIN) 200 = if 0 ≤ x then x / 20000000000 else -(-x / 20000000000) := by
  have days : ∀ y, 0 ≤ y → Int.tdiv (Int.tdiv y COIN) 200 = y / 20000000000 := by
    intro y sign
    rw [Int.tdiv_eq_ediv_of_nonneg sign, Int.tdiv_eq_ediv_of_nonneg (Int.ediv_nonneg sign (by decide)),
      Int.ediv_ediv_of_nonneg (by decide)]
    rfl
  by_cases sign : 0 ≤ x
  · rw [if_pos sign, days x sign]
  · rw [if_neg sign, ← days (-x) (by omega), Int.neg_tdiv, Int.neg_tdiv, neg_neg]

theorem bnCoinDayWeight_exact_iff {v age : Nat} (money : (v : Int) ≤ MAX_MONEY) (old : age ≤ 82800) :
    bnCoinDayWeight v age = coinDayWeight v age ↔ v * age < 2 ^ 63 := by
  have bound : v * age ≤ 1337000000000000 * 82800 :=
    Nat.mul_le_mul (by simp only [MAX_MONEY, COIN] at money; omega) old
  unfold bnCoinDayWeight coinDayWeight wrap64
  rw [tdiv_days, ← Int.natCast_mul, Nat.div_div_eq_div_mul]
  generalize v * age = x at bound
  have wrapped := Int.bmod_add_bdiv x (2 ^ 64)
  have low := @Int.le_bmod x (2 ^ 64) (by decide)
  have high := @Int.bmod_lt x (2 ^ 64) (by decide)
  generalize Int.bmod x (2 ^ 64) = y at *
  generalize Int.bdiv x (2 ^ 64) = k at *
  by_cases sign : 0 ≤ y
  · rw [if_pos sign]
    omega
  · rw [if_neg sign]
    omega

theorem coinDayWeight_mono {v v' : Nat} (le : v' ≤ v) (age : Nat) : coinDayWeight v' age ≤ coinDayWeight v age :=
  Nat.div_le_div_right (Nat.div_le_div_right (Nat.mul_le_mul_right age le))

/-- The weight and the kernel test are exact, and no smaller stake would do better, as long as the products of value
    and age and of weight and target stay in their ranges. -/
theorem stake_weight_exact_iff (ext : Externals) (nBits : Nat) {v : Nat} (money : (v : Int) ≤ MAX_MONEY)
    (nTimeTx txPrevTime : Nat) : let age := timeWeight mainParams nTimeTx txPrevTime
    let product := coinDayWeight v age * ext.setCompact nBits
    (bnCoinDayWeight v age = coinDayWeight v age ∧
      (∀ hash, ¬ kernelTarget ext nBits v age < hash ↔ hash ≤ product) ∧
      ∀ v', v' ≤ v → kernelTarget ext nBits v' age ≤ kernelTarget ext nBits v age) ↔
    v * age < 2 ^ 63 ∧ product < 2 ^ 256 := by
  intro age product
  have old : age ≤ 82800 := Nat.min_le_right _ _
  constructor
  · rintro ⟨exact, accepts, -⟩
    refine ⟨(bnCoinDayWeight_exact_iff money old).mp exact, ?_⟩
    have reached := (accepts product).mpr le_rfl
    rw [kernelTarget_eq, exact] at reached
    have wrapped := Nat.mod_lt product (Nat.two_pow_pos 256)
    omega
  · rintro ⟨fits, small⟩
    have target : ∀ v', v' ≤ v → kernelTarget ext nBits v' age = coinDayWeight v' age * ext.setCompact nBits := by
      intro v' le
      have exact := (bnCoinDayWeight_exact_iff (by omega) old).mpr ((Nat.mul_le_mul_right age le).trans_lt fits)
      rw [kernelTarget_eq, exact,
        Nat.mod_eq_of_lt ((Nat.mul_le_mul_right _ (coinDayWeight_mono le age)).trans_lt small)]
    refine ⟨(bnCoinDayWeight_exact_iff money old).mpr fits, fun hash => ?_, fun v' le => ?_⟩
    · rw [target v le_rfl, Nat.not_lt]
    · rw [target v le_rfl, target v' le]
      exact Nat.mul_le_mul_right _ (coinDayWeight_mono le age)

theorem stake_weight_exact_minimum : ((150 * 10 ^ 8 : Nat) : Int) ≤ MAX_MONEY ∧
      bnCoinDayWeight (150 * 10 ^ 8 : Nat) 3600 = coinDayWeight (150 * 10 ^ 8) 3600 :=
  have money : ((150 * 10 ^ 8 : Nat) : Int) ≤ MAX_MONEY := by decide
  ⟨money, ((stake_weight_exact_iff (permissive 0) 1 money 3600 0).mpr (by decide)).1⟩

/-- A stake of a million coins passes at the smallest target; one of twice as much and a bit more has no weight. -/
theorem heavier_stake_fails : timeWeight mainParams 86400 0 = 82800 ∧ (222786764175237 : Int) ≤ MAX_MONEY ∧
      ¬ kernelTarget (permissive 0) 1 100000000000000 82800 < 414000000 ∧
      kernelTarget (permissive 0) 1 222786764175237 82800 < 414000000 := by
  decide +kernel

/-! ### The bytes behind the hash -/

/-- What is hashed: modifier, time of the staked block twice, output number and time of the stake. -/
def kernelBytes (nStakeModifier nTimeBlockFrom n nTimeTx : Nat) : List UInt8 :=
  leBytes 8 nStakeModifier ++ (leBytes 4 nTimeBlockFrom ++ (leBytes 8 nTimeBlockFrom ++ (leBytes 4 n ++ leBytes 4 nTimeTx)))

/-- A kernel that has passed, with fields in the ranges of their types. -/
structure PassedStake (params : Params) (ext : Externals) where
  g : Globals
  nBits : Nat
  pindexPrev : CBlockIndex
  pindexFrom : CBlockIndex
  txPrev : CTransaction
  prevout : COutPoint
  nTimeTx : Nat
  nStakeModifier : Nat
  hashProofOfStake : Uint256
  passed : checkStakeKernelHash params ext g nBits pindexPrev pindexFrom txPrev prevout nTimeTx = some hashProofOfStake
  selected : ∃ nHeight nTime, (getKernelStakeModifierV03 params.nModifierInterval g.mapBlockIndex g.chainActive pindexPrev
    pindexFrom.getBlockHash).outcome = .found nStakeModifier nHeight nTime
  inRange : nStakeModifier < 2 ^ 64 ∧ pindexFrom.getBlockTime < 2 ^ 32 ∧ prevout.n < 2 ^ 32 ∧ nTimeTx < 2 ^ 32

namespace PassedStake
variable {params : Params} {ext : Externals} (own earlier : PassedStake params ext)

def bytes : List UInt8 := kernelBytes own.nStakeModifier own.pindexFrom.getBlockTime own.prevout.n own.nTimeTx

theorem bytes_eq_iff : earlier.bytes = own.bytes ↔ earlier.nStakeModifier = own.nStakeModifier ∧
    earlier.pindexFrom.getBlockTime = own.pindexFrom.getBlockTime ∧ earlier.prevout.n = own.prevout.n ∧
      earlier.nTimeTx = own.nTimeTx := by
  constructor
  · intro same
    obtain ⟨modifier, time, n, nTimeTx⟩ := earlier.inRange
    obtain ⟨modifier', time', n', nTimeTx'⟩ := own.inRange
    obtain ⟨sameModifier, same⟩ := leBytes_append_inj modifier modifier' same
    obtain ⟨sameTime, same⟩ := leBytes_append_inj time time' same
    obtain ⟨-, same⟩ := leBytes_append_inj (by omega) (by omega) same
    obtain ⟨sameN, same⟩ := leBytes_append_inj n n' same
    rw [← List.append_nil (leBytes 4 _), ← List.append_nil (leBytes 4 own.nTimeTx)] at same
    exact ⟨sameModifier, sameTime, sameN, (leBytes_append_inj nTimeTx nTimeTx' same).1⟩
  · rintro ⟨modifier, time, n, nTimeTx⟩
    rw [bytes, modifier, time, n, nTimeTx, bytes]

theorem hash_eq {H : List UInt8 → Uint256} (hashes : ∀ m t n time, ext.stakeHash m t t n time = H (kernelBytes m t n time)) :
    own.hashProofOfStake = H own.bytes := by
  obtain ⟨_, _, _, found, is⟩ := checkStakeKernelHash_proof own.passed
  obtain ⟨_, _, selected⟩ := own.selected
  cases found.symm.trans selected
  rw [is, hashes, bytes]

/-- The duplicate test rejects real duplicates only, exactly if no kernel seen before with this modifier, block time,
    output number and time is one of another transaction: the id is not hashed. -/
theorem rejects_duplicates_iff (seen : List (PassedStake params ext)) :
    ((∀ earlier ∈ seen, earlier.bytes = own.bytes → earlier.prevout = own.prevout ∧ earlier.nTimeTx = own.nTimeTx) ∧
      ∀ H : List UInt8 → Uint256, H.Injective →
        (∀ m t n time, ext.stakeHash m t t n time = H (kernelBytes m t n time)) → ∀ g block pindexPrev,
        (∀ proof ∈ g.m_pos_index, ∃ earlier ∈ seen, earlier.hashProofOfStake = proof) →
        checkProofOfStake params ext g block pindexPrev = some own.hashProofOfStake →
        (ext.computeNextStakeModifier pindexPrev block.nTime).isSome →
        posContextualBlockChecks params ext g block pindexPrev = none →
        ∃ earlier ∈ seen, earlier.prevout = own.prevout ∧ earlier.nTimeTx = own.nTimeTx) ↔
    ∀ earlier ∈ seen, earlier.nStakeModifier = own.nStakeModifier →
      earlier.pindexFrom.getBlockTime = own.pindexFrom.getBlockTime → earlier.prevout.n = own.prevout.n →
      earlier.nTimeTx = own.nTimeTx → earlier.prevout.hash = own.prevout.hash := by
  constructor
  · intro real earlier member modifier time n nTimeTx
    have same := (bytes_eq_iff own earlier).mpr ⟨modifier, time, n, nTimeTx⟩
    rw [(real.1 earlier member same).1]
  · intro told
    have real : ∀ earlier ∈ seen, earlier.bytes = own.bytes →
        earlier.prevout = own.prevout ∧ earlier.nTimeTx = own.nTimeTx := by
      intro earlier member same
      obtain ⟨modifier, time, n, nTimeTx⟩ := (bytes_eq_iff own earlier).mp same
      have hash := told earlier member modifier time n nTimeTx
      exact ⟨show COutPoint.mk _ _ = ⟨_, _⟩ by rw [hash, n], nTimeTx⟩
    refine ⟨real, fun H injective hashes g block pindexPrev seenAll proved generated rejected => ?_⟩
    have known : own.hashProofOfStake ∈ g.m_pos_index := by
      by_contra new
      rw [posContextualBlockChecks, if_pos (checkProofOfStake_proof proved).1, proved, Option.bind_some,
        if_neg (fun both => new both.2), Option.map_eq_none_iff] at rejected
      rw [rejected] at generated
      cases generated
    obtain ⟨earlier, member, same⟩ := seenAll _ known
    rw [earlier.hash_eq hashes, own.hash_eq hashes] at same
    exact ⟨earlier, member, real earlier member (injective same)⟩

end PassedStake

/-- The first output of one transaction of a block or of the other, staked at one time. -/
def twinStake (other : Bool) : PassedStake mainParams (permissive 0) where
  g := { plainGlobals kernelTip (.empty 1) with mapBlockIndex := kernelMap }
  nBits := 1
  pindexPrev := kernelTip
  pindexFrom := kernelGenesis
  txPrev := { vin := [], vout := [⟨1, []⟩], hash := other.toNat }
  prevout := ⟨other.toNat, 0⟩
  nTimeTx := 5000
  nStakeModifier := 7
  hashProofOfStake := 0
  passed := by cases other <;> decide +kernel
  selected := ⟨2, 4000, by decide +kernel⟩
  inRange := ⟨by decide, by decide, Nat.two_pow_pos 32, by decide⟩

theorem twinStake_bytes : (twinStake false).bytes = (twinStake true).bytes ∧
    (twinStake false).prevout ≠ (twinStake true).prevout :=
  ⟨rfl, by decide⟩

/-! ### What the checks read -/

/-- Reads of what is not there, and the exception of a modifier walk that starts above its end. -/
inductive Fault where
  | missingTransaction | missingIndex | missingOutput | pastTmpChain | lengthError
deriving DecidableEq

namespace Reads
variable (params : Params) (ext : Externals) (g : Globals) (pindexPrev : CBlockIndex) (block : CBlock)

def fetch {A : Type} (fault : Fault) : Option A → Except Fault A
  | none => .error fault
  | some a => .ok a

def getLastHeight (txHash : Uint256) : Except Fault Nat :=
  (g.getTransaction txHash).elim (.ok 0) fun found =>
    if found.2 = 0 then .ok 0 else CBlockIndex.nHeight <$> fetch .missingIndex (g.mapBlockIndex.find found.2)

def TooShallow (nBlockFromHeight : Nat) : Prop :=
  params.nStakeEnforcement < pindexPrev.nHeight + 1 ∧
    (nBlockFromHeight = 0 ∨ (pindexPrev.nHeight : Int) + 1 - nBlockFromHeight < params.nMinStakeHistory)
deriving Decidable

def TooYoung (pindexFrom : CBlockIndex) (nTimeTx : Nat) : Prop :=
  nTimeTx < pindexFrom.getBlockTime ∨ nTimeTx < pindexFrom.getBlockTime + params.nStakeMinAge
deriving Decidable

def TooSmall (out : CTxOut) : Prop :=
  out.nValue < params.nMinStakeAmount ∧ params.nStakeEnforcement < pindexPrev.nHeight + 1
deriving Decidable

def walkFault (pindexFrom : CBlockIndex) : Option Fault :=
  let run := getKernelStakeModifierV03 params.nModifierInterval g.mapBlockIndex g.chainActive pindexPrev pindexFrom.getBlockHash
  if run.outOfRange then some .pastTmpChain else if run.outcome = .lengthError then some .lengthError else none

def checkStakeKernelHash (nBits : Nat) (pindexFrom : CBlockIndex) (txPrev : CTransaction) (prevout : COutPoint)
    (nTimeTx : Nat) : Except Fault (Option Uint256) := do
  if TooYoung params pindexFrom nTimeTx then return none
  let out ← fetch .missingOutput txPrev.vout[prevout.n]?
  if TooSmall params pindexPrev out then return none
  (walkFault params g pindexPrev pindexFrom).elim
    (.ok (Stake.checkStakeKernelHash params ext g nBits pindexPrev pindexFrom txPrev prevout nTimeTx)) .error

def checkProofOfStake : Except Fault (Option Uint256) := do
  let tx ← fetch .missingTransaction block.vtx[1]?
  if tx.isCoinStake = false then return none
  tx.vin.head?.elim (.ok none) fun txin =>
    (g.getTransaction txin.prevout.hash).elim (.ok none) fun (txPrev, hashBlock) => do
      let nBlockFromHeight ← getLastHeight g txin.prevout.hash
      if TooShallow params pindexPrev nBlockFromHeight then return none
      let pindexFrom ← fetch .missingIndex (g.mapBlockIndex.find hashBlock)
      let prevOut ← fetch .missingOutput txPrev.vout[txin.prevout.n]?
      if ext.verifyKernelScript tx prevOut = false then return none
      checkStakeKernelHash params ext g pindexPrev block.nBits pindexFrom txPrev txin.prevout block.nTime

def Returns {A : Type} (call : Except Fault A) : Prop := ∃ a, call = .ok a

section
variable {A B : Type}

theorem returns_bind {call : Except Fault A} {rest : A → Except Fault B} :
    Returns (call >>= rest) ↔ ∃ a, call = .ok a ∧ Returns (rest a) := by
  cases call with
  | error fault => simp [Returns, bind, Except.bind]
  | ok a => simp [bind, Except.bind]

theorem fetch_eq_ok {fault : Fault} {o : Option A} {a : A} : fetch fault o = .ok a ↔ o = some a := by
  cases o <;> simp [fetch]

theorem returns_unless {refused : Prop} [Decidable refused] {call : Except Fault (Option A)} :
    Returns (if refused then pure none else call) ↔ refused ∨ Returns call := by
  by_cases h : refused
  · simp [h, Returns, pure, Except.pure]
  · simp [h]

theorem returns_elim {o : Option B} {b : Option A} {rest : B → Except Fault (Option A)} :
    Returns (o.elim (.ok b) rest) ↔ ∀ found, o = some found → Returns (rest found) := by
  cases o <;> simp [Returns]

end

/-- The checks return exactly if the block has a second transaction and what they read of a coinstake is there: the
    staked output, in an indexed block, unless the depth is refused first, and the modifier, unless script, age or
    value are refused. -/
theorem checkProofOfStake_returns_iff : Returns (checkProofOfStake params ext g pindexPrev block) ↔
    ∃ tx, block.vtx[1]? = some tx ∧ (tx.isCoinStake = false ∨ ∀ txin, tx.vin.head? = some txin →
      ∀ found, g.getTransaction txin.prevout.hash = some found → ∃ nBlockFromHeight,
        (if found.2 = 0 then nBlockFromHeight = 0
          else ∃ pindex, g.mapBlockIndex.find found.2 = some pindex ∧ pindex.nHeight = nBlockFromHeight) ∧
        (TooShallow params pindexPrev nBlockFromHeight ∨
          ∃ pindexFrom, g.mapBlockIndex.find found.2 = some pindexFrom ∧ ∃ out, found.1.vout[txin.prevout.n]? = some out ∧
            (ext.verifyKernelScript tx out = false ∨ TooYoung params pindexFrom block.nTime ∨
              TooSmall params pindexPrev out ∨ walkFault params g pindexPrev pindexFrom = none))) := by
  simp only [checkProofOfStake, returns_bind, fetch_eq_ok, returns_unless, returns_elim]
  refine exists_congr fun tx => and_congr_right fun _ => or_congr_right ?_
  refine forall_congr' fun txin => forall_congr' fun _ => forall_congr' fun found => forall_congr' fun known => ?_
  refine exists_congr fun nBlockFromHeight => and_congr ?_ (or_congr_right ?_)
  · rw [getLastHeight, known, Option.elim_some]
    by_cases null : found.2 = 0
    · simp [null, eq_comm]
    · rw [if_neg null, if_neg null]
      exact Folds.map_eq_ok.trans (by simp [fetch_eq_ok])
  refine exists_congr fun pindexFrom => and_congr_right fun _ => exists_congr fun out => and_congr_right fun read => ?_
  refine or_congr_right ?_
  simp only [checkStakeKernelHash, returns_unless, returns_bind, fetch_eq_ok, read, Option.some.injEq, exists_eq_left']
  cases walkFault params g pindexPrev pindexFrom <;> simp [Returns]

end Reads

def numberedStake (n : Nat) : CBlock where
  nTime := 5000
  nBits := 1
  vtx := [{ vin := [], vout := [], hash := 1 }, { vin := [{ prevout := ⟨5, n⟩ }], vout := [⟨0, []⟩, ⟨1, []⟩], hash := 2 }]
  hash := 4

/-- The staked transaction has one output, and lies in the block `hashBlock` or in the mempool. -/
def checkNumbered (n : Nat) (hashBlock : Uint256) : Except Fault (Option Uint256) :=
  Reads.checkProofOfStake mainParams (permissive 0) { plainGlobals kernelTip (.empty 1) with
    mapBlockIndex := kernelMap
    getTransaction := fun _ => some ({ vin := [], vout := [⟨1, []⟩], hash := 5 }, hashBlock) } kernelTip (numberedStake n)

/-- An output number out of range is read past the end, and the block of a mempool transaction through null. -/
theorem checkNumbered_faults : (numberedStake 7).isProofOfStake = true ∧ checkNumbered 0 1 = .ok (some 0) ∧
    checkNumbered 7 1 = .error .missingOutput ∧ checkNumbered 0 0 = .error .missingIndex := by
  decide +kernel

end Cspn.StakeProof
