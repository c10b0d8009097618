import Cspn.Coins

/-!
The layers of the coins cache. A `CCoinsViewCache` holds copies of the coins of the view below it and its own changes,
with a flag for changes (`dirty`) and one for coins that the view below does not have (`fresh`). A stack of caches
behaves like a stack of plain maps.
-/
namespace Cspn.CoinsCache
open Primitives Coins List Option Function Bool

/-! ### The caches -/

structure CCoinsCacheEntry where
  coin : Coin
  dirty : Bool := false
  fresh : Bool := false
deriving DecidableEq

abbrev CCoinsMap := AList fun _ : COutPoint => CCoinsCacheEntry

/-- A cache without its base, which is the next view of the stack. -/
structure CCoinsViewCache where
  cacheCoins : CCoinsMap
  hashBlock : Uint256

/-- The view at the bottom: a map to unspent coins. -/
structure BaseView where
  coins : COutPoint → Option Coin
  hashBlock : Uint256
  unspent : ∀ {o coin}, coins o = some coin → coin.isSpent = false

def CCoinsViewCache.new : CCoinsViewCache := ⟨∅, 0⟩

/-- `FetchCoin` on the first cache, with the coin it finds or makes. The middle part is `GetCoin` of the view below.
    -/
def fetchCoin (base : BaseView) : List CCoinsViewCache → COutPoint → List CCoinsViewCache × Option Coin
  | [], outpoint => ([], base.coins outpoint)
  | cache :: below, outpoint =>
    match cache.cacheCoins.lookup outpoint with
    | some entry => (cache :: below, some entry.coin)
    | none =>
      let fetched := fetchCoin base below outpoint
      match fetched.2.filter fun coin => !coin.isSpent with
      | none => (cache :: fetched.1, none)
      | some tmp =>
        ({ cache with cacheCoins := cache.cacheCoins.insert outpoint { coin := tmp, fresh := tmp.isSpent } } :: fetched.1,
          some tmp)

variable (cacheCoins : CCoinsMap) (base : BaseView)

/-- One round of the loop of `CCoinsViewCache::BatchWrite`; `none` where it throws. -/
def batchWriteEntry (outpoint : COutPoint) (entry : CCoinsCacheEntry) : Option CCoinsMap :=
  if !entry.dirty then some cacheCoins
  else
    match cacheCoins.lookup outpoint with
    | none =>
      if entry.fresh && entry.coin.isSpent then some cacheCoins
      else some (cacheCoins.insert outpoint { coin := entry.coin, dirty := true, fresh := entry.fresh })
    | some us =>
      if entry.fresh && !us.coin.isSpent then none
      else if us.fresh && entry.coin.isSpent then some (cacheCoins.erase outpoint)
      else some (cacheCoins.insert outpoint { us with coin := entry.coin, dirty := true })

def CCoinsViewCache.batchWrite (cache : CCoinsViewCache) (mapCoins : CCoinsMap) (hashBlock : Uint256) :
    Option CCoinsViewCache :=
  (mapCoins.entries.foldlM (fun cacheCoins entry => batchWriteEntry cacheCoins entry.1 entry.2) cache.cacheCoins).map
    fun cacheCoins => { cacheCoins, hashBlock }

def BaseView.writeEntry (outpoint : COutPoint) (entry : CCoinsCacheEntry) : BaseView :=
  if entry.dirty then
    { base with
      coins := update base.coins outpoint (if entry.coin.isSpent then none else some entry.coin)
      unspent := by
        intro o coin found
        by_cases same : o = outpoint
        · rw [same, update_self] at found
          split at found
          · cases found
          next unspent => cases found; simpa using unspent
        · rw [update_of_ne same] at found
          exact base.unspent found }
  else base

def BaseView.batchWrite (mapCoins : CCoinsMap) (hashBlock : Uint256) : BaseView :=
  { mapCoins.entries.foldl (fun base entry => base.writeEntry entry.1 entry.2) base with hashBlock }

/-! ### Operations on the top of a stack -/

structure CacheStack where
  caches : List CCoinsViewCache
  base : BaseView

/-- The calls on the cache at the top; `create` puts a new cache on the stack and `destroy` drops one. -/
inductive Call where
  | getCoin (outpoint : COutPoint)
  | haveCoin (outpoint : COutPoint)
  | accessCoin (outpoint : COutPoint)
  | addCoin (outpoint : COutPoint) (coin : Coin) (potential_overwrite : Bool)
  | spendCoin (outpoint : COutPoint)
  | uncache (outpoint : COutPoint)
  | flush
  | setBestBlock (hashBlock : Uint256)
  | create
  | destroy

/-- What a call returns. `SpendCoin` returns whether there is an entry, and moves its coin out. -/
inductive Answer where
  | done
  | got (coin : Option Coin)
  | found (unspent : Bool)
  | accessed (coin : Coin)
  | spent (moveout : Option Coin)
deriving DecidableEq

section
variable (cacheCoins : CCoinsMap) (outpoint : COutPoint)

def addToCache (coin : Coin) (potential_overwrite : Bool) : Option CCoinsMap :=
  if coin.isSpent then none
  else if isUnspendable coin.out.scriptPubKey then some cacheCoins
  else
    let entry := (cacheCoins.lookup outpoint).getD { coin := coinEmpty }
    if !potential_overwrite && !entry.coin.isSpent then none
    else
      let fresh := !potential_overwrite && !entry.dirty
      some (cacheCoins.insert outpoint { coin, dirty := true, fresh := entry.fresh || fresh })

def spendInCache : CCoinsMap :=
  match cacheCoins.lookup outpoint with
  | none => cacheCoins
  | some entry =>
    if entry.fresh then cacheCoins.erase outpoint
    else cacheCoins.insert outpoint { entry with coin := coinEmpty, dirty := true }

def uncacheFrom : CCoinsMap :=
  match cacheCoins.lookup outpoint with
  | none => cacheCoins
  | some entry => if entry.dirty || entry.fresh then cacheCoins else cacheCoins.erase outpoint

end

def flushInto (cache : CCoinsViewCache) : List CCoinsViewCache → Option CacheStack
  | [] => some ⟨[{ cache with cacheCoins := ∅ }], base.batchWrite cache.cacheCoins cache.hashBlock⟩
  | parent :: below =>
    (parent.batchWrite cache.cacheCoins cache.hashBlock).map fun parent =>
      ⟨{ cache with cacheCoins := ∅ } :: parent :: below, base⟩

/-- A call on a stack; `none` where an assertion fails or a `logic_error` is thrown, or where there is no cache. -/
def call (stack : CacheStack) (c : Call) : Option (CacheStack × Answer) :=
  match stack.caches, c with
  | caches, .create => some (⟨.new :: caches, stack.base⟩, .done)
  | [], _ => none
  | _ :: below, .destroy => some (⟨below, stack.base⟩, .done)
  | cache :: below, .setBestBlock hashBlock => some (⟨{ cache with hashBlock } :: below, stack.base⟩, .done)
  | cache :: below, .getCoin outpoint =>
    let fetched := fetchCoin stack.base (cache :: below) outpoint
    some (⟨fetched.1, stack.base⟩, .got (fetched.2.filter fun coin => !coin.isSpent))
  | cache :: below, .haveCoin outpoint =>
    let fetched := fetchCoin stack.base (cache :: below) outpoint
    some (⟨fetched.1, stack.base⟩, .found (fetched.2.any fun coin => !coin.isSpent))
  | cache :: below, .accessCoin outpoint =>
    let fetched := fetchCoin stack.base (cache :: below) outpoint
    some (⟨fetched.1, stack.base⟩, .accessed (fetched.2.getD coinEmpty))
  | cache :: below, .addCoin outpoint coin potential_overwrite =>
    (addToCache cache.cacheCoins outpoint coin potential_overwrite).map fun cacheCoins =>
      (⟨{ cache with cacheCoins } :: below, stack.base⟩, .done)
  | cache :: below, .spendCoin outpoint =>
    let fetched := fetchCoin stack.base (cache :: below) outpoint
    match fetched.1 with
    | [] => none
    | top :: below =>
      some (⟨{ top with cacheCoins := spendInCache top.cacheCoins outpoint } :: below, stack.base⟩, .spent fetched.2)
  | cache :: below, .uncache outpoint =>
    some (⟨{ cache with cacheCoins := uncacheFrom cache.cacheCoins outpoint } :: below, stack.base⟩, .done)
  | cache :: below, .flush => (flushInto stack.base cache below).map fun stack => (stack, .done)

def callAll : CacheStack → List Call → Option (CacheStack × List Answer)
  | stack, [] => some (stack, [])
  | stack, c :: rest =>
    (call stack c).bind fun first => (callAll first.1 rest).map fun others => (others.1, first.2 :: others.2)

abbrev CoinMap := COutPoint → Option Coin

/-- What a call does to a stack of plain maps, the base last. `Flush` copies the map at the top over the next one. -/
def Call.apply : Call → List CoinMap → List CoinMap
  | .create, m :: below => m :: m :: below
  | .destroy, _ :: below => below
  | .addCoin outpoint coin _, m :: below =>
    if isUnspendable coin.out.scriptPubKey then m :: below else update m outpoint (some coin) :: below
  | .spendCoin outpoint, m :: below => update m outpoint none :: below
  | .flush, m :: _ :: below => m :: m :: below
  | _, maps => maps

/-- What a call returns on a plain map. A coin that is moved out spent is none. -/
def Call.Returns (m : CoinMap) : Call → Answer → Prop
  | .getCoin outpoint, answer => answer = .got (m outpoint)
  | .haveCoin outpoint, answer => answer = .found (m outpoint).isSome
  | .accessCoin outpoint, answer => answer = .accessed ((m outpoint).getD coinEmpty)
  | .spendCoin outpoint, answer => ∃ moveout, answer = .spent moveout ∧ moveout.filter (!·.isSpent) = m outpoint
  | _, answer => answer = .done

/-- The caller's part: an added coin is unspent, and without `potential_overwrite` it replaces none. -/
def Call.Allowed (m : CoinMap) : Call → Prop
  | .addCoin outpoint coin potential_overwrite =>
    coin.isSpent = false ∧ (potential_overwrite = false → m outpoint = none)
  | _ => True

/-- The calls of a run are allowed, and each but `create` finds a cache above the base. -/
def Allowed : List CoinMap → List Call → Prop
  | _, [] => True
  | maps, c :: rest =>
    (c = .create ∨ 2 ≤ maps.length) ∧ (∀ m ∈ maps.head?, c.Allowed m) ∧ Allowed (c.apply maps) rest

def Returns : List CoinMap → List Call → List Answer → Prop
  | _, [], answers => answers = []
  | maps, c :: rest, answers =>
    ∃ first others, answers = first :: others ∧ (∀ m ∈ maps.head?, c.Returns m first) ∧
      Returns (c.apply maps) rest others

/-! ### What a cache shows -/

def CCoinsCacheEntry.shown (entry : CCoinsCacheEntry) : Option Coin :=
  if entry.coin.isSpent then none else some entry.coin

def overlay (below : CoinMap) : CoinMap := fun outpoint =>
  match cacheCoins.lookup outpoint with
  | some entry => entry.shown
  | none => below outpoint

def view (base : BaseView) : List CCoinsViewCache → CoinMap
  | [] => base.coins
  | cache :: below => overlay cache.cacheCoins (view base below)

def views (base : BaseView) : List CCoinsViewCache → List CoinMap
  | [] => [base.coins]
  | cache :: below => overlay cache.cacheCoins (view base below) :: views base below

/-- What the flags of an entry promise about the coin below it. -/
structure CCoinsCacheEntry.Fits (entry : CCoinsCacheEntry) (below : Option Coin) : Prop where
  clean : entry.dirty = false → entry.shown = below
  fresh : entry.fresh = true → below = none
  cleared : entry.coin.isSpent = true → entry.coin = coinEmpty

def Consistent (below : CoinMap) : Prop :=
  ∀ outpoint entry, cacheCoins.lookup outpoint = some entry → entry.Fits (below outpoint)

def Sound (base : BaseView) : List CCoinsViewCache → Prop
  | [] => True
  | cache :: below => Consistent cache.cacheCoins (view base below) ∧ Sound base below

@[simp] theorem coinEmpty_isSpent : coinEmpty.isSpent = true := by decide

@[simp] theorem head?_views (caches : List CCoinsViewCache) :
    (views base caches).head? = some (view base caches) := by
  cases caches <;> rfl

variable {base : BaseView}
  {caches : List CCoinsViewCache} {entry : CCoinsCacheEntry} {cacheCoins : CCoinsMap} {below : CoinMap}
  {outpoint : COutPoint} {stack : CacheStack}

open CCoinsCacheEntry

theorem shown_of_unspent (unspent : entry.coin.isSpent = false) : entry.shown = some entry.coin := by
  simp [shown, unspent]

theorem shown_of_spent (spent : entry.coin.isSpent = true) : entry.shown = none := by
  simp [shown, spent]

theorem overlay_of_lookup (found : cacheCoins.lookup outpoint = some entry) :
    overlay cacheCoins below outpoint = entry.shown := by
  simp [overlay, found]

theorem overlay_of_missing (missing : cacheCoins.lookup outpoint = none) :
    overlay cacheCoins below outpoint = below outpoint := by
  simp [overlay, missing]

@[simp] theorem overlay_empty (below : CoinMap) : overlay ∅ below = below := rfl

theorem overlay_insert (cacheCoins : CCoinsMap) (below : CoinMap) (outpoint : COutPoint) (entry : CCoinsCacheEntry) :
    overlay (cacheCoins.insert outpoint entry) below = update (overlay cacheCoins below) outpoint entry.shown := by
  funext o
  by_cases same : o = outpoint
  · subst same
    simp [overlay]
  · rw [update_of_ne same]
    simp [overlay, AList.lookup_insert_ne same]

theorem overlay_erase (cacheCoins : CCoinsMap) (below : CoinMap) (outpoint : COutPoint) :
    overlay (cacheCoins.erase outpoint) below = update (overlay cacheCoins below) outpoint (below outpoint) := by
  funext o
  by_cases same : o = outpoint
  · subst same
    simp [overlay]
  · rw [update_of_ne same]
    simp [overlay, AList.lookup_erase_ne same]

theorem consistent_empty (below : CoinMap) : Consistent ∅ below := by
  intro outpoint entry found
  simp at found

theorem Consistent.insert (consistent : Consistent cacheCoins below) (fits : entry.Fits (below outpoint)) :
    Consistent (cacheCoins.insert outpoint entry) below := by
  intro o e found
  by_cases same : o = outpoint
  · subst same
    rw [AList.lookup_insert] at found
    cases found
    exact fits
  · rw [AList.lookup_insert_ne same] at found
    exact consistent o e found

theorem Consistent.erase (consistent : Consistent cacheCoins below) :
    Consistent (cacheCoins.erase outpoint) below := by
  intro o e found
  by_cases same : o = outpoint
  · subst same
    simp at found
  · rw [AList.lookup_erase_ne same] at found
    exact consistent o e found

/-- What `FetchCoin` does: it may copy coins up, which no view shows, and finds what the view at the top has. -/
structure Fetched (base : BaseView) (caches : List CCoinsViewCache) (outpoint : COutPoint)
    (after : List CCoinsViewCache) (coin : Option Coin) : Prop where
  sound : Sound base after
  views : views base after = views base caches
  shown : coin.filter (!·.isSpent) = view base caches outpoint
  cleared : ∀ c ∈ coin, c.isSpent = true → c = coinEmpty
  entry : ∀ top below, after = top :: below → (top.cacheCoins.lookup outpoint).map (·.coin) = coin

theorem fetchCoin_fetched (outpoint : COutPoint) (sound : Sound base caches) :
    Fetched base caches outpoint (fetchCoin base caches outpoint).1 (fetchCoin base caches outpoint).2 := by
  induction caches with
  | nil =>
    refine ⟨trivial, rfl, ?_, ?_, by simp [fetchCoin]⟩
    · cases found : base.coins outpoint with
      | none => simp [fetchCoin, view, found]
      | some coin => simp [fetchCoin, view, found, base.unspent found]
    · intro coin found spent
      simp [base.unspent found] at spent
  | cons cache below ih =>
    obtain ⟨consistent, soundBelow⟩ := sound
    cases found : cache.cacheCoins.lookup outpoint with
    | some entry =>
      have same : fetchCoin base (cache :: below) outpoint = (cache :: below, some entry.coin) := by
        simp [fetchCoin, found]
      rw [same]
      refine ⟨⟨consistent, soundBelow⟩, rfl, ?_, ?_, ?_⟩
      · rw [view, overlay_of_lookup found]
        by_cases spent : entry.coin.isSpent = true <;> simp [shown, spent, Option.filter]
      · rintro coin ⟨⟩ spent
        exact (consistent outpoint entry found).cleared spent
      · rintro top rest ⟨⟩
        simp [found]
    | none =>
      have fetched := ih soundBelow
      have belowSame := congrArg head? fetched.views
      simp only [head?_views, Option.some.injEq] at belowSame
      have missing : overlay cache.cacheCoins (view base below) outpoint = view base below outpoint :=
        overlay_of_missing found
      cases shown : view base below outpoint with
      | none =>
        have same : fetchCoin base (cache :: below) outpoint = (cache :: (fetchCoin base below outpoint).1, none) := by
          simp [fetchCoin, found, fetched.shown, shown]
        rw [same]
        refine ⟨⟨belowSame ▸ consistent, fetched.sound⟩, ?_, ?_, by simp, ?_⟩
        · rw [views, views, fetched.views, belowSame]
        · rw [view, missing, shown, filter_none]
        · rintro top rest ⟨⟩
          simp [found]
      | some tmp =>
        have unspent : tmp.isSpent = false := by
          have kept := fetched.shown.trans shown
          simpa using (filter_eq_some_iff.mp kept).2
        have same : fetchCoin base (cache :: below) outpoint =
            ({ cache with cacheCoins := cache.cacheCoins.insert outpoint { coin := tmp } } ::
              (fetchCoin base below outpoint).1, some tmp) := by
          simp [fetchCoin, found, fetched.shown, shown, unspent]
        have fits : Fits { coin := tmp } (view base below outpoint) :=
          ⟨fun _ => by rw [shown, shown_of_unspent unspent], by simp, by simp [unspent]⟩
        rw [same]
        refine ⟨⟨belowSame ▸ consistent.insert fits, fetched.sound⟩, ?_, ?_, ?_, ?_⟩
        · rw [views, views, fetched.views, belowSame, overlay_insert, shown_of_unspent unspent, ← shown, ← missing,
            update_eq_self]
        · rw [view, missing, shown]
          simp [unspent]
        · rintro coin ⟨⟩ spent
          simp [unspent] at spent
        · rintro top rest ⟨⟩
          simp

section
variable (consistent : Consistent cacheCoins below)
include consistent

theorem addToCache_spec {coin : Coin} {potential_overwrite : Bool} (unspent : coin.isSpent = false)
    (absent : potential_overwrite = false → overlay cacheCoins below outpoint = none) :
    ∃ after, addToCache cacheCoins outpoint coin potential_overwrite = some after ∧ Consistent after below ∧
      overlay after below = if isUnspendable coin.out.scriptPubKey then overlay cacheCoins below
        else update (overlay cacheCoins below) outpoint (some coin) := by
  by_cases lost : isUnspendable coin.out.scriptPubKey = true
  · exact ⟨cacheCoins, by simp [addToCache, unspent, lost], consistent, by simp [lost]⟩
  -- The entry that the new coin replaces, or an empty one.
  · generalize entryIs : (cacheCoins.lookup outpoint).getD { coin := coinEmpty } = entry
    have replaced : entry.fresh = true → below outpoint = none := by
      cases found : cacheCoins.lookup outpoint with
      | none => rw [found] at entryIs; subst entryIs; simp
      | some old => rw [found] at entryIs; subst entryIs; exact (consistent outpoint old found).fresh
    have spent : potential_overwrite = false →
        entry.coin.isSpent = true ∧ (entry.dirty = false → below outpoint = none) := by
      intro strict
      have none := absent strict
      cases found : cacheCoins.lookup outpoint with
      | none =>
        rw [overlay_of_missing found] at none
        rw [found] at entryIs
        subst entryIs
        exact ⟨coinEmpty_isSpent, fun _ => none⟩
      | some old =>
        rw [overlay_of_lookup found] at none
        rw [found] at entryIs
        subst entryIs
        refine ⟨?_, fun clean => (consistent outpoint old found).clean clean ▸ none⟩
        by_contra held
        simp [shown_of_unspent (by simpa using held)] at none
    refine ⟨cacheCoins.insert outpoint ⟨coin, true, entry.fresh || (!potential_overwrite && !entry.dirty)⟩, ?_,
      consistent.insert ⟨by simp, ?_, by simp [unspent]⟩, ?_⟩
    · cases potential_overwrite with
      | true => simp [addToCache, unspent, lost, entryIs]
      | false => simp [addToCache, unspent, lost, entryIs, (spent rfl).1]
    · intro fresh
      simp only [or_eq_true, and_eq_true, not_eq_true'] at fresh
      rcases fresh with fresh | ⟨strict, clean⟩
      · exact replaced fresh
      · exact (spent strict).2 clean
    · rw [overlay_insert, shown_of_unspent unspent]
      simp [lost]

theorem spendInCache_spec (fetched : cacheCoins.lookup outpoint = none → below outpoint = none) :
    Consistent (spendInCache cacheCoins outpoint) below ∧
      overlay (spendInCache cacheCoins outpoint) below = update (overlay cacheCoins below) outpoint none := by
  cases found : cacheCoins.lookup outpoint with
  | none =>
    have same : spendInCache cacheCoins outpoint = cacheCoins := by simp [spendInCache, found]
    have none : overlay cacheCoins below outpoint = none := (overlay_of_missing found).trans (fetched found)
    rw [same]
    exact ⟨consistent, by rw [← none, update_eq_self]⟩
  | some entry =>
    have fits := consistent outpoint entry found
    cases fresh : entry.fresh with
    | true =>
      have same : spendInCache cacheCoins outpoint = cacheCoins.erase outpoint := by simp [spendInCache, found, fresh]
      rw [same]
      exact ⟨consistent.erase, by rw [overlay_erase, fits.fresh fresh]⟩
    | false =>
      have same : spendInCache cacheCoins outpoint = cacheCoins.insert outpoint ⟨coinEmpty, true, false⟩ := by
        simp [spendInCache, found, fresh]
      rw [same]
      exact ⟨consistent.insert ⟨by simp, by simp, by simp⟩, by rw [overlay_insert, shown_of_spent (by simp)]⟩

theorem uncacheFrom_spec (outpoint : COutPoint) : Consistent (uncacheFrom cacheCoins outpoint) below ∧
      overlay (uncacheFrom cacheCoins outpoint) below = overlay cacheCoins below := by
  cases found : cacheCoins.lookup outpoint with
  | none => simp [uncacheFrom, found, consistent]
  | some entry =>
    by_cases flags : (entry.dirty || entry.fresh) = true
    · simp only [uncacheFrom, found, flags]
      exact ⟨consistent, rfl⟩
    · have clean : entry.dirty = false := by simp_all
      have same : uncacheFrom cacheCoins outpoint = cacheCoins.erase outpoint := by
        simp only [uncacheFrom, found, flags]
        rfl
      rw [same]
      refine ⟨consistent.erase, ?_⟩
      rw [overlay_erase, ← (consistent outpoint entry found).clean clean, ← overlay_of_lookup found, update_eq_self]

end

/-! ### Flushing -/

theorem batchWriteEntry_spec (consistent : Consistent cacheCoins below)
    (fits : entry.Fits (overlay cacheCoins below outpoint)) :
    ∃ after, batchWriteEntry cacheCoins outpoint entry = some after ∧ Consistent after below ∧
      overlay after below = update (overlay cacheCoins below) outpoint entry.shown := by
  cases dirty : entry.dirty with
  | false =>
    refine ⟨cacheCoins, by simp [batchWriteEntry, dirty], consistent, ?_⟩
    rw [fits.clean dirty, update_eq_self]
  | true =>
    cases found : cacheCoins.lookup outpoint with
    | none =>
      have missing : overlay cacheCoins below outpoint = below outpoint := overlay_of_missing found
      by_cases both : (entry.fresh && entry.coin.isSpent) = true
      · obtain ⟨fresh, spent⟩ := and_eq_true_iff.mp both
        refine ⟨cacheCoins, by simp [batchWriteEntry, found, fresh, spent], consistent, ?_⟩
        rw [shown_of_spent spent, ← fits.fresh fresh, update_eq_self]
      · refine ⟨cacheCoins.insert outpoint ⟨entry.coin, true, entry.fresh⟩,
          by simp only [batchWriteEntry, dirty, found, both]; rfl,
          consistent.insert ⟨by simp, fun fresh => missing ▸ fits.fresh fresh, fits.cleared⟩, ?_⟩
        rw [overlay_insert]
        rfl
    | some us =>
      have usFits := consistent outpoint us found
      have shown : overlay cacheCoins below outpoint = us.shown := overlay_of_lookup found
      have legal : (entry.fresh && !us.coin.isSpent) = false := by
        by_contra misapplied
        simp only [not_eq_false, and_eq_true, not_eq_true'] at misapplied
        have none := fits.fresh misapplied.1
        rw [shown, shown_of_unspent misapplied.2] at none
        cases none
      by_cases both : (us.fresh && entry.coin.isSpent) = true
      · obtain ⟨fresh, spent⟩ := and_eq_true_iff.mp both
        refine ⟨cacheCoins.erase outpoint, by simp only [batchWriteEntry, dirty, found, legal, both]; rfl,
          consistent.erase, ?_⟩
        rw [overlay_erase, usFits.fresh fresh, shown_of_spent spent]
      · refine ⟨cacheCoins.insert outpoint ⟨entry.coin, true, us.fresh⟩,
          by simp only [batchWriteEntry, dirty, found, legal, both]; rfl,
          consistent.insert ⟨by simp, usFits.fresh, fits.cleared⟩, ?_⟩
        rw [overlay_insert]
        rfl

abbrev Entries := List (Sigma fun _ : COutPoint => CCoinsCacheEntry)

def write (m : CoinMap) (entries : Entries) : CoinMap :=
  entries.foldl (fun m entry => update m entry.1 entry.2.shown) m

variable {entries : Entries}

theorem write_eq_over (m : CoinMap) (distinct : entries.NodupKeys) :
    write m entries = overlay ⟨entries, distinct⟩ m := by
  induction entries generalizing m with
  | nil => rfl
  | cons entry rest ih =>
    obtain ⟨outpoint, entry⟩ := entry
    obtain ⟨fresh, distinctRest⟩ := nodupKeys_cons.mp distinct
    refine (ih _ distinctRest).trans ?_
    funext o
    by_cases same : o = outpoint
    · subst same
      have missing : dlookup o rest = none := dlookup_eq_none.mpr fresh
      simp [overlay, AList.lookup, missing]
    · have later : dlookup o (⟨outpoint, entry⟩ :: rest) = dlookup o rest :=
        dlookup_cons_ne rest ⟨outpoint, entry⟩ same
      simp [overlay, AList.lookup, later, update_of_ne same]

def FitAll (m : CoinMap) (entries : Entries) : Prop := ∀ entry ∈ entries, entry.2.Fits (m entry.1)

theorem FitAll.tail {m : CoinMap} {entry : Sigma fun _ => CCoinsCacheEntry} {rest : Entries}
    (fits : FitAll m (entry :: rest)) (distinct : NodupKeys (entry :: rest)) :
    FitAll (update m entry.1 entry.2.shown) rest := by
  intro other later
  have apart : other.1 ≠ entry.1 := by
    intro same
    exact (nodupKeys_cons.mp distinct).1 (same ▸ mem_keys_of_mem later)
  rw [update_of_ne apart]
  exact fits other (.tail _ later)

section
variable (consistent : Consistent cacheCoins below)
include consistent

theorem Consistent.fitAll : FitAll below cacheCoins.entries :=
  fun entry inside => consistent entry.1 entry.2 (mem_dlookup cacheCoins.nodupKeys inside)

theorem batchWrite_fold_spec (distinct : entries.NodupKeys) (fits : FitAll (overlay cacheCoins below) entries) :
    ∃ after, entries.foldlM (fun cacheCoins entry => batchWriteEntry cacheCoins entry.1 entry.2) cacheCoins = some after ∧
      Consistent after below ∧ overlay after below = write (overlay cacheCoins below) entries := by
  induction entries generalizing cacheCoins with
  | nil => exact ⟨cacheCoins, rfl, consistent, rfl⟩
  | cons entry rest ih =>
    obtain ⟨middle, head, consistentMiddle, shown⟩ :=
      batchWriteEntry_spec consistent (fits entry (.head _))
    obtain ⟨after, tail, consistentAfter, written⟩ :=
      ih consistentMiddle (nodupKeys_cons.mp distinct).2 (shown ▸ fits.tail distinct)
    refine ⟨after, ?_, consistentAfter, ?_⟩
    · rw [foldlM_cons, head]
      exact tail
    · rw [written, shown]
      rfl

end

theorem writeEntry_coins (fits : entry.Fits (base.coins outpoint)) :
    (base.writeEntry outpoint entry).coins = update base.coins outpoint entry.shown := by
  cases dirty : entry.dirty with
  | true => simp [BaseView.writeEntry, dirty, shown]
  | false =>
    rw [fits.clean dirty, update_eq_self]
    simp [BaseView.writeEntry, dirty]

theorem writeEntries_coins (distinct : entries.NodupKeys) (fits : FitAll base.coins entries) :
    (entries.foldl (fun base entry => base.writeEntry entry.1 entry.2) base).coins = write base.coins entries := by
  induction entries generalizing base with
  | nil => rfl
  | cons entry rest ih =>
    have first := writeEntry_coins (fits entry (.head _))
    rw [foldl_cons, ih (nodupKeys_cons.mp distinct).2 (first ▸ fits.tail distinct), first]
    rfl

theorem flushInto_spec {cache : CCoinsViewCache} {below : List CCoinsViewCache}
    (consistent : Consistent cache.cacheCoins (view base below)) (sound : Sound base below) :
    ∃ stack, flushInto base cache below = some stack ∧ Sound stack.base stack.caches ∧
      views stack.base stack.caches = Call.flush.apply (views base (cache :: below)) := by
  cases below with
  | nil =>
    have written : (base.batchWrite cache.cacheCoins cache.hashBlock).coins = overlay cache.cacheCoins base.coins :=
      (writeEntries_coins cache.cacheCoins.nodupKeys consistent.fitAll).trans
        (write_eq_over _ cache.cacheCoins.nodupKeys)
    refine ⟨_, rfl, ⟨consistent_empty _, trivial⟩, ?_⟩
    simp [views, view, Call.apply, written]
  | cons parent rest =>
    obtain ⟨consistentParent, soundRest⟩ := sound
    obtain ⟨after, folded, consistentAfter, written⟩ :=
      batchWrite_fold_spec consistentParent cache.cacheCoins.nodupKeys consistent.fitAll
    rw [write_eq_over _ cache.cacheCoins.nodupKeys] at written
    refine ⟨⟨{ cache with cacheCoins := ∅ } :: ⟨after, cache.hashBlock⟩ :: rest, base⟩, ?_,
      ⟨consistent_empty _, consistentAfter, soundRest⟩, ?_⟩
    · simp [flushInto, CCoinsViewCache.batchWrite, folded]
    · simp [views, view, Call.apply, written]

/-- One call keeps the layers sound, changes the views as the plain maps, and returns what they return. -/
theorem call_refines {c : Call} (sound : Sound stack.base stack.caches)
    (cached : c = .create ∨ stack.caches ≠ []) (allowed : c.Allowed (view stack.base stack.caches)) :
    ∃ after answer, call stack c = some (after, answer) ∧ Sound after.base after.caches ∧
      views after.base after.caches = c.apply (views stack.base stack.caches) ∧
      c.Returns (view stack.base stack.caches) answer := by
  obtain ⟨caches, base⟩ := stack
  cases caches with
  | nil =>
    obtain rfl : c = .create := by simpa using cached
    exact ⟨⟨[.new], base⟩, .done, rfl, ⟨consistent_empty _, trivial⟩, rfl, rfl⟩
  | cons cache below =>
    have fetched := fun outpoint => fetchCoin_fetched outpoint sound
    obtain ⟨consistent, soundBelow⟩ := sound
    cases c with
    | create =>
      exact ⟨⟨.new :: cache :: below, base⟩, .done, rfl, ⟨consistent_empty _, consistent, soundBelow⟩, rfl, rfl⟩
    | destroy => exact ⟨⟨below, base⟩, .done, rfl, soundBelow, rfl, rfl⟩
    | setBestBlock hashBlock => exact ⟨_, .done, rfl, ⟨consistent, soundBelow⟩, rfl, rfl⟩
    | getCoin outpoint =>
      refine ⟨_, _, rfl, (fetched outpoint).sound, (fetched outpoint).views, ?_⟩
      exact congrArg Answer.got (fetched outpoint).shown
    | haveCoin outpoint =>
      refine ⟨_, _, rfl, (fetched outpoint).sound, (fetched outpoint).views, ?_⟩
      have shown := (fetched outpoint).shown
      simp [Call.Returns, ← shown]
    | accessCoin outpoint =>
      refine ⟨_, _, rfl, (fetched outpoint).sound, (fetched outpoint).views, ?_⟩
      have shown := (fetched outpoint).shown
      have cleared := (fetched outpoint).cleared
      simp only [Call.Returns, ← shown]
      cases found : (fetchCoin base (cache :: below) outpoint).2 with
      | none => rfl
      | some coin =>
        by_cases spent : coin.isSpent = true
        · simp [Option.filter, cleared coin found spent]
        · simp [Option.filter, spent]
    | addCoin outpoint coin potential_overwrite =>
      obtain ⟨after, added, consistentAfter, shown⟩ := addToCache_spec consistent allowed.1 allowed.2
      refine ⟨⟨{ cache with cacheCoins := after } :: below, base⟩, .done, by simp [call, added],
        ⟨consistentAfter, soundBelow⟩, ?_, rfl⟩
      simp only [views, Call.apply, shown]
      split <;> rfl
    | spendCoin outpoint =>
      obtain ⟨soundAfter, same, shown, -, entry⟩ := fetched outpoint
      cases after : (fetchCoin base (cache :: below) outpoint).1 with
      | nil => rw [after] at same; simp [views] at same; cases below <;> simp [views] at same
      | cons top rest =>
        rw [after] at soundAfter same
        simp only [views, cons.injEq] at same
        obtain ⟨consistentTop, soundRest⟩ := soundAfter
        have missing : top.cacheCoins.lookup outpoint = none → view base rest outpoint = none := by
          intro missing
          have none := entry top rest after
          rw [missing, map_none] at none
          rw [← none, view, ← same.1, overlay_of_missing missing] at shown
          exact shown.symm
        obtain ⟨consistentSpent, spent⟩ := spendInCache_spec consistentTop missing
        refine ⟨⟨{ top with cacheCoins := spendInCache top.cacheCoins outpoint } :: rest, base⟩, _,
          by simp [call, after], ⟨consistentSpent, soundRest⟩, ?_, _, rfl, shown⟩
        simp [views, Call.apply, spent, same.1, same.2]
    | uncache outpoint =>
      obtain ⟨consistentAfter, same⟩ := uncacheFrom_spec consistent outpoint
      refine ⟨⟨{ cache with cacheCoins := uncacheFrom cache.cacheCoins outpoint } :: below, base⟩, .done, rfl,
        ⟨consistentAfter, soundBelow⟩, ?_, rfl⟩
      simp [views, Call.apply, same]
    | flush =>
      obtain ⟨after, flushed, soundAfter, same⟩ := flushInto_spec consistent soundBelow
      exact ⟨after, .done, by simp [call, flushed], soundAfter, same, rfl⟩

theorem callAll_refines {calls : List Call} (sound : Sound stack.base stack.caches)
    (allowed : Allowed (views stack.base stack.caches) calls) :
    ∃ after answers, callAll stack calls = some (after, answers) ∧
      views after.base after.caches = calls.foldl (fun maps c => c.apply maps) (views stack.base stack.caches) ∧
      Returns (views stack.base stack.caches) calls answers := by
  induction calls generalizing stack with
  | nil => exact ⟨stack, [], rfl, rfl, rfl⟩
  | cons c rest ih =>
    obtain ⟨cached, allowedFirst, allowedRest⟩ := allowed
    have cached : c = .create ∨ stack.caches ≠ [] := by
      refine cached.imp_right fun long empty => ?_
      rw [empty] at long
      simp [views] at long
    obtain ⟨middle, first, called, soundMiddle, same, returns⟩ :=
      call_refines sound cached (allowedFirst _ (head?_views _ _))
    obtain ⟨after, others, calledRest, sameRest, returnsRest⟩ := ih soundMiddle (same ▸ allowedRest)
    refine ⟨after, first :: others, by simp [callAll, called, calledRest], ?_, first, others, rfl, ?_, same ▸ returnsRest⟩
    · rw [sameRest, same]
      rfl
    · intro m isHead
      rw [head?_views] at isHead
      cases isHead
      exact returns

/-- Every run of calls on a stack of caches over a map goes as on plain maps: no call throws, each returns what the
    map at the top has, and each layer shows its map. -/
theorem caches_refine_maps (base : BaseView) (calls : List Call) (allowed : Allowed [base.coins] calls) :
    ∃ after answers, callAll ⟨[], base⟩ calls = some (after, answers) ∧
      views after.base after.caches = calls.foldl (fun maps c => c.apply maps) [base.coins] ∧
      Returns [base.coins] calls answers := by
  have sound : Sound (CacheStack.mk [] base).base (CacheStack.mk [] base).caches := trivial
  exact callAll_refines sound allowed

private def paid : BaseView where
  coins := update (fun _ => none) ⟨1, 0⟩ (some ⟨⟨5, [0x51]⟩, 3, false, false⟩)
  hashBlock := 9
  unspent := by
    intro o coin found
    by_cases same : o = ⟨1, 0⟩
    · rw [same, update_self] at found
      cases found
      decide
    · rw [update_of_ne same] at found
      cases found

/-- Two caches: the upper one spends the coin of the map and adds one that replaces none, and is flushed and dropped;
    the lower one spends the new coin and is flushed. -/
theorem caches_refine_maps_paid : let calls : List Call :=
      [.create, .create, .spendCoin ⟨1, 0⟩, .addCoin ⟨2, 0⟩ ⟨⟨4, [0x51]⟩, 7, false, false⟩ false, .flush, .destroy,
        .haveCoin ⟨1, 0⟩, .spendCoin ⟨2, 0⟩, .setBestBlock 10, .flush, .haveCoin ⟨2, 0⟩]
    Allowed [paid.coins] calls ∧
      ∃ after answers, callAll ⟨[], paid⟩ calls = some (after, answers) ∧
        views after.base after.caches = calls.foldl (fun maps c => c.apply maps) [paid.coins] ∧
        Returns [paid.coins] calls answers := by
  intro calls
  have allowed : Allowed [paid.coins] calls := by
    simp [calls, Allowed, Call.Allowed, Call.apply]
    decide
  exact ⟨allowed, caches_refine_maps paid calls allowed⟩

/-- A coin with a script that starts with `OP_RETURN` is not found after `AddCoin`. -/
theorem addCoin_unspendable_lost :
    (callAll ⟨[], paid⟩ [.create, .addCoin ⟨2, 0⟩ ⟨⟨4, [0x6a]⟩, 7, false, false⟩ false, .haveCoin ⟨2, 0⟩]).map Prod.snd =
        some [.done, .done, .found false] ∧ Coin.isSpent ⟨⟨4, [0x6a]⟩, 7, false, false⟩ = false := by
  decide +kernel

end Cspn.CoinsCache
