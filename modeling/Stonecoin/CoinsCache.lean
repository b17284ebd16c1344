/-
The coin views of `coins.h`, `coins.cpp` and `txdb.cpp`: a database at the bottom and
any number of `CCoinsViewCache` layers over it, each with its map of entries flagged
DIRTY and FRESH.

`CCoinsView.coinsAt` is what a view shows for a transaction id, with pruned coins
counted as absent.  The flags mean what the source says about them (`EntryOK`): an
entry that is not DIRTY agrees with the parent view, and a FRESH entry has no coins in
the parent view.  A view is `Coherent` when every entry of every layer is so.

One specification lemma per operation:
-/
import Stonecoin.Coins
import Stonecoin.MapMerge

namespace Stonecoin

open MapMerge

/-! ### Views -/

/-- Coins as views store them.  The modifier cleans up what it releases and the
database cleans up what it reads, so no view holds other coins. -/
abbrev CleanCoins := {c : CCoins // c.Clean}

def CCoins.cleaned (c : CCoins) : CleanCoins := ⟨c.cleanup, c.cleanup_clean⟩

def CleanCoins.empty : CleanCoins := ⟨.empty, CCoins.empty_clean⟩

structure CCoinsCacheEntry where
  coins : CleanCoins
  dirty : Bool
  fresh : Bool
deriving DecidableEq

abbrev CCoinsMap := AList fun _ : UInt256 => CCoinsCacheEntry

structure CCoinsViewDB where
  coins : UInt256 → Option CleanCoins
  hashBlock : UInt256

/-- A coin view: the database, or a cache backed by another view. -/
inductive CCoinsView where
  | db (d : CCoinsViewDB)
  | cache (base : CCoinsView) (hashBlock : UInt256) (cacheCoins : CCoinsMap)

structure CCoinsViewCache where
  base : CCoinsView
  hashBlock : UInt256
  cacheCoins : CCoinsMap

def CCoinsViewCache.toView (v : CCoinsViewCache) : CCoinsView :=
  .cache v.base v.hashBlock v.cacheCoins

def CCoinsViewCache.new (base : CCoinsView) : CCoinsViewCache := ⟨base, 0, ∅⟩

/-! ### Lookups -/

/-- The entry `FetchCoins` inserts for coins found in the base: FRESH when the base has
only pruned coins. -/
def CCoinsCacheEntry.fetched (tmp : CleanCoins) : CCoinsCacheEntry :=
  ⟨tmp, false, tmp.1.isPruned⟩

/-- `GetCoins`, virtual: the coins found and the view with what it cached on the way. -/
def CCoinsView.getCoins (txid : UInt256) : CCoinsView → Option CleanCoins × CCoinsView
  | .db d => (d.coins txid, .db d)
  | .cache base h m =>
    match m.lookup txid with
    | some e => (some e.coins, .cache base h m)
    | none =>
      match base.getCoins txid with
      | (none, base') => (none, .cache base' h m)
      | (some tmp, base') => (some tmp, .cache base' h (m.insert txid (.fetched tmp)))

/-- `GetBestBlock`, virtual; a cache remembers the answer of its base. -/
def CCoinsView.getBestBlock : CCoinsView → UInt256 × CCoinsView
  | .db d => (d.hashBlock, .db d)
  | .cache base h m =>
    if h = 0 then
      let (h', base') := base.getBestBlock
      (h', .cache base' h' m)
    else (h, .cache base h m)

namespace CCoinsViewCache

variable (v : CCoinsViewCache) (txid : UInt256)

def fetchCoins : Option CCoinsCacheEntry × CCoinsViewCache :=
  match v.cacheCoins.lookup txid with
  | some e => (some e, v)
  | none =>
    match v.base.getCoins txid with
    | (none, base') => (none, { v with base := base' })
    | (some tmp, base') =>
      (some (.fetched tmp),
        { v with base := base', cacheCoins := v.cacheCoins.insert txid (.fetched tmp) })

/-- `CCoinsViewCache::GetCoins`, and `AccessCoins`, which returns a pointer to the
same coins. -/
def accessCoins : Option CleanCoins × CCoinsViewCache :=
  match v.fetchCoins txid with
  | (r, v') => (r.map CCoinsCacheEntry.coins, v')

/-- `CCoinsViewCache::HaveCoins`, which tests `vout.empty()` instead of `IsPruned`. -/
def haveCoins : Bool × CCoinsViewCache :=
  match v.fetchCoins txid with
  | (none, v') => (false, v')
  | (some e, v') => (!e.coins.1.vout.isEmpty, v')

def getBestBlock : UInt256 × CCoinsViewCache :=
  if v.hashBlock = 0 then
    let (h, base') := v.base.getBestBlock
    (h, { v with base := base', hashBlock := h })
  else (v.hashBlock, v)

def setBestBlock (hashBlock : UInt256) : CCoinsViewCache := { v with hashBlock := hashBlock }

end CCoinsViewCache

/-! ### Modifications -/

/-- `class CCoinsModifier`: the entry under modification and the cache it belongs to. -/
structure CCoinsModifier where
  cache : CCoinsViewCache
  txid : UInt256
  entry : CCoinsCacheEntry

/-- `~CCoinsModifier`, for the coins the holder leaves in the entry: they are cleaned
up, and a FRESH entry that became pruned is erased. -/
def CCoinsModifier.release (m : CCoinsModifier) (coins : CCoins) : CCoinsViewCache :=
  let m' := m.cache.cacheCoins
  if m.entry.fresh && coins.cleaned.1.isPruned then
    { m.cache with cacheCoins := m'.erase m.txid }
  else { m.cache with cacheCoins := m'.insert m.txid { m.entry with coins := coins.cleaned } }

/-- The entry `ModifyCoins` creates from what the base answers. -/
def CCoinsCacheEntry.borrowed : Option CleanCoins → CCoinsCacheEntry
  | none => ⟨.empty, true, true⟩
  | some c => ⟨c, true, c.1.isPruned⟩

def CCoinsViewCache.modifyCoins (v : CCoinsViewCache) (txid : UInt256) : CCoinsModifier :=
  match v.cacheCoins.lookup txid with
  | some e => ⟨v, txid, { e with dirty := true }⟩
  | none =>
    let (r, base') := v.base.getCoins txid
    ⟨{ v with base := base' }, txid, .borrowed r⟩

def CCoinsViewCache.modifyNewCoins (v : CCoinsViewCache) (txid : UInt256) : CCoinsModifier :=
  ⟨v, txid, ⟨.empty, true, true⟩⟩

/-! ### Writing back -/

/-- One entry in `CCoinsViewCache::BatchWrite`, given what the parent cache holds. -/
def cacheMerge (us : Option CCoinsCacheEntry) (e : CCoinsCacheEntry) : Option CCoinsCacheEntry :=
  if e.dirty then
    match us with
    | none => if e.fresh && e.coins.1.isPruned then none else some ⟨e.coins, true, e.fresh⟩
    | some u => if u.fresh && e.coins.1.isPruned then none else some ⟨e.coins, true, u.fresh⟩
  else us

def dbMerge (us : Option CleanCoins) (e : CCoinsCacheEntry) : Option CleanCoins :=
  if e.dirty then
    if e.coins.1.isPruned then none else some e.coins
  else us

def CCoinsView.batchWrite (mapCoins : CCoinsMap) (hashBlock : UInt256) : CCoinsView → CCoinsView
  | .db d =>
    .db { coins := mergeAll funOps dbMerge d.coins mapCoins.entries
          hashBlock := if hashBlock = 0 then d.hashBlock else hashBlock }
  | .cache base _ m => .cache base hashBlock (mergeAll alistOps cacheMerge m mapCoins.entries)

def CCoinsViewCache.flush (v : CCoinsViewCache) : CCoinsViewCache :=
  { v with base := v.base.batchWrite v.cacheCoins v.hashBlock, cacheCoins := ∅ }

def CCoinsViewCache.uncache (v : CCoinsViewCache) (txid : UInt256) : CCoinsViewCache :=
  match v.cacheCoins.lookup txid with
  | some e => if !e.dirty && !e.fresh then { v with cacheCoins := v.cacheCoins.erase txid } else v
  | none => v

/-! ### What a view shows -/

/-- The coins a lookup answers, pruned counted as absent. -/
def shownCoins : Option CleanCoins → CCoins
  | none => .empty
  | some c => c.1.norm

/-- What an entry shows, or the parent where there is none. -/
def shownOver (p : CCoins) : Option CCoinsCacheEntry → CCoins
  | none => p
  | some e => e.coins.1.norm

/-- What the view shows for a transaction id. -/
def CCoinsView.coinsAt : CCoinsView → UInt256 → CCoins
  | .db d, t => shownCoins (d.coins t)
  | .cache base _ m, t => shownOver (base.coinsAt t) (m.lookup t)

/-- What the view and every view below it show, from the top. -/
def CCoinsView.maps : CCoinsView → List (UInt256 → CCoins)
  | .db d => [(CCoinsView.db d).coinsAt]
  | .cache base h m => (CCoinsView.cache base h m).coinsAt :: base.maps

/-- The meaning of the flags of an entry over a parent that shows `p`. -/
structure EntryOK (p : CCoins) (e : CCoinsCacheEntry) : Prop where
  clean : e.dirty = false → e.coins.1.norm = p
  fresh : e.fresh = true → p = .empty

/-- Every entry of a cache over a parent that shows `p` is flagged as its meaning
demands. -/
def EntriesOK (p : UInt256 → CCoins) (m : CCoinsMap) : Prop :=
  ∀ t e, m.lookup t = some e → EntryOK (p t) e

/-- Every entry of every layer is. -/
def CCoinsView.Coherent : CCoinsView → Prop
  | .db _ => True
  | .cache base _ m => EntriesOK base.coinsAt m ∧ base.Coherent

theorem coinsAt_cache (base : CCoinsView) (h : UInt256) (m : CCoinsMap) (t : UInt256) :
    (CCoinsView.cache base h m).coinsAt t = shownOver (base.coinsAt t) (m.lookup t) := rfl

theorem maps_cache (base : CCoinsView) (h : UInt256) (m : CCoinsMap) :
    (CCoinsView.cache base h m).maps = (CCoinsView.cache base h m).coinsAt :: base.maps := rfl

theorem maps_eq_cons (v : CCoinsView) : v.maps = v.coinsAt :: v.maps.tail := by
  cases v <;> rfl

@[simp] theorem shownOver_none (p : CCoins) : shownOver p none = p := rfl

@[simp] theorem shownOver_some (p : CCoins) (e : CCoinsCacheEntry) :
    shownOver p (some e) = e.coins.1.norm := rfl

@[simp] theorem coinsAt_norm (v : CCoinsView) (t : UInt256) : (v.coinsAt t).norm = v.coinsAt t := by
  induction v with
  | db d =>
    simp only [CCoinsView.coinsAt]
    cases d.coins t <;> simp [shownCoins]
  | cache base h m ih =>
    simp only [CCoinsView.coinsAt]
    cases m.lookup t <;> simp [ih]

theorem new_coinsAt (base : CCoinsView) (t : UInt256) :
    (CCoinsViewCache.new base).toView.coinsAt t = base.coinsAt t := rfl

theorem EntriesOK.empty (p : UInt256 → CCoins) : EntriesOK p ∅ := fun t e he => by simp at he

theorem EntriesOK.insert {p : UInt256 → CCoins} {m : CCoinsMap} (hm : EntriesOK p m)
    {t : UInt256} {e : CCoinsCacheEntry} (he : EntryOK (p t) e) : EntriesOK p (m.insert t e) := by
  intro s e' hs
  by_cases h : s = t
  · subst h
    rw [AList.lookup_insert] at hs
    cases hs
    exact he
  · rw [AList.lookup_insert_ne h] at hs
    exact hm s e' hs

theorem EntriesOK.erase {p : UInt256 → CCoins} {m : CCoinsMap} (hm : EntriesOK p m)
    (t : UInt256) : EntriesOK p (m.erase t) := by
  intro s e' hs
  by_cases h : s = t
  · subst h
    simp at hs
  · rw [AList.lookup_erase_ne h] at hs
    exact hm s e' hs

theorem new_coherent {base : CCoinsView} (h : base.Coherent) :
    (CCoinsViewCache.new base).toView.Coherent :=
  ⟨.empty _, h⟩

/-! ### Lookups change nothing -/

/-- What fetching leaves behind: every view shows the same coins and the flags keep
their meaning. -/
structure Keeps (v v' : CCoinsView) : Prop where
  coherent : v'.Coherent
  maps_eq : v'.maps = v.maps

theorem Keeps.shows_eq {v v' : CCoinsView} (hk : Keeps v v') : v'.coinsAt = v.coinsAt := by
  have h := hk.maps_eq
  rw [maps_eq_cons v', maps_eq_cons v] at h
  exact (List.cons.inj h).1

theorem EntryOK.fetched (tmp : CleanCoins) : EntryOK tmp.1.norm (.fetched tmp) :=
  ⟨fun _ => rfl, fun h => CCoins.norm_eq_empty_iff.mpr h⟩

theorem Keeps.layer {base base' : CCoinsView} (hk : Keeps base base') {h : UInt256}
    {m : CCoinsMap} (hm : EntriesOK base.coinsAt m) :
    Keeps (.cache base h m) (.cache base' h m) := by
  refine ⟨⟨hk.shows_eq ▸ hm, hk.coherent⟩, ?_⟩
  rw [maps_cache, maps_cache, hk.maps_eq]
  congr 1
  funext s
  simp only [coinsAt_cache, hk.shows_eq]

theorem Keeps.layerFetched {base base' : CCoinsView} (hk : Keeps base base') {h : UInt256}
    {m : CCoinsMap} (hm : EntriesOK base.coinsAt m) {t : UInt256} (ht : m.lookup t = none)
    {tmp : CleanCoins} (htmp : tmp.1.norm = base.coinsAt t) :
    Keeps (.cache base h m) (.cache base' h (m.insert t (.fetched tmp))) := by
  refine ⟨⟨?_, hk.coherent⟩, ?_⟩
  · rw [hk.shows_eq]
    exact hm.insert (htmp ▸ EntryOK.fetched tmp)
  · rw [maps_cache, maps_cache, hk.maps_eq]
    congr 1
    funext s
    by_cases hs : s = t
    · subst hs
      simp [coinsAt_cache, ht, htmp, CCoinsCacheEntry.fetched]
    · simp [coinsAt_cache, AList.lookup_insert_ne hs, hk.shows_eq]

theorem getCoins_spec (t : UInt256) (v : CCoinsView) (hv : v.Coherent) :
    shownCoins (v.getCoins t).1 = v.coinsAt t ∧ Keeps v (v.getCoins t).2 := by
  induction v with
  | db d => exact ⟨rfl, trivial, rfl⟩
  | cache base h m ih =>
    obtain ⟨hm, hb⟩ := hv
    obtain ⟨hans, hk⟩ := ih hb
    simp only [CCoinsView.getCoins, coinsAt_cache]
    cases e : m.lookup t with
    | some en => exact ⟨rfl, ⟨hm, hb⟩, rfl⟩
    | none =>
      cases r : base.getCoins t with
      | mk ans base' =>
        rw [r] at hans hk
        cases ans with
        | none => exact ⟨hans, hk.layer hm⟩
        | some tmp => exact ⟨hans, hk.layerFetched hm e hans⟩

theorem fetchCoins_spec (v : CCoinsViewCache) (t : UInt256) (hv : v.toView.Coherent) :
    shownCoins ((v.fetchCoins t).1.map CCoinsCacheEntry.coins) = v.toView.coinsAt t ∧
      Keeps v.toView (v.fetchCoins t).2.toView := by
  obtain ⟨hm, hb⟩ := hv
  obtain ⟨hans, hk⟩ := getCoins_spec t v.base hb
  simp only [CCoinsViewCache.fetchCoins, CCoinsViewCache.toView, coinsAt_cache]
  cases e : v.cacheCoins.lookup t with
  | some en => exact ⟨rfl, ⟨hm, hb⟩, rfl⟩
  | none =>
    cases r : v.base.getCoins t with
    | mk ans base' =>
      rw [r] at hans hk
      cases ans with
      | none => exact ⟨hans, hk.layer hm⟩
      | some tmp => exact ⟨hans, hk.layerFetched hm e hans⟩

theorem accessCoins_spec (v : CCoinsViewCache) (t : UInt256) (hv : v.toView.Coherent) :
    shownCoins (v.accessCoins t).1 = v.toView.coinsAt t ∧
      Keeps v.toView (v.accessCoins t).2.toView :=
  fetchCoins_spec v t hv

theorem haveCoins_spec (v : CCoinsViewCache) (t : UInt256) (hv : v.toView.Coherent) :
    ((v.haveCoins t).1 = true ↔ v.toView.coinsAt t ≠ .empty) ∧
      Keeps v.toView (v.haveCoins t).2.toView := by
  obtain ⟨hans, hk⟩ := fetchCoins_spec v t hv
  unfold CCoinsViewCache.haveCoins
  cases r : v.fetchCoins t with
  | mk ans v' =>
    rw [r] at hans hk
    cases ans with
    | none => exact ⟨by simp [← hans, shownCoins], hk⟩
    | some e =>
      refine ⟨?_, hk⟩
      have hvout := e.coins.2.isPruned_iff
      simp only [Option.map_some, shownCoins] at hans
      rw [← hans, Ne, CCoins.norm_eq_empty_iff, hvout]
      simp

theorem getBestBlock_keeps (v : CCoinsView) (hv : v.Coherent) : Keeps v v.getBestBlock.2 := by
  induction v with
  | db d => exact ⟨trivial, rfl⟩
  | cache base h m ih =>
    obtain ⟨hm, hb⟩ := hv
    simp only [CCoinsView.getBestBlock]
    split
    · have hk := (ih hb).layer hm (h := base.getBestBlock.1)
      exact ⟨hk.coherent, hk.maps_eq⟩
    · exact ⟨⟨hm, hb⟩, rfl⟩

theorem getBestBlock_spec (v : CCoinsViewCache) (hv : v.toView.Coherent) :
    Keeps v.toView v.getBestBlock.2.toView := by
  obtain ⟨hm, hb⟩ := hv
  unfold CCoinsViewCache.getBestBlock
  split
  · have hk := (getBestBlock_keeps v.base hb).layer hm (h := v.base.getBestBlock.1)
    exact ⟨hk.coherent, hk.maps_eq⟩
  · exact ⟨⟨hm, hb⟩, rfl⟩

/-! ### Modifications change one transaction -/

/-- A modifier as `ModifyCoins` hands it out: the other entries are in order, its own
is DIRTY, and FRESH only if the base shows no coins. -/
structure CCoinsModifier.OK (m : CCoinsModifier) : Prop where
  coherent : m.cache.toView.Coherent
  dirty : m.entry.dirty = true
  fresh : m.entry.fresh = true → m.cache.base.coinsAt m.txid = .empty

/-- The coins of one id are replaced, the views below show what they did. -/
structure Modifies (v : CCoinsViewCache) (t : UInt256) (c : CCoins) (v' : CCoinsViewCache) :
    Prop where
  coherent : v'.toView.Coherent
  shows_eq : v'.toView.coinsAt = Function.update v.toView.coinsAt t c
  below_eq : v'.base.maps = v.base.maps

theorem CCoinsModifier.OK.release {m : CCoinsModifier} (hm : m.OK) (c : CCoins) :
    Modifies m.cache m.txid c.cleanup.norm (m.release c) := by
  obtain ⟨he, hb⟩ := hm.coherent
  by_cases hf : (m.entry.fresh && c.cleaned.1.isPruned) = true
  · have hrel : m.release c
        = { m.cache with cacheCoins := m.cache.cacheCoins.erase m.txid } := by
      simp [CCoinsModifier.release, hf]
    obtain ⟨hfresh, hpruned⟩ := Bool.and_eq_true_iff.mp hf
    -- the erased entry shows the base, which is empty here
    have hnorm : c.cleanup.norm = .empty := CCoins.norm_eq_empty_iff.mpr hpruned
    rw [hrel]
    refine ⟨⟨he.erase m.txid, hb⟩, ?_, rfl⟩
    funext s
    by_cases hs : s = m.txid
    · subst hs
      simp [CCoinsViewCache.toView, coinsAt_cache, hm.fresh hfresh, hnorm]
    · simp [CCoinsViewCache.toView, coinsAt_cache, AList.lookup_erase_ne hs, hs]
  · have hrel : m.release c = { m.cache with
        cacheCoins := m.cache.cacheCoins.insert m.txid { m.entry with coins := c.cleaned } } := by
      simp [CCoinsModifier.release, hf]
    rw [hrel]
    refine ⟨⟨he.insert ⟨fun h => ?_, fun h => hm.fresh h⟩, hb⟩, ?_, rfl⟩
    · simp [hm.dirty] at h
    · funext s
      by_cases hs : s = m.txid
      · subst hs
        simp [CCoinsViewCache.toView, coinsAt_cache, CCoins.cleaned]
      · simp [CCoinsViewCache.toView, coinsAt_cache, AList.lookup_insert_ne hs, hs]

theorem modifyCoins_spec (v : CCoinsViewCache) (t : UInt256) (hv : v.toView.Coherent) :
    (v.modifyCoins t).entry.coins.1.norm = v.toView.coinsAt t ∧
      ∀ c, Modifies v t c.cleanup.norm ((v.modifyCoins t).release c) := by
  obtain ⟨hm, hb⟩ := hv
  obtain ⟨hans, hk⟩ := getCoins_spec t v.base hb
  unfold CCoinsViewCache.modifyCoins
  cases e : v.cacheCoins.lookup t with
  | some en =>
    have hok : CCoinsModifier.OK ⟨v, t, { en with dirty := true }⟩ :=
      ⟨⟨hm, hb⟩, rfl, (hm t en e).fresh⟩
    exact ⟨by simp [CCoinsViewCache.toView, coinsAt_cache, e], fun c => hok.release c⟩
  | none =>
    cases r : v.base.getCoins t with
    | mk ans base' =>
      rw [r] at hans hk
      have hshow : (CCoinsCacheEntry.borrowed ans).coins.1.norm = base'.coinsAt t := by
        rw [hk.shows_eq, ← hans]
        cases ans <;> rfl
      have hk' := hk.layer hm (h := v.hashBlock)
      have hok : CCoinsModifier.OK ⟨{ v with base := base' }, t, .borrowed ans⟩ := by
        refine ⟨hk'.coherent, by cases ans <;> rfl, fun hf => ?_⟩
        rw [← hshow, CCoins.norm_eq_empty_iff]
        cases ans with
        | none => rfl
        | some c => exact hf
      refine ⟨?_, fun c => ?_⟩
      · rw [hshow, hk.shows_eq]
        simp [CCoinsViewCache.toView, coinsAt_cache, e]
      · obtain ⟨h₁, h₂, h₃⟩ := hok.release c
        exact ⟨h₁, h₂.trans (by rw [show CCoinsViewCache.toView { v with base := base' }
          = .cache base' v.hashBlock v.cacheCoins from rfl, hk'.shows_eq]; rfl),
          h₃.trans hk.maps_eq⟩

theorem modifyNewCoins_spec (v : CCoinsViewCache) (t : UInt256) (hv : v.toView.Coherent)
    (hnew : v.base.coinsAt t = .empty) (c : CCoins) :
    Modifies v t c.cleanup.norm ((v.modifyNewCoins t).release c) := by
  have hok : (v.modifyNewCoins t).OK := ⟨hv, rfl, fun _ => hnew⟩
  exact hok.release c

/-! ### Writing back -/

theorem cacheMerge_spec {p : CCoins} {us : Option CCoinsCacheEntry} {e : CCoinsCacheEntry}
    (hus : ∀ u, us = some u → EntryOK p u)
    (he : EntryOK (shownOver p us) e) :
    shownOver p (cacheMerge us e) = e.coins.1.norm ∧
      ∀ u, cacheMerge us e = some u → EntryOK p u := by
  unfold cacheMerge
  by_cases hd : e.dirty = true
  · rw [if_pos hd]
    cases us with
    | none =>
      by_cases hf : (e.fresh && e.coins.1.isPruned) = true
      · obtain ⟨hfresh, hpr⟩ := Bool.and_eq_true_iff.mp hf
        simp only [hf, if_true]
        exact ⟨(he.fresh hfresh).trans (CCoins.norm_eq_empty_iff.mpr hpr).symm, by simp⟩
      · simp only [hf, Bool.false_eq_true, if_false, shownOver_some, true_and]
        rintro u ⟨⟩
        exact ⟨by simp, he.fresh⟩
    | some u =>
      by_cases hf : (u.fresh && e.coins.1.isPruned) = true
      · obtain ⟨hfresh, hpr⟩ := Bool.and_eq_true_iff.mp hf
        simp only [hf, if_true]
        exact ⟨((hus u rfl).fresh hfresh).trans (CCoins.norm_eq_empty_iff.mpr hpr).symm, by simp⟩
      · simp only [hf, Bool.false_eq_true, if_false, shownOver_some, true_and]
        rintro w ⟨⟩
        exact ⟨by simp, (hus u rfl).fresh⟩
  · rw [if_neg hd]
    exact ⟨(he.clean (by simpa using hd)).symm, hus⟩

theorem batchWrite_spec (v : CCoinsView) (hv : v.Coherent) (mapCoins : CCoinsMap)
    (h : UInt256) (hm : EntriesOK v.coinsAt mapCoins) :
    (v.batchWrite mapCoins h).Coherent ∧
      (v.batchWrite mapCoins h).maps
        = (CCoinsView.cache v h mapCoins).coinsAt :: v.maps.tail := by
  cases v with
  | db d =>
    refine ⟨trivial, congrArg (· :: []) (funext fun t => ?_)⟩
    have hget := get_mergeAll funOps dbMerge mapCoins.nodupKeys d.coins t
    have hlook : List.dlookup t mapCoins.entries = mapCoins.lookup t := rfl
    rw [hlook] at hget
    simp only [CCoinsView.coinsAt]
    rw [show mergeAll funOps dbMerge d.coins mapCoins.entries t = _ from hget]
    cases e : mapCoins.lookup t with
    | none => rfl
    | some en =>
      have hen := hm t en e
      by_cases hd : en.dirty = true
      · by_cases hp : en.coins.1.isPruned = true
        · simp [merged, dbMerge, hd, hp, shownCoins, CCoins.norm_eq_empty_iff.mpr hp]
        · simp [merged, dbMerge, hd, hp, shownCoins]
      · rw [shownOver_some, hen.clean (by simpa using hd)]
        simp [merged, dbMerge, hd, funOps, CCoinsView.coinsAt]
  | cache base hb m =>
    obtain ⟨hmb, hbase⟩ := hv
    have hget : ∀ t, (mergeAll alistOps cacheMerge m mapCoins.entries).lookup t
        = merged cacheMerge (m.lookup t) (mapCoins.lookup t) :=
      get_mergeAll alistOps cacheMerge mapCoins.nodupKeys m
    have hkey : ∀ t e, mapCoins.lookup t = some e → _ := fun t e he =>
      cacheMerge_spec (hmb t) (hm t e he)
    refine ⟨⟨fun t u hu => ?_, hbase⟩, congrArg (· :: base.maps) (funext fun t => ?_)⟩
    · rw [hget] at hu
      cases e : mapCoins.lookup t with
      | none => rw [e] at hu; exact hmb t u hu
      | some en => rw [e] at hu; exact (hkey t en e).2 u hu
    · simp only [coinsAt_cache, hget]
      cases e : mapCoins.lookup t with
      | none => rfl
      | some en => exact (hkey t en e).1

theorem flush_spec (v : CCoinsViewCache) (hv : v.toView.Coherent) :
    v.flush.toView.Coherent ∧
      v.flush.toView.maps = v.toView.coinsAt :: v.toView.coinsAt :: v.base.maps.tail := by
  obtain ⟨hm, hb⟩ := hv
  obtain ⟨hco, hmaps⟩ := batchWrite_spec v.base hb v.cacheCoins v.hashBlock hm
  have hbase : (v.base.batchWrite v.cacheCoins v.hashBlock).coinsAt = v.toView.coinsAt := by
    rw [maps_eq_cons] at hmaps
    exact (List.cons.inj hmaps).1
  have htop : v.flush.toView.coinsAt = v.toView.coinsAt := hbase
  refine ⟨⟨.empty _, hco⟩, ?_⟩
  show v.flush.toView.coinsAt :: (v.base.batchWrite v.cacheCoins v.hashBlock).maps = _
  rw [htop, hmaps]
  rfl

theorem uncache_spec (v : CCoinsViewCache) (t : UInt256) (hv : v.toView.Coherent) :
    Keeps v.toView (v.uncache t).toView := by
  obtain ⟨hm, hb⟩ := hv
  unfold CCoinsViewCache.uncache
  cases e : v.cacheCoins.lookup t with
  | none => exact ⟨⟨hm, hb⟩, rfl⟩
  | some en =>
    by_cases hf : (!en.dirty && !en.fresh) = true
    · simp only [hf, if_true]
      refine ⟨⟨hm.erase t, hb⟩, congrArg (· :: v.base.maps) (funext fun s => ?_)⟩
      have hd : en.dirty = false := by simpa using (Bool.and_eq_true_iff.mp hf).1
      by_cases hs : s = t
      · subst hs
        simp [coinsAt_cache, e, (hm s en e).clean hd]
      · simp [coinsAt_cache, AList.lookup_erase_ne hs]
    · simp only [hf]
      exact ⟨⟨hm, hb⟩, rfl⟩

end Stonecoin
