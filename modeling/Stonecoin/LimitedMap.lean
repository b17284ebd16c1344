/-
`limitedmap.h`: a map that "only keeps the N elements with the highest value".  Beside the
map it has the multimap `rmap`, which files the iterators of the map under their values.

A node of a `std::map` stays where it is and keeps its key until it is erased, so its iterator
is modelled by its key; to follow it when the key is gone is a `Fault`.

  * `keeps_highest`: the invariant over runs, and when the highest values are kept.

The entry that makes room for a new one is the lowest of those that were there.  The new one
has not been filed yet, and it stays also when it is lower.
-/
import Stonecoin.OrderedMaps
import Stonecoin.Runs
import Mathlib.Data.List.TakeWhile

namespace Stonecoin

open OrderedMaps (size size_insert size_erase mem_of_lookup)

/-! ### Orders -/

/-- To a `std::map` two values are the same if neither is less. -/
def sameValue {V : Type} (lt : V → V → Bool) (v w : V) : Bool := !lt v w && !lt w v

/-- What `std::map` asks of the order of its keys. -/
structure StrictWeak {V : Type} (lt : V → V → Bool) : Prop where
  irrefl : ∀ v, lt v v = false
  trans : ∀ u v w, lt u v = true → lt v w = true → lt u w = true
  incomparable : ∀ u v w, sameValue lt u v = true → sameValue lt v w = true →
    sameValue lt u w = true

def numberLt (v w : ℕ) : Bool := v < w

theorem strictWeak_numberLt : StrictWeak numberLt := by
  constructor
  · simp [numberLt]
  · intro u v w
    simp only [numberLt, decide_eq_true_eq]
    omega
  · intro u v w
    simp only [sameValue, numberLt, Bool.and_eq_true, Bool.not_eq_true',
      decide_eq_false_iff_not]
    omega

/-- The members of the class. -/
structure LimitedMap (K V : Type) where
  map : AList fun _ : K => V
  rmap : List (V × K)
  nMaxSize : ℕ

namespace LimitedMap

inductive Fault where
  | badIterator
  | emptyMap
  /-- `assert(0)` -/
  | unreachable
  /-- `assert(s > 0)` -/
  | zeroSize
deriving DecidableEq, Repr

variable {K V : Type} [DecidableEq K] (lt : V → V → Bool)

/-! ### The functions of the class -/

def of (nMaxSizeIn : ℕ) : Except Fault (LimitedMap K V) :=
  if nMaxSizeIn = 0 then .error .zeroSize else .ok ⟨∅, [], nMaxSizeIn⟩

/-- `rmap.insert`: behind the entries with an equal value. -/
def file (v : V) (it : K) : List (V × K) → List (V × K)
  | [] => [(v, it)]
  | p :: rmap => if lt v p.1 then (v, it) :: p :: rmap else p :: file v it rmap

/-- The search in `rmap.equal_range(v)` for an iterator, and `rmap.erase` of what is found. -/
def unfile (v : V) (it : K) (rmap : List (V × K)) : Except Fault (List (V × K)) :=
  let below := rmap.takeWhile fun p => lt p.1 v
  let rest := rmap.dropWhile fun p => lt p.1 v
  let range := rest.takeWhile fun p => !lt v p.1
  let above := rest.dropWhile fun p => !lt v p.1
  if range.any (·.2 = it) then .ok (below ++ range.eraseP (·.2 = it) ++ above)
  else .error .unreachable

/-- The loop of `max_size`: while the map is too large, the first entry of `rmap` goes. -/
def shrink (s : ℕ) : List (V × K) → (AList fun _ : K => V) →
    Except Fault ((AList fun _ : K => V) × List (V × K))
  | [], map => if s < size map then .error .emptyMap else .ok (map, [])
  | p :: rmap, map =>
    if s < size map then
      if p.2 ∈ map then shrink s rmap (map.erase p.2) else .error .badIterator
    else .ok (map, p :: rmap)

def eraseBegin (map : AList fun _ : K => V) :
    List (V × K) → Except Fault ((AList fun _ : K => V) × List (V × K))
  | [] => .error .emptyMap
  | p :: rmap => if p.2 ∈ map then .ok (map.erase p.2, rmap) else .error .badIterator

def makeRoom (nMaxSize : ℕ) (map : AList fun _ : K => V) (rmap : List (V × K)) :
    Except Fault ((AList fun _ : K => V) × List (V × K)) :=
  if nMaxSize < size map then eraseBegin map rmap else .ok (map, rmap)

def insert (c : LimitedMap K V) (k : K) (v : V) : Except Fault (LimitedMap K V) :=
  match c.map.lookup k with
  | some _ => .ok c
  | none => do
    let (map, rmap) ← makeRoom c.nMaxSize (c.map.insert k v) c.rmap
    .ok { c with map, rmap := file lt v k rmap }

def erase (c : LimitedMap K V) (k : K) : Except Fault (LimitedMap K V) :=
  match c.map.lookup k with
  | none => .ok c
  | some v => do
    let rmap ← unfile lt v k c.rmap
    .ok { c with rmap, map := c.map.erase k }

/-- `update`, of the entry that an iterator leads to. -/
def update (c : LimitedMap K V) (itIn : K) (v : V) : Except Fault (LimitedMap K V) :=
  match c.map.lookup itIn with
  | none => .ok c
  | some old => do
    let rmap ← unfile lt old itIn c.rmap
    .ok { c with map := c.map.insert itIn v, rmap := file lt v itIn rmap }

def maxSize (c : LimitedMap K V) (s : ℕ) : Except Fault (LimitedMap K V) :=
  if s = 0 then .error .zeroSize
  else do
    let (map, rmap) ← shrink s c.rmap c.map
    .ok { map, rmap, nMaxSize := s }

inductive Op (K V : Type) where
  | insert (k : K) (v : V)
  | erase (k : K)
  | update (itIn : K) (v : V)
  | maxSize (s : ℕ)

def step (c : LimitedMap K V) : Op K V → Except Fault (LimitedMap K V)
  | .insert k v => c.insert lt k v
  | .erase k => c.erase lt k
  | .update itIn v => c.update lt itIn v
  | .maxSize s => c.maxSize s

/-- The states that calls on a new map lead to. -/
def RunsTo (nMaxSizeIn : ℕ) (ops : List (Op K V)) (c : LimitedMap K V) : Prop :=
  ∃ c₀, of nMaxSizeIn = .ok c₀ ∧ Runs.Run (fun c op c' => step lt c op = .ok c') c₀ ops c

/-! ### The order of the values -/

section

variable {lt}

theorem lt_of_lt_of_not_lt (hlt : StrictWeak lt) {u v w : V} (huv : lt u v = true)
    (hwv : lt w v = false) : lt u w = true := by
  rcases huw : lt u w with - | -
  · -- then `w` is between `u` and `v`, or equal to one of them
    rcases hvw : lt v w with - | -
    · rcases hwu : lt w u with - | -
      · have hsame := hlt.incomparable v w u (by simp [sameValue, hvw, hwv])
          (by simp [sameValue, huw, hwu])
        simp [sameValue, huv] at hsame
      · rw [hlt.trans w u v hwu huv] at hwv
        cases hwv
    · rw [hlt.trans u v w huv hvw] at huw
      cases huw
  · rfl

theorem not_lt_trans (hlt : StrictWeak lt) {u v w : V} (hvu : lt v u = false)
    (hwv : lt w v = false) : lt w u = false := by
  rcases hwu : lt w u with - | -
  · rfl
  · rw [lt_of_lt_of_not_lt hlt hwu hvu] at hwv
    cases hwv

end

/-! ### What is filed -/

/-- The multimap is in order. -/
def Sorted (rmap : List (V × K)) : Prop := rmap.Pairwise fun p q => lt q.1 p.1 = false

variable {lt}

omit [DecidableEq K] in
theorem file_spec (hlt : StrictWeak lt) (v : V) (it : K) {rmap : List (V × K)}
    (h : Sorted lt rmap) : ∃ l₁ l₂, rmap = l₁ ++ l₂ ∧ file lt v it rmap = l₁ ++ (v, it) :: l₂ ∧
      (∀ p ∈ l₁, lt v p.1 = false) ∧ Sorted lt (file lt v it rmap) := by
  induction rmap with
  | nil => exact ⟨[], [], rfl, rfl, by simp, List.pairwise_singleton _ _⟩
  | cons p rmap ih =>
    have hp := List.pairwise_cons.mp h
    rcases hv : lt v p.1 with - | -
    · obtain ⟨l₁, l₂, hsplit, heq, hbelow, hsorted⟩ := ih hp.2
      have hcons : file lt v it (p :: rmap) = p :: file lt v it rmap := by simp [file, hv]
      refine ⟨p :: l₁, l₂, by rw [hsplit]; rfl, by rw [hcons, heq]; rfl, ?_, ?_⟩
      · intro q hq
        rcases List.mem_cons.mp hq with rfl | hq
        · exact hv
        · exact hbelow q hq
      · rw [hcons]
        refine List.pairwise_cons.mpr ⟨fun q hq => ?_, hsorted⟩
        rw [heq, List.mem_append, List.mem_cons] at hq
        rcases hq with hq | rfl | hq
        · exact hp.1 q (hsplit ▸ List.mem_append_left _ hq)
        · exact hv
        · exact hp.1 q (hsplit ▸ List.mem_append_right _ hq)
    · have hcons : file lt v it (p :: rmap) = (v, it) :: p :: rmap := by simp [file, hv]
      refine ⟨[], p :: rmap, rfl, hcons, by simp, ?_⟩
      rw [hcons]
      refine List.pairwise_cons.mpr ⟨fun q hq => ?_, h⟩
      have hqp : lt q.1 p.1 = false := by
        rcases List.mem_cons.mp hq with rfl | hq
        · exact hlt.irrefl _
        · exact hp.1 q hq
      rcases hqv : lt q.1 v with - | -
      · rfl
      · rw [hlt.trans _ _ _ hqv hv] at hqp
        cases hqp

theorem unfile_spec (hlt : StrictWeak lt) {v : V} {it : K} {rmap : List (V × K)}
    (h : Sorted lt rmap) (hkeys : (rmap.map Prod.snd).Nodup) (hmem : (v, it) ∈ rmap) :
    ∃ l₁ l₂, rmap = l₁ ++ (v, it) :: l₂ ∧ unfile lt v it rmap = .ok (l₁ ++ l₂) := by
  set below := rmap.takeWhile fun p => lt p.1 v with hbelow
  set rest := rmap.dropWhile fun p => lt p.1 v with hrest
  set range := rest.takeWhile fun p => !lt v p.1 with hrange
  set above := rest.dropWhile fun p => !lt v p.1 with habove
  have hsplit : rmap = below ++ (range ++ above) := by
    rw [hrange, habove, List.takeWhile_append_dropWhile, hbelow, hrest,
      List.takeWhile_append_dropWhile]
  have hin : (v, it) ∈ range := by
    rw [hsplit, List.mem_append, List.mem_append] at hmem
    rcases hmem with hmem | hmem | hmem
    · have hself := List.mem_takeWhile_imp hmem
      rw [hlt.irrefl] at hself
      cases hself
    · exact hmem
    · -- all that is above the range is higher than the first of it
      rcases hcons : above with - | ⟨p, ps⟩
      · rw [hcons] at hmem
        cases hmem
      have hp : lt v p.1 = true := by
        have hhead := List.head?_dropWhile_not (fun p : V × K => !lt v p.1) rest
        rw [← habove, hcons] at hhead
        simpa using hhead
      have hsorted : Sorted lt (p :: ps) := by
        rw [← hcons]
        exact h.sublist (hsplit ▸ (List.sublist_append_right range above).trans
          (List.sublist_append_right below _))
      rw [hcons, List.mem_cons] at hmem
      rcases hmem with heq | hmem
      · rw [← heq, hlt.irrefl] at hp
        cases hp
      · have hle := (List.pairwise_cons.mp hsorted).1 _ hmem
        rw [hp] at hle
        cases hle
  obtain ⟨a, l₁, l₂, -, ha, hl, herase⟩ :=
    List.exists_of_eraseP (p := fun p : V × K => decide (p.2 = it)) hin (by simp)
  have hrmap : rmap = (below ++ l₁) ++ a :: (l₂ ++ above) := by
    rw [hsplit, hl]
    simp
  have haeq : a = (v, it) := by
    refine List.inj_on_of_nodup_map hkeys ?_ hmem (by simpa using ha)
    rw [hrmap]
    simp
  refine ⟨below ++ l₁, l₂ ++ above, haeq ▸ hrmap, ?_⟩
  have hany : range.any (fun p => decide (p.2 = it)) = true :=
    List.any_eq_true.mpr ⟨_, hin, by simp⟩
  have hunfile : unfile lt v it rmap =
      if range.any (fun p => decide (p.2 = it)) then
        .ok (below ++ range.eraseP (fun p => decide (p.2 = it)) ++ above)
      else .error .unreachable := rfl
  rw [hunfile, if_pos hany, herase]
  simp

/-! ### The invariant -/

/-- `map` and `rmap` have the same entries, each key once, and `rmap` is in order. -/
structure Filed (lt : V → V → Bool) (map : AList fun _ : K => V) (rmap : List (V × K)) :
    Prop where
  sorted : Sorted lt rmap
  keys : (rmap.map Prod.snd).Nodup
  same : ∀ k v, (v, k) ∈ rmap ↔ map.lookup k = some v

namespace Filed

variable {map : AList fun _ : K => V} {rmap : List (V × K)}

theorem nil : Filed lt (∅ : AList fun _ : K => V) [] := by
  refine ⟨List.Pairwise.nil, List.nodup_nil, fun k v => ?_⟩
  rw [AList.lookup_empty]
  simp

theorem size (h : Filed lt map rmap) : rmap.length = OrderedMaps.size map := by
  have hperm : (rmap.map Prod.snd).Perm map.keys := by
    apply (List.perm_ext_iff_of_nodup h.keys map.keys_nodup).mpr
    intro k
    rw [← AList.mem_keys, ← AList.lookup_isSome, Option.isSome_iff_exists]
    constructor
    · intro hk
      obtain ⟨p, hp, rfl⟩ := List.mem_map.mp hk
      exact ⟨p.1, (h.same _ _).mp hp⟩
    · rintro ⟨v, hv⟩
      exact List.mem_map_of_mem ((h.same k v).mpr hv)
  have hlen := hperm.length_eq
  rwa [List.length_map] at hlen

theorem remove {l₁ l₂ : List (V × K)} {v : V} {k : K} (h : Filed lt map (l₁ ++ (v, k) :: l₂)) :
    Filed lt (map.erase k) (l₁ ++ l₂) := by
  have hsub : (l₁ ++ l₂).Sublist (l₁ ++ (v, k) :: l₂) :=
    (List.Sublist.refl l₁).append (List.sublist_cons_self _ _)
  refine ⟨h.sorted.sublist hsub, h.keys.sublist (hsub.map _), fun j w => ?_⟩
  have hkeys := h.keys
  rw [List.map_append, List.map_cons, List.nodup_middle, List.nodup_cons, ← List.map_append]
    at hkeys
  by_cases hj : j = k
  · subst hj
    rw [AList.lookup_erase]
    constructor
    · intro hmem
      exact absurd (List.mem_map_of_mem (f := Prod.snd) hmem) hkeys.1
    · intro heq
      cases heq
  · rw [AList.lookup_erase_ne hj, ← h.same j w, List.mem_append, List.mem_append, List.mem_cons]
    have hne : (w, j) ≠ (v, k) := fun heq => hj (Prod.mk.inj heq).2
    simp [hne]

theorem file (hlt : StrictWeak lt) (h : Filed lt map rmap) {k : K} (hk : map.lookup k = none)
    (v : V) {map' : AList fun _ : K => V} (hmap' : ∀ j, map'.lookup j = (map.insert k v).lookup j) :
    Filed lt map' (LimitedMap.file lt v k rmap) := by
  obtain ⟨l₁, l₂, hsplit, heq, -, hsorted⟩ := file_spec hlt v k h.sorted
  refine ⟨hsorted, ?_, fun j w => ?_⟩
  · rw [heq, List.map_append, List.map_cons, List.nodup_middle, List.nodup_cons,
      ← List.map_append, ← hsplit]
    refine ⟨fun hmem => ?_, h.keys⟩
    obtain ⟨p, hp, rfl⟩ := List.mem_map.mp hmem
    rw [(h.same p.2 p.1).mp hp] at hk
    cases hk
  · have hmem : (w, j) ∈ LimitedMap.file lt v k rmap ↔ (w, j) = (v, k) ∨ (w, j) ∈ rmap := by
      rw [heq, hsplit, List.mem_append, List.mem_append, List.mem_cons, or_left_comm]
    rw [hmem, hmap' j, h.same j w]
    by_cases hj : j = k
    · subst hj
      rw [AList.lookup_insert, hk]
      simp [eq_comm]
    · rw [AList.lookup_insert_ne hj]
      simp [hj]

theorem lowest (hlt : StrictWeak lt) {p : V × K} (h : Filed lt map (p :: rmap)) {j : K} {w : V}
    (hj : map.lookup j = some w) : lt w p.1 = false := by
  rcases List.mem_cons.mp ((h.same j w).mpr hj) with rfl | hmem
  · exact hlt.irrefl w
  · exact (List.pairwise_cons.mp h.sorted).1 _ hmem

theorem mem (h : Filed lt map rmap) {p : V × K} (hp : p ∈ rmap) : map.lookup p.2 = some p.1 :=
  (h.same p.2 p.1).mp hp

end Filed

/-- The invariant of the class. -/
structure Ok (lt : V → V → Bool) (c : LimitedMap K V) : Prop where
  filed : Filed lt c.map c.rmap
  bound : size c.map ≤ c.nMaxSize
  positive : 0 < c.nMaxSize

/-- Of the entries of a map, so many are kept, and none of the others is higher than one that
is. -/
structure Highest (lt : V → V → Bool) (n : ℕ) (entries kept : AList fun _ : K => V) : Prop where
  size : size kept = n
  subset : ∀ k v, kept.lookup k = some v → entries.lookup k = some v
  highest : ∀ k v j w, entries.lookup k = some v → kept.lookup k = none →
    kept.lookup j = some w → lt w v = false

/-! ### The operations -/

namespace Ok

variable {c : LimitedMap K V}

theorem of {nMaxSizeIn : ℕ} (h : LimitedMap.of nMaxSizeIn = .ok c) : c.Ok lt := by
  by_cases hzero : nMaxSizeIn = 0
  · rw [LimitedMap.of, if_pos hzero] at h
    cases h
  · rw [LimitedMap.of, if_neg hzero] at h
    cases h
    exact ⟨Filed.nil, Nat.zero_le _, Nat.pos_of_ne_zero hzero⟩

theorem insert_present {k : K} {w : V} (h : c.map.lookup k = some w) (v : V) : c.insert lt k v = .ok c := by
  rw [LimitedMap.insert, h]

theorem insert_room (hlt : StrictWeak lt) (h : c.Ok lt) {k : K} (hk : c.map.lookup k = none)
    (v : V) (hroom : size c.map < c.nMaxSize) :
    ∃ c', c.insert lt k v = .ok c' ∧ c'.Ok lt ∧ c'.nMaxSize = c.nMaxSize ∧
      c'.map = c.map.insert k v := by
  have hsize := size_insert hk v
  have hmake : makeRoom c.nMaxSize (c.map.insert k v) c.rmap = .ok (c.map.insert k v, c.rmap) := by
    rw [makeRoom, if_neg (by omega)]
  refine ⟨⟨c.map.insert k v, LimitedMap.file lt v k c.rmap, c.nMaxSize⟩, ?_,
    ⟨h.filed.file hlt hk v fun _ => rfl, ?_, h.positive⟩, rfl, rfl⟩
  · rw [LimitedMap.insert, hk]
    dsimp only
    rw [hmake]
    rfl
  · show size (c.map.insert k v) ≤ c.nMaxSize
    omega

theorem insert_full (hlt : StrictWeak lt) (h : c.Ok lt) {k : K} (hk : c.map.lookup k = none)
    (v : V) (hfull : size c.map = c.nMaxSize) :
    ∃ c' low value, c.insert lt k v = .ok c' ∧ c'.Ok lt ∧ c'.nMaxSize = c.nMaxSize ∧
      c.map.lookup low = some value ∧ (∀ j w, c.map.lookup j = some w → lt w value = false) ∧
      c'.map = (c.map.insert k v).erase low ∧ size c'.map = c.nMaxSize := by
  have hsize := size_insert hk v
  have hlen := h.filed.size
  rcases hrmap : c.rmap with - | ⟨p, rmap⟩
  · have := h.positive
    rw [hrmap, List.length_nil] at hlen
    omega
  have hfiled := h.filed
  rw [hrmap] at hfiled
  have hp := hfiled.mem List.mem_cons_self
  have hne : k ≠ p.2 := by
    rintro rfl
    rw [hp] at hk
    cases hk
  have hin : p.2 ∈ c.map.insert k v := (AList.mem_insert _).mpr (.inr (mem_of_lookup hp))
  have herase := size_erase hin
  have hmake : makeRoom c.nMaxSize (c.map.insert k v) c.rmap =
      .ok ((c.map.insert k v).erase p.2, rmap) := by
    rw [makeRoom, if_pos (by omega), hrmap]
    exact if_pos hin
  refine ⟨⟨(c.map.insert k v).erase p.2, LimitedMap.file lt v k rmap, c.nMaxSize⟩, p.2, p.1, ?_,
    ⟨?_, ?_, h.positive⟩, rfl, hp, fun j w hj => hfiled.lowest hlt hj, rfl, ?_⟩
  · rw [LimitedMap.insert, hk]
    dsimp only
    rw [hmake]
    rfl
  · have hremoved : Filed lt (c.map.erase p.2) ([] ++ rmap) := hfiled.remove
    refine hremoved.file hlt ?_ v fun j => ?_
    · rwa [AList.lookup_erase_ne hne]
    · by_cases hj : j = p.2
      · subst hj
        rw [AList.lookup_erase, AList.lookup_insert_ne hne.symm, AList.lookup_erase]
      · rw [AList.lookup_erase_ne hj]
        by_cases hjk : j = k
        · subst hjk
          rw [AList.lookup_insert, AList.lookup_insert]
        · rw [AList.lookup_insert_ne hjk, AList.lookup_insert_ne hjk, AList.lookup_erase_ne hj]
  · show size ((c.map.insert k v).erase p.2) ≤ c.nMaxSize
    omega
  · show size ((c.map.insert k v).erase p.2) = c.nMaxSize
    omega

theorem insert (hlt : StrictWeak lt) (h : c.Ok lt) (k : K) (v : V) :
    ∃ c', c.insert lt k v = .ok c' ∧ c'.Ok lt := by
  rcases hk : c.map.lookup k with - | w
  · rcases Nat.lt_or_eq_of_le h.bound with hroom | hfull
    · obtain ⟨c', hc', hok, -⟩ := h.insert_room hlt hk v hroom
      exact ⟨c', hc', hok⟩
    · obtain ⟨c', -, -, hc', hok, -⟩ := h.insert_full hlt hk v hfull
      exact ⟨c', hc', hok⟩
  · exact ⟨c, insert_present hk v, h⟩

theorem erase (hlt : StrictWeak lt) (h : c.Ok lt) (k : K) :
    ∃ c', c.erase lt k = .ok c' ∧ c'.Ok lt := by
  rcases hk : c.map.lookup k with - | v
  · exact ⟨c, by rw [LimitedMap.erase, hk], h⟩
  · have hfiled := h.filed
    obtain ⟨l₁, l₂, hrmap, hunfile⟩ :=
      unfile_spec hlt hfiled.sorted hfiled.keys ((hfiled.same k v).mpr hk)
    rw [hrmap] at hfiled
    refine ⟨⟨c.map.erase k, l₁ ++ l₂, c.nMaxSize⟩, ?_, ⟨hfiled.remove, ?_, h.positive⟩⟩
    · rw [LimitedMap.erase, hk]
      dsimp only
      rw [hunfile]
      rfl
    · show size (c.map.erase k) ≤ c.nMaxSize
      have hsize := size_erase (mem_of_lookup hk)
      have hbound := h.bound
      omega

theorem update (hlt : StrictWeak lt) (h : c.Ok lt) (itIn : K) (v : V) :
    ∃ c', c.update lt itIn v = .ok c' ∧ c'.Ok lt := by
  rcases hk : c.map.lookup itIn with - | old
  · exact ⟨c, by rw [LimitedMap.update, hk], h⟩
  · have hfiled := h.filed
    obtain ⟨l₁, l₂, hrmap, hunfile⟩ :=
      unfile_spec hlt hfiled.sorted hfiled.keys ((hfiled.same itIn old).mpr hk)
    rw [hrmap] at hfiled
    have hnew : Filed lt (c.map.insert itIn v) (file lt v itIn (l₁ ++ l₂)) := by
      refine hfiled.remove.file hlt (AList.lookup_erase _ _) v fun j => ?_
      by_cases hj : j = itIn
      · subst hj
        rw [AList.lookup_insert, AList.lookup_insert]
      · rw [AList.lookup_insert_ne hj, AList.lookup_insert_ne hj, AList.lookup_erase_ne hj]
    refine ⟨⟨c.map.insert itIn v, file lt v itIn (l₁ ++ l₂), c.nMaxSize⟩, ?_,
      ⟨hnew, ?_, h.positive⟩⟩
    · rw [LimitedMap.update, hk]
      dsimp only
      rw [hunfile]
      rfl
    · show size (c.map.insert itIn v) ≤ c.nMaxSize
      have hmem : itIn ∈ c.map.keys := mem_of_lookup hk
      have hsize : size (c.map.insert itIn v) = size c.map := by
        rw [size, AList.keys_insert, List.length_cons]
        exact List.length_erase_add_one hmem
      exact hsize ▸ h.bound

end Ok

theorem shrink_spec (hlt : StrictWeak lt) (s : ℕ) {map : AList fun _ : K => V}
    {rmap : List (V × K)} (h : Filed lt map rmap) :
    ∃ map' rmap', shrink s rmap map = .ok (map', rmap') ∧ Filed lt map' rmap' ∧
      Highest lt (min s (size map)) map map' := by
  have hkeep : ∀ {map : AList fun _ : K => V}, size map ≤ s →
      Highest lt (min s (size map)) map map := by
    intro map hle
    refine ⟨(min_eq_right hle).symm, fun _ _ hk => hk, fun k v j w hk hnone => ?_⟩
    rw [hk] at hnone
    cases hnone
  induction rmap generalizing map with
  | nil =>
    have hsize := h.size
    rw [List.length_nil] at hsize
    exact ⟨map, [], by rw [shrink, if_neg (by omega)], h, hkeep (by omega)⟩
  | cons p rmap ih =>
    by_cases hs : s < size map
    · have hp := h.mem List.mem_cons_self
      have hin := mem_of_lookup hp
      have herase := size_erase hin
      have hremoved : Filed lt (map.erase p.2) ([] ++ rmap) := h.remove
      obtain ⟨map', rmap', hrun, hfiled, hsize, hsubset, hhighest⟩ := ih hremoved
      have hback : ∀ k v, map'.lookup k = some v → map.lookup k = some v := by
        intro k v hk
        have hk' := hsubset k v hk
        by_cases hkp : k = p.2
        · rw [hkp, AList.lookup_erase] at hk'
          cases hk'
        · rwa [AList.lookup_erase_ne hkp] at hk'
      refine ⟨map', rmap', ?_, hfiled, ⟨by omega, hback, fun k v j w hk hnone hj => ?_⟩⟩
      · rw [shrink, if_pos hs, if_pos hin]
        exact hrun
      · by_cases hkp : k = p.2
        · -- the first entry is not higher than any other
          rw [hkp, hp] at hk
          obtain rfl := Option.some.inj hk
          exact h.lowest hlt (hback j w hj)
        · exact hhighest k v j w (by rwa [AList.lookup_erase_ne hkp]) hnone hj
    · refine ⟨map, p :: rmap, by rw [shrink, if_neg hs], h, hkeep (by omega)⟩

theorem Ok.maxSize (hlt : StrictWeak lt) {c : LimitedMap K V} (h : c.Ok lt) {s : ℕ} (hs : 0 < s) :
    ∃ c', c.maxSize s = .ok c' ∧ c'.Ok lt ∧ c'.nMaxSize = s ∧
      Highest lt (min s (size c.map)) c.map c'.map := by
  obtain ⟨map', rmap', hrun, hfiled, hhighest⟩ := shrink_spec hlt s h.filed
  refine ⟨⟨map', rmap', s⟩, ?_, ⟨hfiled, ?_, hs⟩, rfl, hhighest⟩
  · rw [LimitedMap.maxSize, if_neg (by omega), hrun]
    rfl
  · show size map' ≤ s
    have hsize := hhighest.size
    omega

/-! ### Runs -/

theorem Ok.step (hlt : StrictWeak lt) {c : LimitedMap K V} (h : c.Ok lt) (op : Op K V) :
    (∃ c', step lt c op = .ok c' ∧ c'.Ok lt) ∨ step lt c op = .error .zeroSize := by
  cases op with
  | insert k v => exact .inl (h.insert hlt k v)
  | erase k => exact .inl (h.erase hlt k)
  | update itIn v => exact .inl (h.update hlt itIn v)
  | maxSize s =>
    rcases Nat.eq_zero_or_pos s with rfl | hs
    · exact .inr rfl
    · obtain ⟨c', hc', hok, -⟩ := h.maxSize hlt hs
      exact .inl ⟨c', hc', hok⟩

theorem RunsTo.ok (hlt : StrictWeak lt) {nMaxSizeIn : ℕ} {ops : List (Op K V)}
    {c : LimitedMap K V} (h : RunsTo lt nMaxSizeIn ops c) : c.Ok lt := by
  obtain ⟨c₀, hof, hrun⟩ := h
  refine hrun.invariant (I := fun c => c.Ok lt) (fun c op c' hok ht => ?_) (Ok.of hof)
  rcases hok.step hlt op with ⟨c₁, hc₁, hok₁⟩ | herr
  · obtain rfl := Except.ok.inj (hc₁.symm.trans ht)
    exact hok₁
  · rw [herr] at ht
    cases ht

theorem highest_insert (hlt : StrictWeak lt) {c c' : LimitedMap K V} (h : c.Ok lt) {k : K} {v : V}
    (hk : c.map.lookup k = none) (hfull : size c.map = c.nMaxSize)
    (hstep : c.insert lt k v = .ok c') :
    Highest lt c.nMaxSize (c.map.insert k v) c'.map ↔
      ∃ j w, c.map.lookup j = some w ∧ lt v w = false := by
  obtain ⟨c₁, low, value, hc₁, -, -, hlow, hlowest, hmap, hsize⟩ := h.insert_full hlt hk v hfull
  obtain rfl := Except.ok.inj (hc₁.symm.trans hstep)
  have hne : low ≠ k := by
    rintro rfl
    rw [hlow] at hk
    cases hk
  have hin : (c.map.insert k v).lookup low = some value := by
    rwa [AList.lookup_insert_ne hne]
  have hout : c₁.map.lookup low = none := by
    rw [hmap]
    exact AList.lookup_erase _ _
  have hnew : c₁.map.lookup k = some v := by
    rw [hmap, AList.lookup_erase_ne hne.symm, AList.lookup_insert]
  constructor
  · intro hhighest
    exact ⟨low, value, hlow, hhighest.highest low value k v hin hout hnew⟩
  · rintro ⟨j, w, hj, hvw⟩
    have hv : lt v value = false := not_lt_trans hlt (hlowest j w hj) hvw
    refine ⟨hsize, fun i u hi => ?_, fun i u i' u' hi hnone hi' => ?_⟩
    · by_cases hil : i = low
      · rw [hil, hout] at hi
        cases hi
      · rwa [hmap, AList.lookup_erase_ne hil] at hi
    · have hil : i = low := by
        by_contra hil
        rw [hmap, AList.lookup_erase_ne hil, hi] at hnone
        cases hnone
      rw [hil, hin] at hi
      obtain rfl := Option.some.inj hi
      by_cases hik : i' = k
      · rw [hik, hnew] at hi'
        exact Option.some.inj hi' ▸ hv
      · have hil' : i' ≠ low := by
          rintro rfl
          rw [hout] at hi'
          cases hi'
        rw [hmap, AList.lookup_erase_ne hil', AList.lookup_insert_ne hik] at hi'
        exact hlowest i' u' hi'

/-- **Every run keeps the invariant, and an insertion into a full map keeps the highest values
exactly when the new one is not lower than all others.** -/
theorem keeps_highest (hlt : StrictWeak lt) {nMaxSizeIn : ℕ} {ops : List (Op K V)}
    {c : LimitedMap K V} (hrun : RunsTo lt nMaxSizeIn ops c) :
    Filed lt c.map c.rmap ∧ size c.map ≤ c.nMaxSize ∧
      (∀ op, (∃ c', step lt c op = .ok c') ∨ step lt c op = .error .zeroSize) ∧
      (∀ s c', step lt c (.maxSize s) = .ok c' →
        Highest lt (min s (size c.map)) c.map c'.map) ∧
      ∀ k v c', c.map.lookup k = none → size c.map = c.nMaxSize →
        step lt c (.insert k v) = .ok c' →
        (Highest lt c.nMaxSize (c.map.insert k v) c'.map ↔
          ∃ j w, c.map.lookup j = some w ∧ lt v w = false) := by
  have hok := hrun.ok hlt
  refine ⟨hok.filed, hok.bound, fun op => ?_, fun s c' hc' => ?_,
    fun k v c' hk hfull hc' => highest_insert hlt hok hk hfull hc'⟩
  · rcases hok.step hlt op with ⟨c', hc', -⟩ | herr
    · exact .inl ⟨c', hc'⟩
    · exact .inr herr
  · rcases Nat.eq_zero_or_pos s with rfl | hs
    · cases hc'
    · obtain ⟨c₁, hc₁, -, -, hhighest⟩ := hok.maxSize hlt hs
      obtain rfl := Except.ok.inj (hc₁.symm.trans hc')
      exact hhighest

def oneEntry : LimitedMap ℕ ℕ := ⟨AList.insert 1 5 ∅, [(5, 1)], 1⟩

theorem runsTo_oneEntry : RunsTo numberLt 1 [.insert 1 5] oneEntry :=
  ⟨⟨∅, [], 1⟩, rfl, .cons rfl (.nil _)⟩

theorem keeps_highest_oneEntry : ∃ c', step numberLt oneEntry (.insert 2 7) = .ok c' ∧
    Highest numberLt 1 (oneEntry.map.insert 2 7) c'.map := by
  obtain ⟨-, -, -, -, hinsert⟩ := keeps_highest strictWeak_numberLt runsTo_oneEntry
  exact ⟨_, rfl, (hinsert 2 7 _ rfl rfl rfl).mpr ⟨1, 5, rfl, rfl⟩⟩

/-- **A lower value drives out a higher one.** -/
theorem lower_replaces_higher : ∃ c', RunsTo numberLt 1 [.insert 1 5] oneEntry ∧
    oneEntry.map.lookup 2 = none ∧ size oneEntry.map = oneEntry.nMaxSize ∧
    step numberLt oneEntry (.insert 2 3) = .ok c' ∧
    ¬ Highest numberLt oneEntry.nMaxSize (oneEntry.map.insert 2 3) c'.map := by
  refine ⟨⟨AList.insert 2 3 ∅, [(3, 2)], 1⟩, runsTo_oneEntry, rfl, rfl, rfl, fun h => ?_⟩
  have hlt := h.highest 1 5 2 3 rfl rfl rfl
  simp [numberLt] at hlt

end LimitedMap

end Stonecoin
