/-
What the address manager is after it has read a stream that need not come from another one.

`Loadable hashes nKeyDrawn bytes` says of the stream alone that the reading does no harm: it
breaks off before the counters, or all entries are there, with addresses that differ and times
that can be, and where the lists of the buckets break off no entry waits for them.

`Loading hashes n c s` is the invariant of the reading: `n` new and `c` tried entries have been
read, and every new one may be without a reference.
-/
import Stonecoin.AddrManFile

namespace Stonecoin

open SlotTables OrderedMaps Readers

theorem CAddrInfo.read_eq_some {old info : CAddrInfo} {bytes rest : List UInt8}
    (h : read old bytes = some (info, rest)) : info.nLastTry = old.nLastTry ∧
      info.nRefCount = old.nRefCount ∧ info.fInTried = old.fInTried := by
  simp only [read, bind_eq_some] at h
  obtain ⟨_, _, -, _, _, -, _, _, -, _, _, -, _, _, -, _, _, -, _, _, -, _, _, -, h⟩ := h
  obtain ⟨rfl, -⟩ := Prod.mk.inj (Option.some.inj h)
  exact ⟨rfl, rfl, rfl⟩

namespace CAddrMan

variable {hashes : AddrHashes} {free free' : Set ℕ} {d : ℤ} {s t : CAddrMan} {id n c : ℕ}
  {info : CAddrInfo}

/-! ### The stream -/

def readKey : Reader UInt8 (UInt8 × UInt256) := do
  let nVersion ← next
  let nKeySize ← next
  if nKeySize ≠ 32 then failure
  else do
    let nKey ← readHash
    pure (nVersion, nKey)

def readBucket : Reader UInt8 (List ℤ) := do
  let nSize ← readInt 4
  times (readInt 4) nSize.toNat

def bucketCount (nVersion : UInt8) (nUBuckets : ℤ) : ℤ :=
  if nVersion ≠ 0 then flipped nUBuckets else nUBuckets

variable (hashes) in
/-- The tried entries that find their slot free, when some slots are taken. -/
def keptTried (nKey : UInt256) : List CAddrInfo → Finset TriedSlot → List CAddrInfo
  | [], _ => []
  | info :: l, taken =>
    let slot := (of nKey).triedSlot hashes info.toCService
    if slot ∈ taken then keptTried nKey l taken
    else info :: keptTried nKey l (insert slot taken)

variable (hashes) in
/-- The entries that are kept have addresses that differ and times that can be. -/
structure Sound (nKey : UInt256) (new tried : List CAddrInfo) : Prop where
  newTime : ∀ info ∈ new, 0 ≤ info.nLastSuccess.toInt
  triedTime : ∀ info ∈ keptTried hashes nKey tried ∅, 0 < info.nLastSuccess.toInt
  addr : ((new ++ keptTried hashes nKey tried ∅).map fun info => info.ip).Nodup

variable (hashes) in
/-- What is said of the stream from the counters on. -/
inductive Counted (nVersion : UInt8) (nKey : UInt256) (bytes : List UInt8) : Prop
  | noNew : readInt 4 bytes = none → Counted nVersion nKey bytes
  | noTried {rest : List UInt8} : readInt 4 bytes = some (0, rest) → readInt 4 rest = none →
      Counted nVersion nKey bytes
  | noBuckets {rest₁ rest₂ : List UInt8} : readInt 4 bytes = some (0, rest₁) →
      readInt 4 rest₁ = some (0, rest₂) → readInt 4 rest₂ = none → Counted nVersion nKey bytes
  | entries {nNew nTried : ℕ} {nUBuckets : ℤ} {rest₁ rest₂ rest₃ rest₄ rest₅ : List UInt8}
      {new tried : List CAddrInfo} : readInt 4 bytes = some ((nNew : ℤ), rest₁) →
      readInt 4 rest₁ = some ((nTried : ℤ), rest₂) → readInt 4 rest₂ = some (nUBuckets, rest₃) →
      times (CAddrInfo.read .default) nNew rest₃ = some (new, rest₄) →
      times (CAddrInfo.read .default) nTried rest₄ = some (tried, rest₅) →
      Sound hashes nKey new tried →
      (nNew = 0 ∨ times readBucket (bucketCount nVersion nUBuckets).toNat rest₅ ≠ none) →
      Counted nVersion nKey bytes

variable (hashes) in
/-- The stream from which the manager can be loaded, with the key that `Clear` draws. -/
inductive Loadable (nKeyDrawn : UInt256) (bytes : List UInt8) : Prop
  | noKey : readKey bytes = none → nKeyDrawn ≠ 0 → Loadable nKeyDrawn bytes
  | key {nVersion : UInt8} {nKey : UInt256} {rest : List UInt8} :
      readKey bytes = some ((nVersion, nKey), rest) → nKey ≠ 0 →
      Counted hashes nVersion nKey rest → Loadable nKeyDrawn bytes

/-! ### Entries that are read -/

variable (hashes) in
/-- `n` new and `c` tried entries have been read. -/
structure Loading (n c : ℕ) (s : CAddrMan) : Prop where
  inv : Inv hashes {j | j < n} (n - s.nNew) { s with nIdCount := n + c, nTried := c }
  new : ∀ j < n, ∃ info, s.mapInfo.lookup j = some info ∧ info.fInTried = false

/-- The key and the counters are as they were. -/
structure Frame (s t : CAddrMan) : Prop where
  nKey : t.nKey = s.nKey
  nNew : t.nNew = s.nNew
  nTried : t.nTried = s.nTried

theorem Frame.trans {u : CAddrMan} (h : Frame s t) (h' : Frame t u) : Frame s u :=
  ⟨h'.nKey.trans h.nKey, h'.nNew.trans h.nNew, h'.nTried.trans h.nTried⟩

/-- The entry has been read into one that is not in use. -/
structure Blank (info : CAddrInfo) : Prop where
  lastTry : info.nLastTry = 0
  refs : info.nRefCount = 0
  new : info.fInTried = false

theorem blank_of_read {bytes rest : List UInt8}
    (h : CAddrInfo.read .default bytes = some (info, rest)) : Blank info := by
  obtain ⟨htry, hrefs, hnew⟩ := CAddrInfo.read_eq_some h
  exact ⟨htry, hrefs, hnew⟩

theorem Blank.lastTry_nonneg (h : Blank info) : 0 ≤ info.nLastTry.toInt := by
  rw [h.lastTry]
  decide

theorem Loading.putNew (h : Loading hashes n 0 s) (fUsable : Bool) (old : CAddrInfo)
    (hblank : Blank info) (hlast : 0 ≤ info.nLastSuccess.toInt)
    (haddr : s.mapAddr.lookup info.ip = none) :
    Loading hashes (n + 1) 0 ((s.setInfo n old).putNew hashes fUsable n info) ∧
      Frame s ((s.setInfo n old).putNew hashes fUsable n info) ∧
      ((s.setInfo n old).putNew hashes fUsable n info).vvTried = s.vvTried ∧
      ((s.setInfo n old).putNew hashes fUsable n info).mapAddr = s.mapAddr.insert info.ip n := by
  let u : CAddrMan := { s with nIdCount := n, nTried := 0 }
  let placed : CAddrInfo := { info with nRandomPos := s.vRandom.length }
  have happend : Inv hashes (insert n {j | j < n}) (n - s.nNew + 1) (u.append info) :=
    h.inv.append (s := u) haddr hblank.new hblank.refs hblank.lastTry_nonneg hlast
  have hplaced : (u.append info).mapInfo.lookup n = some placed := AList.lookup_insert s.mapInfo
  have hbehind : ((n + 1 : ℕ) : ℤ) - s.nNew = n - s.nNew + 1 := by omega
  have hfree : ∀ k ∈ insert n {j | j < n}, k ∈ {j | j < n + 1} := by
    rintro k (rfl | hk)
    · exact Nat.lt_succ_self k
    · exact Nat.lt_succ_of_lt hk
  have hnew : ∀ w : CAddrInfo, w.fInTried = false → ∀ j < n + 1,
      ∃ info, (s.mapInfo.insert n w).lookup j = some info ∧ info.fInTried = false := by
    intro w hw j hj
    by_cases hjn : j = n
    · exact ⟨w, by rw [hjn, AList.lookup_insert], hw⟩
    · obtain ⟨v, hv, hvnew⟩ := h.new j (by omega)
      exact ⟨v, by rw [AList.lookup_insert_ne hjn, hv], hvnew⟩
  have hmap : ∀ v w, (s.mapInfo.insert n v).insert n w = s.mapInfo.insert n w :=
    fun v w => AList.insert_insert s.mapInfo
  unfold CAddrMan.putNew
  dsimp only
  split
  next hslot =>
    -- the slot for the source is free
    have hempty : (u.append info).vvNew (newSlot hashes s info.toCService info.source) = none :=
      hslot.2
    have hfree' : ∀ k ∈ insert n {j | j < n} \ {n}, k ∈ {j | j < n + 1} :=
      fun k hk => hfree k hk.1
    have henter := (happend.enterNew hplaced hblank.new (n := placed.nRefCount + 1) rfl
      (by rw [show placed.nRefCount = 0 from hblank.refs]; decide) hempty rfl).mono hfree'
    refine ⟨⟨?_, ?_⟩, ⟨rfl, rfl, rfl⟩, rfl, rfl⟩
    · rw [← hbehind] at henter
      show Inv hashes _ _ { u with
        nIdCount := n + 1
        mapInfo := (s.mapInfo.insert n old).insert n { placed with nRefCount := placed.nRefCount + 1 }
        mapAddr := s.mapAddr.insert info.ip n
        vRandom := s.vRandom ++ [n]
        vvNew := Function.update s.vvNew (newSlot hashes s info.toCService info.source) (some n) }
      rw [hmap old, ← hmap placed]
      exact henter
    · show ∀ j < n + 1, ∃ w, ((s.mapInfo.insert n old).insert n _).lookup j = some w ∧ _
      rw [hmap]
      exact hnew _ hblank.new
  next =>
    have hinv := happend.mono hfree
    refine ⟨⟨?_, ?_⟩, ⟨rfl, rfl, rfl⟩, rfl, rfl⟩
    · rw [← hbehind] at hinv
      show Inv hashes _ _ { u with
        nIdCount := n + 1
        mapInfo := (s.mapInfo.insert n old).insert n placed
        mapAddr := s.mapAddr.insert info.ip n
        vRandom := s.vRandom ++ [n] }
      rw [hmap]
      exact hinv
    · show ∀ j < n + 1, ∃ w, ((s.mapInfo.insert n old).insert n _).lookup j = some w ∧ _
      rw [hmap]
      exact hnew _ hblank.new

theorem reading_some {α : Type} {r : Reader UInt8 α} {bytes rest : List UInt8} {a : α}
    (h : r bytes = some (a, rest)) (s : CAddrMan) (f : α → List UInt8 → Loaded) :
    s.reading r bytes f = f a rest := by
  rw [reading, h]

theorem reading_none {α : Type} {r : Reader UInt8 α} {bytes : List UInt8} (h : r bytes = none)
    (s : CAddrMan) (f : α → List UInt8 → Loaded) : s.reading r bytes f = .thrown s := by
  rw [reading, h]

theorem Loading.lookup_next (h : Loading hashes n c s) : s.mapInfo.lookup (n + c) = none :=
  h.inv.lookup_nIdCount

theorem Loading.readNewEntries (fUsable : Bool) : ∀ {k n : ℕ} {s : CAddrMan}
    {bytes rest : List UInt8} {l : List CAddrInfo}, Loading hashes n 0 s →
      times (CAddrInfo.read .default) k bytes = some (l, rest) →
      (∀ info ∈ l, 0 ≤ info.nLastSuccess.toInt) → (l.map fun info => info.ip).Nodup →
      (∀ info ∈ l, s.mapAddr.lookup info.ip = none) →
      ∃ t, readNewEntries hashes fUsable k n s bytes = .done t rest ∧
        Loading hashes (n + k) 0 t ∧ Frame s t ∧ t.vvTried = s.vvTried ∧
        ∀ ip, ip ∉ l.map (fun info => info.ip) → s.mapAddr.lookup ip = none →
          t.mapAddr.lookup ip = none := by
  intro k
  induction k with
  | zero =>
    intro n s bytes rest l h hread _ _ _
    obtain ⟨-, rfl⟩ := Prod.mk.inj (Option.some.inj hread)
    exact ⟨s, rfl, h, ⟨rfl, rfl, rfl⟩, rfl, fun _ _ hip => hip⟩
  | succ k ih =>
    intro n s bytes rest l h hread htime hnodup haddr
    obtain ⟨info, bytes', l, hinfo, hread', rfl⟩ := times_succ_eq_some.mp hread
    obtain ⟨(hout : info.ip ∉ _), hnodup⟩ := List.nodup_cons.mp hnodup
    obtain ⟨h₁, hframe₁, htried₁, haddr₁⟩ := h.putNew fUsable .default (blank_of_read hinfo)
      (htime info List.mem_cons_self) (haddr info List.mem_cons_self)
    -- the address that has been entered is none of the others
    have hfree : ∀ ip, ip ≠ info.ip → s.mapAddr.lookup ip = none →
        ((s.setInfo n .default).putNew hashes fUsable n info).mapAddr.lookup ip = none := by
      intro ip hip hnone
      rw [haddr₁, AList.lookup_insert_ne hip, hnone]
    obtain ⟨t, ht, hload, hframe, htried, hkeep⟩ := ih h₁ hread'
      (fun w hw => htime w (List.mem_cons_of_mem _ hw)) hnodup (by
        intro w hw
        refine hfree w.ip (fun heq => ?_) (haddr w (List.mem_cons_of_mem _ hw))
        rw [← heq] at hout
        exact hout (List.mem_map_of_mem hw))
    refine ⟨t, ?_, ?_, hframe₁.trans hframe, htried.trans htried₁, fun ip hip hnone => ?_⟩
    · have hnext : s.mapInfo.lookup n = none := h.lookup_next
      rw [CAddrMan.readNewEntries, hnext]
      exact (reading_some hinfo _ _).trans ht
    · rw [← Nat.add_assoc, Nat.add_right_comm]
      exact hload
    · rw [List.map_cons, List.mem_cons, not_or] at hip
      exact hkeep ip hip.2 (hfree ip hip.1 hnone)

theorem Loading.putTried (h : Loading hashes n c s) (hcount : s.nIdCount = n + c)
    (hblank : Blank info) (hlast : 0 < info.nLastSuccess.toInt)
    (haddr : s.mapAddr.lookup info.ip = none)
    (hslot : s.vvTried (s.triedSlot hashes info.toCService) = none) :
    Loading hashes n (c + 1) (s.putTried (s.triedSlot hashes info.toCService) info) := by
  let u : CAddrMan := { s with nIdCount := n + c, nTried := c }
  let placed : CAddrInfo := { info with nRandomPos := s.vRandom.length }
  have happend : Inv hashes (insert (n + c) {j | j < n}) (n - s.nNew + 1) (u.append info) :=
    h.inv.append (s := u) haddr hblank.new hblank.refs hblank.lastTry_nonneg hlast.le
  have hplaced : (u.append info).mapInfo.lookup (n + c) = some placed :=
    AList.lookup_insert s.mapInfo
  have hsuccess : info.nLastSuccess ≠ 0 := by
    intro hzero
    rw [hzero] at hlast
    exact absurd hlast (by decide)
  have hfree : ∀ k ∈ insert (n + c) {j | j < n} \ {n + c}, k ∈ {j | j < n} := by
    rintro k ⟨rfl | hk, hne⟩
    · exact absurd rfl hne
    · exact hk
  have henter := (happend.enterTried hplaced hblank.new hblank.refs hsuccess hslot).mono hfree
  have hbehind : (n : ℤ) - s.nNew + 1 - 1 = n - s.nNew := by omega
  have hmap : ∀ v w, (s.mapInfo.insert (n + c) v).insert (n + c) w = s.mapInfo.insert (n + c) w :=
    fun v w => AList.insert_insert s.mapInfo
  rw [hbehind] at henter
  refine ⟨?_, fun j hj => ?_⟩
  · show Inv hashes _ _ { u with
      nIdCount := n + c + 1
      mapInfo := s.mapInfo.insert s.nIdCount { placed with fInTried := true }
      mapAddr := s.mapAddr.insert info.ip s.nIdCount
      vRandom := s.vRandom ++ [s.nIdCount]
      vvTried := Function.update s.vvTried (s.triedSlot hashes info.toCService) (some s.nIdCount)
      nTried := ((c + 1 : ℕ) : ℤ) }
    rw [hcount, ← hmap placed]
    exact henter
  · obtain ⟨w, hw, hnew⟩ := h.new j hj
    refine ⟨w, ?_, hnew⟩
    show (s.mapInfo.insert s.nIdCount _).lookup j = some w
    rw [AList.lookup_insert_ne (by omega), hw]

theorem Loading.readTriedEntries : ∀ {k c nLost : ℕ} {s : CAddrMan} {bytes rest : List UInt8}
    {l : List CAddrInfo} {taken : Finset TriedSlot}, Loading hashes n c s → s.nIdCount = n + c →
      (∀ slot, s.vvTried slot = none ↔ slot ∉ taken) →
      times (CAddrInfo.read .default) k bytes = some (l, rest) →
      (∀ info ∈ keptTried hashes s.nKey l taken, 0 < info.nLastSuccess.toInt) →
      ((keptTried hashes s.nKey l taken).map fun info => info.ip).Nodup →
      (∀ info ∈ keptTried hashes s.nKey l taken, s.mapAddr.lookup info.ip = none) →
      s.nTried = c + nLost + k →
      ∃ t c', readTriedEntries hashes k nLost s bytes = .done t rest ∧ Loading hashes n c' t ∧
        t.nIdCount = n + c' ∧ t.nTried = c' ∧ t.nNew = s.nNew ∧ t.nKey = s.nKey := by
  intro k
  induction k with
  | zero =>
    intro c nLost s bytes rest l taken h hcount _ hread _ _ _ hsum
    obtain ⟨-, rfl⟩ := Prod.mk.inj (Option.some.inj hread)
    refine ⟨{ s with nTried := s.nTried - nLost }, c, rfl, ⟨h.inv, h.new⟩, hcount, ?_, rfl, rfl⟩
    show s.nTried - nLost = c
    omega
  | succ k ih =>
    intro c nLost s bytes rest l taken h hcount htaken hread htime hnodup haddr hsum
    obtain ⟨info, bytes', l, hinfo, hread', rfl⟩ := times_succ_eq_some.mp hread
    rw [CAddrMan.readTriedEntries, reading_some hinfo]
    dsimp only
    have hkey : (of s.nKey).triedSlot hashes info.toCService = s.triedSlot hashes info.toCService :=
      rfl
    by_cases hslot : s.vvTried (s.triedSlot hashes info.toCService) = none
    · have hmem := (htaken _).mp hslot
      rw [keptTried, hkey, if_neg hmem] at htime hnodup haddr
      obtain ⟨(hout : info.ip ∉ _), hnodup⟩ := List.nodup_cons.mp hnodup
      rw [if_pos hslot]
      have h₁ := h.putTried hcount (blank_of_read hinfo) (htime info List.mem_cons_self)
        (haddr info List.mem_cons_self) hslot
      refine ih h₁ ?_ ?_ hread' (fun w hw => htime w (List.mem_cons_of_mem _ hw)) hnodup ?_ ?_
      · show s.nIdCount + 1 = n + (c + 1)
        omega
      · intro slot
        show Function.update s.vvTried _ (some s.nIdCount) slot = none ↔ _
        rw [Function.update_apply, Finset.mem_insert]
        split
        next heq => simp [heq]
        next hne => simp [htaken, hne]
      · intro w hw
        have hne : w.ip ≠ info.ip := by
          intro heq
          rw [← heq] at hout
          exact hout (List.mem_map_of_mem hw)
        show (s.mapAddr.insert info.ip _).lookup w.ip = none
        rw [AList.lookup_insert_ne hne]
        exact haddr w (List.mem_cons_of_mem _ hw)
      · show s.nTried = _
        omega
    · have hmem : s.triedSlot hashes info.toCService ∈ taken := by
        by_contra hnot
        exact hslot ((htaken _).mpr hnot)
      rw [keptTried, hkey, if_pos hmem] at htime hnodup haddr
      rw [if_neg hslot]
      exact ih h hcount htaken hread' htime hnodup haddr (by omega)

/-! ### The buckets -/

variable (hashes) in
/-- The entries are there, and the new ones may wait for a reference. -/
structure Waiting (n : ℕ) (s : CAddrMan) : Prop where
  inv : Inv hashes {j | j < n} 0 s
  nNew : s.nNew = n
  new : ∀ j < n, ∃ info, s.mapInfo.lookup j = some info ∧ info.fInTried = false

theorem Waiting.putPosition (h : Waiting hashes n s) (fUsable : Bool) (bucket : ℕ) (nIndex : ℤ) :
    Waiting hashes n (s.putPosition hashes fUsable bucket nIndex) ∧
      (s.putPosition hashes fUsable bucket nIndex).nKey = s.nKey := by
  unfold CAddrMan.putPosition
  split
  next hin =>
    have hnNew := h.nNew
    obtain ⟨info, hinfo, hnew⟩ := h.new nIndex.toNat (by omega)
    rw [hinfo, Option.getD_some]
    dsimp only
    split
    next hbucket =>
      split
      next hfree =>
        have hfree' : ∀ k ∈ {j | j < n} \ {nIndex.toNat}, k ∈ {j | j < n} := fun k hk => hk.1
        have henter := (h.inv.enterNew hinfo hnew rfl (Int.add_one_le_of_lt hfree.2) hfree.1
          rfl).mono hfree'
        refine ⟨⟨henter, h.nNew, fun j hj => ?_⟩, rfl⟩
        exact exists_lookup_insert hinfo (fun hw => hw) (fun _ hw => hw) (h.new j hj)
      next => exact ⟨h, rfl⟩
    next => exact ⟨h, rfl⟩
  next => exact ⟨h, rfl⟩

theorem Waiting.readPositions (fUsable : Bool) (bucket : ℕ) : ∀ (k : ℕ) (bytes : List UInt8)
    {s : CAddrMan}, Waiting hashes n s → ∃ t, Waiting hashes n t ∧ t.nKey = s.nKey ∧
      readPositions hashes fUsable bucket k s bytes =
        ((times (readInt 4) k bytes).map Prod.snd).elim (.thrown t) (.done t) := by
  intro k
  induction k with
  | zero => exact fun bytes s h => ⟨s, h, rfl, rfl⟩
  | succ k ih =>
    intro bytes s h
    rw [CAddrMan.readPositions]
    cases hread : readInt 4 bytes with
    | none =>
      refine ⟨s, h, rfl, ?_⟩
      rw [reading_none hread, times, bind_of_none hread]
      rfl
    | some p =>
      obtain ⟨nIndex, bytes'⟩ := p
      obtain ⟨h₁, hkey₁⟩ := h.putPosition fUsable bucket nIndex
      obtain ⟨t, ht, hkey, heq⟩ := ih bytes' h₁
      refine ⟨t, ht, hkey.trans hkey₁, ?_⟩
      rw [reading_some hread, map_snd_times_succ hread]
      exact heq

theorem Waiting.readBuckets (fUsable : Bool) : ∀ (k bucket : ℕ) (bytes : List UInt8)
    {s : CAddrMan}, Waiting hashes n s → ∃ t, Waiting hashes n t ∧ t.nKey = s.nKey ∧
      readBuckets hashes fUsable k bucket s bytes =
        ((times readBucket k bytes).map Prod.snd).elim (.thrown t) (.done t) := by
  intro k
  induction k with
  | zero => exact fun bucket bytes s h => ⟨s, h, rfl, rfl⟩
  | succ k ih =>
    intro bucket bytes s h
    rw [CAddrMan.readBuckets]
    cases hsize : readInt 4 bytes with
    | none =>
      have hbucket : readBucket bytes = none := bind_of_none hsize
      refine ⟨s, h, rfl, ?_⟩
      rw [reading_none hsize, times, bind_of_none hbucket]
      rfl
    | some p =>
      obtain ⟨nSize, bytes'⟩ := p
      rw [reading_some hsize]
      obtain ⟨t₁, h₁, hkey₁, heq₁⟩ := h.readPositions fUsable bucket nSize.toNat bytes'
      have hbucket : readBucket bytes = times (readInt 4) nSize.toNat bytes' := bind_of_some hsize
      rw [heq₁]
      cases hread : times (readInt 4) nSize.toNat bytes' with
      | none =>
        refine ⟨t₁, h₁, hkey₁, ?_⟩
        rw [times, bind_of_none (hbucket.trans hread)]
        rfl
      | some p =>
        obtain ⟨l, rest⟩ := p
        obtain ⟨t, ht, hkey, heq⟩ := ih (bucket + 1) rest h₁
        refine ⟨t, ht, hkey.trans hkey₁, ?_⟩
        rw [map_snd_times_succ (hbucket.trans hread)]
        exact heq

/-! ### The end -/

theorem Inv.prune : ∀ {l : List ℕ} {s : CAddrMan}, Inv hashes {k | k ∈ l} 0 s →
    ∃ t, prune l s = some t ∧ Inv hashes ∅ 0 t ∧ t.nKey = s.nKey := by
  intro l
  induction l with
  | nil => exact fun {s} h => ⟨s, rfl, h.mono fun k hk => absurd hk List.not_mem_nil, rfl⟩
  | cons n l ih =>
    intro s h
    rw [CAddrMan.prune]
    cases hn : s.mapInfo.lookup n with
    | none =>
      refine ih (h.narrow fun {k w} hk _ _ hmem => ?_)
      rcases List.mem_cons.mp hmem with rfl | hmem
      · exact absurd (hn.symm.trans hk) (by simp)
      · exact hmem
    | some info =>
      dsimp only
      split
      next hdead =>
        obtain ⟨t₁, hdelete, h₁, -, -, hkey₁, -⟩ := h.delete hn hdead.1 hdead.2
        have hfree : ∀ k ∈ {k | k ∈ n :: l} \ {n}, k ∈ {k | k ∈ l} := by
          rintro k ⟨hk, hne⟩
          exact (List.mem_cons.mp hk).resolve_left hne
        obtain ⟨t, ht, hinv, hkey⟩ := ih (h₁.mono hfree)
        refine ⟨t, ?_, hinv, hkey.trans hkey₁⟩
        rw [hdelete]
        exact ht
      next hlive =>
        refine ih (h.narrow fun {k w} hk hnew hrefs hmem => ?_)
        rcases List.mem_cons.mp hmem with rfl | hmem
        · obtain rfl := Option.some.inj (hn.symm.trans hk)
          exact absurd ⟨hnew, hrefs⟩ hlive
        · exact hmem

theorem loading_start (hashes : AddrHashes) (nKey : UInt256) (nNew nTried : ℤ) :
    Loading hashes 0 0 { of nKey with nNew := nNew, nTried := nTried } where
  inv := by
    have hinv := (inv_of hashes nKey).countNew nNew
    have hnNew : (of nKey).nNew + nNew = nNew := Int.zero_add nNew
    rw [hnNew] at hinv
    exact hinv.mono fun _ hk => absurd hk (Set.notMem_empty _)
  new _ hj := absurd hj (Nat.not_lt_zero _)

/-- How the reading ends: the tables are consistent, and there is a key. -/
def EndsWell (hashes : AddrHashes) (l : Loaded) : Prop :=
  ∃ t, Inv hashes ∅ 0 t ∧ t.nKey ≠ 0 ∧ ((∃ rest, l = .done t rest) ∨ l = .thrown t)

theorem Waiting.finish (h : Waiting hashes n s) (hkey : s.nKey ≠ 0) (fUsable : Bool) {k : ℕ}
    {bytes : List UInt8} (hcut : n = 0 ∨ times readBucket k bytes ≠ none) :
    EndsWell hashes ((CAddrMan.readBuckets hashes fUsable k 0 s bytes).andThen fun s bytes =>
      match prune ((sortedEntries (· ≤ ·) s.mapInfo).map Sigma.fst) s with
      | none => .aborted
      | some s => .done s bytes) := by
  obtain ⟨t, ht, hkeyt, heq⟩ := h.readBuckets fUsable k 0 bytes
  have hkeyt' : t.nKey ≠ 0 := by rwa [hkeyt]
  rw [heq]
  cases hread : times readBucket k bytes with
  | none =>
    -- no new entry waits for what was not there
    obtain rfl := hcut.resolve_right (not_not.mpr hread)
    exact ⟨t, ht.inv.mono fun k hk => absurd hk (Nat.not_lt_zero k), hkeyt', Or.inr rfl⟩
  | some p =>
    obtain ⟨l, rest⟩ := p
    have hall : Inv hashes {k | k ∈ (sortedEntries (· ≤ ·) t.mapInfo).map Sigma.fst} 0 t :=
      ht.inv.narrow fun {k w} hk _ _ _ => by
        have hmem := (perm_sortedEntries (· ≤ ·) t.mapInfo).mem_iff.mpr
          (AList.mem_lookup_iff.mp hk)
        exact List.mem_map.mpr ⟨⟨k, w⟩, hmem, rfl⟩
    obtain ⟨u, hprune, hinv, hkeyu⟩ := hall.prune
    refine ⟨u, hinv, by rwa [hkeyu], Or.inl ⟨rest, ?_⟩⟩
    show (match CAddrMan.prune _ t with
      | none => Loaded.aborted
      | some s => .done s rest) = _
    rw [hprune]

theorem Loadable.endsWell {nKeyDrawn : UInt256} {bytes : List UInt8}
    (h : Loadable hashes nKeyDrawn bytes) (hclear : s.clear nKeyDrawn = of nKeyDrawn) :
    EndsWell hashes (s.unserialize hashes nKeyDrawn bytes) := by
  unfold unserialize
  rw [hclear]
  dsimp only
  cases h with
  | noKey hkey hdrawn =>
    have hthrown : EndsWell hashes (.thrown (of nKeyDrawn)) :=
      ⟨of nKeyDrawn, inv_of hashes nKeyDrawn, hdrawn, Or.inr rfl⟩
    cases hver : next bytes with
    | none => rwa [reading_none hver]
    | some p =>
      rw [readKey, bind_of_some hver] at hkey
      rw [reading_some hver]
      cases hsize : next p.2 with
      | none => rwa [reading_none hsize]
      | some q =>
        rw [bind_of_some hsize] at hkey
        rw [reading_some hsize]
        split
        next => exact hthrown
        next h32 =>
          rw [if_neg h32] at hkey
          cases hhash : readHash q.2 with
          | none => rwa [reading_none hhash]
          | some r =>
            rw [bind_of_some hhash] at hkey
            exact absurd hkey (by rintro ⟨⟩)
  | @key nVersion nKey rest hkey hne hcounted =>
    obtain ⟨v, bytes₁, hver, hkey⟩ := bind_eq_some.mp hkey
    obtain ⟨nKeySize, bytes₂, hsize, hkey⟩ := bind_eq_some.mp hkey
    by_cases h32 : nKeySize ≠ 32
    · rw [if_pos h32] at hkey
      exact absurd hkey (by rintro ⟨⟩)
    rw [if_neg h32] at hkey
    obtain ⟨k, bytes₃, hhash, hkey⟩ := bind_eq_some.mp hkey
    obtain ⟨hpair, rfl⟩ := Prod.mk.inj (Option.some.inj hkey)
    obtain ⟨rfl, rfl⟩ := Prod.mk.inj hpair
    rw [reading_some hver, reading_some hsize, if_neg h32, reading_some hhash]
    have hstart : EndsWell hashes (.thrown (of k)) := ⟨of k, inv_of hashes k, hne, Or.inr rfl⟩
    cases hcounted with
    | noNew hnNew => rwa [reading_none hnNew]
    | noTried hnNew hnTried => rwa [reading_some hnNew, reading_none hnTried]
    | noBuckets hnNew hnTried hbuckets =>
      rwa [reading_some hnNew, reading_some hnTried, reading_none hbuckets]
    | @entries nNew nTried nUBuckets rest₁ rest₂ rest₃ rest₄ rest₅ new tried hnNew hnTried hbuckets
        hnew htried hsound hcut =>
      rw [reading_some hnNew, reading_some hnTried, reading_some hbuckets]
      have hnodup := hsound.addr
      rw [List.map_append] at hnodup
      obtain ⟨hnodupNew, hnodupTried, hdisjoint⟩ := List.nodup_append.mp hnodup
      obtain ⟨t₁, ht₁, hload₁, hframe₁, hvvTried₁, haddr₁⟩ :=
        (loading_start hashes k nNew nTried).readNewEntries
          (decide (v = 1 ∧ bucketCount v nUBuckets = ADDRMAN_NEW_BUCKET_COUNT)) hnew
          hsound.newTime hnodupNew fun _ _ => rfl
      have hnNew₁ : t₁.nNew = nNew := hframe₁.nNew
      have hkey₁ : t₁.nKey = k := hframe₁.nKey
      rw [Nat.zero_add] at hload₁
      let u : CAddrMan := { t₁ with nIdCount := t₁.nNew.toNat }
      have hloadu : Loading hashes nNew 0 u := ⟨hload₁.inv, hload₁.new⟩
      have hcount : u.nIdCount = nNew + 0 := by
        show t₁.nNew.toNat = nNew
        rw [hnNew₁, Int.toNat_natCast]
      have htaken : ∀ slot, u.vvTried slot = none ↔ slot ∉ (∅ : Finset TriedSlot) := by
        simp [u, hvvTried₁, of]
      have hkeyu : u.nKey = k := hkey₁
      have haddr : ∀ info ∈ keptTried hashes u.nKey tried ∅, u.mapAddr.lookup info.ip = none := by
        intro info hinfo
        rw [hkeyu] at hinfo
        refine haddr₁ info.ip (fun hmem => ?_) rfl
        exact hdisjoint _ hmem _ (List.mem_map_of_mem hinfo) rfl
      have hsum : u.nTried = ((0 : ℕ) : ℤ) + ((0 : ℕ) : ℤ) + nTried := by
        show t₁.nTried = _
        rw [hframe₁.nTried]
        simp
      obtain ⟨t₂, c, ht₂, hload₂, hcount₂, hnTried₂, hnNew₂, hkey₂⟩ :=
        hloadu.readTriedEntries hcount htaken htried (by rw [hkeyu]; exact hsound.triedTime)
          (by rw [hkeyu]; exact hnodupTried) haddr hsum
      have hwaiting : Waiting hashes nNew t₂ := by
        refine ⟨?_, hnNew₂.trans hnNew₁, hload₂.new⟩
        have hinv := hload₂.inv
        have hbehind : (nNew : ℤ) - t₂.nNew = 0 := by
          rw [hnNew₂]
          show (nNew : ℤ) - t₁.nNew = 0
          omega
        rw [hbehind, ← hcount₂, ← hnTried₂] at hinv
        exact hinv
      have hfinish := hwaiting.finish (by rw [hkey₂, hkey₁]; exact hne)
        (decide (v = 1 ∧ bucketCount v nUBuckets = ADDRMAN_NEW_BUCKET_COUNT)) hcut
      have hsign : ¬ t₁.nNew < 0 := by omega
      refine (congrArg (EndsWell hashes) (andThen_eq ht₁ _)).mpr ?_
      rw [if_neg hsign]
      have hcountTried : t₁.nTried.toNat = nTried := by
        rw [hframe₁.nTried]
        rfl
      rw [hcountTried]
      exact (congrArg (EndsWell hashes) (andThen_eq ht₂ _)).mpr hfinish

end CAddrMan

end Stonecoin
