/-
The address and spent indexes of the memory pool over whole runs: transactions are added with
`addUnchecked`, `addAddressIndex` and `addSpentIndex`, and leave the pool by any route.

`removeUnchecked` takes the entries of a transaction out of the indexes.  `clear` does not: it
leaves `mapAddress`, `mapSpent` and the lists of their keys as they are.

  * `mirrors`: the indexes mirror the pool while only an empty pool is cleared;
  * `clear_stale`: the entries that `clear` leaves.
-/
import Stonecoin.MemPoolRemoval

namespace Stonecoin
namespace IndexedPool

/-! ### Runs -/

/-- A transaction that is added, with its entry and the view of the coins that it spends. -/
structure Addition where
  entry : CTxMemPoolEntry
  time : ℤ
  view : CCoinsViewCache
  setAncestors : Finset UInt256

inductive PoolEvent
  | add (a : Addition)
  | remove (tx : CTransaction) (fRecursive : Bool)
  | removeForBlock (vtx : List CTransaction)
  | removeConflicts (tx : CTransaction)
  | expire (time : ℤ)
  | trimToSize (sizelimit : ℕ)
  | clear

/-- What the callers of `addUnchecked` have checked: the transaction is not in the pool, its
inputs spend different outputs, and no transaction of the pool spends one of them. -/
structure Addable (pool : IndexedPool) (tx : CTransaction) : Prop where
  absent : tx.hash ∉ pool.mapTx
  inputs : (tx.vin.map CTxIn.prevout).Nodup
  unspent : ∀ i ∈ tx.vin, i.prevout ∉ pool.mapNextTx

/-- `addUnchecked`, `addAddressIndex` and `addSpentIndex`, one after the other. -/
def add (order : EntryOrder) (pool : IndexedPool) (a : Addition) : Option IndexedPool := do
  let tx := a.entry.tx
  let core ← pool.addUnchecked order tx.hash a.entry a.setAncestors
  let pool := { pool with
    toCTxMemPool := core
    times := OrderedMaps.insertAbsent pool.times ⟨tx.hash, a.time⟩ }
  let pool ← pool.addAddressIndex tx a.time a.view
  pool.addSpentIndex tx a.view

theorem add_spec {order : EntryOrder} {pool pool' : IndexedPool} {a : Addition}
    (h : pool.add order a = some pool') :
    pool.addUnchecked order a.entry.tx.hash a.entry a.setAncestors = some pool'.toCTxMemPool ∧
      ∃ prevouts, getOutputsFor a.view a.entry.tx.vin = some prevouts ∧
        pool'.address = pool.address.add a.entry.tx.hash
          (addressEntries a.entry.tx a.time prevouts) ∧
        pool'.spent = pool.spent.add a.entry.tx.hash (spentEntries a.entry.tx prevouts) := by
  simp only [add, Option.bind_eq_bind, Option.bind_eq_some_iff] at h
  obtain ⟨core, hcore, pool₁, haddress, hspent⟩ := h
  obtain ⟨prevouts, hprevouts, rfl⟩ := Option.map_eq_some_iff.mp haddress
  obtain ⟨prevouts', hprevouts', rfl⟩ := Option.map_eq_some_iff.mp hspent
  obtain rfl := Option.some.inj (hprevouts.symm.trans hprevouts')
  exact ⟨hcore, prevouts, hprevouts, rfl, rfl⟩

def Step (order : EntryOrder) (env : TrimEnv) (pool : IndexedPool) (event : PoolEvent)
    (pool' : IndexedPool) : Prop :=
  match event with
  | .add a => pool.Addable a.entry.tx ∧ pool.add order a = some pool'
  | .remove tx fRecursive => ∃ removed removed', Remove order tx fRecursive ⟨pool, removed⟩
      ⟨pool', removed'⟩
  | .removeForBlock vtx => ∃ conflicts conflicts', RemoveForBlock order vtx ⟨pool, conflicts⟩
      ⟨pool', conflicts'⟩
  | .removeConflicts tx => ∃ removed removed', RemoveConflicts order tx ⟨pool, removed⟩
      ⟨pool', removed'⟩
  | .expire time => ∃ removed, Expire order time pool pool' removed
  | .trimToSize sizelimit => ∃ noSpends noSpends', TrimToSize order env sizelimit
      (pool, noSpends) (pool', noSpends')
  | .clear => pool' = pool.clear

/-- The pools that are reached from the empty one by steps that are allowed, with what has
happened, the last event first. -/
inductive Reached (order : EntryOrder) (env : TrimEnv) (allowed : IndexedPool → PoolEvent → Prop) :
    List PoolEvent → IndexedPool → Prop
  | start : Reached order env allowed [] .empty
  | step {events : List PoolEvent} {pool pool' : IndexedPool} {event : PoolEvent} :
    Reached order env allowed events pool → allowed pool event → Step order env pool event pool' →
    Reached order env allowed (event :: events) pool'

def lastAddition : List PoolEvent → UInt256 → Option Addition
  | [], _ => none
  | .add a :: events, h => if a.entry.tx.hash = h then some a else lastAddition events h
  | _ :: events, h => lastAddition events h

/-! ### The entries of the pool -/

namespace Addition

variable (a : Addition)

def prevouts : List CTxOut := (getOutputsFor a.view a.entry.tx.vin).getD []

/-- An entry for each input or output that has an address. -/
def address : List (Σ _ : CMempoolAddressDeltaKey, CMempoolAddressDelta) :=
  addressEntries a.entry.tx a.time a.prevouts

def spent : List (Σ _ : CSpentIndexKey, CSpentIndexValue) := spentEntries a.entry.tx a.prevouts

end Addition

/-- The indexes mirror the pool.  The transactions of the pool are ones that were added, each with
outputs for all of its inputs; the indexes hold their entries and nothing else, and the lookup of
addresses finds those of each address. -/
structure Mirrored (events : List PoolEvent) (pool : IndexedPool) : Prop where
  added : ∀ h tx, pool.txOf h = some tx → ∃ a, lastAddition events h = some a ∧ a.entry.tx = tx ∧
    tx.hash = h ∧ a.prevouts.length = tx.vin.length
  address : pool.address.entries.entries.Perm
    (pool.mapTx.keys.flatMap fun h => ((lastAddition events h).map Addition.address).getD [])
  spent : pool.spent.entries.entries.Perm
    (pool.mapTx.keys.flatMap fun h => ((lastAddition events h).map Addition.spent).getD [])
  lookup : ∀ addresses, pool.getAddressIndex addresses = addresses.flatMap fun it =>
    (iterate CMempoolAddressDeltaKey.lt pool.address.entries).filter fun e => ofAddress it e.1

/-! ### Entries of a transaction -/

section Entries

variable {tx tx' : CTransaction} {time time' : ℤ} {prevouts prevouts' : List CTxOut}

theorem of_inputDelta {input : CTxIn} {prevout : CTxOut} {j : ℕ}
    {e : Σ _ : CMempoolAddressDeltaKey, CMempoolAddressDelta}
    (h : inputDelta tx.hash time input prevout j = some e) :
    e.1.txhash = tx.hash ∧ e.1.index = j ∧ e.1.spending = 1 := by
  obtain ⟨_, -, rfl⟩ := Option.map_eq_some_iff.mp h
  exact ⟨rfl, rfl, rfl⟩

theorem of_outputDelta {out : CTxOut} {k : ℕ}
    {e : Σ _ : CMempoolAddressDeltaKey, CMempoolAddressDelta}
    (h : outputDelta tx.hash time out k = some e) :
    e.1.txhash = tx.hash ∧ e.1.index = k ∧ e.1.spending = 0 := by
  obtain ⟨_, -, rfl⟩ := Option.map_eq_some_iff.mp h
  exact ⟨rfl, rfl, rfl⟩

theorem of_mem_addressEntries {e : Σ _ : CMempoolAddressDeltaKey, CMempoolAddressDelta}
    (h : e ∈ addressEntries tx time prevouts) : e.1.txhash = tx.hash ∧ 0 ≤ e.1.spending := by
  rcases List.mem_append.mp h with he | he
  · obtain ⟨i, -, hi⟩ := List.mem_filterMap.mp he
    obtain ⟨hhash, -, hspending⟩ := of_inputDelta hi
    exact ⟨hhash, by omega⟩
  · obtain ⟨o, -, ho⟩ := List.mem_filterMap.mp he
    obtain ⟨hhash, -, hspending⟩ := of_outputDelta ho
    exact ⟨hhash, by omega⟩

theorem nodup_filterMap_zipIdx {α K V : Type} {f : α × ℕ → Option (Σ _ : K, V)} (place : K → ℕ)
    (hplace : ∀ x e, f x = some e → place e.1 = x.2) :
    ∀ (l : List α) (n : ℕ), (((l.zipIdx n).filterMap f).map Sigma.fst).Nodup := by
  have hge : ∀ (l : List α) (n : ℕ), ∀ e ∈ (l.zipIdx n).filterMap f, n ≤ place e.1 := by
    intro l n e he
    obtain ⟨x, hx, hf⟩ := List.mem_filterMap.mp he
    rw [hplace x e hf]
    exact List.le_snd_of_mem_zipIdx hx
  intro l
  induction l with
  | nil => exact fun _ => List.nodup_nil
  | cons a l ih =>
    intro n
    rw [List.zipIdx_cons, List.filterMap_cons]
    cases hf : f (a, n) with
    | none => exact ih (n + 1)
    | some e =>
      refine List.nodup_cons.mpr ⟨fun hmem => ?_, ih (n + 1)⟩
      obtain ⟨e', he', heq⟩ := List.mem_map.mp hmem
      have hlater := hge l (n + 1) e' he'
      rw [heq, hplace _ e hf] at hlater
      omega

theorem nodupKeys_addressEntries : (addressEntries tx time prevouts).NodupKeys := by
  have hin := nodup_filterMap_zipIdx CMempoolAddressDeltaKey.index
    (fun i e (h : inputDelta tx.hash time i.1.1 i.1.2 i.2 = some e) => (of_inputDelta h).2.1)
    (tx.vin.zip prevouts) 0
  have hout := nodup_filterMap_zipIdx CMempoolAddressDeltaKey.index
    (fun o e (h : outputDelta tx.hash time o.1 o.2 = some e) => (of_outputDelta h).2.1) tx.vout 0
  show ((addressEntries tx time prevouts).map Sigma.fst).Nodup
  rw [addressEntries, List.map_append]
  refine hin.append hout fun k hk hk' => ?_
  -- the keys of inputs and outputs differ in `spending`
  obtain ⟨e, he, rfl⟩ := List.mem_map.mp hk
  obtain ⟨e', he', heq⟩ := List.mem_map.mp hk'
  obtain ⟨i, -, hi⟩ := List.mem_filterMap.mp he
  obtain ⟨o, -, ho⟩ := List.mem_filterMap.mp he'
  have hone := (of_inputDelta hi).2.2
  rw [← heq, (of_outputDelta ho).2.2] at hone
  exact absurd hone (by decide)

theorem keys_spentEntries (hlength : prevouts.length = tx.vin.length) :
    (spentEntries tx prevouts).keys =
      (tx.vin.map CTxIn.prevout).map fun o => (⟨o.hash, o.n⟩ : CSpentIndexKey) := by
  have hkeys : ∀ (l : List (CTxIn × CTxOut)) (n : ℕ),
      ((l.zipIdx n).map fun i => spentEntry tx.hash i.1.1 i.1.2 i.2).keys =
        l.map fun i => (⟨i.1.prevout.hash, i.1.prevout.n⟩ : CSpentIndexKey) := by
    intro l
    induction l with
    | nil => exact fun _ => rfl
    | cons i l ih =>
      intro n
      rw [List.zipIdx_cons, List.map_cons, List.keys_cons, ih, List.map_cons]
      rfl
  rw [spentEntries, hkeys, List.map_map]
  have hfst : (tx.vin.zip prevouts).map Prod.fst = tx.vin := List.map_fst_zip (by omega)
  conv_rhs => rw [← hfst]
  rw [List.map_map]
  rfl

theorem length_getOutputsFor {view : CCoinsViewCache} : ∀ {vin : List CTxIn} {prevouts : List CTxOut},
    getOutputsFor view vin = some prevouts → prevouts.length = vin.length := by
  intro vin
  induction vin with
  | nil =>
    intro prevouts h
    rw [← Option.some.inj h]
    rfl
  | cons i vin ih =>
    intro prevouts h
    rw [getOutputsFor] at h
    split at h
    · next hrest =>
      rw [← Option.some.inj h, List.length_cons, List.length_cons, ih hrest]
    · cases h

end Entries

/-! ### The invariant -/

variable {order : EntryOrder} {env : TrimEnv} {added : UInt256 → Option Addition}
  {pool pool' : IndexedPool} {s s' : Removal}

def live (pool : IndexedPool) (added : UInt256 → Option Addition) (h : UInt256) : Option Addition :=
  (pool.txOf h).bind fun _ => added h

/-- The invariant, for the last additions of the transactions. -/
structure Inv (added : UInt256 → Option Addition) (pool : IndexedPool) : Prop where
  known : ∀ h tx, pool.txOf h = some tx → ∃ a, added h = some a ∧ a.entry.tx = tx ∧ tx.hash = h ∧
    a.prevouts.length = tx.vin.length
  recorded : ∀ h tx, pool.txOf h = some tx → ∀ i ∈ tx.vin, i.prevout ∈ pool.mapNextTx
  address : pool.address.Lists fun h => (pool.live added h).map Addition.address
  spent : pool.spent.Lists fun h => (pool.live added h).map Addition.spent

namespace Inv

theorem empty (added : UInt256 → Option Addition) : Inv added .empty where
  known h tx htx := absurd htx (by simp [IndexedPool.empty, CTxMemPool.empty, CTxMemPool.txOf])
  recorded h tx htx := absurd htx (by simp [IndexedPool.empty, CTxMemPool.empty, CTxMemPool.txOf])
  address := ListedIndex.Lists.empty
  spent := ListedIndex.Lists.empty

theorem same (h : Inv added pool) (hsame : CTxMemPool.SameTxs pool.toCTxMemPool pool'.toCTxMemPool)
    (haddress : pool'.address = pool.address) (hspent : pool'.spent = pool.spent) :
    Inv added pool' := by
  have hlive : pool'.live added = pool.live added := by
    funext x
    rw [live, live, hsame.txOf x]
  constructor
  · intro x tx htx
    rw [hsame.txOf x] at htx
    exact h.known x tx htx
  · intro x tx htx
    rw [hsame.txOf x] at htx
    rw [hsame.nextTx]
    exact h.recorded x tx htx
  · rw [haddress, hlive]
    exact h.address
  · rw [hspent, hlive]
    exact h.spent

theorem live_eq (h : Inv added pool) {x : UInt256} {tx : CTransaction}
    (htx : pool.txOf x = some tx) : ∃ a, pool.live added x = some a ∧ a.entry.tx = tx ∧
      tx.hash = x ∧ a.prevouts.length = tx.vin.length := by
  obtain ⟨a, ha, hrest⟩ := h.known x tx htx
  refine ⟨a, ?_, hrest⟩
  rw [live, htx]
  exact ha

theorem of_live (h : Inv added pool) {x : UInt256} {a : Addition}
    (ha : pool.live added x = some a) : pool.txOf x = some a.entry.tx ∧ a.entry.tx.hash = x ∧
      a.prevouts.length = a.entry.tx.vin.length := by
  obtain ⟨tx, htx, hadded⟩ := Option.bind_eq_some_iff.mp ha
  obtain ⟨a', ha', rfl, hhash, hlength⟩ := h.known x tx htx
  obtain rfl := Option.some.inj (ha'.symm.trans hadded)
  exact ⟨htx, hhash, hlength⟩

theorem prevouts_apart (h : Inv added pool) {x y : UInt256} {tx tx' : CTransaction}
    (hx : pool.txOf x = some tx) (hy : pool.txOf y = some tx') (hne : x ≠ y) {o : COutPoint}
    (ho : o ∈ tx.vin.map CTxIn.prevout) : o ∉ tx'.vin.map CTxIn.prevout := by
  intro ho'
  obtain ⟨a, ha, rfl, -, hlength⟩ := h.live_eq hx
  obtain ⟨a', ha', rfl, -, hlength'⟩ := h.live_eq hy
  have hkeys : ∀ b : Addition, b.prevouts.length = b.entry.tx.vin.length →
      o ∈ b.entry.tx.vin.map CTxIn.prevout → (⟨o.hash, o.n⟩ : CSpentIndexKey) ∈ b.spent.keys := by
    intro b hb hmem
    rw [Addition.spent, keys_spentEntries hb]
    exact List.mem_map_of_mem hmem
  exact h.spent.apart x a.spent y a'.spent (by rw [ha]; rfl) (by rw [ha']; rfl) hne _
    (hkeys a hlength ho) (hkeys a' hlength' ho')

theorem removeUnchecked (h : Inv added pool) {it : UInt256}
    (hremove : pool.removeUnchecked it = some pool') : Inv added pool' := by
  obtain ⟨tx, htx, hmapTx, hnextTx, haddress, hspent⟩ := removeUnchecked_spec hremove
  obtain ⟨-, -, -, rfl, -⟩ := h.known it tx htx
  have htxOf : ∀ x, pool'.txOf x = Function.update pool.txOf tx.hash none x := by
    intro x
    rw [CTxMemPool.txOf, hmapTx]
    by_cases hx : x = tx.hash
    · rw [hx, AList.lookup_erase, Function.update_self]
      rfl
    · rw [AList.lookup_erase_ne hx, Function.update_of_ne hx]
      rfl
  have hold : ∀ x tx', pool'.txOf x = some tx' → x ≠ tx.hash ∧ pool.txOf x = some tx' := by
    intro x tx' hx
    rw [htxOf x] at hx
    by_cases hne : x = tx.hash
    · rw [hne, Function.update_self] at hx
      cases hx
    · rw [Function.update_of_ne hne] at hx
      exact ⟨hne, hx⟩
  have hlive : ∀ {V : Type} (f : Addition → V) (x : UInt256), (pool'.live added x).map f =
      Function.update (fun y => (pool.live added y).map f) tx.hash none x := by
    intro V f x
    rw [live, htxOf x]
    by_cases hx : x = tx.hash
    · rw [hx, Function.update_self, Function.update_self]
      rfl
    · rw [Function.update_of_ne hx, Function.update_of_ne hx]
      rfl
  constructor
  · exact fun x tx' hx => h.known x tx' (hold x tx' hx).2
  · -- what the others spend stays recorded
    intro x tx' hx i hi
    obtain ⟨hne, hx⟩ := hold x tx' hx
    have hrecorded := h.recorded x tx' hx i hi
    rw [hnextTx, ← AList.lookup_isSome, MapMerge.lookup_foldl_erase,
      if_neg (h.prevouts_apart hx htx hne (List.mem_map_of_mem hi)), AList.lookup_isSome]
    exact hrecorded
  · rw [haddress]
    exact (h.address.remove tx.hash).congr (hlive Addition.address)
  · rw [hspent]
    exact (h.spent.remove tx.hash).congr (hlive Addition.spent)

theorem add (h : Inv added pool) {a : Addition} (haddable : pool.Addable a.entry.tx)
    (hadd : pool.add order a = some pool') :
    Inv (Function.update added a.entry.tx.hash (some a)) pool' := by
  obtain ⟨hcore, prevouts, hprevouts, haddress, hspent⟩ := add_spec hadd
  obtain ⟨htxOf, hnextTx⟩ := CTxMemPool.addUnchecked_txs haddable.absent hcore
  have hprevouts' : a.prevouts = prevouts := by
    rw [Addition.prevouts, hprevouts]
    rfl
  have hlength : a.prevouts.length = a.entry.tx.vin.length := by
    rw [hprevouts']
    exact length_getOutputsFor hprevouts
  have hnew : pool.txOf a.entry.tx.hash = none := by
    rw [CTxMemPool.txOf, AList.lookup_eq_none.mpr haddable.absent]
    rfl
  have hlive : ∀ {V : Type} (f : Addition → V) (x : UInt256),
      (pool'.live (Function.update added a.entry.tx.hash (some a)) x).map f =
        Function.update (fun y => (pool.live added y).map f) a.entry.tx.hash (some (f a)) x := by
    intro V f x
    rw [live, htxOf x]
    by_cases hx : x = a.entry.tx.hash
    · rw [hx, Function.update_self, Function.update_self, Function.update_self]
      rfl
    · rw [Function.update_of_ne hx, Function.update_of_ne hx, Function.update_of_ne hx]
      rfl
  have hcases : ∀ x tx, pool'.txOf x = some tx → x = a.entry.tx.hash ∧ tx = a.entry.tx ∨
      x ≠ a.entry.tx.hash ∧ pool.txOf x = some tx := by
    intro x tx hx
    rw [htxOf x] at hx
    by_cases hne : x = a.entry.tx.hash
    · rw [hne, Function.update_self] at hx
      exact .inl ⟨hne, (Option.some.inj hx).symm⟩
    · rw [Function.update_of_ne hne] at hx
      exact .inr ⟨hne, hx⟩
  have hnone : ∀ {V : Type} (f : Addition → V), (pool.live added a.entry.tx.hash).map f = none := by
    intro V f
    rw [live, hnew]
    rfl
  constructor
  · intro x tx hx
    rcases hcases x tx hx with ⟨rfl, rfl⟩ | ⟨hne, hx⟩
    · exact ⟨a, Function.update_self .., rfl, rfl, hlength⟩
    · rw [Function.update_of_ne hne]
      exact h.known x tx hx
  · intro x tx hx i hi
    rw [hnextTx, CTxMemPool.mem_recordInputs]
    rcases hcases x tx hx with ⟨rfl, rfl⟩ | ⟨-, hx⟩
    · exact .inl (List.mem_map_of_mem hi)
    · exact .inr (h.recorded x tx hx i hi)
  · rw [haddress, ← hprevouts']
    refine (h.address.add (hnone Addition.address) nodupKeys_addressEntries ?_).congr
      (hlive Addition.address)
    -- the keys name the transactions that they are of
    intro x es hes k hk hk'
    obtain ⟨b, hb, rfl⟩ := Option.map_eq_some_iff.mp hes
    obtain ⟨e, he, rfl⟩ := List.mem_map.mp hk
    obtain ⟨e', he', heq⟩ := List.mem_map.mp hk'
    obtain ⟨hbx, hbhash, -⟩ := h.of_live hb
    have hsame : a.entry.tx.hash = x := by
      rw [← (of_mem_addressEntries he).1, ← heq, (of_mem_addressEntries he').1, hbhash]
    rw [← hsame, hnew] at hbx
    cases hbx
  · rw [hspent, ← hprevouts']
    have hnodup : a.spent.NodupKeys := by
      rw [List.NodupKeys, Addition.spent, keys_spentEntries hlength]
      refine haddable.inputs.map fun o o' heq => ?_
      cases o
      cases o'
      cases heq
      rfl
    refine (h.spent.add (hnone Addition.spent) hnodup ?_).congr (hlive Addition.spent)
    -- the outputs that are spent are not recorded yet
    intro x es hes k hk hk'
    obtain ⟨b, hb, rfl⟩ := Option.map_eq_some_iff.mp hes
    obtain ⟨hbx, -, hblength⟩ := h.of_live hb
    rw [Addition.spent, keys_spentEntries hlength, List.map_map] at hk
    rw [Addition.spent, keys_spentEntries hblength, List.map_map] at hk'
    obtain ⟨i, hi, rfl⟩ := List.mem_map.mp hk
    obtain ⟨j, hj, heq⟩ := List.mem_map.mp hk'
    have hsame : j.prevout = i.prevout := by
      simp only [Function.comp, CSpentIndexKey.mk.injEq] at heq
      show COutPoint.mk j.prevout.hash j.prevout.n = i.prevout
      rw [heq.1, heq.2]
    exact haddable.unspent i hi (hsame ▸ h.recorded x _ hbx j hj)

/-! ### The routes -/

theorem removeStaged (h : Inv added pool) {stage : Finset UInt256}
    (hremove : RemoveStaged order stage pool pool') : Inv added pool' := by
  obtain ⟨core, hcore, hloop⟩ := hremove
  exact hloop.keep (I := Inv added) (fun _ _ _ hstep hs => hs.removeUnchecked hstep)
    (h.same hcore.sameTxs rfl rfl)

theorem clearPrioritisation (h : Inv added pool) (hash : UInt256) :
    Inv added (pool.clearPrioritisation hash) :=
  h.same ⟨fun _ => rfl, rfl⟩ rfl rfl

theorem remove (h : Inv added s.pool) {tx : CTransaction} {fRecursive : Bool}
    (hremove : Remove order tx fRecursive s s') : Inv added s'.pool := by
  obtain ⟨setAllRemoves, txs, -, -, -, hstaged⟩ := hremove
  exact h.removeStaged hstaged

theorem conflictPass (h : Inv added s.pool) {tx : CTransaction} {txin : CTxIn}
    (hpass : ConflictPass order tx txin s s') : Inv added s'.pool := by
  unfold ConflictPass at hpass
  split at hpass
  · exact hpass ▸ h
  · dsimp only at hpass
    split_ifs at hpass
    · exact hpass ▸ h
    · obtain ⟨s₁, hremove, rfl⟩ := hpass
      exact (h.remove hremove).clearPrioritisation _

theorem removeConflicts (h : Inv added s.pool) {tx : CTransaction}
    (hremove : RemoveConflicts order tx s s') : Inv added s'.pool :=
  hremove.keep (I := fun s => Inv added s.pool) (fun _ _ _ hpass hs => hs.conflictPass hpass) h

theorem removeForBlock (h : Inv added s.pool) {vtx : List CTransaction}
    (hremove : RemoveForBlock order vtx s s') : Inv added s'.pool := by
  refine hremove.keep (I := fun s => Inv added s.pool) (fun tx s s' hpass hs => ?_) h
  obtain ⟨s₁, s₂, hfirst, hconflicts, rfl⟩ := hpass
  have h₁ : Inv added s₁.pool := Inv.remove (s := ⟨s.pool, []⟩) hs hfirst
  have h₂ : Inv added s₂.pool := Inv.removeConflicts (s := ⟨s₁.pool, s.removed⟩) h₁ hconflicts
  exact h₂.clearPrioritisation tx.hash

theorem expire (h : Inv added pool) {time : ℤ} {removed : ℕ}
    (hexpire : Expire order time pool pool' removed) : Inv added pool' := by
  obtain ⟨stage, -, hstaged, -⟩ := hexpire
  exact h.removeStaged hstaged

theorem trimToSize {sizelimit : ℕ} {t t' : IndexedPool × List UInt256} (h : Inv added t.1)
    (htrim : TrimToSize order env sizelimit t t') : Inv added t'.1 := by
  induction htrim with
  | fits _ => exact h
  | pass _ hpass _ ih =>
    obtain ⟨it, stage, txn, -, -, -, hstaged, -⟩ := hpass
    exact ih (h.removeStaged hstaged)

theorem clear (h : Inv added pool) (hempty : pool.mapTx.keys = []) : Inv added pool.clear := by
  have hold : ∀ x, pool.txOf x = none := by
    intro x
    have habsent : x ∉ pool.mapTx := by
      rw [AList.mem_keys, hempty]
      exact List.not_mem_nil
    rw [CTxMemPool.txOf, AList.lookup_eq_none.mpr habsent]
    rfl
  have hnew : ∀ x, pool.clear.txOf x = none := fun _ => rfl
  have hlive : pool.clear.live added = pool.live added := by
    funext x
    rw [live, live, hnew, hold]
  constructor
  · intro x tx hx
    rw [hnew x] at hx
    cases hx
  · intro x tx hx
    rw [hnew x] at hx
    cases hx
  · rw [hlive]
    exact h.address
  · rw [hlive]
    exact h.spent

theorem step {events : List PoolEvent} {event : PoolEvent} (h : Inv (lastAddition events) pool)
    (hclear : event = .clear → pool.mapTx.keys = []) (hstep : Step order env pool event pool') :
    Inv (lastAddition (event :: events)) pool' := by
  cases event with
  | add a =>
    obtain ⟨haddable, hadd⟩ := hstep
    have hlast : lastAddition (.add a :: events) =
        Function.update (lastAddition events) a.entry.tx.hash (some a) := by
      funext x
      rw [lastAddition, Function.update_apply]
      exact if_congr eq_comm rfl rfl
    rw [hlast]
    exact h.add haddable hadd
  | remove tx fRecursive =>
    obtain ⟨removed, removed', hremove⟩ := hstep
    exact Inv.remove (s := ⟨pool, removed⟩) h hremove
  | removeForBlock vtx =>
    obtain ⟨conflicts, conflicts', hremove⟩ := hstep
    exact Inv.removeForBlock (s := ⟨pool, conflicts⟩) h hremove
  | removeConflicts tx =>
    obtain ⟨removed, removed', hremove⟩ := hstep
    exact Inv.removeConflicts (s := ⟨pool, removed⟩) h hremove
  | expire time =>
    obtain ⟨removed, hexpire⟩ := hstep
    exact h.expire hexpire
  | trimToSize sizelimit =>
    obtain ⟨noSpends, noSpends', htrim⟩ := hstep
    exact Inv.trimToSize (t := (pool, noSpends)) h htrim
  | clear =>
    obtain rfl : pool' = pool.clear := hstep
    exact h.clear (hclear rfl)

theorem entries_perm {K V : Type} [DecidableEq K] {index : ListedIndex UInt256 K V}
    {f : Addition → List (Σ _ : K, V)} (h : Inv added pool)
    (hlists : index.Lists fun x => (pool.live added x).map f) :
    index.entries.entries.Perm
      (pool.mapTx.keys.flatMap fun x => ((added x).map f).getD []) := by
  have hkeys : ∀ x es, (pool.live added x).map f = some es → x ∈ pool.mapTx.keys := by
    intro x es hes
    obtain ⟨a, ha, -⟩ := Option.map_eq_some_iff.mp hes
    obtain ⟨e, he, -⟩ := CTxMemPool.txOf_eq_some.mp (h.of_live ha).1
    exact AList.mem_keys.mp (OrderedMaps.mem_of_lookup he)
  have hperm := hlists.perm pool.mapTx.nodupKeys hkeys
  have hsame : (pool.mapTx.keys.flatMap fun x => ((pool.live added x).map f).getD []) =
      pool.mapTx.keys.flatMap fun x => ((added x).map f).getD [] := by
    refine List.flatMap_congr fun x hx => ?_
    obtain ⟨e, he⟩ := Option.isSome_iff_exists.mp (AList.lookup_isSome.mpr (AList.mem_keys.mpr hx))
    rw [live, CTxMemPool.txOf, he]
    rfl
  exact hsame ▸ hperm

theorem mirrored {events : List PoolEvent} (h : Inv (lastAddition events) pool) :
    Mirrored events pool where
  added x tx hx := by
    obtain ⟨a, ha, rfl, hhash, hlength⟩ := h.known x tx hx
    exact ⟨a, ha, rfl, hhash, hlength⟩
  address := h.entries_perm h.address
  spent := h.entries_perm h.spent
  lookup := by
    refine getAddressIndex_eq fun e he => ?_
    obtain ⟨x, es, hes, hmem⟩ := (h.address.entries e).mp he
    obtain ⟨a, -, rfl⟩ := Option.map_eq_some_iff.mp hes
    exact (of_mem_addressEntries hmem).2

end Inv

/-! ### Whole runs -/

/-- Only a pool without transactions is cleared. -/
def ClearsEmpty (pool : IndexedPool) (event : PoolEvent) : Prop :=
  event = .clear → pool.mapTx.keys = []

/-- **The indexes mirror the pool** in every state of a run that clears only empty pools. -/
theorem mirrors {events : List PoolEvent} (h : Reached order env ClearsEmpty events pool) :
    Mirrored events pool := by
  have hinv : Inv (lastAddition events) pool := by
    induction h with
    | start => exact .empty _
    | step _ hallowed hstep ih => exact ih.step hallowed hstep
  exact hinv.mirrored

def keyHashScript : CScript := [0x76, 0xa9, 0x14] ++ List.replicate 20 5 ++ [0x88, 0xac]

/-- A transaction that spends an output of a public key hash and makes one. -/
def paidAddition : Addition where
  entry := .of ⟨1, 1, [⟨⟨7, 0⟩, [], 4294967295⟩], [.of 900 keyHashScript], 0⟩ 100
  time := 1000
  view := .new (.db ⟨fun txid =>
    if txid = 7 then some (CCoins.cleaned ⟨false, [.of 1000 keyHashScript], 1, 1⟩) else none, 0⟩)
  setAncestors := ∅

def paidPool : IndexedPool := (empty.add .byNumber paidAddition).getD empty

theorem paidPool_step (env : TrimEnv) :
    Step .byNumber env empty (.add paidAddition) paidPool := by
  constructor
  · refine ⟨?_, by decide, ?_⟩
    · simp [empty, CTxMemPool.empty]
    · simp [empty, CTxMemPool.empty]
  · have hsome : (empty.add .byNumber paidAddition).isSome = true := by decide +kernel
    obtain ⟨pool, hpool⟩ := Option.isSome_iff_exists.mp hsome
    rw [paidPool, hpool]
    rfl

/-- Two entries for the addresses, one for the output that is spent. -/
theorem mirrors_paidPool : Mirrored [.add paidAddition] paidPool ∧
    paidPool.address.entries.entries.length = 2 ∧ paidPool.spent.entries.entries.length = 1 := by
  refine ⟨?_, by decide +kernel, by decide +kernel⟩
  have hstep := paidPool_step ⟨fun _ => 0, fun _ => none⟩
  exact mirrors (.step .start (fun h => by cases h) hstep)

/-- **What `clear` leaves**: an empty pool, with the entries of what was in it. -/
theorem clear_stale : ∃ (env : TrimEnv) (events : List PoolEvent) (pool : IndexedPool),
    Reached .byNumber env (fun _ _ => True) events pool ∧ pool.mapTx.keys = [] ∧
      pool.address.entries.entries.length = 2 ∧ ¬ Mirrored events pool := by
  refine ⟨⟨fun _ => 0, fun _ => none⟩, [.clear, .add paidAddition], paidPool.clear,
    .step (.step .start trivial (paidPool_step _)) trivial rfl, rfl, ?_, ?_⟩
  · decide +kernel
  · intro h
    have hlength := h.address.length_eq
    revert hlength
    decide +kernel

end IndexedPool
end Stonecoin
