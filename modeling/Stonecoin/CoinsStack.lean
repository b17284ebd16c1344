/-
A stack of coin caches against flat coin maps.

The operations of the caches, on any layer where they are used on any layer and on the
top one where they are used there only, are the events of a run.  The abstract stack is
a list of flat maps, one for each view: a modification changes the top map, `Flush` of
a layer copies its map to the one below, and lookups change nothing.

`ModifyNewCoins` marks its entry FRESH without looking at the parent view, so an
operation within the contract of the source is not always sound
(`resurrected_after_modifyNewCoins`).
-/
import Stonecoin.CoinsCache
import Stonecoin.Runs

namespace Stonecoin

open Runs

/-! ### Operations -/

/-- An operation on a stack.  The layer is counted from the top; modifications happen
on the top cache, by a function from the coins found to the coins left. -/
inductive CoinsOp where
  | getCoins (layer : ℕ) (txid : UInt256)
  | accessCoins (layer : ℕ) (txid : UInt256)
  | haveCoins (layer : ℕ) (txid : UInt256)
  | uncache (layer : ℕ) (txid : UInt256)
  | flush (layer : ℕ)
  | modifyCoins (txid : UInt256) (f : CCoins → CCoins)
  | modifyNewCoins (txid : UInt256) (f : CCoins → CCoins)
  | pushCache
  | dropCache

inductive Answer where
  | coins (r : Option CleanCoins)
  | found (b : Bool)
  | done

def CCoinsView.atLayer (g : CCoinsView → Answer × CCoinsView) :
    ℕ → CCoinsView → Answer × CCoinsView
  | 0, v => g v
  | _ + 1, .db d => g (.db d)
  | k + 1, .cache base h m =>
    ((base.atLayer g k).1, .cache (base.atLayer g k).2 h m)

/-- Act on a cache; the database has none of these operations. -/
def onCache (g : CCoinsViewCache → Answer × CCoinsViewCache) : CCoinsView → Answer × CCoinsView
  | .db d => (.done, .db d)
  | .cache base h m => ((g ⟨base, h, m⟩).1, (g ⟨base, h, m⟩).2.toView)

/-- One operation of the source. -/
def CoinsOp.perform (v : CCoinsView) : CoinsOp → Answer × CCoinsView
  | .getCoins k t => v.atLayer (fun v => (.coins (v.getCoins t).1, (v.getCoins t).2)) k
  | .accessCoins k t =>
    v.atLayer (onCache fun c => (.coins (c.accessCoins t).1, (c.accessCoins t).2)) k
  | .haveCoins k t => v.atLayer (onCache fun c => (.found (c.haveCoins t).1, (c.haveCoins t).2)) k
  | .uncache k t => v.atLayer (onCache fun c => (.done, c.uncache t)) k
  | .flush k => v.atLayer (onCache fun c => (.done, c.flush)) k
  | .modifyCoins t f =>
    onCache (fun c =>
      let m := c.modifyCoins t
      (.done, m.release (f m.entry.coins.1))) v
  | .modifyNewCoins t f =>
    onCache (fun c =>
      let m := c.modifyNewCoins t
      (.done, m.release (f m.entry.coins.1))) v
  | .pushCache => (.done, (CCoinsViewCache.new v).toView)
  | .dropCache =>
    match v with
    | .db d => (.done, .db d)
    | .cache base _ _ => (.done, base)

def CoinsOp.after (v : CCoinsView) (op : CoinsOp) : CCoinsView := (op.perform v).2

/-! ### The flat maps -/

abbrev FlatMap := UInt256 → CCoins

inductive FlatAnswer where
  | coins (c : CCoins)
  | found (b : Bool)
  | done
deriving DecidableEq

/-- An answer with pruned coins counted as absent. -/
def Answer.shown : Answer → FlatAnswer
  | .coins r => .coins (shownCoins r)
  | .found b => .found b
  | .done => .done

def atFlatLayer (g : List FlatMap → FlatAnswer × List FlatMap) :
    ℕ → List FlatMap → FlatAnswer × List FlatMap
  | 0, Ms => g Ms
  | _ + 1, [] => (.done, [])
  | _ + 1, [M] => g [M]
  | k + 1, M :: Ms => ((atFlatLayer g k Ms).1, M :: (atFlatLayer g k Ms).2)

def onFlatCache (g : FlatMap → FlatMap → List FlatMap → FlatAnswer × List FlatMap) :
    List FlatMap → FlatAnswer × List FlatMap
  | M :: P :: Ms => g M P Ms
  | Ms => (.done, Ms)

/-- A modification of a flat map: the coins are cleaned up, pruned counts as absent. -/
def FlatMap.modify (M : FlatMap) (t : UInt256) (c : CCoins) : FlatMap :=
  Function.update M t c.cleanup.norm

def CoinsOp.performFlat (Ms : List FlatMap) : CoinsOp → FlatAnswer × List FlatMap
  | .getCoins k t =>
    atFlatLayer (fun Ms => (.coins (Ms.headD (fun _ => .empty) t), Ms)) k Ms
  | .accessCoins k t => atFlatLayer (onFlatCache fun M P Ms => (.coins (M t), M :: P :: Ms)) k Ms
  | .haveCoins k t =>
    atFlatLayer (onFlatCache fun M P Ms => (.found (M t ≠ .empty), M :: P :: Ms)) k Ms
  | .uncache k _ => atFlatLayer (onFlatCache fun M P Ms => (.done, M :: P :: Ms)) k Ms
  | .flush k => atFlatLayer (onFlatCache fun M _ Ms => (.done, M :: M :: Ms)) k Ms
  | .modifyCoins t f => onFlatCache (fun M P Ms => (.done, M.modify t (f (M t)) :: P :: Ms)) Ms
  | .modifyNewCoins t f =>
    onFlatCache (fun M P Ms => (.done, M.modify t (f .empty) :: P :: Ms)) Ms
  | .pushCache => (.done, Ms.headD (fun _ => .empty) :: Ms)
  | .dropCache => onFlatCache (fun _ P Ms => (.done, P :: Ms)) Ms

def CoinsOp.afterFlat (Ms : List FlatMap) (op : CoinsOp) : List FlatMap := (op.performFlat Ms).2

/-! ### The contract and the soundness of an operation -/

/-- The contract of the source: `ModifyNewCoins` is called for coins that are absent or
pruned in the view. -/
def CoinsOp.Contract (v : CCoinsView) : CoinsOp → Prop
  | .modifyNewCoins t _ => v.coinsAt t = .empty
  | _ => True

/-- The parent of the top cache shows no coins for an id that `ModifyNewCoins` is
called for. -/
def CoinsOp.NewToParent (v : CCoinsView) : CoinsOp → Prop
  | .modifyNewCoins t _ =>
    match v with
    | .db _ => True
    | .cache base _ _ => base.coinsAt t = .empty
  | _ => True

/-- A modification does not look at what pruned coins still hold: `operator==` makes
them all equal, and a cache may or may not remember it. -/
def CoinsOp.PrunedAsEmpty : CoinsOp → Prop
  | .modifyCoins _ f =>
    ∀ c : CCoins, c.isPruned = true → (f c).cleanup.norm = (f .empty).cleanup.norm
  | _ => True

/-- An operation within the contract whose FRESH mark is right. -/
structure CoinsOp.Sound (v : CCoinsView) (op : CoinsOp) : Prop where
  contract : op.Contract v
  newToParent : op.NewToParent v
  prunedAsEmpty : op.PrunedAsEmpty

/-! ### One operation -/

/-- An action on a view that answers and acts as `g'` does on the flat maps, without
changing what the view itself shows. -/
def Refines (g : CCoinsView → Answer × CCoinsView)
    (g' : List FlatMap → FlatAnswer × List FlatMap) : Prop :=
  ∀ v : CCoinsView, v.Coherent →
    (g v).1.shown = (g' v.maps).1 ∧ (g v).2.Coherent ∧
      (g v).2.maps = (g' v.maps).2 ∧ (g v).2.coinsAt = v.coinsAt

theorem Refines.acts {g : CCoinsView → Answer × CCoinsView}
    {g' : List FlatMap → FlatAnswer × List FlatMap} (h : Refines g g') {v : CCoinsView}
    (hv : v.Coherent) :
    (g v).1.shown = (g' v.maps).1 ∧ (g v).2.Coherent ∧ (g v).2.maps = (g' v.maps).2 :=
  ⟨(h v hv).1, (h v hv).2.1, (h v hv).2.2.1⟩

theorem Refines.atLayer {g : CCoinsView → Answer × CCoinsView}
    {g' : List FlatMap → FlatAnswer × List FlatMap} (hg : Refines g g') (k : ℕ) :
    Refines (fun v => v.atLayer g k) (atFlatLayer g' k) := by
  induction k with
  | zero =>
    intro v hv
    cases v <;> exact hg _ hv
  | succ k ih =>
    intro v hv
    cases v with
    | db d => exact hg _ hv
    | cache base h m =>
      obtain ⟨hans, hco, hmaps, hsh⟩ := ih base hv.2
      have htop : (CCoinsView.cache (base.atLayer g k).2 h m).coinsAt
          = (CCoinsView.cache base h m).coinsAt := by
        funext t
        simp only [coinsAt_cache, hsh]
      have hflat : atFlatLayer g' (k + 1) (CCoinsView.cache base h m).maps
          = ((atFlatLayer g' k base.maps).1,
              (CCoinsView.cache base h m).coinsAt :: (atFlatLayer g' k base.maps).2) := by
        rw [maps_cache, maps_eq_cons base]
        rfl
      refine ⟨?_, ⟨hsh ▸ hv.1, hco⟩, ?_, htop⟩
      · rw [hflat]
        exact hans
      · rw [hflat, ← hmaps, ← htop]
        rfl

theorem Refines.onCache {g : CCoinsViewCache → Answer × CCoinsViewCache}
    {a : FlatMap → FlatAnswer}
    (hg : ∀ c : CCoinsViewCache, c.toView.Coherent →
      (g c).1.shown = a c.toView.coinsAt ∧ Keeps c.toView (g c).2.toView) :
    Refines (onCache g) (onFlatCache fun M P Ms => (a M, M :: P :: Ms)) := by
  intro v hv
  cases v with
  | db d => exact ⟨rfl, trivial, rfl, rfl⟩
  | cache base h m =>
    obtain ⟨hans, hk⟩ := hg ⟨base, h, m⟩ hv
    have hmaps : (CCoinsView.cache base h m).maps
        = (CCoinsView.cache base h m).coinsAt :: base.coinsAt :: base.maps.tail := by
      rw [maps_cache, ← maps_eq_cons]
    refine ⟨?_, hk.coherent, ?_, hk.shows_eq⟩
    · rw [hmaps]
      exact hans
    · refine hk.maps_eq.trans ?_
      show (CCoinsView.cache base h m).maps = _
      rw [hmaps]
      rfl

theorem Refines.flush :
    Refines (Stonecoin.onCache fun c => (.done, c.flush))
      (onFlatCache fun M _ Ms => (.done, M :: M :: Ms)) := by
  intro v hv
  cases v with
  | db d => exact ⟨rfl, trivial, rfl, rfl⟩
  | cache base h m =>
    obtain ⟨hco, hmaps⟩ := flush_spec ⟨base, h, m⟩ hv
    have hpre : (CCoinsView.cache base h m).maps
        = (CCoinsView.cache base h m).coinsAt :: base.coinsAt :: base.maps.tail := by
      rw [maps_cache, ← maps_eq_cons]
    refine ⟨by rw [hpre]; rfl, hco, ?_, ?_⟩
    · rw [hpre]
      exact hmaps
    · rw [maps_eq_cons] at hmaps
      exact (List.cons.inj hmaps).1

theorem maps_of_modifies {base : CCoinsView} {h : UInt256} {m : CCoinsMap} {t : UInt256}
    {c : CCoins} {v' : CCoinsViewCache}
    (hmod : Modifies ⟨base, h, m⟩ t c.cleanup.norm v') :
    v'.toView.maps
      = FlatMap.modify (CCoinsView.cache base h m).coinsAt t c :: base.coinsAt
          :: base.maps.tail := by
  rw [← maps_eq_cons base]
  show v'.toView.coinsAt :: v'.base.maps = _
  rw [hmod.shows_eq, hmod.below_eq]
  rfl

theorem perform_spec (v : CCoinsView) (hv : v.Coherent) (op : CoinsOp) (hop : op.Sound v) :
    (op.perform v).1.shown = (op.performFlat v.maps).1 ∧ (op.perform v).2.Coherent ∧
      (op.perform v).2.maps = (op.performFlat v.maps).2 := by
  cases op with
  | getCoins k t =>
    refine Refines.acts (Refines.atLayer (fun w hw => ?_) k) hv
    obtain ⟨hans, hk⟩ := getCoins_spec t w hw
    refine ⟨?_, hk.coherent, hk.maps_eq, hk.shows_eq⟩
    rw [maps_eq_cons w]
    exact congrArg FlatAnswer.coins hans
  | accessCoins k t =>
    refine Refines.acts (Refines.atLayer (Refines.onCache fun c hc => ?_) k) hv
    obtain ⟨hans, hk⟩ := accessCoins_spec c t hc
    exact ⟨congrArg FlatAnswer.coins hans, hk⟩
  | haveCoins k t =>
    refine Refines.acts (Refines.atLayer (Refines.onCache fun c hc => ?_) k) hv
    obtain ⟨hans, hk⟩ := haveCoins_spec c t hc
    refine ⟨congrArg FlatAnswer.found ?_, hk⟩
    rw [Bool.eq_iff_iff, hans, decide_eq_true_iff]
  | uncache k t =>
    exact (Refines.atLayer (Refines.onCache fun c hc => ⟨rfl, uncache_spec c t hc⟩) k).acts hv
  | flush k => exact (Refines.atLayer Refines.flush k).acts hv
  | modifyCoins t f =>
    cases v with
    | db d => exact ⟨rfl, trivial, rfl⟩
    | cache base h m =>
      obtain ⟨hentry, hmod⟩ := modifyCoins_spec ⟨base, h, m⟩ t hv
      have hm := hmod (f ((CCoinsViewCache.modifyCoins ⟨base, h, m⟩ t).entry.coins.1))
      have hf : ∀ c : CCoins, (f c).cleanup.norm = (f c.norm).cleanup.norm := by
        intro c
        by_cases hp : c.isPruned = true
        · rw [hop.prunedAsEmpty c hp, CCoins.norm_eq_empty_iff.mpr hp]
        · rw [show c.norm = c from CCoins.norm_of_not_isPruned (by simpa using hp)]
      refine ⟨by rw [maps_cache, maps_eq_cons base]; rfl, hm.coherent, ?_⟩
      rw [maps_cache, maps_eq_cons base]
      refine (maps_of_modifies hm).trans ?_
      show _ = FlatMap.modify _ t (f ((CCoinsView.cache base h m).coinsAt t)) :: _
      unfold FlatMap.modify
      rw [hf, hentry]
      rfl
  | modifyNewCoins t f =>
    cases v with
    | db d => exact ⟨rfl, trivial, rfl⟩
    | cache base h m =>
      have hm := modifyNewCoins_spec ⟨base, h, m⟩ t hv hop.newToParent (f .empty)
      refine ⟨by rw [maps_cache, maps_eq_cons base]; rfl, hm.coherent, ?_⟩
      rw [maps_cache, maps_eq_cons base]
      exact maps_of_modifies hm
  | pushCache =>
    refine ⟨rfl, new_coherent hv, ?_⟩
    show (CCoinsViewCache.new v).toView.coinsAt :: v.maps = _
    rw [maps_eq_cons v]
    rfl
  | dropCache =>
    cases v with
    | db d => exact ⟨rfl, trivial, rfl⟩
    | cache base h m =>
      refine ⟨by rw [maps_cache, maps_eq_cons base]; rfl, hv.2, ?_⟩
      show base.maps = _
      rw [maps_cache, maps_eq_cons base]
      rfl

/-! ### Runs -/

theorem run_maps {v v' : CCoinsView} {ops : List CoinsOp} (hv : v.Coherent)
    (h : Run (Guarded (fun v op => op.Sound v) CoinsOp.after) v ops v') :
    v'.Coherent ∧ v'.maps = ops.foldl CoinsOp.afterFlat v.maps := by
  have hmatch : ∀ w Ms op w', (w.Coherent ∧ w.maps = Ms) →
      Guarded (fun v op => CoinsOp.Sound v op) CoinsOp.after w op w' →
      ∃ Ms', Guarded (fun _ _ => True) CoinsOp.afterFlat Ms op Ms' ∧
        w'.Coherent ∧ w'.maps = Ms' := by
    rintro w Ms op w' ⟨hw, rfl⟩ ⟨hop, rfl⟩
    obtain ⟨-, hco, hmaps⟩ := perform_spec w hw op hop
    exact ⟨_, ⟨trivial, rfl⟩, hco, hmaps⟩
  obtain ⟨Ms, hrun, hco, hmaps⟩ :=
    h.simulation (R := fun v Ms => v.Coherent ∧ v.maps = Ms) hmatch ⟨hv, rfl⟩
  exact ⟨hco, hmaps.trans hrun.eq_foldl⟩

/-- A database with new caches stacked on it. -/
def stackOf (d : CCoinsViewDB) : ℕ → CCoinsView
  | 0 => .db d
  | n + 1 => (CCoinsViewCache.new (stackOf d n)).toView

theorem stackOf_coherent (d : CCoinsViewDB) (n : ℕ) : (stackOf d n).Coherent := by
  induction n with
  | zero => exact trivial
  | succ n ih => exact new_coherent ih

theorem stackOf_maps (d : CCoinsViewDB) (n : ℕ) :
    (stackOf d n).maps = List.replicate (n + 1) (CCoinsView.db d).coinsAt := by
  induction n with
  | zero => rfl
  | succ n ih =>
    have htop : (stackOf d (n + 1)).coinsAt = (stackOf d n).coinsAt := rfl
    have hhead : (stackOf d n).coinsAt = (CCoinsView.db d).coinsAt := by
      rw [maps_eq_cons] at ih
      exact (List.cons.inj ih).1
    show (stackOf d (n + 1)).coinsAt :: (stackOf d n).maps = _
    rw [htop, hhead, ih]
    rfl

/-- **A stack of caches behaves as flat coin maps** in every run of sound operations:
every view shows its flat map, and every further sound operation answers as the flat
maps do. -/
theorem stack_behaves_flat (d : CCoinsViewDB) (n : ℕ) (ops : List CoinsOp) (v : CCoinsView)
    (h : Run (Guarded (fun v op => op.Sound v) CoinsOp.after) (stackOf d n) ops v) :
    v.maps = ops.foldl CoinsOp.afterFlat (List.replicate (n + 1) (CCoinsView.db d).coinsAt) ∧
      ∀ op : CoinsOp, op.Sound v → (op.perform v).1.shown =
        (op.performFlat
          (ops.foldl CoinsOp.afterFlat (List.replicate (n + 1) (CCoinsView.db d).coinsAt))).1 := by
  obtain ⟨hco, hmaps⟩ := run_maps (stackOf_coherent d n) h
  rw [stackOf_maps] at hmaps
  exact ⟨hmaps, fun op hop => hmaps ▸ (perform_spec v hco op hop).1⟩

/-! #### Re-created and spent before a flush -/

def recreatedTx : CTransaction := ⟨7, 1, [⟨⟨5, 0⟩, [], 0⟩], [.of COIN []], 0⟩

/-- A database in which its output is unspent, created at height 1. -/
def recreatedDB : CCoinsViewDB where
  coins := fun t => if t = 7 then some (CCoins.fromTx recreatedTx 1).cleaned else none
  hashBlock := 1

/-- Its block is disconnected, it is created again at height 2, and its output spent. -/
def recreateOps : List CoinsOp :=
  [.modifyCoins 7 fun _ => .empty,
    .modifyNewCoins 7 fun _ => .fromTx recreatedTx 2,
    .modifyCoins 7 fun c => c.spend 0]

theorem CCoins.spend_of_isPruned {c : CCoins} (h : c.isPruned = true) (n : ℕ) :
    c.spend n = c := by
  have hav : c.isAvailable n = false := by
    unfold CCoins.isAvailable
    cases e : c.vout[n]? with
    | none => rfl
    | some o => simpa using List.all_eq_true.mp h o (List.mem_of_getElem? e)
  simp [CCoins.spend, hav]

/-- **A spent coin reappears.**  Every operation is within the contract, but the coins of
height 1 are shown again where the flat maps show none. -/
theorem resurrected_after_modifyNewCoins :
    ∃ v, Run (Guarded (fun v op => op.Contract v ∧ op.PrunedAsEmpty) CoinsOp.after)
        (stackOf recreatedDB 1) recreateOps v ∧
      ((CoinsOp.getCoins 0 7).perform v).1.shown = .coins (.fromTx recreatedTx 1) ∧
      ((CoinsOp.getCoins 0 7).performFlat (recreateOps.foldl CoinsOp.afterFlat
        (List.replicate 2 (CCoinsView.db recreatedDB).coinsAt))).1 = .coins .empty := by
  refine ⟨_, .cons ⟨⟨trivial, fun _ _ => rfl⟩, rfl⟩ (.cons ⟨⟨?_, trivial⟩, rfl⟩
    (.cons ⟨⟨trivial, fun c hc => ?_⟩, rfl⟩ (.nil _))), ?_, ?_⟩
  · show CCoinsView.coinsAt _ 7 = .empty
    decide +kernel
  · show (c.spend 0).cleanup.norm = (CCoins.empty.spend 0).cleanup.norm
    rw [CCoins.spend_of_isPruned hc, CCoins.norm_eq_empty_iff.mpr (by simpa using hc)]
    rfl
  · decide +kernel
  · decide +kernel

/-- A transaction is created and written down. -/
def createOps : List CoinsOp := [.modifyNewCoins 7 fun _ => .fromTx recreatedTx 2, .flush 0]

/-- On an empty database this is a sound run. -/
theorem stack_behaves_flat_created :
    ∃ v, Run (Guarded (fun v op => op.Sound v) CoinsOp.after)
        (stackOf ⟨fun _ => none, 0⟩ 1) createOps v ∧
      v.maps = createOps.foldl CoinsOp.afterFlat
        (List.replicate 2 (CCoinsView.db ⟨fun _ => none, 0⟩).coinsAt) := by
  have hrun : Run (Guarded (fun v op => CoinsOp.Sound v op) CoinsOp.after)
      (stackOf ⟨fun _ => none, 0⟩ 1) createOps
      (createOps.foldl CoinsOp.after (stackOf ⟨fun _ => none, 0⟩ 1)) :=
    .cons ⟨⟨rfl, rfl, trivial⟩, rfl⟩ (.cons ⟨⟨trivial, trivial, trivial⟩, rfl⟩ (.nil _))
  exact ⟨_, hrun, (stack_behaves_flat _ 1 createOps _ hrun).1⟩

end Stonecoin
