/-
The coins at the end of a chain of blocks: what `pcoinsTip` shows when `chainActive` ends in
a given block.

The blocks after genesis are applied one after the other, with the checks of `ConnectBlock`
that concern the coins: BIP 30, inputs that are there, unspent and mature.  The transactions
applied so far, with their heights, are the confirmed ones.
-/
import Stonecoin.RestoreCoins
import Stonecoin.SequenceLocks

namespace Stonecoin

open ParentTree CCoins

/-! ### Applying transactions -/

/-- The inputs of a transaction are checked and spent. -/
def spendMature (nHeight : ℤ) : List CTxIn → (UInt256 → CCoins) → Option (UInt256 → CCoins)
  | [], M => some M
  | i :: vin, M =>
    let coins := M i.prevout.hash
    if !coins.isAvailable i.prevout.n then none
    else if coins.fCoinBase && nHeight - coins.nHeight < COINBASE_MATURITY then none
    else spendMature nHeight vin
      (Function.update M i.prevout.hash (coins.spend i.prevout.n).norm)

def applyTx (nHeight : ℤ) (tx : CTransaction) (M : UInt256 → CCoins) :
    Option (UInt256 → CCoins) :=
  if tx.vin.isEmpty then none
  else if tx.isCoinBase then some (Function.update M tx.hash (createdCoins tx nHeight))
  else
    match spendMature nHeight tx.vin M with
    | none => none
    | some M => some (Function.update M tx.hash (createdCoins tx nHeight))

def applyTxs (nHeight : ℤ) : List CTransaction → (UInt256 → CCoins) →
    Option (UInt256 → CCoins)
  | [], M => some M
  | tx :: txs, M =>
    match applyTx nHeight tx M with
    | none => none
    | some M => applyTxs nHeight txs M

variable {nHeight : ℤ}

theorem spends_of_spendMature : ∀ {vin : List CTxIn} {M M' : UInt256 → CCoins},
    spendMature nHeight vin M = some M' → ∃ us, Spends M vin us M' := by
  intro vin
  induction vin with
  | nil =>
    rintro M M' ⟨⟩
    exact ⟨[], .nil M⟩
  | cons i vin ih =>
    intro M M' h
    simp only [spendMature] at h
    split at h
    · cases h
    next hav =>
      split at h
      · cases h
      obtain ⟨us, hus⟩ := ih h
      have hsome : ((M i.prevout.hash).outputAt i.prevout.n).isSome = true := by
        rw [← isAvailable_eq]
        simpa using hav
      obtain ⟨o, ho⟩ := Option.isSome_iff_exists.mp hsome
      exact ⟨_, .cons ho hus⟩

variable {tx : CTransaction}

theorem applies_of_applyTx {M M' : UInt256 → CCoins} (h : applyTx nHeight tx M = some M') :
    tx.vin ≠ [] ∧ ∃ us, Applies nHeight M tx us M' := by
  unfold applyTx at h
  rcases hv : tx.vin.isEmpty with - | -
  · refine ⟨fun h0 => by simp [h0] at hv, ?_⟩
    rw [hv, if_neg Bool.false_ne_true] at h
    rcases hcb : tx.isCoinBase with - | -
    · rw [hcb, if_neg Bool.false_ne_true] at h
      split at h
      · cases h
      next M₁ hs =>
        obtain ⟨us, hus⟩ := spends_of_spendMature hs
        obtain rfl := Option.some.inj h
        exact ⟨us, .spending hcb hus⟩
    · rw [hcb, if_pos rfl] at h
      obtain rfl := Option.some.inj h
      exact ⟨[], .coinbase hcb⟩
  · rw [hv, if_pos rfl] at h
    cases h

/-! ### Blocks -/

def MEMPOOL_HEIGHT : ℕ := 0x7FFFFFFF

/-- The blocks, with what `ConnectBlock` looks up for them.  The id of a transaction is a
hash of it, so that an id has its inputs; heights are below that of the pool. -/
structure CoinStore extends BlockStore where
  fEnforceBIP30 : BlockPtr → Bool
  vinOf : UInt256 → List CTxIn
  hashes : ∀ b, ∀ tx ∈ vtx b, vinOf tx.hash = tx.vin
  height_lt : ∀ b, tree.nHeight b < MEMPOOL_HEIGHT

namespace CoinStore

variable (c : CoinStore)

def applyBlock (b : BlockPtr) (M : UInt256 → CCoins) : Option (UInt256 → CCoins) :=
  if c.fEnforceBIP30 b && !(c.vtx b).all fun tx => (M tx.hash).isPruned then none
  else applyTxs (c.tree.nHeight b) (c.vtx b) M

/-- The coins at the end of a chain, which is given from its tip on.  Nothing of the genesis
block is applied. -/
def coinsAlong : List BlockPtr → Option (UInt256 → CCoins)
  | b :: b' :: bs =>
    match coinsAlong (b' :: bs) with
    | none => none
    | some M => c.applyBlock b M
  | _ => some fun _ => .empty

/-- What `pcoinsTip` shows at a tip; `none` if its chain does not connect. -/
def coinsOf (b : BlockPtr) : Option (UInt256 → CCoins) := c.coinsAlong (c.tree.line b)

def confirmedAlong : List BlockPtr → List (CTransaction × ℕ)
  | b :: b' :: bs =>
    confirmedAlong (b' :: bs) ++ (c.vtx b).map fun tx => (tx, c.tree.nHeight b)
  | _ => []

def confirmed (b : BlockPtr) : List (CTransaction × ℕ) := c.confirmedAlong (c.tree.line b)

def coinbaseIds (C : List (CTransaction × ℕ)) : List UInt256 :=
  (C.filter fun e => e.1.isCoinBase).map fun e => e.1.hash

/-- No coinbase transaction stands on the chain twice. -/
def CoinbasesOnce (b : BlockPtr) : Prop := (coinbaseIds (c.confirmed b)).Nodup

variable {c}

variable {b p : BlockPtr}

theorem line_child_cons (hb : c.tree.pprev b = some p) :
    ∃ bs, c.tree.line p = p :: bs ∧ c.tree.line b = b :: p :: bs := by
  have hl : c.tree.line b = b :: c.tree.line p := line_child c.tree.graded hb
  have hh : (c.tree.line p).head? = some p := head?_line c.tree.graded p
  rcases hp : c.tree.line p with - | ⟨q, bs⟩
  · rw [hp] at hh
    cases hh
  · rw [hp] at hh
    obtain rfl := Option.some.inj hh
    exact ⟨bs, rfl, hl.trans (congrArg _ hp)⟩

theorem coinsOf_root (hb : c.tree.pprev b = none) :
    c.coinsOf b = some fun _ => .empty := by
  have hl : c.tree.line b = [b] := line_root c.tree.graded hb
  rw [coinsOf, hl]
  rfl

theorem coinsOf_child (hb : c.tree.pprev b = some p) :
    c.coinsOf b = (c.coinsOf p).bind (c.applyBlock b) := by
  obtain ⟨bs, hp, hl⟩ := line_child_cons hb
  rw [coinsOf, coinsOf, hl, hp, coinsAlong]
  cases c.coinsAlong (p :: bs) <;> rfl

theorem confirmed_root (hb : c.tree.pprev b = none) : c.confirmed b = [] := by
  have hl : c.tree.line b = [b] := line_root c.tree.graded hb
  rw [confirmed, hl]
  rfl

theorem confirmed_child (hb : c.tree.pprev b = some p) :
    c.confirmed b = c.confirmed p ++ (c.vtx b).map fun tx => (tx, c.tree.nHeight b) := by
  obtain ⟨bs, hp, hl⟩ := line_child_cons hb
  rw [confirmed, confirmed, hl, hp, confirmedAlong]

theorem mem_confirmed {e : CTransaction × ℕ} : e ∈ c.confirmed b ↔
    ∃ a ∈ c.tree.line b, c.tree.pprev a ≠ none ∧ e.1 ∈ c.vtx a ∧ c.tree.nHeight a = e.2 := by
  apply c.tree.graded.upward (P := fun b => e ∈ c.confirmed b ↔ ∃ a ∈ c.tree.line b,
    c.tree.pprev a ≠ none ∧ e.1 ∈ c.vtx a ∧ c.tree.nHeight a = e.2) _ b
  intro b ih
  rcases hb : c.tree.pprev b with - | p
  · rw [confirmed_root hb]
    constructor
    · intro he
      cases he
    · rintro ⟨a, ha, hne, -⟩
      rcases (mem_line_iff c.tree.graded).mp ha with rfl | ⟨p, hp, -⟩
      · exact absurd hb hne
      · rw [hb] at hp
        cases hp
  · rw [confirmed_child hb, List.mem_append, ih p hb]
    constructor
    · rintro (⟨a, ha, h⟩ | he)
      · exact ⟨a, mem_line_parent c.tree.graded hb ha, h⟩
      · obtain ⟨tx, htx, rfl⟩ := List.mem_map.mp he
        exact ⟨b, c.tree.mem_line_self b, by simp [hb], htx, rfl⟩
    · rintro ⟨a, ha, hne, htx, hh⟩
      rcases (mem_line_iff c.tree.graded).mp ha with rfl | ⟨q, hq, haq⟩
      · exact .inr (List.mem_map.mpr ⟨e.1, htx, by rw [hh]⟩)
      · rw [hb] at hq
        obtain rfl := Option.some.inj hq
        exact .inl ⟨a, haq, hne, htx, hh⟩

theorem hashes_of_mem_confirmed {e : CTransaction × ℕ} (he : e ∈ c.confirmed b) :
    c.vinOf e.1.hash = e.1.vin := by
  obtain ⟨a, -, -, htx, -⟩ := mem_confirmed.mp he
  exact c.hashes a _ htx

theorem CoinbasesOnce.parent (h : c.CoinbasesOnce b) (hb : c.tree.pprev b = some p) :
    c.CoinbasesOnce p := by
  rw [CoinbasesOnce, confirmed_child hb, coinbaseIds, List.filter_append, List.map_append] at h
  exact h.of_append_left

end CoinStore

/-! ### What the coins record -/

theorem Spends.nHeight_eq {M M' : UInt256 → CCoins} {vin : List CTxIn} {us : CTxUndo}
    (h : Spends M vin us M') {t : UInt256} (ht : (M' t).isPruned = false) :
    (M t).isPruned = false ∧ (M' t).nHeight = (M t).nHeight := by
  induction h with
  | nil M => exact ⟨ht, rfl⟩
  | @cons M M' i is p us hp _ ih =>
    obtain ⟨hun, hh⟩ := ih ht
    by_cases hi : t = i.prevout.hash
    · subst hi
      rw [Function.update_self] at hun hh
      rw [isPruned_norm] at hun
      rw [norm_of_not_isPruned hun, spend_fields.2.1] at hh
      exact ⟨not_isPruned_of_outputAt hp, hh⟩
    · rw [Function.update_of_ne hi] at hun hh
      exact ⟨hun, hh⟩

theorem createdCoins_nHeight (h : (createdCoins tx nHeight).isPruned = false) :
    (createdCoins tx nHeight).nHeight = nHeight := by
  unfold createdCoins at h ⊢
  rw [isPruned_norm] at h
  rw [norm_of_not_isPruned h]
  rfl

/-- Coins that are not used up come from a confirmed transaction and have its height; what
confirmed transactions spend is gone, and their ids are pairwise different. -/
structure Recorded (M : UInt256 → CCoins) (C : List (CTransaction × ℕ)) : Prop where
  after : AfterPrefix (fun _ => .empty) M (C.map Prod.fst)
  height : ∀ t, (M t).isPruned = false → ∃ e ∈ C, e.1.hash = t ∧ (M t).nHeight = e.2

namespace Recorded

variable {M M' : UInt256 → CCoins} {C : List (CTransaction × ℕ)}

theorem nil : Recorded (fun _ => .empty) [] := by
  refine ⟨⟨fun t n o ho => ?_, by simp, by simp⟩, fun t ht => ?_⟩
  · cases ho
  · cases ht

theorem eq_of_hash_eq (h : Recorded M C) {e e' : CTransaction × ℕ} (he : e ∈ C) (he' : e' ∈ C)
    (hh : e.1.hash = e'.1.hash) : e = e' := by
  have hnodup := h.after.nodup
  rw [List.map_map] at hnodup
  exact List.inj_on_of_nodup_map hnodup he he' hh

theorem nHeight_eq (h : Recorded M C) {e : CTransaction × ℕ} (he : e ∈ C)
    (ht : (M e.1.hash).isPruned = false) : (M e.1.hash).nHeight = e.2 := by
  obtain ⟨e', he', hh, hheight⟩ := h.height _ ht
  obtain rfl := h.eq_of_hash_eq he he' hh.symm
  exact hheight

theorem snoc {us : CTxUndo} {nHeight : ℕ} (h : Recorded M C) (hap : Applies nHeight M tx us M')
    (hnew : tx.hash ∉ C.map fun e => e.1.hash) :
    Recorded M' (C ++ [(tx, nHeight)]) := by
  refine ⟨?_, fun t ht => ?_⟩
  · rw [List.map_append]
    exact h.after.snoc hap rfl (by rw [List.map_map]; exact hnew)
  · obtain ⟨M₁, rfl, hcase⟩ := hap.elim
    by_cases hi : t = tx.hash
    · subst hi
      rw [Function.update_self] at ht ⊢
      exact ⟨(tx, nHeight), by simp, rfl, createdCoins_nHeight ht⟩
    · rw [Function.update_of_ne hi] at ht ⊢
      -- the coins were there before
      have hold : (M t).isPruned = false ∧ (M₁ t).nHeight = (M t).nHeight := by
        rcases hcase with ⟨-, -, rfl⟩ | ⟨-, hsp⟩
        · exact ⟨ht, rfl⟩
        · exact hsp.nHeight_eq ht
      obtain ⟨e, he, hh, hheight⟩ := h.height t hold.1
      exact ⟨e, List.mem_append_left _ he, hh, hold.2.trans hheight⟩

theorem hash_notMem {vinOf : UInt256 → List CTxIn} {us : CTxUndo} (h : Recorded M C)
    (hap : Applies nHeight M tx us M') (hne : tx.vin ≠ []) (hC : ∀ e ∈ C, vinOf e.1.hash = e.1.vin)
    (htx : vinOf tx.hash = tx.vin)
    (hcb : tx.isCoinBase = true → tx.hash ∉ CoinStore.coinbaseIds C) :
    tx.hash ∉ C.map fun e => e.1.hash := by
  have hvin : ∀ e ∈ C, e.1.hash = tx.hash → e.1.vin = tx.vin := fun e he hh => by
    rw [← hC e he, hh, htx]
  rcases hc : tx.isCoinBase with - | -
  · have hnot := h.after.hash_notMem hap hc hne fun p hp hh => by
      obtain ⟨e, he, rfl⟩ := List.mem_map.mp hp
      exact hvin e he hh
    rwa [List.map_map] at hnot
  · intro hmem
    obtain ⟨e, he, hh⟩ := List.mem_map.mp hmem
    apply hcb hc
    refine List.mem_map.mpr ⟨e, List.mem_filter.mpr ⟨he, ?_⟩, hh⟩
    have hcb' : e.1.isCoinBase = tx.isCoinBase := by
      unfold CTransaction.isCoinBase
      rw [hvin e he hh]
    exact hcb'.trans hc

theorem applyTxs {vinOf : UInt256 → List CTxIn} {nHeight : ℕ} : ∀ {txs : List CTransaction}
    {C : List (CTransaction × ℕ)} {M M' : UInt256 → CCoins}, Recorded M C →
    applyTxs nHeight txs M = some M' → (∀ e ∈ C, vinOf e.1.hash = e.1.vin) →
    (∀ tx ∈ txs, vinOf tx.hash = tx.vin) →
    (CoinStore.coinbaseIds (C ++ txs.map fun tx => (tx, nHeight))).Nodup →
    Recorded M' (C ++ txs.map fun tx => (tx, nHeight)) := by
  intro txs
  induction txs with
  | nil =>
    intro C M M' h ha _ _ _
    obtain rfl := Option.some.inj ha
    simpa using h
  | cons tx txs ih =>
    intro C M M' h ha hC htxs hcb
    simp only [Stonecoin.applyTxs] at ha
    split at ha
    · cases ha
    next M₁ hap =>
      obtain ⟨hne, us, hap⟩ := applies_of_applyTx hap
      have hassoc : C ++ (tx :: txs).map (fun tx => (tx, nHeight))
          = (C ++ [(tx, nHeight)]) ++ txs.map fun tx => (tx, nHeight) := by simp
      rw [hassoc] at hcb ⊢
      have hnew := h.hash_notMem hap hne hC (htxs tx List.mem_cons_self) fun hc hmem => by
        simp only [CoinStore.coinbaseIds, List.append_assoc, List.filter_append,
          List.map_append] at hcb
        have hdisj := (List.nodup_append.mp hcb).2.2
        refine hdisj _ hmem tx.hash ?_ rfl
        simp [hc]
      apply ih (h.snoc hap hnew) ha _ (fun x hx => htxs x (List.mem_cons_of_mem _ hx)) hcb
      intro e he
      rcases List.mem_append.mp he with he | he
      · exact hC e he
      · obtain rfl := List.mem_singleton.mp he
        exact htxs tx List.mem_cons_self

end Recorded

namespace CoinStore

variable {c : CoinStore}

theorem recorded_of_coinsOf {b : BlockPtr} {M : UInt256 → CCoins} (hM : c.coinsOf b = some M)
    (honce : c.CoinbasesOnce b) : Recorded M (c.confirmed b) := by
  revert M
  apply c.tree.graded.upward (P := fun b => c.CoinbasesOnce b → ∀ M : UInt256 → CCoins,
    c.coinsOf b = some M → Recorded M (c.confirmed b)) _ b honce
  intro b ih honce M hM
  rcases hb : c.tree.pprev b with - | p
  · rw [coinsOf_root hb] at hM
    obtain rfl := Option.some.inj hM
    rw [confirmed_root hb]
    exact .nil
  · rw [coinsOf_child hb] at hM
    obtain ⟨M₀, hM₀, hap⟩ := Option.bind_eq_some_iff.mp hM
    have hrec := ih p hb (honce.parent hb) M₀ hM₀
    unfold applyBlock at hap
    split at hap
    · cases hap
    rw [CoinbasesOnce, confirmed_child hb] at honce
    rw [confirmed_child hb]
    exact hrec.applyTxs hap (fun e he => hashes_of_mem_confirmed he) (c.hashes b) honce

end CoinStore

end Stonecoin
