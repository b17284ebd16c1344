/-
Coins by their content: which outputs are unspent, and whose they are.

`Same` is the reader's notion of equal coins: the same unspent outputs at the same
indices, and the same height, coinbase flag and version unless nothing is unspent.  It
is coarser than `operator==`, which also compares what spent entries still hold;
on `Canonical` coins, whose spent entries are all alike, the two agree
(`Canonical.norm_eq`).
-/
import Stonecoin.Coins

namespace Stonecoin

/-! ### Outputs of a list -/

/-- The unspent output at an index. -/
def outAt (os : List CTxOut) (i : ℕ) : Option CTxOut :=
  match os[i]? with
  | some o => if o.isNull then none else some o
  | none => none

@[simp] theorem outAt_nil (i : ℕ) : outAt [] i = none := rfl

@[simp] theorem outAt_cons_zero (o : CTxOut) (os : List CTxOut) :
    outAt (o :: os) 0 = if o.isNull then none else some o := rfl

@[simp] theorem outAt_cons_succ (o : CTxOut) (os : List CTxOut) (i : ℕ) :
    outAt (o :: os) (i + 1) = outAt os i := by
  simp [outAt]

variable {os : List CTxOut} {o : CTxOut}

theorem outAt_eq_some {i : ℕ} :
    outAt os i = some o ↔ os[i]? = some o ∧ o.isNull = false := by
  unfold outAt
  cases os[i]? with
  | none => simp
  | some p =>
    by_cases hp : p.isNull = true
    · simp only [hp, if_true, reduceCtorEq, Option.some.injEq, false_iff]
      rintro ⟨rfl, h⟩
      rw [hp] at h
      cases h
    · simp only [hp, Bool.false_eq_true, if_false, Option.some.injEq]
      constructor
      · rintro rfl
        exact ⟨rfl, by simpa using hp⟩
      · exact fun h => h.1

@[simp] theorem outAt_dropNulls (os : List CTxOut) :
    ∀ i, outAt (CCoins.dropNulls os) i = outAt os i := by
  induction os with
  | nil => intro i; rfl
  | cons o os ih =>
    intro i
    simp only [CCoins.dropNulls]
    cases e : CCoins.dropNulls os with
    | nil =>
      rw [e] at ih
      by_cases ho : o.isNull = true
      · cases i with
        | zero => simp [ho]
        | succ i => simp [ho, ← ih i]
      · cases i with
        | zero => simp [ho]
        | succ i => simp [ho, ← ih i]
    | cons p ps =>
      rw [e] at ih
      cases i with
      | zero => simp
      | succ i => simp only [outAt_cons_succ, ih i]

theorem all_null_iff :
    os.all CTxOut.isNull = true ↔ ∀ i, outAt os i = none := by
  induction os with
  | nil => simp
  | cons o os ih =>
    simp only [List.all_cons, Bool.and_eq_true, ih]
    constructor
    · rintro ⟨ho, hos⟩ i
      cases i with
      | zero => simp [ho]
      | succ i => simpa using hos i
    · intro h
      refine ⟨?_, fun i => by simpa using h (i + 1)⟩
      by_contra ho
      simpa [ho] using h 0

variable {n : ℕ}

theorem outAt_set (hn : n < os.length) (o : CTxOut) (i : ℕ) :
    outAt (os.set n o) i = if i = n then (if o.isNull then none else some o) else outAt os i := by
  unfold outAt
  by_cases h : i = n
  · subst h
    simp [hn]
  · simp [h, List.getElem?_set_ne (Ne.symm h)]

/-- `vector::resize`: new entries are null outputs. -/
def resizeOuts (os : List CTxOut) (n : ℕ) : List CTxOut :=
  os ++ List.replicate (n - os.length) CTxOut.null

@[simp] theorem length_resizeOuts (os : List CTxOut) (n : ℕ) :
    (resizeOuts os n).length = max os.length n := by
  simp [resizeOuts]
  omega

theorem outAt_resizeOuts (os : List CTxOut) (n i : ℕ) :
    outAt (resizeOuts os n) i = outAt os i := by
  unfold outAt resizeOuts
  by_cases h : i < os.length
  · rw [List.getElem?_append_left h]
  · rw [List.getElem?_append_right (by omega), List.getElem?_eq_none (l := os) (by omega),
      List.getElem?_replicate]
    by_cases h' : i - os.length < n - os.length
    · simp [h']
    · simp [h']

/-! ### Outputs of coins -/

namespace CCoins

def outputAt (c : CCoins) (i : ℕ) : Option CTxOut := outAt c.vout i

@[simp] theorem outputAt_empty (i : ℕ) : empty.outputAt i = none := rfl

@[simp] theorem outputAt_cleanup (c : CCoins) (i : ℕ) : c.cleanup.outputAt i = c.outputAt i :=
  outAt_dropNulls c.vout i

variable {c : CCoins}

theorem isPruned_iff : c.isPruned = true ↔ ∀ i, c.outputAt i = none :=
  all_null_iff

theorem not_isPruned_of_outputAt {i : ℕ} (h : c.outputAt i = some o) :
    c.isPruned = false := by
  by_contra hp
  rw [isPruned_iff.mp (by simpa using hp) i] at h
  cases h

theorem outputAt_norm (c : CCoins) (i : ℕ) : c.norm.outputAt i = c.outputAt i := by
  unfold norm
  by_cases h : c.isPruned = true
  · simp [h, isPruned_iff.mp h i]
  · simp [h]

theorem isAvailable_eq (c : CCoins) (n : ℕ) : c.isAvailable n = (c.outputAt n).isSome := by
  unfold isAvailable outputAt outAt
  cases c.vout[n]? with
  | none => rfl
  | some o => by_cases h : o.isNull = true <;> simp [h]

theorem norm_eq_self {i : ℕ} (h : c.outputAt i = some o) :
    c.norm = c :=
  norm_of_not_isPruned (not_isPruned_of_outputAt h)

theorem outputAt_spend (h : c.outputAt n = some o) (i : ℕ) :
    (c.spend n).outputAt i = if i = n then none else c.outputAt i := by
  have hav : c.isAvailable n = true := by simp [isAvailable_eq, h]
  have hn : n < c.vout.length := (List.getElem?_eq_some_iff.mp (outAt_eq_some.mp h).1).1
  simp only [spend, hav, if_true, outputAt_cleanup]
  exact outAt_set hn .null i

theorem spend_fields :
    (c.spend n).fCoinBase = c.fCoinBase ∧ (c.spend n).nHeight = c.nHeight ∧
      (c.spend n).nVersion = c.nVersion := by
  unfold spend
  split <;> exact ⟨rfl, rfl, rfl⟩

theorem spend_clean (h : c.outputAt n = some o) :
    (c.spend n).Clean := by
  have hav : c.isAvailable n = true := by simp [isAvailable_eq, h]
  simp only [spend, hav, if_true]
  exact cleanup_clean _

/-! ### The same coins -/

/-- The same unspent outputs, and the same data about the transaction unless none is
left. -/
structure Same (a b : CCoins) : Prop where
  outputs : ∀ i, a.outputAt i = b.outputAt i
  fields : a.isPruned = false →
    a.fCoinBase = b.fCoinBase ∧ a.nHeight = b.nHeight ∧ a.nVersion = b.nVersion

theorem Same.refl (a : CCoins) : Same a a := ⟨fun _ => rfl, fun _ => ⟨rfl, rfl, rfl⟩⟩

theorem Same.isPruned_eq {a b : CCoins} (h : Same a b) : a.isPruned = b.isPruned := by
  rw [Bool.eq_iff_iff, isPruned_iff, isPruned_iff]
  simp only [h.outputs]

theorem Same.trans {a b : CCoins} (h : Same a b) (h' : Same b c) : Same a c := by
  refine ⟨fun i => (h.outputs i).trans (h'.outputs i), fun hp => ?_⟩
  obtain ⟨h₁, h₂, h₃⟩ := h.fields hp
  obtain ⟨h₄, h₅, h₆⟩ := h'.fields (h.isPruned_eq ▸ hp)
  exact ⟨h₁.trans h₄, h₂.trans h₅, h₃.trans h₆⟩

theorem same_norm (c : CCoins) : Same c.norm c := by
  refine ⟨c.outputAt_norm, fun hp => ?_⟩
  rw [isPruned_norm] at hp
  rw [norm_of_not_isPruned hp]
  exact ⟨rfl, rfl, rfl⟩

/-! ### Canonical coins -/

/-- Clean coins whose spent entries are all the null output. -/
structure Canonical (c : CCoins) : Prop where
  clean : c.Clean
  null : ∀ o ∈ c.vout, o.isNull = true → o = .null

theorem dropNulls_tail (h : dropNulls (o :: os) = o :: os) :
    dropNulls os = os := by
  simp only [dropNulls] at h
  cases e : dropNulls os with
  | nil =>
    rw [e] at h
    by_cases ho : o.isNull = true
    · simp [ho] at h
    · simp only [ho, Bool.false_eq_true, if_false, List.cons.injEq, true_and] at h
      exact h
  | cons p ps =>
    rw [e] at h
    exact (List.cons.inj h).2

theorem outs_ext : ∀ {os ps : List CTxOut}, dropNulls os = os → dropNulls ps = ps →
    (∀ o ∈ os, o.isNull = true → o = .null) → (∀ o ∈ ps, o.isNull = true → o = .null) →
    (∀ i, outAt os i = outAt ps i) → os = ps := by
  intro os
  induction os with
  | nil =>
    intro ps _ hps _ _ h
    rw [← hps, eq_comm, dropNulls_eq_nil_iff, all_null_iff]
    exact fun i => (h i).symm
  | cons o os ih =>
    intro ps hos hps hno hnp h
    cases ps with
    | nil =>
      rw [← hos, dropNulls_eq_nil_iff, all_null_iff]
      exact h
    | cons p ps =>
      have htail : os = ps := ih (dropNulls_tail hos) (dropNulls_tail hps)
        (fun x hx => hno x (List.mem_cons_of_mem _ hx))
        (fun x hx => hnp x (List.mem_cons_of_mem _ hx)) fun i => by simpa using h (i + 1)
      have h0 := h 0
      simp only [outAt_cons_zero] at h0
      have hhead : o = p := by
        by_cases ho : o.isNull = true
        · by_cases hp : p.isNull = true
          · rw [hno o (by simp) ho, hnp p (by simp) hp]
          · simp [ho, hp] at h0
        · by_cases hp : p.isNull = true
          · simp [ho, hp] at h0
          · simpa [ho, hp] using h0
      rw [hhead, htail]

theorem Canonical.norm_eq {a b : CCoins} (ha : a.Canonical) (hb : b.Canonical) (h : Same a b) :
    a.norm = b.norm := by
  by_cases hp : a.isPruned = true
  · rw [norm_eq_empty_iff.mpr hp, norm_eq_empty_iff.mpr (h.isPruned_eq ▸ hp)]
  · obtain ⟨h₁, h₂, h₃⟩ := h.fields (by simpa using hp)
    have hv : a.vout = b.vout := outs_ext ha.clean hb.clean ha.null hb.null h.outputs
    cases a
    cases b
    simp_all

theorem empty_canonical : empty.Canonical := ⟨empty_clean, by simp [empty]⟩

theorem Canonical.norm (h : c.Canonical) : c.norm.Canonical := by
  unfold CCoins.norm
  split
  · exact empty_canonical
  · exact h

theorem mem_of_mem_dropNulls (h : o ∈ dropNulls os) : o ∈ os := by
  induction os with
  | nil => exact h
  | cons p os ih =>
    simp only [dropNulls] at h
    cases e : dropNulls os with
    | nil =>
      rw [e] at h
      by_cases hp : p.isNull = true
      · simp [hp] at h
      · simp only [hp, Bool.false_eq_true, if_false, List.mem_singleton] at h
        simp [h]
    | cons q qs =>
      rw [e] at h ih
      rcases List.mem_cons.mp h with rfl | h'
      · exact List.mem_cons_self
      · exact List.mem_cons_of_mem _ (ih h')

theorem cleanup_canonical (h : ∀ o ∈ c.vout, o.isNull = true → o = .null) :
    c.cleanup.Canonical :=
  ⟨c.cleanup_clean, fun o ho => h o (mem_of_mem_dropNulls ho)⟩

theorem Canonical.spend (h : c.Canonical) (n : ℕ) : (c.spend n).Canonical := by
  unfold CCoins.spend
  split
  · refine cleanup_canonical fun o ho hnull => ?_
    rcases List.mem_or_eq_of_mem_set ho with ho' | rfl
    · exact h.null o ho' hnull
    · rfl
  · exact h

theorem fromTx_clean (tx : CTransaction) (nHeight : ℤ) : (fromTx tx nHeight).Clean :=
  cleanup_clean _

theorem fromTx_canonical {tx : CTransaction} (h : ∀ o ∈ tx.vout, o.isNull = false)
    (nHeight : ℤ) : (fromTx tx nHeight).Canonical := by
  refine cleanup_canonical fun o ho hnull => ?_
  obtain ⟨p, hp, rfl⟩ := List.mem_map.mp ho
  by_cases hu : isUnspendable p.scriptPubKey = true
  · simp [hu]
  · simp [hu, h p hp] at hnull

theorem clearUnspendable_fromTx (tx : CTransaction) (nHeight : ℤ) :
    (fromTx tx nHeight).clearUnspendable = fromTx tx nHeight := by
  have hfix : ∀ o ∈ (fromTx tx nHeight).vout,
      (if isUnspendable o.scriptPubKey then CTxOut.null else o) = o := by
    intro o ho
    obtain ⟨p, -, rfl⟩ := List.mem_map.mp (mem_of_mem_dropNulls ho)
    by_cases hu : isUnspendable p.scriptPubKey = true
    · rw [if_pos hu, ite_self]
    · simp [hu]
  have hmap := List.map_congr_left hfix
  rw [List.map_id'] at hmap
  show cleanup { fromTx tx nHeight with vout := _ } = _
  rw [hmap]
  exact (fromTx_clean tx nHeight).cleanup_eq

theorem isPruned_clearUnspendable (h : c.isPruned = true) :
    c.clearUnspendable.isPruned = true := by
  unfold clearUnspendable
  rw [isPruned_cleanup]
  refine List.all_eq_true.mpr fun o ho => ?_
  obtain ⟨p, hp, rfl⟩ := List.mem_map.mp ho
  split
  · rfl
  · exact List.all_eq_true.mp h p hp

theorem getElem?_of_outputAt_fromTx {tx : CTransaction} {nHeight : ℤ}
    (h : (fromTx tx nHeight).outputAt n = some o) : tx.vout[n]? = some o := by
  unfold fromTx clearUnspendable at h
  rw [outputAt_cleanup] at h
  obtain ⟨hget, hnull⟩ := outAt_eq_some.mp h
  rw [List.getElem?_map] at hget
  obtain ⟨p, hp, rfl⟩ := Option.map_eq_some_iff.mp hget
  by_cases hu : isUnspendable p.scriptPubKey = true
  · simp [hu] at hnull
  · simpa [hu] using hp

end CCoins

end Stonecoin
