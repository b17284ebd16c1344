/-
Digits of `w` bits, grouped anew into digits of `v` bits.

`Regroups w v ins outs n left` says where such a stream stands: the digits `ins` are the digits
`outs` and, behind them, the `n` bits of `left`.  A step keeps the bits of one more digit, or
keeps them and emits a digit.  Padding with zeros ends the stream, and what it gives is the same
stream read backwards.

A `Codec` writes the digits as characters and fills the last group up with a padding character.
-/
import Mathlib.Algebra.Order.Ring.Nat
import Mathlib.Data.List.Basic
import Mathlib.Data.List.Induction
import Mathlib.Data.List.TakeWhile
import Mathlib.Data.Nat.Bitwise
import Mathlib.Tactic.Ring

namespace Stonecoin.Regrouping

/-! ### Numbers by their digits -/

/-- The number that digits of `w` bits stand for, the most significant one first. -/
def value (w : ℕ) (ds : List ℕ) : ℕ := ds.foldl (fun n d => n * 2 ^ w + d) 0

@[simp] theorem value_nil (w : ℕ) : value w [] = 0 := rfl

@[simp] theorem value_concat (w : ℕ) (ds : List ℕ) (d : ℕ) :
    value w (ds ++ [d]) = value w ds * 2 ^ w + d := by
  rw [value, List.foldl_append]
  rfl

theorem split_unique {b q r q' r' : ℕ} (hr : r < b) (hr' : r' < b) (h : q * b + r = q' * b + r') :
    q = q' ∧ r = r' := by
  have hb : 0 < b := by omega
  have hq : (q * b + r) / b = q := by
    rw [Nat.mul_comm, Nat.mul_add_div hb, Nat.div_eq_of_lt hr, Nat.add_zero]
  have hq' : (q' * b + r') / b = q' := by
    rw [Nat.mul_comm, Nat.mul_add_div hb, Nat.div_eq_of_lt hr', Nat.add_zero]
  have heq : q = q' := by rw [← hq, ← hq', h]
  subst heq
  exact ⟨rfl, by omega⟩

theorem value_inj {w : ℕ} {ds : List ℕ} : ∀ {es : List ℕ}, ds.length = es.length →
    (∀ d ∈ ds, d < 2 ^ w) → (∀ e ∈ es, e < 2 ^ w) → value w ds = value w es → ds = es := by
  induction ds using List.reverseRecOn with
  | nil =>
    intro es hlen _ _ _
    exact (List.length_eq_zero_iff.mp hlen.symm).symm
  | append_singleton ds d ih =>
    intro es hlen hds hes hvalue
    rcases List.eq_nil_or_concat es with rfl | ⟨es, e, rfl⟩
    · simp at hlen
    · rw [List.concat_eq_append] at *
      rw [value_concat, value_concat] at hvalue
      obtain ⟨hrest, rfl⟩ := split_unique (hds d (by simp)) (hes e (by simp)) hvalue
      rw [ih (by simpa using hlen) (fun x hx => hds x (by simp [hx]))
        (fun x hx => hes x (by simp [hx])) hrest]

/-! ### The stream -/

structure Regroups (w v : ℕ) (ins outs : List ℕ) (n left : ℕ) : Prop where
  ins_lt : ∀ d ∈ ins, d < 2 ^ w
  outs_lt : ∀ d ∈ outs, d < 2 ^ v
  left_lt : left < 2 ^ n
  length_eq : w * ins.length = v * outs.length + n
  value_eq : value w ins = value v outs * 2 ^ n + left

namespace Regroups

variable {w v : ℕ} {ins outs : List ℕ} {n left : ℕ}

theorem nil : Regroups w v [] [] 0 0 :=
  ⟨by simp, by simp, by simp, by simp, by simp⟩

theorem keep (h : Regroups w v ins outs n left) {d : ℕ} (hd : d < 2 ^ w) :
    Regroups w v (ins ++ [d]) outs (n + w) (left <<< w ||| d) := by
  rw [← Nat.shiftLeft_add_eq_or_of_lt hd, Nat.shiftLeft_eq]
  refine ⟨?_, h.outs_lt, ?_, ?_, ?_⟩
  · intro x hx
    rcases List.mem_append.mp hx with hx | hx
    · exact h.ins_lt x hx
    · rwa [List.mem_singleton.mp hx]
  · calc left * 2 ^ w + d < left * 2 ^ w + 2 ^ w := by omega
      _ = (left + 1) * 2 ^ w := by ring
      _ ≤ 2 ^ n * 2 ^ w := Nat.mul_le_mul_right _ h.left_lt
      _ = 2 ^ (n + w) := (pow_add 2 n w).symm
  · rw [List.length_append, List.length_singleton, Nat.mul_add, h.length_eq]
    omega
  · rw [value_concat, h.value_eq, pow_add]
    ring

theorem emit {m : ℕ} (h : Regroups w v ins outs (v + m) left) :
    Regroups w v ins (outs ++ [left >>> m]) m (left &&& (2 ^ m - 1)) := by
  rw [Nat.and_two_pow_sub_one_eq_mod, Nat.shiftRight_eq_div_pow]
  refine ⟨h.ins_lt, ?_, Nat.mod_lt _ (Nat.two_pow_pos m), ?_, ?_⟩
  · intro x hx
    rcases List.mem_append.mp hx with hx | hx
    · exact h.outs_lt x hx
    · rw [List.mem_singleton.mp hx]
      refine Nat.div_lt_of_lt_mul ?_
      rw [← pow_add, Nat.add_comm]
      exact h.left_lt
  · rw [h.length_eq, List.length_append, List.length_singleton, Nat.mul_add]
    omega
  · rw [value_concat, h.value_eq, pow_add]
    calc value v outs * (2 ^ v * 2 ^ m) + left
        = value v outs * (2 ^ v * 2 ^ m) + (2 ^ m * (left / 2 ^ m) + left % 2 ^ m) := by
          rw [Nat.div_add_mod]
      _ = (value v outs * 2 ^ v + left / 2 ^ m) * 2 ^ m + left % 2 ^ m := by ring

theorem shift {m k : ℕ} (h : Regroups (k + m) v ins outs n left) {d : ℕ} (hd : d < 2 ^ (k + m))
    (hn : n + k = v) :
    Regroups (k + m) v (ins ++ [d]) (outs ++ [left <<< k ||| d >>> m]) m (d &&& (2 ^ m - 1)) := by
  have hemit := (show n + (k + m) = v + m by omega) ▸ h.keep hd
  have hhigh : (left <<< (k + m) ||| d) >>> m = left <<< k ||| d >>> m := by
    rw [Nat.shiftRight_or_distrib, Nat.shiftLeft_add, Nat.shiftLeft_shiftRight]
  have hlow : (left <<< (k + m) ||| d) &&& (2 ^ m - 1) = d &&& (2 ^ m - 1) := by
    rw [← Nat.shiftLeft_add_eq_or_of_lt hd, Nat.and_two_pow_sub_one_eq_mod,
      Nat.and_two_pow_sub_one_eq_mod, Nat.shiftLeft_eq, pow_add, ← Nat.mul_assoc,
      Nat.mul_comm, Nat.mul_add_mod]
  rw [← hhigh, ← hlow]
  exact hemit.emit

theorem shift_emit {j k : ℕ} (h : Regroups (k + (v + j)) v ins outs n left) {d : ℕ}
    (hd : d < 2 ^ (k + (v + j))) (hn : n + k = v) :
    Regroups (k + (v + j)) v (ins ++ [d])
      (outs ++ [left <<< k ||| d >>> (v + j), d >>> j &&& (2 ^ v - 1)]) j (d &&& (2 ^ j - 1)) := by
  have hemit := (h.shift hd hn).emit
  have hout : (d &&& (2 ^ (v + j) - 1)) >>> j = d >>> j &&& (2 ^ v - 1) := by
    rw [Nat.and_two_pow_sub_one_eq_mod, Nat.and_two_pow_sub_one_eq_mod, Nat.shiftRight_eq_div_pow,
      Nat.shiftRight_eq_div_pow, pow_add, Nat.mod_mul_left_div_self]
  have hleft : d &&& (2 ^ (v + j) - 1) &&& (2 ^ j - 1) = d &&& (2 ^ j - 1) := by
    rw [Nat.and_two_pow_sub_one_eq_mod, Nat.and_two_pow_sub_one_eq_mod,
      Nat.and_two_pow_sub_one_eq_mod, Nat.mod_mod_of_dvd d (Nat.pow_dvd_pow 2 (Nat.le_add_left j v))]
  rw [hout, hleft, List.append_assoc] at hemit
  exact hemit

theorem back (h : Regroups w v ins outs 0 left) : Regroups v w outs ins 0 0 := by
  have hzero : left = 0 := by
    have hlt := h.left_lt
    rw [pow_zero] at hlt
    omega
  refine ⟨h.outs_lt, h.ins_lt, by simp, h.length_eq.symm, ?_⟩
  rw [h.value_eq, hzero]
  simp

theorem pad (h : Regroups w v ins outs n left) (hn : n ≤ v) :
    Regroups v w (outs ++ [left <<< (v - n)]) ins (v - n) 0 := by
  obtain ⟨m, rfl⟩ := Nat.exists_eq_add_of_le hn
  rw [Nat.add_sub_cancel_left, Nat.shiftLeft_eq]
  refine ⟨?_, h.ins_lt, Nat.two_pow_pos m, ?_, ?_⟩
  · intro x hx
    rcases List.mem_append.mp hx with hx | hx
    · exact h.outs_lt x hx
    · rw [List.mem_singleton.mp hx, pow_add]
      exact Nat.mul_lt_mul_of_pos_right h.left_lt (Nat.two_pow_pos m)
  · rw [h.length_eq, List.length_append, List.length_singleton, Nat.mul_add]
    omega
  · rw [value_concat, h.value_eq, pow_add]
    ring

theorem outs_unique {outs' : List ℕ} {n' left' : ℕ} (h : Regroups w v ins outs n left)
    (h' : Regroups w v ins outs' n' left') (hn : n < v) (hn' : n' < v) :
    outs = outs' ∧ n = n' ∧ left = left' := by
  have hlen : outs.length * v + n = outs'.length * v + n' := by
    rw [Nat.mul_comm, ← h.length_eq, h'.length_eq, Nat.mul_comm]
  obtain ⟨hlength, rfl⟩ := split_unique hn hn' hlen
  obtain ⟨hvalue, hleft⟩ := split_unique h.left_lt h'.left_lt (h.value_eq.symm.trans h'.value_eq)
  exact ⟨value_inj hlength h.outs_lt h'.outs_lt hvalue, rfl, hleft⟩

theorem ins_unique {ins' : List ℕ} {n' : ℕ} (h : Regroups w v ins outs n 0)
    (h' : Regroups w v ins' outs n' 0) (hn : n < w) (hn' : n' < w) : ins = ins' := by
  have hlen : ins.length * w + n' = ins'.length * w + n := by
    rw [Nat.mul_comm, h.length_eq, Nat.mul_comm ins'.length, h'.length_eq]
    omega
  obtain ⟨hlength, rfl⟩ := split_unique hn' hn hlen
  exact value_inj hlength h.ins_lt h'.ins_lt (h.value_eq.trans h'.value_eq.symm)

end Regroups

/-! ### Codecs -/

/-- Digits of `w` bits as characters, in groups of `group`, which the character `pad` fills up.
The characters with the same digit are those with the same canonical one. -/
structure Codec (w group : ℕ) (α : Type*) where
  char : ℕ → α
  digit : α → Option ℕ
  canon : α → α
  pad : α
  digit_char : ∀ d < 2 ^ w, digit (char d) = some d
  char_digit : ∀ c d, digit c = some d → d < 2 ^ w ∧ char d = canon c
  digit_pad : digit pad = none
  canon_pad : canon pad = pad

namespace Codec

variable {w group : ℕ} {α : Type*} (C : Codec w group α)

/-- How many characters fill up the last group. -/
def padding (_ : Codec w group α) (len : ℕ) : ℕ := (group - len % group) % group

def text (ds : List ℕ) : List α :=
  ds.map C.char ++ List.replicate (C.padding ds.length) C.pad

def leading (s : List α) : List α := s.takeWhile fun c => (C.digit c).isSome

/-- The leading digits and the padding they require. -/
def start (s : List α) : List α :=
  C.leading s ++ List.replicate (C.padding (C.leading s).length) C.pad

def Ends (rest : List α) : Prop := ∀ c, rest.head? = some c → C.digit c = none

/-- `t` is the text of the digits of the numbers `bytes` of eight bits. -/
def Encodes (bytes : List ℕ) (t : List α) : Prop :=
  ∃ ds k, Regroups w 8 ds bytes k 0 ∧ k < w ∧ t = C.text ds

/-- The digits in front of `s` are those of `bytes`; the last group is filled up, and no digit
follows. -/
def Reads (s : List α) (bytes : List ℕ) : Prop :=
  ∃ ds k rest, Regroups w 8 ds bytes k 0 ∧ k < w ∧ (C.leading s).map C.digit = ds.map some ∧
    s = C.leading s ++ List.replicate (C.padding ds.length) C.pad ++ rest ∧ C.Ends rest

theorem leading_text {ds : List ℕ} (hds : ∀ d ∈ ds, d < 2 ^ w) : C.leading (C.text ds) = ds.map C.char := by
  have hall : ∀ c ∈ ds.map C.char, (C.digit c).isSome = true := by
    intro c hc
    obtain ⟨d, hd, rfl⟩ := List.mem_map.mp hc
    rw [C.digit_char d (hds d hd)]
    rfl
  rw [leading, text, List.takeWhile_append_of_pos hall]
  cases C.padding ds.length with
  | zero => simp
  | succ n => simp [List.replicate_succ, C.digit_pad]

theorem Encodes.reads {C : Codec w group α} {bytes : List ℕ} {t : List α} (h : C.Encodes bytes t) :
    C.Reads t bytes := by
  obtain ⟨ds, k, hds, hk, rfl⟩ := h
  refine ⟨ds, k, [], hds, hk, ?_, ?_, fun c hc => by cases hc⟩
  · rw [C.leading_text hds.ins_lt, List.map_map]
    refine List.map_congr_left fun d hd => ?_
    exact C.digit_char d (hds.ins_lt d hd)
  · rw [C.leading_text hds.ins_lt, List.append_nil]
    rfl

theorem Reads.encodes {C : Codec w group α} {s : List α} {bytes : List ℕ} {t : List α}
    (h : C.Reads s bytes) (ht : C.Encodes bytes t) :
    (∃ rest, s = C.start s ++ rest ∧ C.Ends rest) ∧ t = (C.start s).map C.canon := by
  obtain ⟨ds, k, rest, hds, hk, hmap, hs, hrest⟩ := h
  obtain ⟨ds', k', hds', hk', rfl⟩ := ht
  obtain rfl := hds.ins_unique hds' hk hk'
  have hlength : (C.leading s).length = ds.length := by
    have hcongr := congrArg List.length hmap
    rwa [List.length_map, List.length_map] at hcongr
  refine ⟨⟨rest, by rwa [start, hlength], hrest⟩, ?_⟩
  have hcanon : (C.leading s).map C.canon = ds.map C.char := by
    refine List.ext_getElem (by rw [List.length_map, List.length_map, hlength]) fun i hi hi' => ?_
    rw [List.length_map] at hi hi'
    have hdigit : C.digit ((C.leading s)[i]) = some ds[i] := by
      have hget := congrArg (·[i]?) hmap
      simpa [hi, hi'] using hget
    rw [List.getElem_map, List.getElem_map, (C.char_digit _ _ hdigit).2]
  rw [text, start, List.map_append, hcanon, hlength, List.map_replicate, C.canon_pad]

end Codec

end Stonecoin.Regrouping
