/-
Scripts as they are built with `operator<<` (`script/script.h`), and the encoding of numbers in
them.

A number is its magnitude, lowest byte first, with the sign in the highest bit; where the
magnitude needs that bit, the sign gets a byte of its own.
-/
import Stonecoin.Interpreter
import Stonecoin.Streams

namespace Stonecoin

open Interpreter

/-! ### Bytes -/

theorem forall_byte {P : UInt8 → Prop} (h : ∀ n < 256, P (UInt8.ofNat n)) (b : UInt8) : P b := by
  have hb := h b.toNat b.toNat_lt
  rwa [UInt8.ofNat_toNat] at hb

theorem signBit_iff (b : UInt8) : b &&& 0x80 ≠ 0 ↔ 128 ≤ b.toNat := by
  refine forall_byte (P := fun b => b &&& 0x80 ≠ 0 ↔ 128 ≤ b.toNat) ?_ b
  decide +kernel

theorem toNat_magnitude (b : UInt8) :
    (b &&& 0x7f).toNat = if 128 ≤ b.toNat then b.toNat - 128 else b.toNat := by
  refine forall_byte
    (P := fun b => (b &&& 0x7f).toNat = if 128 ≤ b.toNat then b.toNat - 128 else b.toNat) ?_ b
  decide +kernel

theorem toNat_setSign (b : UInt8) (h : b.toNat < 128) : (b ||| 0x80).toNat = b.toNat + 128 := by
  revert h
  refine forall_byte
    (P := fun b => b.toNat < 128 → (b ||| 0x80).toNat = b.toNat + 128) ?_ b
  decide +kernel

/-! ### Magnitudes -/

theorem readLE_append (as bs : List UInt8) :
    readLE (as ++ bs) = readLE as + 256 ^ as.length * readLE bs := by
  induction as with
  | nil => simp [readLE]
  | cons a as ih =>
    rw [List.cons_append, readLE, readLE, ih, List.length_cons, Nat.pow_succ, Nat.mul_add,
      Nat.mul_comm (256 ^ as.length) 256, Nat.mul_assoc, Nat.add_assoc]

theorem readLE_snoc (l : List UInt8) (b : UInt8) :
    readLE (l ++ [b]) = readLE l + 256 ^ l.length * b.toNat := by
  rw [readLE_append]
  rfl

theorem absBytes_eq : ∀ {fuel n : ℕ}, 0 < n → n < 256 ^ fuel →
    ∃ l m, absBytes fuel n = l ++ [m] ∧ m ≠ 0 ∧ readLE (l ++ [m]) = n ∧ l.length < fuel := by
  intro fuel
  induction fuel with
  | zero =>
    intro n hpos hlt
    rw [Nat.pow_zero] at hlt
    omega
  | succ fuel ih =>
    intro n hpos hlt
    rw [absBytes, if_neg hpos.ne']
    have hbyte : (UInt8.ofNat (n % 256)).toNat = n % 256 :=
      UInt8.toNat_ofNat_of_lt (Nat.mod_lt n (by decide))
    by_cases hdiv : n / 256 = 0
    · have hnil : absBytes fuel (n / 256) = [] := by
        cases fuel with
        | zero => rfl
        | succ fuel => rw [absBytes, if_pos hdiv]
      have hzero : UInt8.ofNat (n % 256) ≠ 0 := by
        intro heq
        rw [heq] at hbyte
        have hz : (0 : UInt8).toNat = 0 := rfl
        omega
      refine ⟨[], UInt8.ofNat (n % 256), by rw [hnil]; rfl, hzero, ?_, Nat.succ_pos fuel⟩
      show (UInt8.ofNat (n % 256)).toNat + 256 * 0 = n
      omega
    · obtain ⟨l, m, habs, hm, hread, hlen⟩ := ih (Nat.pos_of_ne_zero hdiv)
        (Nat.div_lt_of_lt_mul (by rwa [Nat.mul_comm, ← Nat.pow_succ]))
      refine ⟨UInt8.ofNat (n % 256) :: l, m, by rw [habs]; rfl, hm, ?_, Nat.succ_lt_succ hlen⟩
      rw [List.cons_append, readLE, hread, hbyte]
      omega

theorem absBytes_readLE {m : UInt8} (hm : m ≠ 0) : ∀ {l : List UInt8} {fuel : ℕ}, l.length < fuel →
    absBytes fuel (readLE (l ++ [m])) = l ++ [m] := by
  have hpos : 0 < m.toNat := Nat.pos_of_ne_zero fun hz => hm (UInt8.toNat_inj.mp hz)
  have hlast : ∀ l : List UInt8, 0 < readLE (l ++ [m]) := by
    intro l
    rw [readLE_snoc]
    exact Nat.add_pos_right _ (Nat.mul_pos (Nat.pos_of_neZero _) hpos)
  intro l
  induction l with
  | nil =>
    intro fuel hfuel
    cases fuel with
    | zero => exact absurd hfuel (Nat.lt_irrefl 0)
    | succ fuel =>
      have hread : readLE ([] ++ [m]) = m.toNat := rfl
      have hlt := m.toNat_lt
      have hnil : absBytes fuel (m.toNat / 256) = [] := by
        cases fuel with
        | zero => rfl
        | succ fuel => rw [absBytes, if_pos (by omega)]
      rw [hread, absBytes, if_neg hpos.ne', hnil, Nat.mod_eq_of_lt hlt, UInt8.ofNat_toNat]
      rfl
  | cons a l ih =>
    intro fuel hfuel
    cases fuel with
    | zero => exact absurd hfuel (Nat.not_lt_zero _)
    | succ fuel =>
      have ha := a.toNat_lt
      have hread : readLE (a :: l ++ [m]) = a.toNat + 256 * readLE (l ++ [m]) := rfl
      have hdiv : (a.toNat + 256 * readLE (l ++ [m])) / 256 = readLE (l ++ [m]) := by omega
      have hmod : (a.toNat + 256 * readLE (l ++ [m])) % 256 = a.toNat := by omega
      have hne : a.toNat + 256 * readLE (l ++ [m]) ≠ 0 := by
        have := hlast l
        omega
      rw [hread, absBytes, if_neg hne, hdiv, hmod, ih (Nat.lt_of_succ_lt_succ hfuel),
        UInt8.ofNat_toNat]
      rfl

/-! ### Numbers -/

theorem setVch_snoc {l : List UInt8} (b : UInt8) (h : l.length ≤ 7) : setVch (l ++ [b]) =
    .ok (if 128 ≤ b.toNat then -((readLE (l ++ [b &&& 0x7f]) : ℕ) : ℤ)
      else (readLE (l ++ [b &&& 0x7f]) : ℕ)) := by
  have hlen : ¬ 8 < (l ++ [b]).length := by
    rw [List.length_append, List.length_singleton]
    omega
  have hmag := toNat_magnitude b
  unfold setVch
  rw [if_neg hlen, List.getLastD_concat, List.length_append, List.length_singleton,
    Nat.add_sub_cancel, readLE_snoc, readLE_snoc, hmag]
  by_cases hb : 128 ≤ b.toNat
  · have hsub : readLE l + 256 ^ l.length * b.toNat - 0x80 * 256 ^ l.length =
        readLE l + 256 ^ l.length * (b.toNat - 128) := by
      rw [Nat.mul_sub, Nat.mul_comm 0x80]
      have hle : 256 ^ l.length * 128 ≤ 256 ^ l.length * b.toNat := Nat.mul_le_mul_left _ hb
      omega
    rw [if_pos ((signBit_iff b).mpr hb), if_pos hb, if_pos hb, hsub]
  · rw [if_neg fun h => hb ((signBit_iff b).mp h), if_neg hb, if_neg hb]

theorem serialize_eq {value : ℤ} (hne : value ≠ 0) {l : List UInt8} {m : UInt8}
    (habs : absBytes 8 value.natAbs = l ++ [m]) : serialize value =
      if 128 ≤ m.toNat then l ++ [m] ++ [if value < 0 then 0x80 else 0]
      else if value < 0 then l ++ [m ||| 0x80] else l ++ [m] := by
  unfold serialize
  rw [if_neg hne, habs]
  dsimp only
  rw [List.getLastD_concat, List.dropLast_concat]
  by_cases hm : 128 ≤ m.toNat
  · rw [if_pos hm]
    exact if_pos ((signBit_iff m).mpr hm)
  · rw [if_neg hm]
    exact if_neg fun h => hm ((signBit_iff m).mp h)

theorem notMinimal_snoc (l : List UInt8) (b : UInt8) : notMinimal (l ++ [b]) = true ↔
    b &&& 0x7f = 0 ∧ (l = [] ∨ (l.getLastD 0).toNat < 128) := by
  have hsign := signBit_iff (l.getLastD 0)
  rw [notMinimal, List.getLastD_concat]
  rcases List.eq_nil_or_concat' l with rfl | ⟨l, c, rfl⟩
  · simp
  · have hprev : (l ++ [c] ++ [b]).getD ((l ++ [c] ++ [b]).length - 2) 0 = c := by
      simp
    have hlen : ¬ (l ++ [c] ++ [b]).length ≤ 1 := by simp
    rw [List.getLastD_concat] at hsign
    rw [hprev, List.getLastD_concat]
    simp only [hlen, decide_false, Bool.false_or, Bool.and_eq_true, decide_eq_true_eq,
      List.append_eq_nil_iff, List.cons_ne_nil, and_false, false_or]
    refine and_congr_right fun _ => ?_
    rw [← Nat.not_le, ← hsign, not_not]

theorem scriptNum_snoc {l : List UInt8} (b : UInt8) (h : l.length ≤ 7) :
    scriptNum (l ++ [b]) true 8 =
      if notMinimal (l ++ [b]) then
        .error (.thrown (.scriptnum_error "non-minimally encoded script number"))
      else setVch (l ++ [b]) := by
  have hlen : ¬ 8 < (l ++ [b]).length := by
    rw [List.length_append, List.length_singleton]
    omega
  have hne : (l ++ [b]).isEmpty = false := by simp
  rw [scriptNum, if_neg hlen, hne]
  rfl

theorem scriptNum_serialize {n : ℤ} (h : n.natAbs < 2 ^ 63) :
    scriptNum (serialize n) true 8 = .ok n := by
  by_cases hne : n = 0
  · subst hne
    rfl
  obtain ⟨l, m, habs, hm, hread, hlen⟩ := absBytes_eq (Int.natAbs_pos.mpr hne)
    (show n.natAbs < 256 ^ 8 from h.trans (by decide))
  have hmpos : m.toNat ≠ 0 := fun hz => hm (UInt8.toNat_inj.mp hz)
  rw [serialize_eq hne habs]
  by_cases hsign : 128 ≤ m.toNat
  · -- the sign has its own byte, and there is room for it
    have hroom : (l ++ [m]).length ≤ 7 := by
      rw [List.length_append, List.length_singleton]
      by_contra hfull
      have hseven : l.length = 7 := by omega
      rw [readLE_snoc, hseven] at hread
      omega
    have hmin : ∀ b : UInt8, ¬ notMinimal (l ++ [m] ++ [b]) = true := by
      intro b hb
      rcases ((notMinimal_snoc _ b).mp hb).2 with hnil | hlt
      · simp at hnil
      · rw [List.getLastD_concat] at hlt
        omega
    have hzero : readLE (l ++ [m] ++ [0]) = n.natAbs := by
      rw [readLE_snoc, hread]
      rfl
    rw [if_pos hsign, scriptNum_snoc _ hroom, if_neg (hmin _), setVch_snoc _ hroom]
    by_cases hneg : n < 0
    · rw [if_pos hneg, if_pos (by decide), show (0x80 &&& 0x7f : UInt8) = 0 by decide, hzero]
      congr 1
      omega
    · rw [if_neg hneg, if_neg (by decide), show (0 &&& 0x7f : UInt8) = 0 by decide, hzero]
      congr 1
      omega
  · -- the sign has its place in the last byte
    have hmag : ∀ b : UInt8, (b &&& 0x7f).toNat = m.toNat → b &&& 0x7f = m :=
      fun b hb => UInt8.toNat_inj.mp hb
    have hmin : ∀ b : UInt8, b &&& 0x7f = m → ¬ notMinimal (l ++ [b]) = true := by
      intro b hb hnot
      exact hm (hb.symm.trans ((notMinimal_snoc l b).mp hnot).1)
    rw [if_neg hsign]
    by_cases hneg : n < 0
    · have hset := toNat_setSign m (by omega)
      have hb : (m ||| 0x80) &&& 0x7f = m := by
        refine hmag _ ?_
        rw [toNat_magnitude, hset, if_pos (by omega)]
        omega
      rw [if_pos hneg, scriptNum_snoc _ (by omega), if_neg (hmin _ hb), setVch_snoc _ (by omega),
        hb, hread, if_pos (by omega)]
      congr 1
      omega
    · have hb : m &&& 0x7f = m := by
        refine hmag _ ?_
        rw [toNat_magnitude, if_neg hsign]
      rw [if_neg hneg, scriptNum_snoc _ (by omega), if_neg (hmin _ hb), setVch_snoc _ (by omega),
        hb, hread, if_neg hsign]
      congr 1
      omega

theorem serialize_scriptNum {vch : List UInt8} {v : ℤ} (h : scriptNum vch true 8 = .ok v) :
    serialize v = vch := by
  rcases List.eq_nil_or_concat' vch with rfl | ⟨l, b, rfl⟩
  · obtain rfl : 0 = v := Except.ok.inj h
    rfl
  have hlen : l.length ≤ 7 := by
    by_contra hlong
    rw [scriptNum, if_pos (by rw [List.length_append, List.length_singleton]; omega)] at h
    cases h
  rw [scriptNum_snoc b hlen] at h
  have hmin : ¬ notMinimal (l ++ [b]) = true := by
    intro hnot
    rw [if_pos hnot] at h
    cases h
  rw [if_neg hmin, setVch_snoc b hlen] at h
  have hv := (Except.ok.inj h).symm
  have hmin' := fun hzero hprev => hmin ((notMinimal_snoc l b).mpr ⟨hzero, hprev⟩)
  have hmag := toNat_magnitude b
  by_cases hm : b &&& 0x7f = 0
  · -- the last byte is the sign alone, which the byte before does not leave room for
    rcases List.eq_nil_or_concat' l with rfl | ⟨l, c, rfl⟩
    · exact absurd (.inl rfl) (hmin' hm)
    have hc : 128 ≤ c.toNat := by
      by_contra hlt
      refine hmin' hm (.inr ?_)
      rw [List.getLastD_concat]
      omega
    have hcne : c ≠ 0 := by
      rintro rfl
      exact absurd hc (by decide)
    rw [List.length_append, List.length_singleton] at hlen
    have hread : readLE (l ++ [c] ++ [b &&& 0x7f]) = readLE (l ++ [c]) := by
      rw [readLE_snoc (l ++ [c]), hm]
      rfl
    have hpos : 0 < readLE (l ++ [c]) := by
      rw [readLE_snoc]
      exact Nat.add_pos_right _ (Nat.mul_pos (Nat.pos_of_neZero _) (by omega))
    rw [hread] at hv
    rw [hm] at hmag
    have hzero : (0 : UInt8).toNat = 0 := rfl
    by_cases hb : 128 ≤ b.toNat
    · rw [if_pos hb] at hv hmag
      obtain rfl : b = 0x80 := UInt8.toNat_inj.mp (show b.toNat = 128 by omega)
      have habs : absBytes 8 v.natAbs = l ++ [c] := by
        rw [show v.natAbs = readLE (l ++ [c]) by omega]
        exact absBytes_readLE hcne (by omega)
      rw [serialize_eq (by omega) habs, if_pos hc, if_pos (by omega)]
    · rw [if_neg hb] at hv hmag
      obtain rfl : b = 0 := UInt8.toNat_inj.mp (by omega)
      have habs : absBytes 8 v.natAbs = l ++ [c] := by
        rw [show v.natAbs = readLE (l ++ [c]) by omega]
        exact absBytes_readLE hcne (by omega)
      rw [serialize_eq (by omega) habs, if_pos hc, if_neg (by omega)]
  · have hpos : 0 < readLE (l ++ [b &&& 0x7f]) := by
      rw [readLE_snoc]
      refine Nat.add_pos_right _ (Nat.mul_pos (Nat.pos_of_neZero _) ?_)
      exact Nat.pos_of_ne_zero fun hz => hm (UInt8.toNat_inj.mp hz)
    have hlt : ¬ 128 ≤ (b &&& 0x7f).toNat := by
      have hb := b.toNat_lt
      rw [hmag]
      split
      · omega
      · omega
    have habs : absBytes 8 v.natAbs = l ++ [b &&& 0x7f] := by
      rw [show v.natAbs = readLE (l ++ [b &&& 0x7f]) by split at hv <;> omega]
      exact absBytes_readLE hm (by omega)
    rw [serialize_eq (by split at hv <;> omega) habs, if_neg hlt]
    by_cases hb : 128 ≤ b.toNat
    · rw [if_pos hb] at hv hmag
      have hset := toNat_setSign (b &&& 0x7f) (by omega)
      rw [if_pos (by omega), UInt8.toNat_inj.mp (show ((b &&& 0x7f) ||| 0x80).toNat = b.toNat by
        omega)]
    · rw [if_neg hb] at hv hmag
      rw [if_neg (by omega), UInt8.toNat_inj.mp (show (b &&& 0x7f).toNat = b.toNat by omega)]

/-! ### Pushes -/

/-- The opcode that `operator<<` chooses for some bytes. -/
def pushOpcode (b : List UInt8) : UInt8 :=
  if b.length < OP_PUSHDATA1.toNat then UInt8.ofNat b.length
  else if b.length ≤ 0xff then OP_PUSHDATA1
  else if b.length ≤ 0xffff then OP_PUSHDATA2
  else OP_PUSHDATA4

theorem getOp_direct {b : List UInt8} (h : b.length < OP_PUSHDATA1.toNat) (rest : CScript) :
    getOp (UInt8.ofNat b.length :: (b ++ rest)) = some (UInt8.ofNat b.length, b, rest) := by
  have h76 : b.length < 76 := h
  have hop : (UInt8.ofNat b.length).toNat = b.length :=
    UInt8.toNat_ofNat_of_lt (show b.length < 256 by omega)
  have hle : UInt8.ofNat b.length ≤ OP_PUSHDATA4 := by
    show (UInt8.ofNat b.length).toNat ≤ 78
    omega
  have hlt : UInt8.ofNat b.length < OP_PUSHDATA1 := by
    show (UInt8.ofNat b.length).toNat < 76
    omega
  have hroom : ¬ (b ++ rest).length < b.length := by
    rw [List.length_append]
    omega
  rw [getOp, if_pos hle, pushSizeWidth, if_pos hlt]
  simp only [hop, if_neg hroom, List.take_left', List.drop_left']

theorem getOp_sized {opcode : UInt8} {w : ℕ} (hop : opcode ≤ OP_PUSHDATA4)
    (hw : pushSizeWidth opcode = some w) {b : List UInt8} (h : b.length < 256 ^ w)
    (rest : CScript) :
    getOp (opcode :: (writeLE w b.length ++ (b ++ rest))) = some (opcode, b, rest) := by
  have hlen := length_writeLE w b.length
  have hfield : ¬ (writeLE w b.length ++ (b ++ rest)).length < w := by
    rw [List.length_append]
    omega
  have htake : (writeLE w b.length ++ (b ++ rest)).take w = writeLE w b.length :=
    List.take_left' hlen
  have hdrop : (writeLE w b.length ++ (b ++ rest)).drop w = b ++ rest := List.drop_left' hlen
  have hroom : ¬ (b ++ rest).length < b.length := by
    rw [List.length_append]
    omega
  rw [getOp, if_pos hop, hw]
  simp only [if_neg hfield, htake, hdrop, readLE_writeLE h, if_neg hroom, List.take_left',
    List.drop_left']

theorem getOp_pushScript {b : List UInt8} (h : b.length < 256 ^ 4) (rest : CScript) :
    getOp (pushScript b ++ rest) = some (pushOpcode b, b, rest) := by
  unfold pushScript pushOpcode
  by_cases h1 : b.length < OP_PUSHDATA1.toNat
  · rw [if_pos h1, if_pos h1]
    exact getOp_direct h1 rest
  rw [if_neg h1, if_neg h1]
  by_cases h2 : b.length ≤ 0xff
  · rw [if_pos h2, if_pos h2]
    have hone : writeLE 1 b.length = [UInt8.ofNat b.length] := by
      rw [writeLE, writeLE, Nat.mod_eq_of_lt (by omega)]
    have hop : OP_PUSHDATA1 ≤ OP_PUSHDATA4 := by decide
    have hread := getOp_sized hop (w := 1) (by decide) (show b.length < 256 ^ 1 by omega) rest
    rwa [hone] at hread
  rw [if_neg h2, if_neg h2]
  by_cases h3 : b.length ≤ 0xffff
  · rw [if_pos h3, if_pos h3, List.cons_append, List.append_assoc]
    exact getOp_sized (by decide) (by decide) (show b.length < 256 ^ 2 by omega) rest
  · rw [if_neg h3, if_neg h3, List.cons_append, List.append_assoc]
    exact getOp_sized (by decide) (by decide) h rest

/-! ### Operands -/

/-- What `operator<<` appends. -/
inductive Operand
  | op (opcode : UInt8)
  | int64 (n : ℤ)
  | scriptNum (n : ℤ)
  | bytes (b : List UInt8)
deriving DecidableEq, Repr

/-- `n == -1 || (n >= 1 && n <= 16)`: the integers that have an opcode of their own. -/
def hasOpcode (n : ℤ) : Prop := n = -1 ∨ 1 ≤ n ∧ n ≤ 16

instance (n : ℤ) : Decidable (hasOpcode n) := inferInstanceAs (Decidable (_ ∨ _))

def opcodeOf (n : ℤ) : UInt8 := UInt8.ofNat (n + (OP_1.toNat - 1 : ℤ)).toNat

def pushInt64 (n : ℤ) : CScript :=
  if hasOpcode n then [opcodeOf n]
  else if n = 0 then [0]
  else pushScript (serialize n)

/-- `operator<<`: what is appended.  The least integer, whose negation is not one, is written as
its bytes are on a machine that wraps around. -/
def Operand.script : Operand → CScript
  | .op opcode => [opcode]
  | .int64 n => pushInt64 n
  | .scriptNum n => pushScript (serialize n)
  | .bytes b => pushScript b

def build (os : List Operand) : CScript := os.foldl (fun s o => s ++ o.script) []

/-- What `GetOp` is to show of an operand: a small integer as its opcode, anything else but an
opcode as the bytes that are pushed. -/
def Operand.read : Operand → UInt8 × List UInt8
  | .op opcode => (opcode, [])
  | .int64 n => if hasOpcode n then (opcodeOf n, []) else (pushOpcode (serialize n), serialize n)
  | .scriptNum n => (pushOpcode (serialize n), serialize n)
  | .bytes b => (pushOpcode b, b)

/-- An opcode that is appended is not one of a push. -/
def Operand.Ok : Operand → Prop
  | .op opcode => OP_PUSHDATA4 < opcode
  | _ => True

/-- `GetOp` until the end, with fuel for the length of the script; `none` is a failure before
it. -/
def getOpsLoop : ℕ → CScript → Option (List (UInt8 × List UInt8))
  | _, [] => some []
  | 0, _ :: _ => none
  | fuel + 1, b :: bs =>
    match getOp (b :: bs) with
    | none => none
    | some (opcode, vch, rest) => (getOpsLoop fuel rest).map ((opcode, vch) :: ·)

def getOps (s : CScript) : Option (List (UInt8 × List UInt8)) := getOpsLoop s.length s

theorem build_eq (os : List Operand) : build os = os.flatMap Operand.script := by
  have hfold : ∀ (os : List Operand) (s : CScript),
      os.foldl (fun s o => s ++ o.script) s = s ++ os.flatMap Operand.script := by
    intro os
    induction os with
    | nil => exact fun s => (List.append_nil s).symm
    | cons o os ih =>
      intro s
      rw [List.foldl_cons, ih, List.flatMap_cons, List.append_assoc]
  exact hfold os []

theorem toNat_opcodeOf {n : ℤ} (h : hasOpcode n) : ((opcodeOf n).toNat : ℤ) = n + 80 := by
  have hop : (OP_1.toNat : ℤ) = 81 := rfl
  have hrange : 0 ≤ n + (OP_1.toNat - 1 : ℤ) ∧ n + (OP_1.toNat - 1 : ℤ) < 256 := by
    rcases h with h | h
    · omega
    · omega
  have hnat : (opcodeOf n).toNat = (n + (OP_1.toNat - 1 : ℤ)).toNat :=
    UInt8.toNat_ofNat_of_lt (show (n + (OP_1.toNat - 1 : ℤ)).toNat < 256 by omega)
  omega

theorem getOp_opcode {opcode : UInt8} (h : OP_PUSHDATA4 < opcode) (rest : CScript) :
    getOp (opcode :: rest) = some (opcode, [], rest) := by
  rw [getOp, if_neg (by rw [UInt8.not_le]; exact h)]

theorem length_le_pushScript (b : List UInt8) : b.length ≤ (pushScript b).length := by
  unfold pushScript
  split
  · exact Nat.le_succ _
  split
  · exact (Nat.le_succ _).trans (Nat.le_succ _)
  split
  · rw [List.length_cons, List.length_append]
    omega
  · rw [List.length_cons, List.length_append]
    omega

theorem getOp_operand {o : Operand} (hok : o.Ok) (hsize : o.script.length < 256 ^ 4)
    (rest : CScript) : getOp (o.script ++ rest) = some (o.read.1, o.read.2, rest) := by
  cases o with
  | op opcode => exact getOp_opcode hok rest
  | scriptNum n => exact getOp_pushScript ((length_le_pushScript _).trans_lt hsize) rest
  | bytes b => exact getOp_pushScript ((length_le_pushScript _).trans_lt hsize) rest
  | int64 n =>
    simp only [Operand.script, Operand.read, pushInt64] at hsize ⊢
    by_cases hop : hasOpcode n
    · have hnat := toNat_opcodeOf hop
      rw [if_pos hop, if_pos hop]
      refine getOp_opcode ?_ rest
      show (78 : ℕ) < (opcodeOf n).toNat
      rcases hop with h | h
      · omega
      · omega
    · rw [if_neg hop] at hsize
      rw [if_neg hop, if_neg hop]
      by_cases hzero : n = 0
      · subst hzero
        exact getOp_pushScript (b := []) (by decide) rest
      · rw [if_neg hzero] at hsize ⊢
        exact getOp_pushScript ((length_le_pushScript _).trans_lt hsize) rest

theorem getOpsLoop_operands : ∀ {os : List Operand} {fuel : ℕ}, (∀ o ∈ os, o.Ok) →
    (os.flatMap Operand.script).length < 256 ^ 4 → (os.flatMap Operand.script).length ≤ fuel →
      getOpsLoop fuel (os.flatMap Operand.script) = some (os.map Operand.read) := by
  intro os
  induction os with
  | nil =>
    intro fuel _ _ _
    cases fuel with
    | zero => rfl
    | succ fuel => rfl
  | cons o os ih =>
    intro fuel hok hsize hfuel
    rw [List.flatMap_cons, List.length_append] at hsize
    have hget := getOp_operand (hok o List.mem_cons_self) (by omega) (os.flatMap Operand.script)
    rw [List.flatMap_cons] at hfuel ⊢
    generalize hs : o.script ++ os.flatMap Operand.script = s at hget hfuel ⊢
    have hless := getOp_length_lt hget
    obtain - | ⟨b, bs⟩ := s
    · cases hget
    · obtain - | fuel := fuel
      · exact absurd hfuel (by simp)
      · have hrest := ih (fun o' ho' => hok o' (List.mem_cons_of_mem o ho')) (by omega)
          (show (os.flatMap Operand.script).length ≤ fuel by omega)
        simp only [getOpsLoop, hget, hrest, Option.map_some, List.map_cons]

theorem getOps_build {os : List Operand} (hok : ∀ o ∈ os, o.Ok)
    (hsize : (build os).length < 2 ^ 31) : getOps (build os) = some (os.map Operand.read) := by
  rw [build_eq] at hsize ⊢
  exact getOpsLoop_operands hok (hsize.trans (by decide)) le_rfl

/-! ### Integers and the interpreter -/

theorem checkMinimalPush_serialize {n : ℤ} (h : n.natAbs < 2 ^ 63) (hop : ¬ hasOpcode n) :
    checkMinimalPush (serialize n) (pushOpcode (serialize n)) = true := by
  have hlen := length_serialize n
  have hread := scriptNum_serialize h
  have hdirect : pushOpcode (serialize n) = UInt8.ofNat (serialize n).length :=
    if_pos (show (serialize n).length < 76 by omega)
  have hnat : (UInt8.ofNat (serialize n).length).toNat = (serialize n).length :=
    UInt8.toNat_ofNat_of_lt (show (serialize n).length < 256 by omega)
  rw [hdirect]
  by_cases h0 : (serialize n).length = 0
  · rw [checkMinimalPush, if_pos h0, h0]
    rfl
  -- a single byte that stands for 1 to 16, or for -1
  have hone : (serialize n).length = 1 →
      n = if 128 ≤ ((serialize n).getD 0 0).toNat then
        -((((serialize n).getD 0 0) &&& 0x7f).toNat : ℤ)
      else (((serialize n).getD 0 0) &&& 0x7f).toNat := by
    intro h1
    obtain ⟨d, hd⟩ := List.length_eq_one_iff.mp h1
    rw [hd] at hread ⊢
    have hsnoc := scriptNum_snoc (l := []) d (Nat.zero_le 7)
    rw [List.nil_append, hread] at hsnoc
    split at hsnoc
    · cases hsnoc
    · have hset := setVch_snoc (l := []) d (Nat.zero_le 7)
      rw [List.nil_append] at hset
      exact Except.ok.inj (hsnoc.trans hset)
  have hsmall : ¬ ((serialize n).length = 1 ∧ 1 ≤ (serialize n).getD 0 0 ∧
      (serialize n).getD 0 0 ≤ 16) := by
    rintro ⟨h1, hlow, hhigh⟩
    have hlow' : 1 ≤ ((serialize n).getD 0 0).toNat := hlow
    have hhigh' : ((serialize n).getD 0 0).toNat ≤ 16 := hhigh
    have hn := hone h1
    rw [if_neg (by omega), toNat_magnitude, if_neg (by omega)] at hn
    exact hop (.inr ⟨by omega, by omega⟩)
  have hneg : ¬ ((serialize n).length = 1 ∧ (serialize n).getD 0 0 = 0x81) := by
    rintro ⟨h1, hd⟩
    have hn := hone h1
    rw [hd] at hn
    exact hop (.inl hn)
  rw [checkMinimalPush, if_neg h0, if_neg hsmall, if_neg hneg, if_pos (by omega)]
  exact decide_eq_true hnat

theorem decodeOp_opcodeOf {n : ℤ} (h : hasOpcode n) : decodeOp (opcodeOf n) = .pushNumber n := by
  rcases h with rfl | h
  · rfl
  · have hnat := toNat_opcodeOf (.inr h)
    have hrange : OP_1 ≤ opcodeOf n ∧ opcodeOf n ≤ OP_16 := by
      constructor
      · show 81 ≤ (opcodeOf n).toNat
        omega
      · show (opcodeOf n).toNat ≤ 96
        omega
    have hvalue : ((opcodeOf n).toNat : ℤ) - ((OP_1.toNat : ℤ) - 1) = n := by
      have hone : (OP_1.toNat : ℤ) = 81 := rfl
      omega
    rw [decodeOp, if_pos hrange, hvalue]

variable (crypto : ScriptCrypto) (flags : ℕ) (checker : BaseSignatureChecker)

theorem countOpcode_push {opcode : UInt8} {vch : Valtype} (hop : opcode.toNat ≤ 0x60)
    (hvch : vch.length ≤ 520) (σ : EvalState) : countOpcode opcode vch σ = .ok σ := by
  have hsize : ¬ MAX_SCRIPT_ELEMENT_SIZE < vch.length := Nat.not_lt.mpr hvch
  have hle : ¬ OP_16 < opcode := Nat.not_lt.mpr hop
  have hdisabled : isDisabled opcode = false := by
    simp only [isDisabled, List.mem_cons, List.not_mem_nil, or_false, decide_eq_false_iff_not]
    omega
  rw [countOpcode, if_neg hsize]
  simp only [hle, if_false, false_and, hdisabled, Bool.false_eq_true]

theorem evalOpcode_data {opcode : UInt8} {vch : Valtype} (hop : opcode.toNat ≤ 78)
    (hmin : checkMinimalPush vch opcode = true) (pc : CScript) (σ : EvalState) :
    evalOpcode crypto flags checker opcode vch pc σ =
      .ok (if σ.vfExec.all id then { σ with stack := vch :: σ.stack } else σ) := by
  have hle : opcode ≤ OP_PUSHDATA4 := hop
  have hless : ¬ OP_IF_BYTE ≤ opcode := by
    show ¬ 99 ≤ opcode.toNat
    omega
  rw [evalOpcode]
  cases σ.vfExec.all id with
  | true => simp [hle, hmin]
  | false => simp [hless]

theorem evalOpcode_small {n : ℤ} (h : hasOpcode n) (pc : CScript) (σ : EvalState) :
    evalOpcode crypto flags checker (opcodeOf n) [] pc σ =
      .ok (if σ.vfExec.all id then { σ with stack := serialize n :: σ.stack } else σ) := by
  have hnat := toNat_opcodeOf h
  have hmore : ¬ opcodeOf n ≤ OP_PUSHDATA4 := by
    show ¬ (opcodeOf n).toNat ≤ 78
    rcases h with h | h
    · omega
    · omega
  have hless : ¬ OP_IF_BYTE ≤ opcodeOf n := by
    show ¬ 99 ≤ (opcodeOf n).toNat
    rcases h with h | h
    · omega
    · omega
  have hvch : getvch n = .ok (serialize n) := by
    refine if_neg ?_
    rintro rfl
    exact absurd h (by decide)
  rw [evalOpcode, decodeOp_opcodeOf h]
  cases σ.vfExec.all id with
  | true =>
    simp only [hmore, decide_false, Bool.and_false, Bool.false_eq_true, if_false, Bool.true_or,
      if_true, execInstr, EvalState.onStack, hvch]
    rfl
  | false => simp [hless]

theorem evalStep_int64 {n : ℤ} (h : n.natAbs < 2 ^ 63) (pc : CScript) (σ : EvalState) :
    evalStep crypto flags checker (Operand.int64 n).read.1 (Operand.int64 n).read.2 pc σ =
      let σ' := if σ.vfExec.all id then { σ with stack := serialize n :: σ.stack } else σ
      if 1000 < σ'.stack.length + σ'.altstack.length then σ.fail .SCRIPT_ERR_STACK_SIZE
      else .ok σ' := by
  have hlen := length_serialize n
  have hcount : ∀ σ' : EvalState, σ' =
      (if σ.vfExec.all id then { σ with stack := serialize n :: σ.stack } else σ) →
      σ'.nCheckSig = σ.nCheckSig := by
    rintro σ' rfl
    split
    · rfl
    · rfl
  by_cases hop : hasOpcode n
  · have hread : (Operand.int64 n).read = (opcodeOf n, []) := if_pos hop
    have hle : (opcodeOf n).toNat ≤ 0x60 := by
      have hnat := toNat_opcodeOf hop
      rcases hop with hop | hop
      · omega
      · omega
    rw [hread, evalStep, countOpcode_push hle (Nat.zero_le _)]
    show (evalOpcode crypto flags checker (opcodeOf n) [] pc σ >>= _) = _
    rw [evalOpcode_small crypto flags checker hop]
    have hsig := hcount _ rfl
    dsimp only [bind, Except.bind, EvalState.fail]
    rw [hsig]
  · have hread : (Operand.int64 n).read = (pushOpcode (serialize n), serialize n) := if_neg hop
    have hopcode : (pushOpcode (serialize n)).toNat = (serialize n).length := by
      have hdirect : pushOpcode (serialize n) = UInt8.ofNat (serialize n).length :=
        if_pos (show (serialize n).length < 76 by omega)
      rw [hdirect]
      exact UInt8.toNat_ofNat_of_lt (show (serialize n).length < 256 by omega)
    have hle : (pushOpcode (serialize n)).toNat ≤ 0x60 := by omega
    have hsize : (serialize n).length ≤ 520 := by omega
    rw [hread, evalStep, countOpcode_push hle hsize]
    show (evalOpcode crypto flags checker (pushOpcode (serialize n)) (serialize n) pc σ >>= _) = _
    rw [evalOpcode_data crypto flags checker (by omega) (checkMinimalPush_serialize h hop)]
    have hsig := hcount _ rfl
    dsimp only [bind, Except.bind, EvalState.fail]
    rw [hsig]

/-- **Scripts read back as they were built**: the operands come back in their order, numbers have
exactly one minimal encoding, and the interpreter never refuses the push of an integer as not
minimal. -/
theorem scripts_read_back :
    (∀ os : List Operand, (∀ o ∈ os, o.Ok) → (build os).length < 2 ^ 31 →
      getOps (build os) = some (os.map Operand.read)) ∧
    (∀ n : ℤ, n.natAbs < 2 ^ 63 → scriptNum (serialize n) true 8 = .ok n) ∧
    (∀ vch v, scriptNum vch true 8 = .ok v → serialize v = vch) ∧
    ∀ n : ℤ, n.natAbs < 2 ^ 63 → ∀ crypto flags checker pc σ,
      evalStep crypto flags checker (Operand.int64 n).read.1 (Operand.int64 n).read.2 pc σ =
        let σ' := if σ.vfExec.all id then { σ with stack := serialize n :: σ.stack } else σ
        if 1000 < σ'.stack.length + σ'.altstack.length then σ.fail .SCRIPT_ERR_STACK_SIZE
        else .ok σ' :=
  ⟨fun _ hok hsize => getOps_build hok hsize, fun _ h => scriptNum_serialize h,
    fun _ _ h => serialize_scriptNum h,
    fun _ h crypto flags checker pc σ => evalStep_int64 crypto flags checker h pc σ⟩

end Stonecoin
