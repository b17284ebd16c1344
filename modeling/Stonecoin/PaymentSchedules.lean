/-
The payments of a superblock as they are read from the two texts of its trigger
(`SplitBy`, `ParsePaymentAmount` and `CSuperblock::ParsePaymentSchedule` in
`governance-classes.cpp`).

Indices are natural numbers; the data of an object is at most 16 KiB long.

  * `parsePaymentSchedule_spec`: what is paid to whom, for any two texts.
-/
import Stonecoin.Base58
import Stonecoin.FixedPoint
import Stonecoin.Superblocks

namespace Stonecoin

open FixedPoint Base58

/-- How a schedule is refused; an assertion is not an exception. -/
inductive ScheduleFault where
  | throws (what : String)
  | abort
deriving DecidableEq, Repr

/-! ### `SplitBy` -/

/-- The loop of `SplitBy`.  What stands at `q` is erased when it is found in the delimiters, and
`q` is then the place of the next one. -/
def splitLoop (strDelimit : List Char) (vParts : List (List Char)) (q : ℕ) : List (List Char) :=
  if h : q < vParts.length then
    if vParts[q] <:+: strDelimit then splitLoop strDelimit (vParts.eraseIdx q) q
    else splitLoop strDelimit vParts (q + 1)
  else vParts
termination_by vParts.length - q
decreasing_by
  · rw [List.length_eraseIdx_of_lt h]
    omega
  · omega

def splitBy (strCommand strDelimit : List Char) : List (List Char) :=
  splitLoop strDelimit (strCommand.splitOnP fun c => strDelimit.contains c) 0

theorem splitLoop_eq (strDelimit : List Char) (vParts : List (List Char)) (q : ℕ) :
    splitLoop strDelimit vParts q =
      vParts.take q ++ (vParts.drop q).filter fun part => ¬ part <:+: strDelimit := by
  fun_induction splitLoop strDelimit vParts q with
  | case1 vParts q h hin ih =>
    have htake : (vParts.eraseIdx q).take q = vParts.take q := by
      rw [List.eraseIdx_eq_take_drop_succ, List.take_append_of_le_length (by simp; omega)]
      simp
    have hdrop : (vParts.eraseIdx q).drop q = vParts.drop (q + 1) := by
      rw [List.eraseIdx_eq_take_drop_succ, List.drop_append_of_le_length (by simp; omega)]
      simp
    rw [ih, htake, hdrop, List.drop_eq_getElem_cons h, List.filter_cons_of_neg (by simpa using hin)]
  | case2 vParts q h hin ih =>
    rw [ih, List.drop_eq_getElem_cons h, List.filter_cons_of_pos (by simpa using hin),
      List.take_succ_eq_append_getElem h, List.append_assoc]
    rfl
  | case3 vParts q h =>
    rw [List.take_of_length_le (by omega), List.drop_eq_nil_of_le (by omega)]
    simp

theorem apart_of_mem_splitOnP {p : Char → Bool} {s part : List Char}
    (hpart : part ∈ s.splitOnP p) : ∀ c ∈ part, p c = false := by
  induction s generalizing part with
  | nil =>
    obtain rfl : part = [] := by simpa using hpart
    intro c hc
    cases hc
  | cons x s ih =>
    rw [List.splitOnP_cons_eq_if_modifyHead] at hpart
    rcases hx : p x with - | -
    · -- the character goes in front of the first part
      rcases hparts : s.splitOnP p with - | ⟨first, parts⟩
      · exact absurd hparts (List.splitOnP_ne_nil p s)
      · simp only [hx, hparts, Bool.false_eq_true, if_false, List.modifyHead_cons,
          List.mem_cons] at hpart
        have hfirst := ih (hparts ▸ List.mem_cons_self)
        rcases hpart with rfl | hlater
        · exact List.forall_mem_cons.mpr ⟨hx, hfirst⟩
        · exact ih (hparts ▸ List.mem_cons_of_mem first hlater)
    · simp only [hx, if_true, List.mem_cons] at hpart
      rcases hpart with rfl | hlater
      · simp
      · exact ih hlater

/-- The items between the bars that are not empty. -/
def items (s : List Char) : List (List Char) := (s.splitOn '|').filter fun item => item ≠ []

theorem splitBy_bar (s : List Char) : splitBy s ['|'] = items s := by
  have hsplit : s.splitOnP (fun c => ['|'].contains c) = s.splitOn '|' := by
    rw [List.splitOn]
    congr 1
    funext c
    simp only [List.contains_cons, List.contains_nil, Bool.or_false]
  rw [splitBy, splitLoop_eq, hsplit, items]
  refine List.filter_congr fun part hpart => ?_
  -- a part that is found in the delimiters would consist of them
  rw [decide_eq_decide]
  refine not_congr ⟨fun hin => ?_, fun hnil => hnil ▸ List.nil_infix⟩
  rcases part with - | ⟨c, part⟩
  · rfl
  · rw [← hsplit] at hpart
    have hc := apart_of_mem_splitOnP hpart c List.mem_cons_self
    have hmem := hin.subset List.mem_cons_self
    simp_all

/-! ### `ParsePaymentAmount` -/

abbrev Payable := {nAmount : ℤ // moneyRange nAmount = true}

def parsePaymentAmount (strAmount : List Char) : Except ScheduleFault Payable :=
  if strAmount.isEmpty then .error (.throws "ParsePaymentAmount: Amount is empty")
  else if 20 < strAmount.length then
    .error (.throws "ParsePaymentAmount: Amount string too long")
  else if strAmount.any fun c => !"0123456789.".toList.contains c then
    .error (.throws "ParsePaymentAmount: Amount string contains invalid character")
  else if strAmount.head? = some '.' then
    .error (.throws
      "ParsePaymentAmount: Invalid amount string, leading decimal point not allowed")
  else if ((strAmount.dropWhile (· ≠ '.')).drop 1).contains '.' then
    .error (.throws "ParsePaymentAmount: Invalid amount string, too many decimal points")
  else
    match parseFixedPoint strAmount 8 with
    | none =>
      .error (.throws
        ("ParsePaymentAmount: ParseFixedPoint failed for string: " ++ String.ofList strAmount))
    | some nAmount =>
      if h : moneyRange nAmount = true then .ok ⟨nAmount, h⟩
      else
        .error (.throws
          "ParsePaymentAmount: Invalid amount string, value outside of valid money range")

/-- The value of digits with at most one point among them. -/
def decimalValue (s : List Char) : ℚ :=
  digitsValue (s.takeWhile (· ≠ '.') ++ (s.dropWhile (· ≠ '.')).drop 1) /
    10 ^ ((s.dropWhile (· ≠ '.')).drop 1).length

theorem ne_of_mem_digits {ds : List Char} (hds : ∀ c ∈ ds, isDigit c = true) :
    ∀ c ∈ ds, decide (c ≠ '.') = true := by
  intro c hc
  rw [decide_eq_true_eq]
  rintro rfl
  exact absurd (hds '.' hc) (by decide)

theorem decimalValue_parts {whole fractional : List Char} (hwhole : ∀ c ∈ whole, isDigit c = true) :
    decimalValue (whole ++ Parts.point fractional) =
      digitsValue (whole ++ fractional) / 10 ^ fractional.length := by
  have htake : (whole ++ Parts.point fractional).takeWhile (· ≠ '.') = whole ∧
      (whole ++ Parts.point fractional).dropWhile (· ≠ '.') = Parts.point fractional := by
    rw [List.takeWhile_append_of_pos (ne_of_mem_digits hwhole),
      List.dropWhile_append_of_pos (ne_of_mem_digits hwhole), Parts.point]
    split_ifs
    · simp
    · simp
  have hdrop : (Parts.point fractional).drop 1 = fractional := by
    rw [Parts.point]
    split_ifs with hnil
    · rw [hnil]
      rfl
    · rfl
  rw [decimalValue, htake.1, htake.2, hdrop]

theorem parsePaymentAmount_exact {strAmount : List Char} {v : Payable}
    (h : parsePaymentAmount strAmount = .ok v) :
    ((v : ℤ) : ℚ) = decimalValue strAmount * 10 ^ 8 := by
  rw [parsePaymentAmount] at h
  split_ifs at h with hempty hlong hchars hpoint hpoints
  have hallowed : ∀ c ∈ strAmount, c ∈ "0123456789.".toList := by
    intro c hc
    by_contra hnot
    exact hchars (List.any_eq_true.mpr ⟨c, hc, by simpa using hnot⟩)
  rcases hparse : parseFixedPoint strAmount 8 with - | nAmount
  · rw [hparse] at h
    cases h
  rw [hparse] at h
  dsimp only at h
  split_ifs at h with hrange
  obtain rfl := Except.ok.inj h
  obtain ⟨p, htext, hp, hvalue⟩ := parseFixedPoint_sound hparse
  -- neither a sign nor an exponent has been allowed
  have hsign : p.negative = false := by
    by_contra hneg
    have hmem : '-' ∈ strAmount := by
      rw [htext, Parts.text, if_pos (by simpa using hneg)]
      exact List.mem_append_left _ List.mem_cons_self
    exact absurd (hallowed _ hmem) (by decide)
  have hsuffix : p.suffix = [] ∧ p.exponent = 0 := by
    rcases hp.suffix with hnone | ⟨c, rest, hsuffix, hc⟩
    · exact hnone
    · have hmem : c ∈ strAmount := by
        rw [htext, Parts.text, hsuffix]
        simp
      have hin := hallowed c hmem
      rcases hc with rfl | rfl
      · exact absurd hin (by decide)
      · exact absurd hin (by decide)
  have hdecimal : decimalValue strAmount = p.value := by
    rw [htext, Parts.text, hsign, hsuffix.1, List.append_nil]
    show decimalValue (p.whole ++ Parts.point p.fractional) = _
    rw [decimalValue_parts hp.whole.2, Parts.value, hsign, hsuffix.2, zero_sub, zpow_neg,
      zpow_natCast]
    simp [div_eq_mul_inv]
  show (nAmount : ℚ) = _
  rw [hvalue, hdecimal]
  norm_cast

/-! ### `ParsePaymentSchedule` -/

/-- The loop of `ParsePaymentSchedule`.  `GetScriptForDestination` does not throw, so every
payment that is made is valid. -/
def scheduleLoop (params : AddressParams) : List (List Char) → List (List Char) →
    List CGovernancePayment → Except ScheduleFault (List CGovernancePayment)
  | [], _, vecPayments => .ok vecPayments
  | strAddress :: vecParsed1, vecParsed2, vecPayments =>
    match CBase58Data.setString params strAddress with
    | .error _ => .error .abort
    | .ok address =>
      if !address.isValid params then
        .error (.throws ("CSuperblock::ParsePaymentSchedule -- Invalid Proton Address : " ++
          String.ofList strAddress))
      else
        match vecParsed2 with
        | [] => .error .abort
        | strAmount :: vecParsed2 =>
          match parsePaymentAmount strAmount with
          | .error fault => .error fault
          | .ok nAmount =>
            scheduleLoop params vecParsed1 vecParsed2
              (vecPayments ++ [⟨getScriptForDestination (address.get params), nAmount.1, nAmount.2⟩])

def CSuperblock.parsePaymentSchedule (params : AddressParams) (b : CSuperblock)
    (strPaymentAddresses strPaymentAmounts : List Char) : Except ScheduleFault CSuperblock :=
  let vecParsed1 := splitBy strPaymentAddresses ['|']
  let vecParsed2 := splitBy strPaymentAmounts ['|']
  if vecParsed1.length ≠ vecParsed2.length then
    .error (.throws "CSuperblock::ParsePaymentSchedule -- Mismatched payments and amounts")
  else if vecParsed1.length = 0 then
    .error (.throws "CSuperblock::ParsePaymentSchedule -- Error no payments")
  else (scheduleLoop params vecParsed1 vecParsed2 b.vecPayments).map fun vecPayments => ⟨vecPayments⟩

/-- A payment of the amount that is written to the address that is written. -/
def Pays (params : AddressParams) (item : List Char × List Char) (payment : CGovernancePayment) :
    Prop :=
  (∃ address, CBase58Data.setString params item.1 = .ok address ∧ address.isValid params = true ∧
    payment.script = getScriptForDestination (address.get params)) ∧
  (payment.nAmount : ℚ) = decimalValue item.2 * 10 ^ 8 ∧ moneyRange payment.nAmount = true

theorem parsePaymentAmount_throws {strAmount : List Char} {fault : ScheduleFault}
    (h : parsePaymentAmount strAmount = .error fault) : ∃ what, fault = .throws what := by
  rw [parsePaymentAmount] at h
  split_ifs at h
  · exact ⟨_, (Except.error.inj h).symm⟩
  · exact ⟨_, (Except.error.inj h).symm⟩
  · exact ⟨_, (Except.error.inj h).symm⟩
  · exact ⟨_, (Except.error.inj h).symm⟩
  · exact ⟨_, (Except.error.inj h).symm⟩
  · rcases hparse : parseFixedPoint strAmount 8 with - | nAmount
    · rw [hparse] at h
      exact ⟨_, (Except.error.inj h).symm⟩
    · rw [hparse] at h
      dsimp only at h
      split_ifs at h
      exact ⟨_, (Except.error.inj h).symm⟩

theorem scheduleLoop_spec (params : AddressParams) : ∀ (vecParsed1 vecParsed2 : List (List Char))
    (vecPayments : List CGovernancePayment), vecParsed1.length = vecParsed2.length →
    (∃ payments, scheduleLoop params vecParsed1 vecParsed2 vecPayments =
        .ok (vecPayments ++ payments) ∧
      List.Forall₂ (Pays params) (vecParsed1.zip vecParsed2) payments) ∨
    ∃ what, scheduleLoop params vecParsed1 vecParsed2 vecPayments = .error (.throws what)
  | [], vecParsed2, vecPayments, _ =>
    .inl ⟨[], by rw [scheduleLoop, List.append_nil], by rw [List.zip_nil_left]; exact .nil⟩
  | strAddress :: vecParsed1, vecParsed2, vecPayments, hlength => by
    obtain ⟨address, haddress⟩ := setString_total params strAddress
    rcases hvalid : address.isValid params with - | -
    · refine .inr ⟨"CSuperblock::ParsePaymentSchedule -- Invalid Proton Address : " ++
        String.ofList strAddress, ?_⟩
      rw [scheduleLoop, haddress]
      dsimp only
      rw [hvalid]
      rfl
    · rcases vecParsed2 with - | ⟨strAmount, vecParsed2⟩
      · cases hlength
      · rcases hamount : parsePaymentAmount strAmount with fault | nAmount
        · obtain ⟨what, rfl⟩ := parsePaymentAmount_throws hamount
          refine .inr ⟨what, ?_⟩
          rw [scheduleLoop, haddress]
          dsimp only
          rw [hvalid, hamount]
          rfl
        · set payment : CGovernancePayment :=
            ⟨getScriptForDestination (address.get params), nAmount.1, nAmount.2⟩ with hpayment
          have hpass : scheduleLoop params (strAddress :: vecParsed1) (strAmount :: vecParsed2)
              vecPayments = scheduleLoop params vecParsed1 vecParsed2 (vecPayments ++ [payment]) := by
            rw [scheduleLoop, haddress]
            dsimp only
            rw [hvalid, hamount]
            rfl
          have hpays : Pays params (strAddress, strAmount) payment :=
            ⟨⟨address, haddress, hvalid, rfl⟩, parsePaymentAmount_exact hamount, nAmount.2⟩
          rw [hpass]
          rcases scheduleLoop_spec params vecParsed1 vecParsed2 (vecPayments ++ [payment])
            (Nat.succ.inj hlength) with ⟨payments, hrun, hall⟩ | ⟨what, hrun⟩
          · refine .inl ⟨payment :: payments, ?_, ?_⟩
            · rw [hrun, List.append_assoc]
              rfl
            · rw [List.zip_cons_cons]
              exact .cons hpays hall
          · exact .inr ⟨what, hrun⟩

/-- **A schedule that is accepted pays the items that are not empty, in turn.**  Every other one
is refused by an exception. -/
theorem parsePaymentSchedule_spec (params : AddressParams) (b : CSuperblock)
    (strPaymentAddresses strPaymentAmounts : List Char) :
    (∀ b', b.parsePaymentSchedule params strPaymentAddresses strPaymentAmounts = .ok b' →
      ∃ payments, b'.vecPayments = b.vecPayments ++ payments ∧
        (items strPaymentAddresses).length = payments.length ∧
        (items strPaymentAmounts).length = payments.length ∧ 1 ≤ payments.length ∧
        List.Forall₂ (Pays params) ((items strPaymentAddresses).zip (items strPaymentAmounts))
          payments) ∧
    ∀ fault, b.parsePaymentSchedule params strPaymentAddresses strPaymentAmounts = .error fault →
      ∃ what, fault = .throws what := by
  rw [CSuperblock.parsePaymentSchedule, splitBy_bar, splitBy_bar]
  by_cases hlength : (items strPaymentAddresses).length ≠ (items strPaymentAmounts).length
  · rw [if_pos hlength]
    exact ⟨fun b' h => (by cases h), fun fault h => ⟨_, (Except.error.inj h).symm⟩⟩
  rw [if_neg hlength]
  by_cases hnone : (items strPaymentAddresses).length = 0
  · rw [if_pos hnone]
    exact ⟨fun b' h => (by cases h), fun fault h => ⟨_, (Except.error.inj h).symm⟩⟩
  rw [if_neg hnone]
  have heq := not_not.mp hlength
  rcases scheduleLoop_spec params (items strPaymentAddresses) (items strPaymentAmounts)
    b.vecPayments heq with ⟨payments, hrun, hall⟩ | ⟨what, hrun⟩
  · rw [hrun]
    have hcount := hall.length_eq
    rw [List.length_zip, heq, Nat.min_self] at hcount
    refine ⟨fun b' h => ?_, fun fault h => by cases h⟩
    obtain rfl := Except.ok.inj h
    exact ⟨payments, rfl, heq.trans hcount, hcount, by omega, hall⟩
  · rw [hrun]
    exact ⟨fun b' h => (by cases h), fun fault h => ⟨what, (Except.error.inj h).symm⟩⟩

/-- A network, with a hash that is always 0. -/
def plainParams : AddressParams := ⟨fun _ => 0, [63], [18]⟩

def keyAddressText : String := "SMJ12qn9jNCCXJnTYRz5Yu9ZenERnkkUvj"

def scriptAddressText : String := "8F5rixNBnFLmioWZSYzjjFuAL5dyoDVzhD"

/-- **Empty items are left out on either side by itself**: the second address is paid the amount
that stands at the place of an empty one. -/
theorem empty_items_shift :
    CSuperblock.parsePaymentSchedule plainParams ⟨[]⟩
      (keyAddressText ++ "||" ++ scriptAddressText).toList "1|2|".toList =
        .ok ⟨[⟨getScriptForDestination (.keyID .null), 100000000, rfl⟩,
          ⟨getScriptForDestination (.scriptID .null), 200000000, rfl⟩]⟩ ∧
    (keyAddressText ++ "||" ++ scriptAddressText).toList.splitOn '|' =
      [keyAddressText.toList, [], scriptAddressText.toList] ∧
    "1|2|".toList.splitOn '|' = [['1'], ['2'], []] := by
  refine ⟨?_, by decide +kernel, by decide +kernel⟩
  have haddresses : items (keyAddressText ++ "||" ++ scriptAddressText).toList =
      [keyAddressText.toList, scriptAddressText.toList] := by decide +kernel
  have hamounts : items "1|2|".toList = [['1'], ['2']] := by decide +kernel
  have hloop : scheduleLoop plainParams [keyAddressText.toList, scriptAddressText.toList] [['1'], ['2']] [] =
      .ok [⟨getScriptForDestination (.keyID .null), 100000000, rfl⟩,
        ⟨getScriptForDestination (.scriptID .null), 200000000, rfl⟩] := by decide +kernel
  rw [CSuperblock.parsePaymentSchedule, splitBy_bar, splitBy_bar, haddresses, hamounts]
  exact congrArg (Except.map CSuperblock.mk) hloop

end Stonecoin
