/-
The three recognisers of pay-to-pubkey-hash scripts: a byte template (`IsPayToPublicKeyHash`), a
walk over the opcodes that ignores failures (`IsNormalPaymentScript`), and a template with a push
in any encoding (`Solver`).

  * `payToPublicKeyHash_agree`: how the three are related.
-/
import Stonecoin.Solver

namespace Stonecoin

open Interpreter

/-- The loop of `IsNormalPaymentScript`, with fuel for the length of the script. -/
def isNormalLoop : ℕ → ℕ → CScript → Bool
  | _, _, [] => true
  | 0, _, _ :: _ => false
  | fuel + 1, i, b :: bs =>
    -- a failure of `GetOp` is not looked at
    let r := getOp2 (b :: bs)
    if i = 0 ∧ r.1 ≠ OP_DUP then false
    else if i = 1 ∧ r.1 ≠ OP_HASH160 then false
    else if i = 3 ∧ r.1 ≠ OP_EQUALVERIFY then false
    else if i = 4 ∧ r.1 ≠ OP_CHECKSIG then false
    else if i = 5 then false
    else isNormalLoop fuel (i + 1) r.2.2

def isNormalPaymentScript (s : CScript) : Bool :=
  if s.length ≠ 25 then false else isNormalLoop s.length 0 s

theorem encodes_twenty {hash : List UInt8} (h : hash.length = 20) : Encodes 0x14 [] hash :=
  .direct (by decide) (by rw [h]; rfl)

theorem isPayToPublicKeyHash_iff (s : CScript) : isPayToPublicKeyHash s = true ↔
    ∃ hash : List UInt8, hash.length = 20 ∧ s = pubKeyHashScript 0x14 [] hash := by
  constructor
  · intro h
    obtain ⟨hlen, h0, h1, h2, h23, h24⟩ := of_decide_eq_true h
    obtain - | ⟨a, - | ⟨b, - | ⟨c, rest⟩⟩⟩ := s
    iterate 3 exact absurd hlen (by simp)
    have hrest : rest.length = 22 := by
      simp only [List.length_cons] at hlen
      omega
    obtain rfl : a = OP_DUP := h0
    obtain rfl : b = OP_HASH160 := h1
    obtain rfl : c = 0x14 := h2
    have h20 : rest.getD 20 0 = OP_EQUALVERIFY := h23
    have h21 : rest.getD 21 0 = OP_CHECKSIG := h24
    have htail : rest.drop 20 = [OP_EQUALVERIFY, OP_CHECKSIG] := by
      have hdrop : (rest.drop 20).length = 2 := by rw [List.length_drop, hrest]
      obtain ⟨d, e, hde⟩ := List.length_eq_two.mp hdrop
      have hsplit : rest = rest.take 20 ++ [d, e] := by rw [← hde, List.take_append_drop]
      have htake : (rest.take 20).length = 20 := by rw [List.length_take, hrest]; rfl
      rw [hsplit, List.getD_append_right _ _ _ _ (by omega), htake] at h20 h21
      rw [hde]
      exact congrArg₂ (fun x y => [x, y]) h20 h21
    refine ⟨rest.take 20, by rw [List.length_take, hrest]; rfl, ?_⟩
    rw [pubKeyHashScript, ← htail, List.nil_append, List.take_append_drop]
  · rintro ⟨hash, hlen, rfl⟩
    have hget : ∀ i, (pubKeyHashScript 0x14 [] hash).getD (20 + i + 3) 0 =
        [OP_EQUALVERIFY, OP_CHECKSIG].getD i 0 := by
      intro i
      show (hash ++ _).getD (20 + i) 0 = _
      rw [List.getD_append_right _ _ _ _ (by omega), hlen, Nat.add_sub_cancel_left]
    refine decide_eq_true ⟨?_, rfl, rfl, rfl, hget 0, hget 1⟩
    simp [pubKeyHashScript, hlen]

theorem isNormalPaymentScript_of {s : CScript} (h : isPayToPublicKeyHash s = true) :
    isNormalPaymentScript s = true := by
  obtain ⟨hash, hlen, rfl⟩ := (isPayToPublicKeyHash_iff _).mp h
  have hsize : (pubKeyHashScript 0x14 [] hash).length = 25 := by
    simp [pubKeyHashScript, hlen]
  have hplain : ∀ {opcode : UInt8}, OP_PUSHDATA4 < opcode → ∀ pc,
      getOp2 (opcode :: pc) = (opcode, [], pc) := by
    intro opcode hop pc
    rw [getOp2, getOp_opcode hop, Option.getD_some]
  have hpush : getOp2 (0x14 :: (hash ++ [OP_EQUALVERIFY, OP_CHECKSIG])) =
      (0x14, hash, [OP_EQUALVERIFY, OP_CHECKSIG]) := by
    have hget : getOp (0x14 :: (hash ++ [OP_EQUALVERIFY, OP_CHECKSIG])) =
        some (0x14, hash, [OP_EQUALVERIFY, OP_CHECKSIG]) :=
      getOp_eq_some.mpr ⟨[], encodes_twenty hlen, rfl⟩
    rw [getOp2, hget, Option.getD_some]
  rw [isNormalPaymentScript, hsize, if_neg (not_not.mpr rfl)]
  simp only [pubKeyHashScript, List.nil_append, isNormalLoop, hpush,
    hplain (show OP_PUSHDATA4 < OP_DUP by decide),
    hplain (show OP_PUSHDATA4 < OP_HASH160 by decide),
    hplain (show OP_PUSHDATA4 < OP_EQUALVERIFY by decide),
    hplain (show OP_PUSHDATA4 < OP_CHECKSIG by decide)]
  decide

theorem bytes_ofBytes {vch : List UInt8} (h : vch.length = 20) : (UInt160.ofBytes vch).bytes = vch := by
  refine List.ext_getElem (by rw [UInt160.size_eq, h]) fun i hi hi' => ?_
  simp [UInt160.ofBytes, List.getD_eq_getElem?_getD, hi']

theorem getScriptForDestination_keyID {hash : List UInt8} (h : hash.length = 20) :
    getScriptForDestination (.keyID (.ofBytes hash)) = pubKeyHashScript 0x14 [] hash := by
  rw [getScriptForDestination, bytes_ofBytes h]
  simp [pubKeyHashScript]

theorem length_of_solver {s : CScript} {hash : Valtype}
    (h : solver s = ⟨true, .TX_PUBKEYHASH, [hash]⟩) : hash.length = 20 := by
  obtain ⟨opcode, size, hash', -, hlen, -, heq⟩ := (solver_pubKeyHash _ _).mp h
  rw [List.singleton_inj.mp heq]
  exact hlen

theorem solver_of_isPayToPublicKeyHash {s : CScript} (h : isPayToPublicKeyHash s = true) :
    solver s = ⟨true, .TX_PUBKEYHASH, [(s.drop 3).take 20]⟩ := by
  obtain ⟨hash, hlen, rfl⟩ := (isPayToPublicKeyHash_iff _).mp h
  have hbytes : ((pubKeyHashScript 0x14 [] hash).drop 3).take 20 = hash := by
    show (hash ++ _).take 20 = hash
    exact List.take_left' hlen
  rw [hbytes]
  exact (solver_pubKeyHash _ _).mpr ⟨0x14, [], hash, encodes_twenty hlen, hlen, rfl, rfl⟩

theorem isPayToPublicKeyHash_iff_solver {s : CScript} : isPayToPublicKeyHash s = true ↔
    s.length = 25 ∧ ∃ r, solver s = ⟨true, .TX_PUBKEYHASH, r⟩ := by
  constructor
  · intro h
    exact ⟨(of_decide_eq_true h).1, _, solver_of_isPayToPublicKeyHash h⟩
  · rintro ⟨hsize, r, h⟩
    obtain ⟨opcode, size, hash, hop, hlen, rfl, rfl⟩ := (solver_pubKeyHash _ _).mp h
    have hnil : size = [] := by
      simp only [pubKeyHashScript, List.length_cons, List.length_append, List.length_nil,
        hlen] at hsize
      exact List.length_eq_zero_iff.mp (by omega)
    subst hnil
    have hdirect : opcode.toNat = 20 := by
      cases hop with
      | plain => exact absurd hlen (by decide)
      | direct _ hop => exact hop.trans hlen
      | sized _ _ hread => exact absurd (hread.trans hlen) (by decide)
    obtain rfl : opcode = 0x14 := UInt8.toNat_inj.mp hdirect
    exact (isPayToPublicKeyHash_iff _).mpr ⟨hash, hlen, rfl⟩

/-- **How the recognisers are related**: what the byte template accepts, the others accept as
well; of the scripts with 25 bytes it accepts those that `Solver` does.  `Solver` accepts a push
of twenty bytes in any encoding.  The hash it reports is the destination, and the script of the
destination is the one that the byte template accepts. -/
theorem payToPublicKeyHash_agree (crypto : ScriptCrypto) (s : CScript) :
    (isPayToPublicKeyHash s = true → isNormalPaymentScript s = true ∧
      solver s = ⟨true, .TX_PUBKEYHASH, [(s.drop 3).take 20]⟩) ∧
    (isPayToPublicKeyHash s = true ↔ s.length = 25 ∧ ∃ r, solver s = ⟨true, .TX_PUBKEYHASH, r⟩) ∧
    (∀ r, solver s = ⟨true, .TX_PUBKEYHASH, r⟩ ↔ ∃ opcode size hash, Encodes opcode size hash ∧
      hash.length = 20 ∧ s = pubKeyHashScript opcode size hash ∧ r = [hash]) ∧
    ∀ hash, solver s = ⟨true, .TX_PUBKEYHASH, [hash]⟩ →
      extractDestination crypto s = some (.keyID (.ofBytes hash)) ∧
        (getScriptForDestination (.keyID (.ofBytes hash)) = s ↔ isPayToPublicKeyHash s = true) := by
  refine ⟨fun h => ⟨isNormalPaymentScript_of h, solver_of_isPayToPublicKeyHash h⟩,
    isPayToPublicKeyHash_iff_solver, solver_pubKeyHash s, fun hash h => ⟨?_, ?_⟩⟩
  · rw [extractDestination, h]
    rfl
  · have hlen := length_of_solver h
    rw [getScriptForDestination_keyID hlen]
    constructor
    · rintro rfl
      exact (isPayToPublicKeyHash_iff _).mpr ⟨hash, hlen, rfl⟩
    · intro htemplate
      obtain ⟨hash', hlen', rfl⟩ := (isPayToPublicKeyHash_iff _).mp htemplate
      have h' : solver (pubKeyHashScript 0x14 [] hash') = ⟨true, .TX_PUBKEYHASH, [hash']⟩ :=
        (solver_pubKeyHash _ _).mpr ⟨0x14, [], hash', encodes_twenty hlen', hlen', rfl, rfl⟩
      rw [List.singleton_inj.mp (SolverResult.mk.inj (h.symm.trans h')).2.2]

/-- **Not every address is recognised by its bytes**: with `OP_PUSHDATA1`, `Solver` reports an
address and the other two do not. -/
theorem pushdata_address :
    (∃ r, solver (pubKeyHashScript OP_PUSHDATA1 [20] (List.replicate 20 7)) =
      ⟨true, .TX_PUBKEYHASH, r⟩) ∧
      isPayToPublicKeyHash (pubKeyHashScript OP_PUSHDATA1 [20] (List.replicate 20 7)) = false ∧
      isNormalPaymentScript (pubKeyHashScript OP_PUSHDATA1 [20] (List.replicate 20 7)) = false := by
  refine ⟨⟨_, (solver_pubKeyHash _ _).mpr ⟨OP_PUSHDATA1, [20], List.replicate 20 7, ?_, rfl, rfl, rfl⟩⟩,
    by decide, by decide⟩
  exact .sized (by decide) (by decide) (by decide)

end Stonecoin
