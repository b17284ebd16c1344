/-
The standard scripts (`script/standard.cpp`): `Solver` compares a script with templates, and
`ExtractDestination` takes an address out of it.

The opcodes of a template are single bytes, so a template is read opcode by opcode; some of them
stand for a push.  `GetOp` moves its iterator also when it fails.
-/
import Stonecoin.ScriptBuild

namespace Stonecoin

open Interpreter

/-! ### Reading -/

/-- An opcode as it stands in a script: with its size field, and what it pushes. -/
inductive Encodes : UInt8 → List UInt8 → List UInt8 → Prop
  | plain {opcode : UInt8} : OP_PUSHDATA4 < opcode → Encodes opcode [] []
  | direct {opcode : UInt8} {vch : List UInt8} : opcode < OP_PUSHDATA1 →
      opcode.toNat = vch.length → Encodes opcode [] vch
  | sized {opcode : UInt8} {size vch : List UInt8} : opcode ≤ OP_PUSHDATA4 →
      pushSizeWidth opcode = some size.length → readLE size = vch.length → Encodes opcode size vch

variable {opcode : UInt8} {size vch : List UInt8} {s rest : CScript}

theorem getOp_eq_some : getOp s = some (opcode, vch, rest) ↔
    ∃ size, Encodes opcode size vch ∧ s = opcode :: (size ++ (vch ++ rest)) := by
  constructor
  · intro h
    cases s with
    | nil => cases h
    | cons b pc =>
      rw [getOp] at h
      by_cases hb : b ≤ OP_PUSHDATA4
      · rw [if_pos hb] at h
        cases hw : pushSizeWidth b with
        | none =>
          rw [hw] at h
          dsimp only at h
          split at h
          next => cases h
          next hlen =>
            cases h
            have hlt : opcode < OP_PUSHDATA1 := by
              by_contra hge
              rw [pushSizeWidth, if_neg hge] at hw
              split at hw
              · cases hw
              split at hw
              · cases hw
              · cases hw
            refine ⟨[], .direct hlt ?_, ?_⟩
            · rw [List.length_take]
              omega
            · rw [List.nil_append, List.take_append_drop]
        | some w =>
          rw [hw] at h
          dsimp only at h
          split at h
          next => cases h
          next hfield =>
            split at h
            next => cases h
            next hlen =>
              cases h
              have htake : (pc.take w).length = w := by
                rw [List.length_take]
                omega
              refine ⟨pc.take w, .sized hb (by rw [htake, hw]) ?_, ?_⟩
              · rw [List.length_take]
                omega
              · rw [List.take_append_drop, List.take_append_drop]
      · rw [if_neg hb] at h
        cases h
        exact ⟨[], .plain (UInt8.not_le.mp hb), rfl⟩
  · rintro ⟨size, hop, rfl⟩
    cases hop with
    | plain hop => exact getOp_opcode hop _
    | direct hlt hlen =>
      have hdirect := getOp_direct (b := vch) (by rw [← hlen]; exact hlt) rest
      rw [← hlen, UInt8.ofNat_toNat] at hdirect
      exact hdirect
    | sized hle hw hread =>
      have hfield : ¬ (size ++ (vch ++ rest)).length < size.length := by
        rw [List.length_append]
        omega
      have hroom : ¬ (vch ++ rest).length < vch.length := by
        rw [List.length_append]
        omega
      rw [getOp, if_pos hle, hw]
      simp only [if_neg hfield, List.take_left', List.drop_left', hread, if_neg hroom]

/-- Where `GetOp` leaves its iterator when it fails: behind the opcode, and behind the size field
if that is there. -/
def getOpStuck : CScript → CScript
  | [] => []
  | opcode :: pc =>
    match pushSizeWidth opcode with
    | none => pc
    | some w => if pc.length < w then pc else pc.drop w

def getOp2 (s : CScript) : UInt8 × List UInt8 × CScript :=
  (getOp s).getD (OP_INVALIDOPCODE, [], getOpStuck s)

/-! ### Templates -/

def OP_SMALLINTEGER : UInt8 := 0xfa
def OP_PUBKEYS : UInt8 := 0xfb
def OP_PUBKEYHASH : UInt8 := 0xfd
def OP_PUBKEY : UInt8 := 0xfe

inductive Txnouttype
  | TX_NONSTANDARD
  | TX_PUBKEY
  | TX_PUBKEYHASH
  | TX_SCRIPTHASH
  | TX_MULTISIG
  | TX_NULL_DATA
deriving DecidableEq, Repr

def mTemplates : List (Txnouttype × List UInt8) :=
  [(.TX_PUBKEY, [OP_PUBKEY, OP_CHECKSIG]),
    (.TX_PUBKEYHASH, [OP_DUP, OP_HASH160, OP_PUBKEYHASH, OP_EQUALVERIFY, OP_CHECKSIG]),
    (.TX_MULTISIG, [OP_SMALLINTEGER, OP_PUBKEYS, OP_SMALLINTEGER, OP_CHECKMULTISIG])]

def decodeOpN (opcode : UInt8) : UInt8 := if opcode = 0 then 0 else opcode - (OP_1 - 1)

def isPubKeySize (vch : List UInt8) : Bool := 33 ≤ vch.length ∧ vch.length ≤ 65

/-- The loop over the keys, with what has been read last; it uses up the script. -/
def takePubKeys : ℕ → UInt8 × List UInt8 × CScript → List Valtype →
    (UInt8 × List UInt8 × CScript) × List Valtype
  | 0, r, vSolutions => (r, vSolutions)
  | fuel + 1, r, vSolutions =>
    if isPubKeySize r.2.1 then
      match getOp r.2.2 with
      | none => (getOp2 r.2.2, vSolutions ++ [r.2.1])
      | some r' => takePubKeys fuel r' (vSolutions ++ [r.2.1])
    else (r, vSolutions)

/-- What a template opcode gets from what has been read; `none` is no match. -/
def matchOp (opcode2 opcode1 : UInt8) (vch1 : List UInt8) (vSolutions : List Valtype) :
    Option (List Valtype) :=
  if opcode2 = OP_PUBKEY then
    if isPubKeySize vch1 then some (vSolutions ++ [vch1]) else none
  else if opcode2 = OP_PUBKEYHASH then
    if vch1.length = 20 then some (vSolutions ++ [vch1]) else none
  else if opcode2 = OP_SMALLINTEGER then
    if opcode1 = 0 ∨ OP_1 ≤ opcode1 ∧ opcode1 ≤ OP_16 then
      some (vSolutions ++ [[decodeOpN opcode1]])
    else none
  else if opcode1 = opcode2 ∧ vch1 = [] then some vSolutions
  else none

def matchTemplate : List UInt8 → CScript → List Valtype → Option (List Valtype)
  | [], pc1, vSolutions => if pc1 = [] then some vSolutions else none
  | opcode2 :: pc2, pc1, vSolutions =>
    match getOp pc1 with
    | none => none
    | some r =>
      if opcode2 = OP_PUBKEYS then
        let (r, vSolutions) := takePubKeys (pc1.length + 1) r vSolutions
        match pc2 with
        | [] => none
        | opcode2 :: pc2 =>
          match matchOp opcode2 r.1 r.2.1 vSolutions with
          | none => none
          | some vSolutions => matchTemplate pc2 r.2.2 vSolutions
      else
        match matchOp opcode2 r.1 r.2.1 vSolutions with
        | none => none
        | some vSolutions => matchTemplate pc2 r.2.2 vSolutions

/-! ### Solver -/

/-- What `Solver` returns, with `typeRet` and `vSolutionsRet`. -/
structure SolverResult where
  ok : Bool
  typeRet : Txnouttype
  vSolutionsRet : List Valtype
deriving DecidableEq, Repr

def checkMultisig (vSolutions : List Valtype) : Bool :=
  let m := ((vSolutions.headD []).headD 0).toNat
  let n := ((vSolutions.getLastD []).headD 0).toNat
  ¬ (m < 1 ∨ n < 1 ∨ n < m ∨ vSolutions.length - 2 ≠ n)

def scanTemplates (s : CScript) : List (Txnouttype × List UInt8) → SolverResult
  | [] => ⟨false, .TX_NONSTANDARD, []⟩
  | tplate :: l =>
    match matchTemplate tplate.2 s [] with
    | none => scanTemplates s l
    | some vSolutions =>
      ⟨tplate.1 ≠ .TX_MULTISIG || checkMultisig vSolutions, tplate.1, vSolutions⟩

def solver (s : CScript) : SolverResult :=
  if isPayToScriptHash s then ⟨true, .TX_SCRIPTHASH, [(s.drop 2).take 20]⟩
  else if s.head? = some OP_RETURN ∧ isPushOnly (s.drop 1) then ⟨true, .TX_NULL_DATA, []⟩
  else scanTemplates s mTemplates

/-! ### Destinations -/

def pubKeyLen (chHeader : UInt8) : ℕ :=
  if chHeader = 2 ∨ chHeader = 3 then 33
  else if chHeader = 4 ∨ chHeader = 6 ∨ chHeader = 7 then 65
  else 0

def isValidPubKey (vch : List UInt8) : Bool :=
  let len := if vch = [] then 0 else pubKeyLen (vch.headD 0)
  len ≠ 0 ∧ len = vch.length

/-- `ExtractDestination`; `none` is a return of false. -/
def extractDestination (crypto : ScriptCrypto) (s : CScript) : Option CTxDestination :=
  let r := solver s
  if r.ok = false then none
  else
    match r.typeRet with
    | .TX_PUBKEY =>
      let pubKey := r.vSolutionsRet.headD []
      if isValidPubKey pubKey then some (.keyID (crypto.hash160 pubKey)) else none
    | .TX_PUBKEYHASH => some (.keyID (.ofBytes (r.vSolutionsRet.headD [])))
    | .TX_SCRIPTHASH => some (.scriptID (.ofBytes (r.vSolutionsRet.headD [])))
    | _ => none

/-! ### The template of an address -/

def pubKeyHashScript (opcode : UInt8) (size hash : List UInt8) : CScript :=
  OP_DUP :: OP_HASH160 :: opcode :: (size ++ (hash ++ [OP_EQUALVERIFY, OP_CHECKSIG]))

theorem matchTemplate_plain {opcode2 : UInt8} (hplain : OP_PUSHDATA4 < opcode2)
    (hless : opcode2 < OP_SMALLINTEGER) {pc2 : List UInt8} {vSolutions r : List Valtype} :
    matchTemplate (opcode2 :: pc2) s vSolutions = some r ↔
      ∃ pc1, s = opcode2 :: pc1 ∧ matchTemplate pc2 pc1 vSolutions = some r := by
  have hne : opcode2 ≠ OP_PUBKEYS ∧ opcode2 ≠ OP_PUBKEY ∧ opcode2 ≠ OP_PUBKEYHASH ∧
      opcode2 ≠ OP_SMALLINTEGER := by
    have hlt : opcode2.toNat < 250 := hless
    refine ⟨?_, ?_, ?_, ?_⟩
    · rintro rfl
      exact absurd hlt (by decide)
    · rintro rfl
      exact absurd hlt (by decide)
    · rintro rfl
      exact absurd hlt (by decide)
    · rintro rfl
      exact absurd hlt (by decide)
  obtain ⟨h1, h2, h3, h4⟩ := hne
  rw [matchTemplate]
  constructor
  · intro h
    cases hget : getOp s with
    | none => simp [hget] at h
    | some p =>
      obtain ⟨opcode1, vch1, pc1⟩ := p
      simp only [hget, h1, if_false, matchOp, h2, h3, h4] at h
      split at h
      next hnone => cases h
      next sols hsome =>
        split at hsome
        next heq =>
          cases hsome
          obtain ⟨rfl, rfl⟩ := heq
          obtain ⟨size, hop, rfl⟩ := getOp_eq_some.mp hget
          cases hop with
          | plain => exact ⟨pc1, rfl, h⟩
          | direct hlt => exact absurd (UInt8.lt_trans hplain hlt) (by decide)
          | sized hle => exact absurd hplain (UInt8.not_lt.mpr hle)
        next => cases hsome
  · rintro ⟨pc1, rfl, h⟩
    simp only [getOp_opcode hplain, h1, if_false, matchOp, h2, h3, h4, and_self, if_true]
    exact h

theorem matchTemplate_hash {pc2 : List UInt8} {vSolutions r : List Valtype} :
    matchTemplate (OP_PUBKEYHASH :: pc2) s vSolutions = some r ↔
      ∃ opcode size hash pc1, Encodes opcode size hash ∧ hash.length = 20 ∧
        s = opcode :: (size ++ (hash ++ pc1)) ∧
          matchTemplate pc2 pc1 (vSolutions ++ [hash]) = some r := by
  have hkeys : OP_PUBKEYHASH ≠ OP_PUBKEYS := by decide
  have hkey : OP_PUBKEYHASH ≠ OP_PUBKEY := by decide
  rw [matchTemplate]
  constructor
  · intro h
    cases hget : getOp s with
    | none => simp [hget] at h
    | some p =>
      obtain ⟨opcode1, vch1, pc1⟩ := p
      simp only [hget, hkeys, if_false, matchOp, hkey, if_true] at h
      split at h
      next hnone => cases h
      next sols hsome =>
        split at hsome
        next hlen =>
          cases hsome
          obtain ⟨size, hop, rfl⟩ := getOp_eq_some.mp hget
          exact ⟨opcode1, size, vch1, pc1, hop, hlen, rfl, h⟩
        next => cases hsome
  · rintro ⟨opcode, size, hash, pc1, hop, hlen, rfl, h⟩
    have hget : getOp (opcode :: (size ++ (hash ++ pc1))) = some (opcode, hash, pc1) :=
      getOp_eq_some.mpr ⟨size, hop, rfl⟩
    simp only [hget, hkeys, if_false, matchOp, hkey, if_true, hlen]
    exact h

theorem matchTemplate_pubKeyHash (s : CScript) (r : List Valtype) :
    matchTemplate [OP_DUP, OP_HASH160, OP_PUBKEYHASH, OP_EQUALVERIFY, OP_CHECKSIG] s [] = some r ↔
      ∃ opcode size hash, Encodes opcode size hash ∧ hash.length = 20 ∧
        s = pubKeyHashScript opcode size hash ∧ r = [hash] := by
  rw [matchTemplate_plain (by decide) (by decide)]
  constructor
  · rintro ⟨pc1, rfl, h1⟩
    obtain ⟨pc2, rfl, h2⟩ := (matchTemplate_plain (by decide) (by decide)).mp h1
    obtain ⟨opcode, size, hash, pc3, hop, hlen, rfl, h3⟩ := matchTemplate_hash.mp h2
    obtain ⟨pc4, rfl, h4⟩ := (matchTemplate_plain (by decide) (by decide)).mp h3
    obtain ⟨pc5, rfl, h5⟩ := (matchTemplate_plain (by decide) (by decide)).mp h4
    rw [matchTemplate] at h5
    split at h5
    next hnil =>
      subst hnil
      exact ⟨opcode, size, hash, hop, hlen, rfl, (Option.some.inj h5).symm⟩
    next => cases h5
  · rintro ⟨opcode, size, hash, hop, hlen, rfl, rfl⟩
    refine ⟨_, rfl, (matchTemplate_plain (by decide) (by decide)).mpr ⟨_, rfl, ?_⟩⟩
    refine matchTemplate_hash.mpr ⟨opcode, size, hash, _, hop, hlen, rfl, ?_⟩
    refine (matchTemplate_plain (by decide) (by decide)).mpr ⟨_, rfl, ?_⟩
    exact (matchTemplate_plain (by decide) (by decide)).mpr ⟨_, rfl, rfl⟩

theorem matchTemplate_pubKey_dup (pc : CScript) :
    matchTemplate [OP_PUBKEY, OP_CHECKSIG] (OP_DUP :: pc) [] = none := by
  have hget : getOp (OP_DUP :: pc) = some (OP_DUP, [], pc) := getOp_opcode (by decide) pc
  rw [matchTemplate, hget]
  rfl

theorem solver_pubKeyHash (s : CScript) (r : List Valtype) : solver s = ⟨true, .TX_PUBKEYHASH, r⟩ ↔
    ∃ opcode size hash, Encodes opcode size hash ∧ hash.length = 20 ∧
      s = pubKeyHashScript opcode size hash ∧ r = [hash] := by
  rw [← matchTemplate_pubKeyHash]
  constructor
  · intro h
    unfold solver at h
    split at h
    next => cases h
    next =>
      split at h
      next => cases h
      next =>
        simp only [mTemplates, scanTemplates] at h
        split at h
        next =>
          split at h
          next =>
            split at h
            next => cases h
            next =>
              exact absurd (SolverResult.mk.inj h).2.1
                (show ¬ Txnouttype.TX_MULTISIG = .TX_PUBKEYHASH by decide)
          next sols hsome =>
            rw [hsome]
            exact congrArg some (SolverResult.mk.inj h).2.2
        next => cases h
  · intro h
    obtain ⟨opcode, size, hash, -, -, rfl, -⟩ := (matchTemplate_pubKeyHash _ _).mp h
    have hscript : isPayToScriptHash (pubKeyHashScript opcode size hash) = false := by
      refine decide_eq_false fun hp2sh => ?_
      exact absurd hp2sh.2.1 (show ¬ OP_DUP = OP_HASH160 by decide)
    have hreturn : (pubKeyHashScript opcode size hash).head? ≠ some OP_RETURN := by
      show some OP_DUP ≠ some OP_RETURN
      decide
    have hkey : matchTemplate [OP_PUBKEY, OP_CHECKSIG] (pubKeyHashScript opcode size hash) [] =
        none := matchTemplate_pubKey_dup _
    rw [solver, hscript, if_neg Bool.false_ne_true, if_neg fun h => hreturn h.1]
    simp only [mTemplates, scanTemplates, hkey, h]
    rfl

end Stonecoin
