/-
Sporks (`spork.h`, `spork.cpp`).

A signature is of any type.  `GetHash`, which looks at id, value and signing time only, and
`darkSendSigner` with the spork key are a `SporkKeys`; clock, chain tip and mode are a
`SporkEnv` that comes with the message.  Strings of decimals are Lean's own.  Logging and the
list of objects asked of a peer are left out.
-/
import Stonecoin.CheckBlock
import Mathlib.Data.Int.Basic
import Mathlib.Data.List.AList

namespace Stonecoin

def SPORK_2_INSTANTSEND_ENABLED : ℤ := 10001
def SPORK_5_INSTANTSEND_MAX_VALUE : ℤ := 10004
def SPORK_8_MASTERNODE_PAYMENT_ENFORCEMENT : ℤ := 10007
def SPORK_9_SUPERBLOCKS_ENABLED : ℤ := 10008
def SPORK_10_MASTERNODE_PAY_UPDATED_NODES : ℤ := 10009
def SPORK_12_RECONSIDER_BLOCKS : ℤ := 10011
def SPORK_13_OLD_SUPERBLOCK_FLAG : ℤ := 10012
def SPORK_14_REQUIRE_SENTINEL_FLAG : ℤ := 10013
def SPORK_16_KILL_STRAGGLERS : ℤ := 10015

/-- The `_DEFAULT` values, for the cases of the two switches. -/
def sporkDefault (nSporkID : ℤ) : Option ℤ :=
  if nSporkID = SPORK_2_INSTANTSEND_ENABLED then some 0
  else if nSporkID = SPORK_3_INSTANTSEND_BLOCK_FILTERING then some 0
  else if nSporkID = SPORK_5_INSTANTSEND_MAX_VALUE then some 1000
  else if nSporkID = SPORK_8_MASTERNODE_PAYMENT_ENFORCEMENT then some 1516803600
  else if nSporkID = SPORK_9_SUPERBLOCKS_ENABLED then some 4070908800
  else if nSporkID = SPORK_10_MASTERNODE_PAY_UPDATED_NODES then some 4070908800
  else if nSporkID = SPORK_12_RECONSIDER_BLOCKS then some 0
  else if nSporkID = SPORK_13_OLD_SUPERBLOCK_FLAG then some 4070908800
  else if nSporkID = SPORK_14_REQUIRE_SENTINEL_FLAG then some 4070908800
  else if nSporkID = SPORK_15_FOUNDER_PAYMENT_ENFORCEMENT then some 4070908800
  else if nSporkID = SPORK_16_KILL_STRAGGLERS then some 420420
  else none

structure CSporkMessage (S : Type) where
  nSporkID : ℤ
  nValue : ℤ
  nTimeSigned : ℤ
  vchSig : S
deriving DecidableEq

/-- The keys of a spork network, as one node has them. -/
structure SporkKeys (S H : Type) where
  /-- `CSporkMessage::GetHash`, of id, value and signing time. -/
  getHash : ℤ → ℤ → ℤ → H
  /-- `darkSendSigner.VerifyMessage` with `Params().SporkPubKey()`. -/
  verifyMessage : S → String → Bool
  /-- `GetKeysFromSecret`, `SignMessage` and `VerifyMessage` with `strMasterPrivKey`. -/
  signMessage : String → Option S

/-- What the rest of the node answers. -/
structure SporkEnv where
  fLiteMode : Bool
  /-- `chainActive.Tip()` is not null. -/
  tip : Bool
  /-- `GetTime()`. -/
  getTime : ℤ

/-- `CSporkManager`, with `mapSporks` and the `nTimeExecuted` of `ExecuteSpork`. -/
structure CSporkManager (S H : Type) where
  mapSporks : AList fun _ : H => CSporkMessage S
  mapSporksActive : AList fun _ : ℤ => CSporkMessage S
  nTimeExecuted : ℤ

/-- The messages that `ProcessSpork` looks at. -/
inductive SporkCommand (S : Type) where
  | SPORK (spork : CSporkMessage S)
  | GETSPORKS

/-- What `ProcessSpork` does besides: sporks relayed to all peers or pushed to this one, the
misbehaviour score of the peer, blocks to reprocess. -/
structure SporkOutput (S : Type) where
  relay : List (CSporkMessage S) := []
  pushMessage : List (CSporkMessage S) := []
  misbehaving : ℕ := 0
  reprocessBlocks : Option ℤ := none

/-! ### The signed message -/

def lexicalCast (n : ℤ) : String := toString n

def strMessage (nSporkID nValue nTimeSigned : ℤ) : String :=
  lexicalCast nSporkID ++ lexicalCast nValue ++ lexicalCast nTimeSigned

theorem toList_lexicalCast (n : ℕ) : (lexicalCast n).toList = Nat.toDigits 10 n := by
  show (Nat.repr n).toList = _
  exact Nat.toList_repr

theorem toList_lexicalCast_neg (n : ℕ) :
    (lexicalCast (Int.negSucc n)).toList = '-' :: Nat.toDigits 10 (n + 1) := by
  show ("-" ++ Nat.repr (n + 1)).toList = _
  rw [String.toList_append, Nat.toList_repr]
  rfl

theorem toDigits_inj {m n : ℕ} (h : Nat.toDigits 10 m = Nat.toDigits 10 n) : m = n := by
  have hval := congrArg (fun ds => Nat.ofDigitChars 10 ds 0) h
  simpa using hval

theorem toDigits_ne_neg {m : ℕ} {l : List Char} : Nat.toDigits 10 m ≠ '-' :: l := by
  intro h
  have hdigit : ('-').isDigit = true :=
    Nat.isDigit_of_mem_toDigits (by decide) (by decide) (h ▸ List.mem_cons_self)
  exact absurd hdigit (by decide)

theorem lexicalCast_inj {m n : ℤ} (h : (lexicalCast m).toList = (lexicalCast n).toList) :
    m = n := by
  cases m with
  | ofNat m =>
    cases n with
    | ofNat n =>
      have hdigits : Nat.toDigits 10 m = Nat.toDigits 10 n :=
        (toList_lexicalCast m).symm.trans (h.trans (toList_lexicalCast n))
      rw [toDigits_inj hdigits]
    | negSucc n =>
      exact absurd ((toList_lexicalCast m).symm.trans (h.trans (toList_lexicalCast_neg n)))
        toDigits_ne_neg
  | negSucc m =>
    cases n with
    | ofNat n =>
      exact absurd ((toList_lexicalCast n).symm.trans (h.symm.trans (toList_lexicalCast_neg m)))
        toDigits_ne_neg
    | negSucc n =>
      rw [toList_lexicalCast_neg, toList_lexicalCast_neg] at h
      have hdigits := toDigits_inj (List.cons_inj_right _ |>.mp h)
      rw [Nat.succ_injective hdigits]

theorem strMessage_inj_of_lengths {i v t i' v' t' : ℤ} (h : strMessage i v t = strMessage i' v' t')
    (hi : (lexicalCast i).length = (lexicalCast i').length)
    (ht : (lexicalCast t).length = (lexicalCast t').length) : i = i' ∧ v = v' ∧ t = t' := by
  have hl := congrArg String.toList h
  unfold strMessage at hl
  rw [String.toList_append, String.toList_append, String.toList_append,
    String.toList_append] at hl
  obtain ⟨hl, htime⟩ := List.append_inj' hl ht
  obtain ⟨hid, hvalue⟩ := List.append_inj hl hi
  exact ⟨lexicalCast_inj hid, lexicalCast_inj hvalue, lexicalCast_inj htime⟩

variable {S H : Type} [DecidableEq H]

def CSporkMessage.checkSignature (keys : SporkKeys S H) (spork : CSporkMessage S) : Bool :=
  keys.verifyMessage spork.vchSig
    (strMessage spork.nSporkID spork.nValue spork.nTimeSigned)

def CSporkMessage.sign (keys : SporkKeys S H) (nSporkID nValue nTimeSigned : ℤ) :
    Option (CSporkMessage S) :=
  (keys.signMessage (strMessage nSporkID nValue nTimeSigned)).map
    fun vchSig => ⟨nSporkID, nValue, nTimeSigned, vchSig⟩

namespace CSporkManager

/-- A node that has seen no spork. -/
def init : CSporkManager S H := ⟨∅, ∅, 0⟩

def executeSpork (getTime nSporkID nValue nTimeExecuted : ℤ) : Option ℤ × ℤ :=
  let nMaxBlocks := 360
  let nTimeout := 10 * 60
  if nSporkID = SPORK_12_RECONSIDER_BLOCKS ∧ nValue > 0 then
    if getTime - nTimeExecuted < nTimeout then (none, nTimeExecuted)
    else if nValue > nMaxBlocks then (none, nTimeExecuted)
    else (some nValue, getTime)
  else (none, nTimeExecuted)

def store (keys : SporkKeys S H) (spork : CSporkMessage S) (m : CSporkManager S H) :
    CSporkManager S H :=
  { m with
    mapSporks := m.mapSporks.insert
      (keys.getHash spork.nSporkID spork.nValue spork.nTimeSigned) spork
    mapSporksActive := m.mapSporksActive.insert spork.nSporkID spork }

def seen (m : CSporkManager S H) (nSporkID nTimeSigned : ℤ) : Bool :=
  match m.mapSporksActive.lookup nSporkID with
  | some spork => decide (spork.nTimeSigned ≥ nTimeSigned)
  | none => false

def processSpork (keys : SporkKeys S H) (env : SporkEnv) (strCommand : SporkCommand S)
    (m : CSporkManager S H) : CSporkManager S H × SporkOutput S :=
  if env.fLiteMode then (m, {})
  else
    match strCommand with
    | .SPORK spork =>
      if !env.tip then (m, {})
      else if m.seen spork.nSporkID spork.nTimeSigned then (m, {})
      else if !spork.checkSignature keys then (m, { misbehaving := 100 })
      else
        -- the value is an `int` from here on
        let run := executeSpork env.getTime spork.nSporkID (Int.bmod spork.nValue (2 ^ 32))
          m.nTimeExecuted
        ({ m.store keys spork with nTimeExecuted := run.2 },
          { relay := [spork], reprocessBlocks := run.1 })
    | .GETSPORKS =>
      (m, { pushMessage :=
        (m.mapSporksActive.entries.mergeSort fun a b => decide (a.1 ≤ b.1)).map (·.2) })

def updateSpork (keys : SporkKeys S H) (env : SporkEnv) (nSporkID nValue : ℤ)
    (m : CSporkManager S H) : Bool × CSporkManager S H × SporkOutput S :=
  match CSporkMessage.sign keys nSporkID nValue env.getTime with
  | some spork => (true, m.store keys spork, { relay := [spork] })
  | none => (false, m, {})

def isSporkActive (m : CSporkManager S H) (getTime nSporkID : ℤ) : Bool :=
  let r :=
    match m.mapSporksActive.lookup nSporkID with
    | some spork => spork.nValue
    -- 2099-1-1 i.e. off by default
    | none => (sporkDefault nSporkID).getD 4070908800
  decide (r < getTime)

def getSporkValue (m : CSporkManager S H) (nSporkID : ℤ) : ℤ :=
  match m.mapSporksActive.lookup nSporkID with
  | some spork => spork.nValue
  | none => (sporkDefault nSporkID).getD (-1)

/-! ### What a message does -/

/-- A SPORK message is taken: the node listens, the spork is not outdated, and it is signed. -/
def takes (keys : SporkKeys S H) (env : SporkEnv) (spork : CSporkMessage S)
    (m : CSporkManager S H) : Bool :=
  !env.fLiteMode && env.tip && !m.seen spork.nSporkID spork.nTimeSigned &&
    spork.checkSignature keys

variable {keys : SporkKeys S H} {env : SporkEnv} {m : CSporkManager S H}

variable (keys env m) in
theorem processSpork_spork (spork : CSporkMessage S) :
    (processSpork keys env (.SPORK spork) m).1.mapSporksActive =
      if takes keys env spork m then m.mapSporksActive.insert spork.nSporkID spork
      else m.mapSporksActive := by
  unfold processSpork takes
  cases hlite : env.fLiteMode with
  | true => simp
  | false =>
    cases htip : env.tip with
    | false => simp
    | true =>
      cases hseen : m.seen spork.nSporkID spork.nTimeSigned with
      | true => simp [hseen]
      | false =>
        cases hsig : spork.checkSignature keys with
        | false => simp [hseen, hsig]
        | true => simp [hseen, hsig, store]

theorem processSpork_getsporks : (processSpork keys env .GETSPORKS m).1 = m := by
  unfold processSpork
  split_ifs <;> rfl

/-! The answers depend on the value of the spork alone. -/

omit [DecidableEq H] in
theorem isSporkActive_eq (m : CSporkManager S H) (getTime nSporkID : ℤ) :
    m.isSporkActive getTime nSporkID =
      decide (((m.mapSporksActive.lookup nSporkID).map CSporkMessage.nValue).getD
        ((sporkDefault nSporkID).getD 4070908800) < getTime) := by
  unfold isSporkActive
  cases m.mapSporksActive.lookup nSporkID <;> rfl

omit [DecidableEq H] in
theorem getSporkValue_eq (m : CSporkManager S H) (nSporkID : ℤ) :
    m.getSporkValue nSporkID =
      ((m.mapSporksActive.lookup nSporkID).map CSporkMessage.nValue).getD
        ((sporkDefault nSporkID).getD (-1)) := by
  unfold getSporkValue
  cases m.mapSporksActive.lookup nSporkID <;> rfl

omit [DecidableEq H] in
theorem isSporkActive_congr {m m' : CSporkManager S H} {nSporkID : ℤ}
    (h : (m.mapSporksActive.lookup nSporkID).map CSporkMessage.nValue =
      (m'.mapSporksActive.lookup nSporkID).map CSporkMessage.nValue) (getTime : ℤ) :
    m.isSporkActive getTime nSporkID = m'.isSporkActive getTime nSporkID := by
  rw [isSporkActive_eq, h, isSporkActive_eq]

omit [DecidableEq H] in
theorem getSporkValue_congr {m m' : CSporkManager S H} {nSporkID : ℤ}
    (h : (m.mapSporksActive.lookup nSporkID).map CSporkMessage.nValue =
      (m'.mapSporksActive.lookup nSporkID).map CSporkMessage.nValue) :
    m.getSporkValue nSporkID = m'.getSporkValue nSporkID := by
  rw [getSporkValue_eq, h, getSporkValue_eq]

end CSporkManager

end Stonecoin
