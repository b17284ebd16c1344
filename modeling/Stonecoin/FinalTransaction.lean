/-
A client checks and signs the final transaction of a mixing session
(`CDarksendPool::SignFinalTransaction`).

The client counts how often its outputs are met in the transaction, and compares the sum of
their amounts with what it wants.  A copy of one output may so stand for another.

  * `keepsCoins_iff`: the entries whose outputs no transaction can replace.
-/
import Stonecoin.Darksend
import Mathlib.Algebra.BigOperators.Group.List.Lemmas
import Mathlib.Algebra.BigOperators.Ring.Finset
import Mathlib.Data.List.Count
import Mathlib.Tactic.Ring

namespace Stonecoin

open PoolState

def SIGHASH_ALL : ℕ := 1
def SIGHASH_ANYONECANPAY : ℕ := 0x80

structure SigningEnv where
  fMasterNode : Bool
  /-- `pnode` is not `NULL`. -/
  pnode : Bool
  /-- The `scriptSig` that `SignSignature` leaves, by the keys of the wallet. -/
  signSignature : CScript → CMutableTransaction → ℕ → ℕ → CScript
  getTimeMillis : ℤ

def myInputIndex (vin : List CTxIn) (txdsin : CTxDSIn) : Option ℕ :=
  vin.zipIdx.foldl (fun n p => if p.1 = txdsin.toCTxIn then some p.2 else n) none

def foundOutputs (vout vecTxDSOut : List CTxOut) : ℕ × ℤ :=
  vout.foldl (fun r o => vecTxDSOut.foldl (fun r txout =>
    if o = txout then (r.1 + 1, r.2 + o.nValue) else r) r) (0, 0)

/-- The entry is found in the transaction, as far as the client looks. -/
def entryCorrect (vout vecTxDSOut : List CTxOut) : Bool :=
  let r := foundOutputs vout vecTxDSOut
  let nValue2 := vecTxDSOut.foldl (fun n txout => n + txout.nValue) 0
  !(decide (r.1 < vecTxDSOut.length) || decide (r.2 ≠ nValue2))

structure SignCall where
  entry : CDarkSendEntry
  prevPubKey : CScript
  txTo : CMutableTransaction
  nIn : ℕ

/-- The loops of `SignFinalTransaction`: the transaction, the signed inputs, the calls of
`SignSignature`, and whether the client has refused. -/
structure Signing where
  finalMutableTransaction : CMutableTransaction
  sigs : List CTxIn
  calls : List SignCall
  refused : Bool

def CMutableTransaction.setScriptSig (tx : CMutableTransaction) (nIn : ℕ) (scriptSig : CScript) :
    CMutableTransaction :=
  { tx with vin := tx.vin.modify nIn fun txin => { txin with scriptSig := scriptSig } }

def signInput (env : SigningEnv) (entry : CDarkSendEntry) (s : Signing) (txdsin : CTxDSIn) :
    Signing :=
  if s.refused then s
  else
    match myInputIndex s.finalMutableTransaction.vin txdsin with
    | none => s
    | some nMyInputIndex =>
      let txTo := s.finalMutableTransaction
      if !entryCorrect txTo.vout entry.vecTxDSOut then { s with refused := true }
      else
        let txNew := txTo.setScriptSig nMyInputIndex
          (env.signSignature txdsin.prevPubKey txTo nMyInputIndex
            (SIGHASH_ALL ||| SIGHASH_ANYONECANPAY))
        { s with
          finalMutableTransaction := txNew
          sigs := s.sigs ++ txNew.vin[nMyInputIndex]?.toList
          calls := s.calls ++ [⟨entry, txdsin.prevPubKey, txTo, nMyInputIndex⟩] }

def signEntry (env : SigningEnv) (s : Signing) (entry : CDarkSendEntry) : Signing :=
  entry.vecTxDSIn.foldl (signInput env entry) s

namespace CDarksendPool

variable (env : SigningEnv) (pool : CDarksendPool)

def signing (finalTransactionNew : CTransaction) : Signing :=
  pool.vecEntries.foldl (signEntry env) ⟨.of finalTransactionNew, [], [], false⟩

def signCalls (finalTransactionNew : CTransaction) : List SignCall :=
  if env.fMasterNode || !env.pnode then [] else (pool.signing env finalTransactionNew).calls

/-- `SignFinalTransaction`: its result, the pool, and the signatures that are sent. -/
def signFinalTransaction (finalTransactionNew : CTransaction) :
    Bool × CDarksendPool × List CTxIn :=
  if env.fMasterNode || !env.pnode then (false, pool, [])
  else
    let s := pool.signing env finalTransactionNew
    let pool := { pool with finalMutableTransaction := s.finalMutableTransaction }
    if s.refused || s.sigs.isEmpty then (false, pool.setNull env.getTimeMillis, [])
    else
      (true, { pool with
        nState := POOL_STATE_SIGNING
        nTimeLastSuccessfulStep := env.getTimeMillis }, s.sigs)

end CDarksendPool

/-! ### What is to hold -/

/-- An entry as `PrepareDenominate` makes it: each output pays a new key. -/
structure ClientEntry extends CDarkSendEntry where
  scripts : (vecTxDSOut.map CTxOut.scriptPubKey).Nodup
  made : ∀ txout ∈ vecTxDSOut, txout.nRounds = -10

def CTransaction.Received (tx : CTransaction) : Prop := ∀ txout ∈ tx.vout, txout.nRounds = -10

/-- All outputs are there, each at an index of its own. -/
def HasOutputs (vout vecTxDSOut : List CTxOut) : Prop :=
  ∃ f : Fin vecTxDSOut.length → Fin vout.length, Function.Injective f ∧
    ∀ i, (vout.get (f i)).nValue = (vecTxDSOut.get i).nValue ∧
      (vout.get (f i)).scriptPubKey = (vecTxDSOut.get i).scriptPubKey

/-- What a transaction pays to the scripts of an entry. -/
def paidBack (vout : List (ℤ × CScript)) (vecTxDSOut : List CTxOut) : ℤ :=
  ((vout.filter fun o => 0 < o.1 ∧ o.2 ∈ vecTxDSOut.map CTxOut.scriptPubKey).map Prod.fst).sum

/-- What `SignatureHash` serializes with `SIGHASH_ALL | SIGHASH_ANYONECANPAY`. -/
structure SignedData where
  nVersion : ℤ
  prevout : COutPoint
  scriptCode : CScript
  nSequence : ℕ
  vout : List (ℤ × CScript)
  nLockTime : ℕ

/-- It is the same for all transactions that the signature is good for; an input that is not
there has none. -/
def signedData (scriptCode : CScript) (txTo : CMutableTransaction) (nIn : ℕ) :
    Option SignedData :=
  (txTo.vin[nIn]?).map fun txin =>
    ⟨txTo.nVersion, txin.prevout, scriptCode, txin.nSequence,
      txTo.vout.map fun o => (o.nValue, o.scriptPubKey), txTo.nLockTime⟩

/-- Every transaction that the signature is good for pays the amount of the entry back. -/
def SignCall.Repaid (call : SignCall) : Prop :=
  ∀ tx nIn, signedData call.prevPubKey tx nIn = signedData call.prevPubKey call.txTo call.nIn →
    (call.entry.vecTxDSOut.map CTxOut.nValue).sum ≤
      paidBack (tx.vout.map fun o => (o.nValue, o.scriptPubKey)) call.entry.vecTxDSOut

/-- **The client keeps its coins**: it signs an input of the entry in no transaction but one
that has all outputs of the entry. -/
def ClientEntry.KeepsCoins (e : ClientEntry) : Prop :=
  ∀ (env : SigningEnv) (pool : CDarksendPool) (tx : CTransaction), tx.Received →
    e.toCDarkSendEntry ∈ pool.vecEntries →
    ∀ call ∈ pool.signCalls env tx, call.entry = e.toCDarkSendEntry →
      HasOutputs tx.vout e.vecTxDSOut ∧ call.Repaid

/-- Copies of the outputs that are as many and have the same sum, with none of one of them. -/
def Replaceable (vecTxDSOut : List CTxOut) : Prop :=
  ∃ copies : CTxOut → ℕ, (∃ txout ∈ vecTxDSOut, copies txout = 0) ∧
    vecTxDSOut.length ≤ (vecTxDSOut.map copies).sum ∧
    (vecTxDSOut.map fun txout => copies txout * txout.nValue).sum =
      (vecTxDSOut.map CTxOut.nValue).sum

/-- The outputs have the amounts of denominations. -/
def Denominated (vecTxDSOut : List CTxOut) : Prop :=
  ∀ txout ∈ vecTxDSOut, txout.nValue ∈ vecPrivateSendDenominations

/-! ### The double loop -/

section Sums

variable {α R : Type*} [DecidableEq α] [CommSemiring R]

theorem sum_map_ite_eq (g : α → R) (a : α) : ∀ l : List α,
    (l.map fun t => if a = t then g t else 0).sum = (l.count a : R) * g a
  | [] => by simp
  | t :: l => by
    rw [List.map_cons, List.sum_cons, sum_map_ite_eq g a l, List.count_cons]
    by_cases h : a = t
    · subst h
      simp [add_mul, add_comm]
    · have hne : ¬ t = a := fun h' => h h'.symm
      simp [h, hne]

theorem sum_map_count_mul (g : α → R) : ∀ l l' : List α,
    (l.map fun a => (l'.count a : R) * g a).sum = (l'.map fun t => (l.count t : R) * g t).sum
  | [], l' => by simp
  | a :: l, l' => by
    have hcount : ∀ t, ((a :: l).count t : R) * g t =
        (l.count t : R) * g t + if a = t then g t else 0 := by
      intro t
      rw [List.count_cons]
      by_cases h : a = t
      · simp [h, add_mul]
      · simp [h]
    rw [List.map_cons, List.sum_cons, sum_map_count_mul g l l', ← sum_map_ite_eq g a l']
    simp only [hcount]
    rw [List.sum_map_add, add_comm]

end Sums

theorem foundOutputs_inner (o : CTxOut) : ∀ (vecTxDSOut : List CTxOut) (r : ℕ × ℤ),
    vecTxDSOut.foldl (fun r txout => if o = txout then (r.1 + 1, r.2 + o.nValue) else r) r =
      (r.1 + vecTxDSOut.count o, r.2 + vecTxDSOut.count o * o.nValue)
  | [], r => by simp
  | txout :: vecTxDSOut, r => by
    rw [List.foldl_cons, foundOutputs_inner o vecTxDSOut, List.count_cons]
    by_cases h : o = txout
    · subst h
      simp
      constructor <;> ring
    · have hne : ¬ txout = o := fun h' => h h'.symm
      simp [h, hne]

theorem foundOutputs_eq (vout vecTxDSOut : List CTxOut) :
    foundOutputs vout vecTxDSOut =
      ((vecTxDSOut.map fun txout => vout.count txout).sum,
        (vecTxDSOut.map fun txout => vout.count txout * txout.nValue).sum) := by
  have hloop : ∀ (vout : List CTxOut) (r : ℕ × ℤ),
      vout.foldl (fun r o => vecTxDSOut.foldl (fun r txout =>
        if o = txout then (r.1 + 1, r.2 + o.nValue) else r) r) r =
      (r.1 + (vout.map fun o => vecTxDSOut.count o).sum,
        r.2 + (vout.map fun o => vecTxDSOut.count o * o.nValue).sum) := by
    intro vout
    induction vout with
    | nil => simp
    | cons o vout ih =>
      intro r
      rw [List.foldl_cons, foundOutputs_inner, ih]
      simp [add_assoc]
  have hcount := sum_map_count_mul (fun _ : CTxOut => (1 : ℕ)) vout vecTxDSOut
  simp only [mul_one, Nat.cast_id] at hcount
  rw [foundOutputs, hloop, hcount, sum_map_count_mul CTxOut.nValue vout vecTxDSOut]
  simp

theorem entryCorrect_iff {vout vecTxDSOut : List CTxOut} :
    entryCorrect vout vecTxDSOut = true ↔
      vecTxDSOut.length ≤ (vecTxDSOut.map fun txout => vout.count txout).sum ∧
      (vecTxDSOut.map fun txout => vout.count txout * txout.nValue).sum =
        (vecTxDSOut.map CTxOut.nValue).sum := by
  have hsum : vecTxDSOut.foldl (fun n txout => n + txout.nValue) 0 =
      (vecTxDSOut.map CTxOut.nValue).sum := by
    rw [List.sum_eq_foldl, List.foldl_map]
  simp only [entryCorrect, foundOutputs_eq, hsum]
  simp [not_lt]

/-! ### What is signed -/

/-- What the loops keep. -/
structure Signing.Inv (vout : List CTxOut) (s : Signing) : Prop where
  vout_eq : s.finalMutableTransaction.vout = vout
  calls : ∀ call ∈ s.calls, call.txTo.vout = vout ∧ call.nIn < call.txTo.vin.length ∧
    call.entry.vecTxDSIn ≠ [] ∧ entryCorrect vout call.entry.vecTxDSOut = true

variable {env : SigningEnv} {entry : CDarkSendEntry} {s : Signing} {vout : List CTxOut}

theorem myInputIndex_lt {vin : List CTxIn} {txdsin : CTxDSIn} {n : ℕ}
    (h : myInputIndex vin txdsin = some n) : n < vin.length := by
  have hloop : ∀ (l : List (CTxIn × ℕ)) (r : Option ℕ), (∀ p ∈ l, p.2 < vin.length) →
      (∀ m, r = some m → m < vin.length) → ∀ m,
        l.foldl (fun n p => if p.1 = txdsin.toCTxIn then some p.2 else n) r = some m →
        m < vin.length := by
    intro l
    induction l with
    | nil => exact fun r _ hr m hm => hr m hm
    | cons p l ih =>
      intro r hl hr m hm
      refine ih _ (fun q hq => hl q (List.mem_cons_of_mem p hq)) ?_ m hm
      intro k hk
      dsimp only at hk
      split_ifs at hk with heq
      · rw [← Option.some.inj hk]
        exact hl p List.mem_cons_self
      · exact hr k hk
  refine hloop vin.zipIdx none (fun p hp => ?_) (fun m hm => absurd hm (by simp)) n h
  have hlt := List.snd_lt_add_of_mem_zipIdx hp
  omega

theorem Signing.Inv.signInput (h : s.Inv vout) {txdsin : CTxDSIn} (hmem : txdsin ∈ entry.vecTxDSIn) :
    (signInput env entry s txdsin).Inv vout := by
  rw [Stonecoin.signInput]
  by_cases hrefused : s.refused = true
  · rw [if_pos hrefused]
    exact h
  rw [if_neg hrefused]
  cases hindex : myInputIndex s.finalMutableTransaction.vin txdsin with
  | none => exact h
  | some nMyInputIndex =>
    dsimp only
    cases hcorrect : entryCorrect s.finalMutableTransaction.vout entry.vecTxDSOut with
    | false => exact ⟨h.vout_eq, h.calls⟩
    | true =>
      refine ⟨h.vout_eq, fun call hcall => ?_⟩
      rcases List.mem_append.mp hcall with hcall | hcall
      · exact h.calls call hcall
      · obtain rfl := List.mem_singleton.mp hcall
        exact ⟨h.vout_eq, myInputIndex_lt hindex, List.ne_nil_of_mem hmem, h.vout_eq ▸ hcorrect⟩

theorem Signing.Inv.signEntry (h : s.Inv vout) : (signEntry env s entry).Inv vout := by
  have hloop : ∀ (l : List CTxDSIn) (s : Signing), l ⊆ entry.vecTxDSIn → s.Inv vout →
      (l.foldl (Stonecoin.signInput env entry) s).Inv vout := by
    intro l
    induction l with
    | nil => exact fun s _ h => h
    | cons txdsin l ih =>
      intro s hsub h
      rw [List.cons_subset] at hsub
      exact ih _ hsub.2 (h.signInput hsub.1)
  exact hloop entry.vecTxDSIn s (List.Subset.refl _) h

theorem signed_of_mem_calls {pool : CDarksendPool} {tx : CTransaction} {call : SignCall}
    (hcall : call ∈ pool.signCalls env tx) :
    call.txTo.vout = tx.vout ∧ call.nIn < call.txTo.vin.length ∧ call.entry.vecTxDSIn ≠ [] ∧
      entryCorrect tx.vout call.entry.vecTxDSOut = true := by
  have hloop : ∀ (l : List CDarkSendEntry) (s : Signing), s.Inv tx.vout →
      (l.foldl (signEntry env) s).Inv tx.vout := by
    intro l
    induction l with
    | nil => exact fun s h => h
    | cons entry l ih => exact fun s h => ih _ h.signEntry
  rw [CDarksendPool.signCalls] at hcall
  split_ifs at hcall
  · exact absurd hcall List.not_mem_nil
  · exact (hloop pool.vecEntries ⟨.of tx, [], [], false⟩
      ⟨rfl, fun _ h => absurd h List.not_mem_nil⟩).calls call hcall

/-! ### What it pays -/

theorem sum_le_paidBack {vecTxDSOut : List CTxOut} (hnodup : vecTxDSOut.Nodup) :
    ∀ vout : List CTxOut, (vout.map fun o => (vecTxDSOut.count o : ℤ) * o.nValue).sum ≤
      paidBack (vout.map fun o => (o.nValue, o.scriptPubKey)) vecTxDSOut
  | [] => by simp [paidBack]
  | o :: vout => by
    have ih := sum_le_paidBack hnodup vout
    rw [paidBack] at ih ⊢
    rw [List.map_cons, List.sum_cons, List.map_cons, List.filter_cons]
    by_cases hmem : o ∈ vecTxDSOut
    · have hscript : o.scriptPubKey ∈ vecTxDSOut.map CTxOut.scriptPubKey :=
        List.mem_map_of_mem hmem
      rw [List.count_eq_one_of_mem hnodup hmem]
      by_cases hpos : 0 < o.nValue
      · simp only [hpos, hscript, and_self, decide_true, if_true, List.map_cons, List.sum_cons]
        omega
      · simp only [hpos, false_and, decide_false, Bool.false_eq_true, if_false]
        omega
    · rw [List.count_eq_zero_of_not_mem hmem]
      split_ifs with hpays
      · simp only [decide_eq_true_eq] at hpays
        simp only [List.map_cons, List.sum_cons]
        omega
      · omega

theorem SignCall.repaid {call : SignCall} (hnodup : call.entry.vecTxDSOut.Nodup)
    (hcorrect : entryCorrect call.txTo.vout call.entry.vecTxDSOut = true)
    (hIn : call.nIn < call.txTo.vin.length) : call.Repaid := by
  intro tx nIn hdata
  have hvout : (tx.vout.map fun o => (o.nValue, o.scriptPubKey)) =
      call.txTo.vout.map fun o => (o.nValue, o.scriptPubKey) := by
    rw [signedData, signedData, List.getElem?_eq_getElem hIn] at hdata
    obtain ⟨txin, -, hsame⟩ := Option.map_eq_some_iff.mp hdata
    exact congrArg SignedData.vout hsame
  have hsum := sum_map_count_mul CTxOut.nValue call.txTo.vout call.entry.vecTxDSOut
  rw [hvout, ← (entryCorrect_iff.mp hcorrect).2, ← hsum]
  exact sum_le_paidBack hnodup call.txTo.vout

namespace ClientEntry

variable (e : ClientEntry) {tx : CTransaction}

theorem nodup : e.vecTxDSOut.Nodup := List.Nodup.of_map _ e.scripts

theorem hasOutputs_iff (hreceived : tx.Received) :
    HasOutputs tx.vout e.vecTxDSOut ↔ ∀ txout ∈ e.vecTxDSOut, txout ∈ tx.vout := by
  constructor
  · rintro ⟨f, -, hf⟩ txout hmem
    obtain ⟨i, rfl⟩ := List.mem_iff_get.mp hmem
    obtain ⟨hvalue, hscript⟩ := hf i
    have hfound := List.get_mem tx.vout (f i)
    have heq : tx.vout.get (f i) = e.vecTxDSOut.get i := by
      have hrounds := (hreceived _ hfound).trans (e.made _ hmem).symm
      revert hvalue hscript hrounds
      cases tx.vout.get (f i)
      cases e.vecTxDSOut.get i
      rintro rfl rfl rfl
      rfl
    rw [← heq]
    exact hfound
  · intro hall
    have hat : ∀ i : Fin e.vecTxDSOut.length,
        ∃ j : Fin tx.vout.length, tx.vout.get j = e.vecTxDSOut.get i :=
      fun i => List.mem_iff_get.mp (hall _ (List.get_mem _ i))
    choose f hf using hat
    refine ⟨f, fun i j hij => ?_, fun i => ?_⟩
    · apply e.nodup.injective_get
      rw [← hf i, ← hf j, hij]
    · rw [hf i]
      exact ⟨rfl, rfl⟩

theorem hasOutputs_of_not_replaceable (h : ¬ Replaceable e.vecTxDSOut)
    (hreceived : tx.Received) (hcorrect : entryCorrect tx.vout e.vecTxDSOut = true) :
    HasOutputs tx.vout e.vecTxDSOut := by
  rw [e.hasOutputs_iff hreceived]
  intro txout hmem
  by_contra hmissing
  apply h
  refine ⟨fun txout => tx.vout.count txout, ⟨txout, hmem, ?_⟩, entryCorrect_iff.mp hcorrect⟩
  exact List.count_eq_zero_of_not_mem hmissing

end ClientEntry

/-! ### A transaction with copies -/

/-- The outputs, each as often as it is asked for. -/
def copiesOf (vecTxDSOut : List CTxOut) (copies : CTxOut → ℕ) : List CTxOut :=
  vecTxDSOut.flatMap fun txout => List.replicate (copies txout) txout

theorem count_copiesOf {copies : CTxOut → ℕ} {txout : CTxOut} : ∀ {vecTxDSOut : List CTxOut},
    vecTxDSOut.Nodup → txout ∈ vecTxDSOut →
      (copiesOf vecTxDSOut copies).count txout = copies txout
  | [], _, hmem => absurd hmem List.not_mem_nil
  | o :: os, hnodup, hmem => by
    rw [List.nodup_cons] at hnodup
    rw [copiesOf, List.flatMap_cons, List.count_append]
    rcases List.mem_cons.mp hmem with rfl | hmem
    · have hrest : (os.flatMap fun o => List.replicate (copies o) o).count txout = 0 := by
        apply List.count_eq_zero_of_not_mem
        intro hin
        obtain ⟨o, ho, hcopy⟩ := List.mem_flatMap.mp hin
        exact hnodup.1 (List.eq_of_mem_replicate hcopy ▸ ho)
      rw [List.count_replicate_self, hrest, Nat.add_zero]
    · have hne : ¬ txout = o := fun heq => hnodup.1 (heq ▸ hmem)
      have hfirst : (List.replicate (copies o) o).count txout = 0 :=
        List.count_eq_zero_of_not_mem fun hin => hne (List.eq_of_mem_replicate hin)
      rw [hfirst, Nat.zero_add]
      exact count_copiesOf hnodup.2 hmem

theorem mem_calls_signInput {call : SignCall} (h : call ∈ s.calls) (txdsin : CTxDSIn) :
    call ∈ (signInput env entry s txdsin).calls := by
  rw [signInput]
  split_ifs
  · exact h
  · cases myInputIndex s.finalMutableTransaction.vin txdsin with
    | none => exact h
    | some nMyInputIndex =>
      dsimp only
      split_ifs
      · exact h
      · exact List.mem_append_left _ h

theorem mem_calls_foldl {call : SignCall} : ∀ (l : List CTxDSIn) {s : Signing}, call ∈ s.calls →
    call ∈ (l.foldl (signInput env entry) s).calls
  | [], _, h => h
  | txdsin :: l, _, h => mem_calls_foldl l (mem_calls_signInput h txdsin)

/-- A wallet that has the keys. -/
def signingEnv : SigningEnv where
  fMasterNode := false
  pnode := true
  signSignature := fun _ _ _ _ => [1]
  getTimeMillis := 1500000000000

def CDarksendPool.withEntry (entry : CDarkSendEntry) : CDarksendPool :=
  { CDarksendPool.init 0 with vecEntries := [entry], nState := POOL_STATE_ACCEPTING_ENTRIES }

variable (entry) in
theorem exists_call (txdsin : CTxDSIn) (l : List CTxDSIn) (hin : entry.vecTxDSIn = txdsin :: l)
    {tx : CTransaction} (hvin : tx.vin = [txdsin.toCTxIn])
    (hcorrect : entryCorrect tx.vout entry.vecTxDSOut = true) :
    ∃ call ∈ (CDarksendPool.withEntry entry).signCalls signingEnv tx, call.entry = entry := by
  have hindex : myInputIndex tx.vin txdsin = some 0 := by
    rw [hvin, myInputIndex]
    exact if_pos rfl
  refine ⟨⟨entry, txdsin.prevPubKey, .of tx, 0⟩, ?_, rfl⟩
  show _ ∈ (entry.vecTxDSIn.foldl (signInput signingEnv entry) ⟨.of tx, [], [], false⟩).calls
  rw [hin, List.foldl_cons]
  apply mem_calls_foldl
  have hfirst : myInputIndex (CMutableTransaction.of tx).vin txdsin = some 0 := hindex
  simp only [signInput, hfirst]
  show _ ∈ (if (!entryCorrect tx.vout entry.vecTxDSOut) = true then _ else _ : Signing).calls
  rw [hcorrect]
  exact List.mem_singleton_self _

namespace ClientEntry

variable (e : ClientEntry)

theorem not_keepsCoins_of_replaceable (hin : e.vecTxDSIn ≠ []) (h : Replaceable e.vecTxDSOut) :
    ¬ e.KeepsCoins := by
  obtain ⟨copies, ⟨txout, hmem, hzero⟩, hlength, hsum⟩ := h
  obtain ⟨txdsin, l, hcons⟩ := List.exists_cons_of_ne_nil hin
  let tx : CTransaction := ⟨0, 1, [txdsin.toCTxIn], copiesOf e.vecTxDSOut copies, 0⟩
  have hcopy : ∀ o ∈ tx.vout, o ∈ e.vecTxDSOut := by
    intro o ho
    obtain ⟨o', ho', hcopy⟩ := List.mem_flatMap.mp ho
    rw [List.eq_of_mem_replicate hcopy]
    exact ho'
  have hcount : ∀ o ∈ e.vecTxDSOut, tx.vout.count o = copies o :=
    fun o ho => count_copiesOf e.nodup ho
  have hcorrect : entryCorrect tx.vout e.vecTxDSOut = true := by
    rw [entryCorrect_iff, List.map_congr_left hcount]
    refine ⟨hlength, ?_⟩
    rw [← hsum]
    congr 1
    exact List.map_congr_left fun o ho => by rw [hcount o ho]
  have hreceived : tx.Received := fun o ho => e.made o (hcopy o ho)
  obtain ⟨call, hcall, hentry⟩ :=
    exists_call e.toCDarkSendEntry txdsin l hcons rfl hcorrect
  intro hkeeps
  have hall := (hkeeps signingEnv _ tx hreceived (List.mem_singleton_self _) call hcall hentry).1
  have hpos := List.count_pos_iff.mpr ((e.hasOutputs_iff hreceived).mp hall txout hmem)
  rw [hcount txout hmem, hzero] at hpos
  exact absurd hpos (Nat.lt_irrefl 0)

theorem keepsCoins_of_not_replaceable (h : e.vecTxDSIn = [] ∨ ¬ Replaceable e.vecTxDSOut) :
    e.KeepsCoins := by
  intro env pool tx hreceived _ call hcall hentry
  obtain ⟨hvout, hIn, hinputs, hcorrect⟩ := signed_of_mem_calls hcall
  rw [hentry] at hinputs hcorrect
  have hkeep := h.resolve_left hinputs
  refine ⟨e.hasOutputs_of_not_replaceable hkeep hreceived hcorrect, SignCall.repaid ?_ ?_ hIn⟩
  · rw [hentry]
    exact e.nodup
  · rw [hentry, hvout]
    exact hcorrect

end ClientEntry

/-! ### Denominations -/

theorem denomination_eq {a : ℤ} (h : a ∈ vecPrivateSendDenominations) :
    ∃ k : ℕ, a = 10 ^ k * (COIN / 100 + 10) := by
  simp only [vecPrivateSendDenominations, List.mem_cons, List.not_mem_nil, or_false] at h
  rcases h with rfl | rfl | rfl | rfl
  · exact ⟨3, by decide⟩
  · exact ⟨2, by decide⟩
  · exact ⟨1, by decide⟩
  · exact ⟨0, by decide⟩

theorem multiple_of_denominations {a b : ℤ} (ha : a ∈ vecPrivateSendDenominations)
    (hb : b ∈ vecPrivateSendDenominations) :
    ∃ m : ℕ, 1 ≤ m ∧ (a = m * b ∨ b = m * a) := by
  obtain ⟨k, rfl⟩ := denomination_eq ha
  obtain ⟨l, rfl⟩ := denomination_eq hb
  rcases Nat.le_total k l with hle | hle
  · refine ⟨10 ^ (l - k), Nat.one_le_pow _ _ (by decide), .inr ?_⟩
    rw [Nat.cast_pow, ← mul_assoc]
    congr 1
    exact (pow_sub_mul_pow 10 hle).symm
  · refine ⟨10 ^ (k - l), Nat.one_le_pow _ _ (by decide), .inl ?_⟩
    rw [Nat.cast_pow, ← mul_assoc]
    congr 1
    exact (pow_sub_mul_pow 10 hle).symm

theorem replaceable_of_multiple {vecTxDSOut : List CTxOut} (hnodup : vecTxDSOut.Nodup)
    {t u : CTxOut} (ht : t ∈ vecTxDSOut) (hu : u ∈ vecTxDSOut) (hne : t ≠ u) {m : ℕ}
    (hm : 1 ≤ m) (hvalue : t.nValue = m * u.nValue) : Replaceable vecTxDSOut := by
  let copies : CTxOut → ℕ := fun o => if t = o then 0 else if u = o then 1 + m else 1
  have hsum : ∀ g : CTxOut → ℤ, (vecTxDSOut.map fun o => (copies o : ℤ) * g o).sum =
      (vecTxDSOut.map g).sum - g t + m * g u := by
    intro g
    have hat : ∀ o, (copies o : ℤ) * g o =
        g o + ((if t = o then -g o else 0) + if u = o then m * g o else 0) := by
      intro o
      by_cases hto : t = o
      · have huo : ¬ u = o := fun h => hne (hto.trans h.symm)
        simp [copies, hto, huo]
      · by_cases huo : u = o
        · simp [copies, hto, huo]
          ring
        · simp [copies, hto, huo]
    simp only [hat]
    rw [List.sum_map_add, List.sum_map_add, sum_map_ite_eq (fun o => -g o),
      sum_map_ite_eq (fun o => (m : ℤ) * g o), List.count_eq_one_of_mem hnodup ht,
      List.count_eq_one_of_mem hnodup hu]
    ring
  refine ⟨copies, ⟨t, ht, if_pos rfl⟩, ?_, ?_⟩
  · have hlength := hsum fun _ => 1
    simp only [mul_one, List.map_const', List.sum_replicate, nsmul_eq_mul] at hlength
    have hcast : ((vecTxDSOut.map copies).sum : ℤ) =
        (vecTxDSOut.map fun o => (copies o : ℤ)).sum := by
      rw [Nat.cast_list_sum, List.map_map]
      rfl
    rw [← Int.ofNat_le]
    rw [← hcast] at hlength
    push_cast at hlength ⊢
    omega
  · rw [hsum, hvalue]
    ring

theorem replaceable_iff {vecTxDSOut : List CTxOut} (hnodup : vecTxDSOut.Nodup)
    (hdenom : Denominated vecTxDSOut) : Replaceable vecTxDSOut ↔ 2 ≤ vecTxDSOut.length := by
  constructor
  · rintro ⟨copies, ⟨txout, hmem, hzero⟩, hlength, -⟩
    match vecTxDSOut with
    | [] => exact absurd hmem List.not_mem_nil
    | [o] =>
      obtain rfl := List.mem_singleton.mp hmem
      simp [hzero] at hlength
    | _ :: _ :: _ => simp
  · intro htwo
    match vecTxDSOut with
    | t :: u :: l =>
      have ht : t ∈ t :: u :: l := List.mem_cons_self
      have hu : u ∈ t :: u :: l := List.mem_cons_of_mem t List.mem_cons_self
      have hne : t ≠ u := by
        rintro rfl
        exact absurd List.mem_cons_self (List.nodup_cons.mp hnodup).1
      obtain ⟨m, hm, hvalue | hvalue⟩ := multiple_of_denominations (hdenom t ht) (hdenom u hu)
      · exact replaceable_of_multiple hnodup ht hu hne hm hvalue
      · exact replaceable_of_multiple hnodup hu ht hne.symm hm hvalue

/-! ### The client's coins -/

/-- **The client keeps its coins** exactly when no copies can replace the outputs of its
entry; for denominated outputs that is, when there are not two of them.  It is paid back the
amount of its entry in any case. -/
theorem keepsCoins_iff (e : ClientEntry) :
    (e.KeepsCoins ↔ e.vecTxDSIn = [] ∨ ¬ Replaceable e.vecTxDSOut) ∧
    (Denominated e.vecTxDSOut →
      (e.KeepsCoins ↔ e.vecTxDSIn = [] ∨ e.vecTxDSOut.length ≤ 1)) ∧
    ∀ (env : SigningEnv) (pool : CDarksendPool) (tx : CTransaction),
      ∀ call ∈ pool.signCalls env tx, call.entry = e.toCDarkSendEntry → call.Repaid := by
  have hiff : e.KeepsCoins ↔ e.vecTxDSIn = [] ∨ ¬ Replaceable e.vecTxDSOut := by
    refine ⟨fun hkeeps => ?_, e.keepsCoins_of_not_replaceable⟩
    by_contra hnot
    rw [not_or, not_not] at hnot
    exact e.not_keepsCoins_of_replaceable hnot.1 hnot.2 hkeeps
  refine ⟨hiff, fun hdenom => ?_, fun env pool tx call hcall hentry => ?_⟩
  · rw [hiff, replaceable_iff e.nodup hdenom, Nat.not_le, Nat.lt_succ_iff]
  · obtain ⟨hvout, hIn, -, hcorrect⟩ := signed_of_mem_calls hcall
    rw [hentry] at hcorrect
    apply SignCall.repaid
    · rw [hentry]
      exact e.nodup
    · rw [hentry, hvout]
      exact hcorrect
    · exact hIn

def twoOutputs : ClientEntry where
  vecTxDSIn := [⟨⟨⟨3, 0⟩, [], 4294967295⟩, [5], false⟩]
  vecTxDSOut := [.of 1000010 [1], .of 1000010 [2]]
  txCollateral := ⟨8, 1, [], [], 0⟩
  scripts := by decide
  made := by decide

/-- The first of them alone. -/
def oneOutput : ClientEntry where
  vecTxDSIn := [⟨⟨⟨3, 0⟩, [], 4294967295⟩, [5], false⟩]
  vecTxDSOut := [.of 1000010 [1]]
  txCollateral := ⟨8, 1, [], [], 0⟩
  scripts := by decide
  made := by decide

theorem keepsCoins_iff_one_two : oneOutput.KeepsCoins ∧ ¬ twoOutputs.KeepsCoins := by
  have hone : Denominated oneOutput.vecTxDSOut := by
    unfold Denominated
    decide
  have htwo : Denominated twoOutputs.vecTxDSOut := by
    unfold Denominated
    decide
  refine ⟨((keepsCoins_iff oneOutput).2.1 hone).mpr (.inr (by decide)), fun h => ?_⟩
  have hfew := ((keepsCoins_iff twoOutputs).2.1 htwo).mp h
  exact absurd hfew (by decide)

/-- The masternode pays the first output twice and the second one not at all. -/
def firstTwice : CTransaction :=
  ⟨9, 1, [⟨⟨3, 0⟩, [], 4294967295⟩], [.of 1000010 [1], .of 1000010 [1]], 0⟩

theorem firstTwice_signed :
    (∃ call ∈ (CDarksendPool.withEntry twoOutputs.toCDarkSendEntry).signCalls signingEnv firstTwice,
      call.entry = twoOutputs.toCDarkSendEntry) ∧
    ¬ HasOutputs firstTwice.vout twoOutputs.vecTxDSOut := by
  refine ⟨exists_call _ _ [] rfl rfl (by decide), fun h => ?_⟩
  have hreceived : firstTwice.Received := by
    unfold CTransaction.Received
    decide
  have hmem := (twoOutputs.hasOutputs_iff hreceived).mp h (.of 1000010 [2]) (by decide)
  exact absurd hmem (by decide)

end Stonecoin
