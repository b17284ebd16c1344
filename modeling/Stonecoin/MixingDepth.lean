/-
How often a coin was mixed (`CWallet::GetRealInputPrivateSendRounds`, `wallet/wallet.cpp`).

The function keeps copies of the transactions with the rounds of their outputs, and it does not
follow the inputs further than 16 levels.  The first argument of `roundsWithin` is the number of
levels that are left.  An access out of range is `none`.

  * `queries_eq`: queries that all meet the condition are answered with the depths.
-/
import Stonecoin.Dependencies
import Stonecoin.Memos
import Stonecoin.Wallet

namespace Stonecoin

open Memos

def isCollateralAmount (nInputAmount : ℤ) : Bool :=
  PRIVATESEND_COLLATERAL * 2 ≤ nInputAmount && nInputAmount ≤ PRIVATESEND_COLLATERAL * 4 &&
    nInputAmount % PRIVATESEND_COLLATERAL = 0

namespace CWallet

variable (w : CWallet)

def getWalletTx (hash : UInt256) : Option CTransaction :=
  w.mapWallet.find? fun wtx => wtx.hash = hash

def isMineTxIn (txin : CTxIn) : ℕ :=
  match w.getWalletTx txin.prevout.hash with
  | none => ISMINE_NO
  | some prev =>
    if txin.prevout.n < prev.vout.length then w.isMine (prev.vout.getD txin.prevout.n CTxOut.null)
    else ISMINE_NO

end CWallet

namespace MixingDepth

abbrev DenomWtxes : Type := UInt256 → Option CMutableTransaction

/-- `mDenomWtxes[hash].vout[nout].nRounds = nRounds`, with the value that is returned.  Where the
hash is missing, the transaction that `operator[]` inserts has no outputs. -/
def setRounds (mDenomWtxes : DenomWtxes) (hash : UInt256) (nout : ℕ) (nRounds : ℤ) :
    Option (DenomWtxes × ℤ) :=
  match mDenomWtxes hash with
  | none => none
  | some mtx =>
    if nout < mtx.vout.length then
      some (Function.update mDenomWtxes hash (some { mtx with
        vout := mtx.vout.modify nout fun out => { out with nRounds := nRounds } }), nRounds)
    else none

variable (w : CWallet)

/-- The loop over the inputs, with `nShortest` and `fDenomFound`. -/
def lookUp (call : CTxIn → DenomWtxes → Option (DenomWtxes × ℤ)) :
    List CTxIn → DenomWtxes → ℤ → Bool → Option (DenomWtxes × ℤ × Bool)
  | [], mDenomWtxes, nShortest, fDenomFound => some (mDenomWtxes, nShortest, fDenomFound)
  | txinNext :: vin, mDenomWtxes, nShortest, fDenomFound =>
    if w.isMineTxIn txinNext ≠ ISMINE_NO then
      (call txinNext mDenomWtxes).bind fun r =>
        if 0 ≤ r.2 ∧ (r.2 < nShortest ∨ nShortest = -10) then lookUp call vin r.1 r.2 true
        else lookUp call vin r.1 nShortest fDenomFound
    else lookUp call vin mDenomWtxes nShortest fDenomFound

/-- The rounds that are stored, from `nShortest` and `fDenomFound`. -/
def stored (s : ℤ × Bool) : ℤ := if s.2 then (if 15 ≤ s.1 then 16 else s.1 + 1) else 0

def computeRounds (call : CTxIn → DenomWtxes → Option (DenomWtxes × ℤ)) (wtx : CTransaction)
    (hash : UInt256) (nout : ℕ) (mDenomWtxes : DenomWtxes) : Option (DenomWtxes × ℤ) :=
  if wtx.vout.length ≤ nout then some (mDenomWtxes, -4)
  else if isCollateralAmount (wtx.vout.getD nout CTxOut.null).nValue then
    setRounds mDenomWtxes hash nout (-3)
  else if !isDenominatedAmount (wtx.vout.getD nout CTxOut.null).nValue then
    setRounds mDenomWtxes hash nout (-2)
  else if !wtx.vout.all fun out => isDenominatedAmount out.nValue then
    setRounds mDenomWtxes hash nout 0
  else
    (lookUp w call wtx.vin mDenomWtxes (-10) false).bind fun r =>
      setRounds r.1 hash nout (stored r.2)

/-- The function, with a number of levels that are left. -/
def roundsWithin : ℕ → CTxIn → DenomWtxes → Option (DenomWtxes × ℤ)
  | 0, _, mDenomWtxes => some (mDenomWtxes, 15)
  | left + 1, txin, mDenomWtxes =>
    match w.getWalletTx txin.prevout.hash with
    | none => some (mDenomWtxes, 16 - (left + 1) - 1)
    | some wtx =>
      match mDenomWtxes txin.prevout.hash with
      | none =>
        computeRounds w (roundsWithin left) wtx txin.prevout.hash txin.prevout.n
          (Function.update mDenomWtxes txin.prevout.hash (some (CMutableTransaction.of wtx)))
      | some mtx =>
        match mtx.vout[txin.prevout.n]? with
        | none => none
        | some out =>
          if out.nRounds ≠ -10 then some (mDenomWtxes, out.nRounds)
          else computeRounds w (roundsWithin left) wtx txin.prevout.hash txin.prevout.n mDenomWtxes

def getRealInputPrivateSendRounds (txin : CTxIn) (nRounds : ℕ) (mDenomWtxes : DenomWtxes) :
    Option (DenomWtxes × ℤ) :=
  roundsWithin w (16 - nRounds) txin mDenomWtxes

def getInputPrivateSendRounds (nPrivateSendRounds : ℤ) (txin : CTxIn) (mDenomWtxes : DenomWtxes) :
    Option (DenomWtxes × ℤ) :=
  (getRealInputPrivateSendRounds w txin 0 mDenomWtxes).map fun r =>
    (r.1, if nPrivateSendRounds < r.2 then nPrivateSendRounds else r.2)

/-- The answers to queries, one after the other. -/
def queries : List CTxIn → DenomWtxes → Option (List ℤ)
  | [], _ => some []
  | txin :: txins, mDenomWtxes =>
    (getRealInputPrivateSendRounds w txin 0 mDenomWtxes).bind fun r =>
      (queries txins r.1).map fun ns => r.2 :: ns

/-! ### The depth -/

/-- All outputs of the transaction are denominated, so that its inputs decide. -/
def Transparent (wtx : CTransaction) (nout : ℕ) : Prop :=
  nout < wtx.vout.length ∧
    isCollateralAmount (wtx.vout.getD nout CTxOut.null).nValue = false ∧
    (wtx.vout.all fun out => isDenominatedAmount out.nValue) = true

instance (wtx : CTransaction) (nout : ℕ) : Decidable (Transparent wtx nout) :=
  inferInstanceAs (Decidable (_ ∧ _ ∧ _))

def ownInputs (wtx : CTransaction) : List CTxIn :=
  wtx.vin.filter fun txin => w.isMineTxIn txin ≠ ISMINE_NO

/-- The outputs that the depth of an output is made of. -/
def asked (o : COutPoint) : List COutPoint :=
  (w.getWalletTx o.hash).elim [] fun wtx =>
    if Transparent wtx o.n then (ownInputs w wtx).map fun txin => txin.prevout else []

/-- The depth of an output, from the depths of the own inputs.  An output of a transaction that
the wallet does not have is -1. -/
def depthFrom (o : COutPoint) (depths : List ℤ) : ℤ :=
  (w.getWalletTx o.hash).elim (-1) fun wtx =>
    if wtx.vout.length ≤ o.n then -4
    else if isCollateralAmount (wtx.vout.getD o.n CTxOut.null).nValue then -3
    else if !isDenominatedAmount (wtx.vout.getD o.n CTxOut.null).nValue then -2
    else if !wtx.vout.all fun out => isDenominatedAmount out.nValue then 0
    else (depths.filter fun n => 0 ≤ n).min?.elim 0 fun n => min 16 (1 + n)

/-- The definition, without what is kept and without a limit. -/
def rounds : Recursion COutPoint ℤ where
  next := asked w
  value := depthFrom w

/-- A transaction of the wallet spends an output of another one. -/
def Spends (wtx wtx' : CTransaction) : Prop :=
  wtx ∈ w.mapWallet ∧ wtx' ∈ w.mapWallet ∧ ∃ txin ∈ wtx'.vin, txin.prevout.hash = wtx.hash

/-- The wallet, while it does not change.  Nothing but the function writes `nRounds`, and that on
its copies. -/
structure FixedWallet extends CWallet where
  fresh : ∀ wtx ∈ mapWallet, ∀ out ∈ wtx.vout, out.nRounds = -10
  acyclic : ∀ wtx, ¬ Relation.TransGen (Spends toCWallet) wtx wtx

variable {w}

def Valid (w : CWallet) (o : COutPoint) : Prop :=
  ∃ wtx, w.getWalletTx o.hash = some wtx ∧ o.n < wtx.vout.length

variable {hash : UInt256} {wtx : CTransaction}

theorem mem_of_getWalletTx
    (h : w.getWalletTx hash = some wtx) : wtx ∈ w.mapWallet ∧ wtx.hash = hash :=
  ⟨List.mem_of_find?_eq_some h, by simpa using List.find?_some h⟩

variable {txin : CTxIn}

theorem valid_of_isMine (h : w.isMineTxIn txin ≠ ISMINE_NO) :
    Valid w txin.prevout := by
  rw [CWallet.isMineTxIn] at h
  cases htx : w.getWalletTx txin.prevout.hash with
  | none =>
    rw [htx] at h
    exact absurd rfl h
  | some prev =>
    rw [htx] at h
    dsimp only at h
    split at h
    next hlt => exact ⟨prev, htx, hlt⟩
    next => exact absurd rfl h

theorem mem_ownInputs (h : txin ∈ ownInputs w wtx) :
    txin ∈ wtx.vin ∧ w.isMineTxIn txin ≠ ISMINE_NO := by
  simpa [ownInputs] using h

theorem mem_asked {o o' : COutPoint} (h : o' ∈ asked w o) :
    ∃ wtx, w.getWalletTx o.hash = some wtx ∧ Transparent wtx o.n ∧
      ∃ txin ∈ ownInputs w wtx, txin.prevout = o' := by
  rw [asked] at h
  cases htx : w.getWalletTx o.hash with
  | none =>
    rw [htx] at h
    cases h
  | some wtx =>
    rw [htx, Option.elim_some] at h
    split at h
    next htrans => exact ⟨wtx, rfl, htrans, List.mem_map.mp h⟩
    next => cases h

theorem wellFounded_asks (w : FixedWallet) : WellFounded (rounds w.toCWallet).Asks := by
  have hspends : WellFounded (Spends w.toCWallet) :=
    Dependencies.wellFounded_of_acyclic (List.finite_toSet w.mapWallet) (fun _ _ h => ⟨h.1, h.2.1⟩) w.acyclic
  refine Subrelation.wf (fun {o' o} h => ?_)
    (InvImage.wf (fun o => (w.getWalletTx o.hash).getD ⟨0, 0, [], [], 0⟩) hspends)
  obtain ⟨wtx, hwtx, -, txin, hin, rfl⟩ := mem_asked h
  obtain ⟨hvin, hmine⟩ := mem_ownInputs hin
  obtain ⟨prev, hprev, -⟩ := valid_of_isMine hmine
  show Spends w.toCWallet ((w.getWalletTx txin.prevout.hash).getD _)
    ((w.getWalletTx o.hash).getD _)
  rw [hwtx, hprev]
  exact ⟨(mem_of_getWalletTx hprev).1, (mem_of_getWalletTx hwtx).1, txin, hvin,
    (mem_of_getWalletTx hprev).2.symm⟩

/-- **The depth of an output.** -/
noncomputable def depth (w : FixedWallet) : COutPoint → ℤ :=
  (rounds w.toCWallet).solution (wellFounded_asks w)

theorem solves_depth (w : FixedWallet) : (rounds w.toCWallet).Solves (depth w) :=
  (rounds w.toCWallet).solves_solution (wellFounded_asks w)

theorem depth_eq (w : FixedWallet) (o : COutPoint) :
    depth w o = depthFrom w.toCWallet o ((asked w.toCWallet o).map (depth w)) :=
  solves_depth w o

/-! ### The shortest of the inputs -/

/-- One input of the loop. -/
def shorten (s : ℤ × Bool) (n : ℤ) : ℤ × Bool :=
  if 0 ≤ n ∧ (n < s.1 ∨ s.1 = -10) then (n, true) else s

theorem foldl_shorten_true (ns : List ℤ) : ∀ a : ℤ, 0 ≤ a →
    ns.foldl shorten (a, true) = ((ns.filter fun n => 0 ≤ n).foldl min a, true) := by
  induction ns with
  | nil =>
    intro a _
    rfl
  | cons n ns ih =>
    intro a ha
    rw [List.foldl_cons, shorten]
    by_cases hn : 0 ≤ n
    · rw [List.filter_cons_of_pos (by simpa using hn), List.foldl_cons]
      by_cases hlt : n < a
      · rw [if_pos ⟨hn, Or.inl hlt⟩, ih n hn, min_eq_right hlt.le]
      · rw [if_neg (by omega), ih a ha, min_eq_left (not_lt.mp hlt)]
    · rw [List.filter_cons_of_neg (by simpa using hn), if_neg (by omega), ih a ha]

theorem foldl_shorten (ns : List ℤ) : ns.foldl shorten (-10, false) =
    (ns.filter fun n => 0 ≤ n).min?.elim (-10, false) fun n => (n, true) := by
  induction ns with
  | nil => rfl
  | cons n ns ih =>
    rw [List.foldl_cons, shorten]
    by_cases hn : 0 ≤ n
    · rw [if_pos ⟨hn, Or.inr rfl⟩, foldl_shorten_true ns n hn,
        List.filter_cons_of_pos (by simpa using hn), List.min?_cons']
      rfl
    · rw [if_neg (by omega), List.filter_cons_of_neg (by simpa using hn), ih]

theorem stored_eq (ns : List ℤ) : stored (ns.foldl shorten (-10, false)) =
    (ns.filter fun n => 0 ≤ n).min?.elim 0 fun n => min 16 (1 + n) := by
  rw [foldl_shorten]
  cases (ns.filter fun n => 0 ≤ n).min? with
  | none => rfl
  | some n =>
    show (if 15 ≤ n then 16 else n + 1) = min 16 (1 + n)
    split <;> omega

/-! ### What is kept -/

/-- The rounds that are kept; -10 is the initial value. -/
def known (mDenomWtxes : DenomWtxes) (o : COutPoint) : Option ℤ :=
  (mDenomWtxes o.hash).bind fun mtx =>
    (mtx.vout[o.n]?).bind fun out => if out.nRounds = -10 then none else some out.nRounds

/-- The copies are those of transactions of the wallet. -/
def Shaped (w : CWallet) (mDenomWtxes : DenomWtxes) : Prop :=
  ∀ hash mtx, mDenomWtxes hash = some mtx →
    ∃ wtx, w.getWalletTx hash = some wtx ∧ mtx.vout.length = wtx.vout.length

/-- A call returns what the evaluation does, keeps the same, and loses no copy. -/
def Evaluated (w : CWallet) (mDenomWtxes : DenomWtxes) (r : Option (DenomWtxes × ℤ))
    (e : ℤ × (COutPoint → Option ℤ)) : Prop :=
  ∃ m', r = some (m', e.1) ∧ Shaped w m' ∧ known m' = e.2 ∧
    ∀ hash, (mDenomWtxes hash).isSome → (m' hash).isSome

variable {m : DenomWtxes}

theorem known_none : known (fun _ => none) = fun _ => none := rfl

theorem known_insert
    (hfresh : ∀ out ∈ wtx.vout, out.nRounds = -10) (hm : m hash = none) :
    known (Function.update m hash (some (CMutableTransaction.of wtx))) = known m := by
  funext o
  by_cases ho : o.hash = hash
  · rw [known, known, ho, Function.update_self, hm, Option.bind_some, Option.bind_none]
    show (wtx.vout[o.n]?).bind _ = none
    cases hout : wtx.vout[o.n]? with
    | none => rfl
    | some out => simp [hfresh out (List.mem_of_getElem? hout)]
  · rw [known, known, Function.update_of_ne ho]

theorem Shaped.insert (h : Shaped w m)
    (hwtx : w.getWalletTx hash = some wtx) :
    Shaped w (Function.update m hash (some (CMutableTransaction.of wtx))) := by
  intro hash' mtx hmtx
  by_cases heq : hash' = hash
  · subst heq
    rw [Function.update_self] at hmtx
    obtain rfl := Option.some.inj hmtx
    exact ⟨wtx, hwtx, rfl⟩
  · rw [Function.update_of_ne heq] at hmtx
    exact h hash' mtx hmtx

theorem setRounds_spec (h : Shaped w m) {nout : ℕ}
    (hwtx : w.getWalletTx hash = some wtx) (hm : (m hash).isSome) (hlt : nout < wtx.vout.length)
    {n : ℤ} (hn : n ≠ -10) :
    Evaluated w m (setRounds m hash nout n)
      (n, Function.update (known m) ⟨hash, nout⟩ (some n)) := by
  obtain ⟨mtx, hmtx⟩ := Option.isSome_iff_exists.mp hm
  obtain ⟨wtx', hwtx', hlength⟩ := h hash mtx hmtx
  obtain rfl := Option.some.inj (hwtx.symm.trans hwtx')
  rw [setRounds, hmtx]
  dsimp only
  rw [if_pos (hlength ▸ hlt)]
  refine ⟨_, rfl, ?_, ?_, ?_⟩
  · intro hash' mtx' hmtx'
    by_cases heq : hash' = hash
    · subst heq
      rw [Function.update_self] at hmtx'
      obtain rfl := Option.some.inj hmtx'
      exact ⟨wtx, hwtx, by rw [← hlength, List.length_modify]⟩
    · rw [Function.update_of_ne heq] at hmtx'
      exact h hash' mtx' hmtx'
  · funext o
    obtain ⟨hash', nout'⟩ := o
    by_cases heq : hash' = hash
    · subst heq
      by_cases hnout : nout' = nout
      · subst hnout
        show known _ _ = Function.update (known m) _ _ _
        rw [Function.update_self, known]
        simp [hlength, hlt, hn]
      · have hne : (⟨hash', nout'⟩ : COutPoint) ≠ ⟨hash', nout⟩ := by simpa using hnout
        show known _ _ = Function.update (known m) _ _ _
        rw [Function.update_of_ne hne, known, known, hmtx]
        simp [Ne.symm hnout]
    · have hne : (⟨hash', nout'⟩ : COutPoint) ≠ ⟨hash, nout⟩ := by simp [heq]
      show known _ _ = Function.update (known m) _ _ _
      rw [Function.update_of_ne hne, known, known, Function.update_of_ne heq]
  · intro hash' hsome
    by_cases heq : hash' = hash
    · subst heq
      rw [Function.update_self]
      rfl
    · rwa [Function.update_of_ne heq]

/-! ### The function evaluates the definition -/

theorem lookUp_spec {call : CTxIn → DenomWtxes → Option (DenomWtxes × ℤ)}
    {eval : COutPoint → (COutPoint → Option ℤ) → ℤ × (COutPoint → Option ℤ)}
    (hcall : ∀ txin m, Shaped w m → Valid w txin.prevout →
      Evaluated w m (call txin m) (eval txin.prevout (known m))) :
    ∀ (vin : List CTxIn) {m : DenomWtxes} (s : ℤ × Bool), Shaped w m →
      ∃ m', lookUp w call vin m s.1 s.2 = some (m',
          (Recursion.evalAll eval ((vin.filter fun txin => w.isMineTxIn txin ≠ ISMINE_NO).map
            fun txin => txin.prevout) (known m)).1.foldl shorten s) ∧
        Shaped w m' ∧
        known m' = (Recursion.evalAll eval
          ((vin.filter fun txin => w.isMineTxIn txin ≠ ISMINE_NO).map
            fun txin => txin.prevout) (known m)).2 ∧
        ∀ hash, (m hash).isSome → (m' hash).isSome := by
  intro vin
  induction vin with
  | nil =>
    intro m s hm
    exact ⟨m, rfl, hm, rfl, fun _ h => h⟩
  | cons txin vin ih =>
    intro m s hm
    rw [lookUp]
    by_cases hmine : w.isMineTxIn txin ≠ ISMINE_NO
    · obtain ⟨m₁, hr, hm₁, hknown, hkept⟩ := hcall txin m hm (valid_of_isMine hmine)
      rw [if_pos hmine, hr, Option.bind_some, List.filter_cons_of_pos (by simpa using hmine),
        List.map_cons, Recursion.evalAll, ← hknown, List.foldl_cons]
      obtain ⟨m₂, hrest, hm₂, hknown₂, hkept₂⟩ :=
        ih (shorten s (eval txin.prevout (known m)).1) hm₁
      refine ⟨m₂, ?_, hm₂, hknown₂, fun hash h => hkept₂ hash (hkept hash h)⟩
      rw [← hrest, shorten]
      split
      · rfl
      · rfl
    · rw [if_neg hmine, List.filter_cons_of_neg (by simpa using hmine)]
      exact ih s hm

theorem stored_ne (ns : List ℤ) : stored (ns.foldl shorten (-10, false)) ≠ -10 := by
  rw [stored_eq]
  cases hmin : (ns.filter fun n => 0 ≤ n).min? with
  | none => decide
  | some n =>
    have hn : 0 ≤ n := by simpa using (List.mem_filter.mp (List.min?_mem hmin)).2
    show min 16 (1 + n) ≠ -10
    omega

theorem asked_of_not {nout : ℕ}
    (hwtx : w.getWalletTx hash = some wtx) (h : ¬ Transparent wtx nout) :
    asked w ⟨hash, nout⟩ = [] := by
  rw [asked, hwtx]
  exact if_neg h

theorem computeRounds_spec {call : CTxIn → DenomWtxes → Option (DenomWtxes × ℤ)}
    {eval : COutPoint → (COutPoint → Option ℤ) → ℤ × (COutPoint → Option ℤ)}
    (hcall : ∀ txin m, Shaped w m → Valid w txin.prevout →
      Evaluated w m (call txin m) (eval txin.prevout (known m)))
    (h : Shaped w m) {nout : ℕ}
    (hwtx : w.getWalletTx hash = some wtx) (hm : (m hash).isSome) (hlt : nout < wtx.vout.length) :
    Evaluated w m (computeRounds w call wtx hash nout m)
      (depthFrom w ⟨hash, nout⟩ (Recursion.evalAll eval (asked w ⟨hash, nout⟩) (known m)).1,
        Function.update (Recursion.evalAll eval (asked w ⟨hash, nout⟩) (known m)).2 ⟨hash, nout⟩
          (some (depthFrom w ⟨hash, nout⟩
            (Recursion.evalAll eval (asked w ⟨hash, nout⟩) (known m)).1))) := by
  have hget : wtx.vout.getD nout CTxOut.null ∈ wtx.vout := by
    rw [List.getD_eq_getElem _ _ hlt]
    exact List.getElem_mem hlt
  rw [computeRounds, if_neg (Nat.not_le.mpr hlt), depthFrom, hwtx, Option.elim_some,
    if_neg (Nat.not_le.mpr hlt)]
  by_cases hcollateral : isCollateralAmount (wtx.vout.getD nout CTxOut.null).nValue = true
  · rw [if_pos hcollateral, if_pos hcollateral,
      asked_of_not hwtx fun ht => Bool.false_ne_true (ht.2.1.symm.trans hcollateral)]
    exact setRounds_spec h hwtx hm hlt (by decide)
  rw [if_neg hcollateral, if_neg hcollateral]
  by_cases hdenom : (!isDenominatedAmount (wtx.vout.getD nout CTxOut.null).nValue) = true
  · rw [if_pos hdenom, if_pos hdenom, asked_of_not hwtx fun ht => by
      rw [List.all_eq_true.mp ht.2.2 _ hget] at hdenom
      cases hdenom]
    exact setRounds_spec h hwtx hm hlt (by decide)
  rw [if_neg hdenom, if_neg hdenom]
  by_cases hall : (!wtx.vout.all fun out => isDenominatedAmount out.nValue) = true
  · rw [if_pos hall, if_pos hall, asked_of_not hwtx fun ht => by
      rw [ht.2.2] at hall
      cases hall]
    exact setRounds_spec h hwtx hm hlt (by decide)
  rw [if_neg hall, if_neg hall]
  -- the inputs decide
  have htrans : Transparent wtx nout :=
    ⟨hlt, Bool.eq_false_iff.mpr hcollateral, by simpa using hall⟩
  have hasked : asked w ⟨hash, nout⟩ = (ownInputs w wtx).map fun txin => txin.prevout := by
    rw [asked, hwtx]
    exact if_pos htrans
  rw [hasked, ownInputs]
  obtain ⟨m₁, hr, hm₁, hknown, hkept⟩ := lookUp_spec hcall wtx.vin (-10, false) h
  rw [← stored_eq, ← hknown, hr, Option.bind_some]
  obtain ⟨m₂, hr₂, hm₂, hknown₂, hkept₂⟩ :=
    setRounds_spec hm₁ hwtx (hkept hash hm) hlt (stored_ne _)
  exact ⟨m₂, hr₂, hm₂, hknown₂, fun hash' h' => hkept₂ hash' (hkept hash' h')⟩

theorem roundsWithin_eval (w : FixedWallet) : ∀ (left : ℕ) (txin : CTxIn) (m : DenomWtxes),
    Shaped w.toCWallet m → Valid w.toCWallet txin.prevout →
      Evaluated w.toCWallet m (roundsWithin w.toCWallet left txin m)
        ((rounds w.toCWallet).eval 15 left txin.prevout (known m)) := by
  intro left
  induction left with
  | zero =>
    intro txin m hm _
    exact ⟨m, rfl, hm, rfl, fun _ h => h⟩
  | succ left ih =>
    intro txin m hm hvalid
    obtain ⟨wtx, hwtx, hlt⟩ := hvalid
    rw [roundsWithin, hwtx]
    dsimp only
    cases hmtx : m txin.prevout.hash with
    | none =>
      have hnone : known m txin.prevout = none := by rw [known, hmtx, Option.bind_none]
      have hfresh := w.fresh wtx (mem_of_getWalletTx hwtx).1
      obtain ⟨m₁, hr, hm₁, hknown, hkept⟩ := computeRounds_spec ih (hm.insert hwtx) hwtx
        (by rw [Function.update_self]; rfl) hlt
      rw [known_insert hfresh hmtx] at hr hknown
      rw [Recursion.eval_none hnone]
      refine ⟨m₁, hr, hm₁, hknown, fun hash h => hkept hash ?_⟩
      by_cases heq : hash = txin.prevout.hash
      · rw [heq, Function.update_self]
        rfl
      · rwa [Function.update_of_ne heq]
    | some mtx =>
      obtain ⟨wtx', hwtx', hlength⟩ := hm _ _ hmtx
      obtain rfl := Option.some.inj (hwtx.symm.trans hwtx')
      obtain ⟨out, hout⟩ : ∃ out, mtx.vout[txin.prevout.n]? = some out :=
        ⟨_, List.getElem?_eq_getElem (hlength ▸ hlt)⟩
      dsimp only
      rw [hout]
      dsimp only
      by_cases hinitial : out.nRounds = -10
      · have hnone : known m txin.prevout = none := by
          rw [known, hmtx, Option.bind_some, hout, Option.bind_some, if_pos hinitial]
        rw [if_neg (not_not.mpr hinitial), Recursion.eval_none hnone]
        exact computeRounds_spec ih hm hwtx (by rw [hmtx]; rfl) hlt
      · have hsome : known m txin.prevout = some out.nRounds := by
          rw [known, hmtx, Option.bind_some, hout, Option.bind_some, if_neg hinitial]
        rw [if_pos hinitial, Recursion.eval_some hsome]
        exact ⟨m, rfl, hm, rfl, fun _ h => h⟩

/-! ### Queries -/

/-- When a query is answered: the output is there, or no copy of its transaction is, and where the
inputs are not followed to the end the depth is 16. -/
structure Answerable (w : FixedWallet) (m : DenomWtxes) (txin : CTxIn) : Prop where
  range : ∀ wtx, w.getWalletTx txin.prevout.hash = some wtx → (m txin.prevout.hash).isSome →
    txin.prevout.n < wtx.vout.length
  limit : ∀ o ∈ (rounds w.toCWallet).cuts 16 txin.prevout (known m), depth w o = 16

theorem value_cut {w : FixedWallet} {o : COutPoint} (h : depth w o = 16) :
    (rounds w.toCWallet).value o (((rounds w.toCWallet).next o).map fun _ => 15) = depth w o := by
  show depthFrom w.toCWallet o ((asked w.toCWallet o).map fun _ => 15) = depth w o
  cases hasked : asked w.toCWallet o with
  | nil =>
    rw [depth_eq w o, hasked]
    rfl
  | cons o' os =>
    have hmem : o' ∈ asked w.toCWallet o := by
      rw [hasked]
      exact List.mem_cons_self
    obtain ⟨wtx, hwtx, ⟨hlt, hcollateral, hall⟩, -⟩ := mem_asked hmem
    have hget : wtx.vout.getD o.n CTxOut.null ∈ wtx.vout := by
      rw [List.getD_eq_getElem _ _ hlt]
      exact List.getElem_mem hlt
    have hfifteen : ∀ os : List COutPoint, (os.map fun _ => (15 : ℤ)).foldl min 15 = 15 := by
      intro os
      induction os with
      | nil => rfl
      | cons _ os ih => exact ih
    have hfilter : ((o' :: os).map fun _ => (15 : ℤ)).filter (fun n => 0 ≤ n) =
        15 :: os.map fun _ => 15 := by
      rw [List.filter_eq_self.mpr]
      · rfl
      · intro n hn
        obtain ⟨_, -, rfl⟩ := List.mem_map.mp hn
        rfl
    rw [h, depthFrom, hwtx, Option.elim_some, if_neg (Nat.not_le.mpr hlt), hcollateral,
      List.all_eq_true.mp hall _ hget, hall, hfilter, List.min?_cons', hfifteen]
    rfl

theorem query_right {w : FixedWallet} {m : DenomWtxes} (hm : Shaped w.toCWallet m)
    (hright : Recursion.Right (depth w) (known m)) (h : Answerable w m txin) :
    ∃ m', getRealInputPrivateSendRounds w.toCWallet txin 0 m = some (m', depth w txin.prevout) ∧
      Shaped w.toCWallet m' ∧ Recursion.Right (depth w) (known m') := by
  cases hwtx : w.getWalletTx txin.prevout.hash with
  | none =>
    refine ⟨m, ?_, hm, hright⟩
    rw [depth_eq, depthFrom, hwtx, getRealInputPrivateSendRounds, roundsWithin, hwtx]
    rfl
  | some wtx =>
    by_cases hlt : txin.prevout.n < wtx.vout.length
    · obtain ⟨hvalue, hright'⟩ := Recursion.eval_right (solves_depth w) 15 hright
        fun o ho => value_cut (h.limit o ho)
      obtain ⟨m', hr, hm', hknown, -⟩ := roundsWithin_eval w 16 txin m hm ⟨wtx, hwtx, hlt⟩
      refine ⟨m', ?_, hm', hknown ▸ hright'⟩
      rw [getRealInputPrivateSendRounds, hr, hvalue]
    · -- the index is out of range, and the copy is made now
      have hmtx : m txin.prevout.hash = none := by
        rw [← Option.not_isSome_iff_eq_none]
        exact fun hsome => hlt (h.range wtx hwtx hsome)
      refine ⟨_, ?_, hm.insert hwtx, ?_⟩
      · rw [depth_eq, depthFrom, hwtx, Option.elim_some, if_pos (Nat.not_lt.mp hlt),
          getRealInputPrivateSendRounds, roundsWithin, hwtx]
        dsimp only
        rw [hmtx]
        dsimp only
        rw [computeRounds, if_pos (Nat.not_lt.mp hlt)]
      · rw [known_insert (w.fresh wtx (mem_of_getWalletTx hwtx).1) hmtx]
        exact hright

theorem getInputPrivateSendRounds_right {w : FixedWallet} {m : DenomWtxes}
    (nPrivateSendRounds : ℤ) (hm : Shaped w.toCWallet m)
    (hright : Recursion.Right (depth w) (known m)) (h : Answerable w m txin) :
    ∃ m', getInputPrivateSendRounds w.toCWallet nPrivateSendRounds txin m =
        some (m', min nPrivateSendRounds (depth w txin.prevout)) ∧
      Shaped w.toCWallet m' ∧ Recursion.Right (depth w) (known m') := by
  obtain ⟨m', hr, hkept⟩ := query_right hm hright h
  refine ⟨m', ?_, hkept⟩
  rw [getInputPrivateSendRounds, hr, Option.map_some, ← min_def_lt]

/-- Queries that can all be answered when they are asked. -/
def AllAnswerable (w : FixedWallet) : List CTxIn → DenomWtxes → Prop
  | [], _ => True
  | txin :: txins, m => Answerable w m txin ∧
      ∀ r, getRealInputPrivateSendRounds w.toCWallet txin 0 m = some r → AllAnswerable w txins r.1

theorem queries_right {w : FixedWallet} : ∀ (txins : List CTxIn) {m : DenomWtxes},
    Shaped w.toCWallet m → Recursion.Right (depth w) (known m) → AllAnswerable w txins m →
      queries w.toCWallet txins m = some (txins.map fun txin => depth w txin.prevout) := by
  intro txins
  induction txins with
  | nil =>
    intro m _ _ _
    rfl
  | cons txin txins ih =>
    intro m hm hright h
    obtain ⟨m', hr, hm', hright'⟩ := query_right hm hright h.1
    rw [queries, hr, Option.bind_some, ih hm' hright' (h.2 _ hr)]
    rfl

/-- **The answers do not depend on the order**: queries that can all be answered are answered with
the depths. -/
theorem queries_eq (w : FixedWallet) (txins : List CTxIn)
    (h : AllAnswerable w txins fun _ => none) :
    queries w.toCWallet txins (fun _ => none) =
      some (txins.map fun txin => depth w txin.prevout) := by
  have hright : Recursion.Right (depth w) (known fun _ => none) := by
    intro o n hn
    rw [known_none] at hn
    cases hn
  exact queries_right txins (fun _ _ hnone => by cases hnone) hright h

/-! ### A chain of transactions -/

/-- A run whose inputs are always followed to the end. -/
def followed (w : CWallet) : List CTxIn → DenomWtxes → Bool
  | [], _ => true
  | txin :: txins, m =>
    (w.getWalletTx txin.prevout.hash).any (fun wtx => txin.prevout.n < wtx.vout.length) &&
      ((rounds w).cuts 16 txin.prevout (known m)).isEmpty &&
        (getRealInputPrivateSendRounds w txin 0 m).all fun r => followed w txins r.1

theorem allAnswerable_of_followed {w : FixedWallet} : ∀ {txins : List CTxIn} {m : DenomWtxes},
    followed w.toCWallet txins m = true → AllAnswerable w txins m := by
  intro txins
  induction txins with
  | nil =>
    intro m _
    trivial
  | cons txin txins ih =>
    intro m h
    rw [followed, Bool.and_eq_true, Bool.and_eq_true, List.isEmpty_iff] at h
    obtain ⟨⟨hrange, hcuts⟩, hnext⟩ := h
    refine ⟨⟨fun wtx hwtx _ => ?_, fun o ho => ?_⟩, fun r hr => ih ?_⟩
    · rw [hwtx] at hrange
      simpa using hrange
    · rw [hcuts] at ho
      cases ho
    · rw [hr] at hnext
      exact hnext

theorem acyclic_of_lt {w : CWallet}
    (h : ∀ wtx ∈ w.mapWallet, ∀ txin ∈ wtx.vin, txin.prevout.hash.toNat < wtx.hash.toNat)
    (wtx : CTransaction) : ¬ Relation.TransGen (Spends w) wtx wtx := by
  have hstep : ∀ {wtx wtx'}, Spends w wtx wtx' → wtx.hash.toNat < wtx'.hash.toNat := by
    rintro wtx wtx' ⟨-, hin, txin, hvin, heq⟩
    rw [← heq]
    exact h wtx' hin txin hvin
  intro hcycle
  have hlt : ∀ {wtx'}, Relation.TransGen (Spends w) wtx wtx' →
      wtx.hash.toNat < wtx'.hash.toNat := by
    intro wtx' hpath
    induction hpath with
    | single hs => exact hstep hs
    | tail _ hs ih => exact lt_trans ih (hstep hs)
  exact lt_irrefl _ (hlt hcycle)

/-- Each transaction spends the one before it. -/
def chainTx (k : ℕ) : CTransaction where
  hash := BitVec.ofNat 256 k
  nVersion := 1
  vin := if k = 0 then [] else [⟨⟨BitVec.ofNat 256 (k - 1), 0⟩, [], 4294967295⟩]
  vout := [CTxOut.of (vecPrivateSendDenominations.getD 1 0) []]
  nLockTime := 0

/-- 17 transactions. -/
def chainWallet : FixedWallet where
  mapWallet := (List.range 17).map chainTx
  hashes := by decide +kernel
  checkFinalTx := fun _ => true
  isTrusted := fun _ => true
  inMempool := fun _ => false
  blocksToMaturity := fun _ => 0
  depthInMainChain := fun _ => 6
  isMine := fun _ => ISMINE_SPENDABLE
  isSpent := fun _ _ => false
  isLockedCoin := fun _ _ => false
  fresh := by decide +kernel
  acyclic := acyclic_of_lt (by decide +kernel)

def chainIn (k : ℕ) : CTxIn := ⟨⟨BitVec.ofNat 256 k, 0⟩, [], 4294967295⟩

/-- The last output of the chain is asked for after one in the middle. -/
theorem queries_eq_chain :
    queries chainWallet.toCWallet [chainIn 5, chainIn 16, chainIn 1] (fun _ => none) =
      some ([chainIn 5, chainIn 16, chainIn 1].map fun txin => depth chainWallet txin.prevout) :=
  queries_eq chainWallet [chainIn 5, chainIn 16, chainIn 1]
    (allAnswerable_of_followed (by decide +kernel))

/-- The last output is asked for first: the limit is reached at the second one, and its answer is
16 instead of 1.  An index that is out of range may not be asked for twice. -/
theorem last_first :
    queries chainWallet.toCWallet [chainIn 16, chainIn 1] (fun _ => none) = some [16, 16] ∧
      depth chainWallet (chainIn 1).prevout = 1 ∧
      queries chainWallet.toCWallet [⟨⟨5, 1⟩, [], 0⟩, ⟨⟨5, 1⟩, [], 0⟩] (fun _ => none) = none := by
  refine ⟨by decide +kernel, ?_, by decide +kernel⟩
  have hfirst : asked chainWallet.toCWallet ⟨0, 0⟩ = [] := by decide +kernel
  have hsecond : asked chainWallet.toCWallet (chainIn 1).prevout = [⟨0, 0⟩] := by decide +kernel
  rw [depth_eq, hsecond, List.map_singleton, depth_eq chainWallet ⟨0, 0⟩, hfirst]
  decide +kernel

end MixingDepth

end Stonecoin
