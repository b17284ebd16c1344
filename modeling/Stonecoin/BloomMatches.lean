/-
What Bloom filters promise (`bloom.cpp`): `IsRelevantAndUpdate`, and the rolling filter.

A transaction is matched by its hash, by a push in one of its scripts or by an outpoint that it
spends; an output that is matched may be inserted, so that its spender is matched too.  The
rolling filter fills two filters that it clears in turns.

  * `no_false_negatives`: both kinds of filter report what they were given.
-/
import Stonecoin.Bloom

namespace Stonecoin

open RollingSets

/-! ### IsRelevantAndUpdate -/

namespace CBloomFilter

def findPush (f : CBloomFilter) : ℕ → CScript → Option Bool
  | 0, _ => some false
  | fuel + 1, pc =>
    match getOp pc with
    | none => some false
    | some (_, data, pc) =>
      if data.length ≠ 0 then do
        let found ← f.contains data
        if found then some true else findPush f fuel pc
      else findPush f fuel pc

/-- What is done with an output that is matched. -/
def update (f : CBloomFilter) (hash : UInt256) (i : ℕ) (scriptPubKey : CScript) :
    Option CBloomFilter :=
  if f.nFlags &&& BLOOM_UPDATE_MASK = BLOOM_UPDATE_ALL then f.insert (COutPoint.mk hash i).write
  else if f.nFlags &&& BLOOM_UPDATE_MASK = BLOOM_UPDATE_P2PUBKEY_ONLY then
    let r := solver scriptPubKey
    if r.ok ∧ (r.typeRet = .TX_PUBKEY ∨ r.typeRet = .TX_MULTISIG) then
      f.insert (COutPoint.mk hash i).write
    else some f
  else some f

/-- The loop over the outputs, from one on. -/
def scanOutputs (hash : UInt256) : List CTxOut → ℕ → Bool → CBloomFilter →
    Option (Bool × CBloomFilter)
  | [], _, fFound, f => some (fFound, f)
  | txout :: vout, i, fFound, f => do
    let found ← f.findPush txout.scriptPubKey.length txout.scriptPubKey
    if found then (f.update hash i txout.scriptPubKey).bind (scanOutputs hash vout (i + 1) true)
    else scanOutputs hash vout (i + 1) fFound f

def scanInputs (f : CBloomFilter) : List CTxIn → Option Bool
  | [] => some false
  | txin :: vin => do
    let spent ← f.contains txin.prevout.write
    if spent then some true
    else do
      let found ← f.findPush txin.scriptSig.length txin.scriptSig
      if found then some true else scanInputs f vin

def isRelevantAndUpdate (f : CBloomFilter) (tx : CTransaction) : Option (Bool × CBloomFilter) :=
  if f.isFull then some (true, f)
  else if f.isEmpty then some (false, f)
  else do
    let hit ← f.contains (writeHash tx.hash)
    let (fFound, f) ← scanOutputs tx.hash tx.vout 0 hit f
    if fFound then some (true, f)
    else do
      let relevant ← f.scanInputs tx.vin
      some (relevant, f)

end CBloomFilter

/-- The script pushes the data, before its first malformed opcode. -/
inductive PushOf (data : List UInt8) : CScript → Prop
  | here {s rest : CScript} {opcode : UInt8} : getOp s = some (opcode, data, rest) → PushOf data s
  | later {s rest : CScript} {opcode : UInt8} {vch : List UInt8} :
      getOp s = some (opcode, vch, rest) → PushOf data rest → PushOf data s

namespace CBloomFilter

variable {f g : CBloomFilter} {vKey : List UInt8} {tx : CTransaction}

def Matches (f : CBloomFilter) (s : CScript) : Prop := ∃ data, PushOf data s ∧ data ≠ [] ∧ f.Has data

theorem Sized.findPush (h : Sized f) : ∀ {fuel : ℕ} {s : CScript}, s.length ≤ fuel →
    ∃ b, f.findPush fuel s = some b ∧ (b = true ↔ f.Matches s) := by
  intro fuel
  induction fuel with
  | zero =>
    intro s hlen
    obtain rfl := List.length_eq_zero_iff.mp (Nat.le_zero.mp hlen)
    refine ⟨false, rfl, fun hfalse => absurd hfalse Bool.false_ne_true, ?_⟩
    rintro ⟨data, hpush, -⟩
    cases hpush with
    | here hop => cases hop
    | later hop => cases hop
  | succ fuel ih =>
    intro s hlen
    rw [CBloomFilter.findPush]
    cases hop : getOp s with
    | none =>
      refine ⟨false, rfl, fun hfalse => absurd hfalse Bool.false_ne_true, ?_⟩
      rintro ⟨data, hpush, -⟩
      cases hpush with
      | here hop' => cases hop.symm.trans hop'
      | later hop' => cases hop.symm.trans hop'
    | some r =>
      obtain ⟨opcode, vch, rest⟩ := r
      have hlt := getOp_length_lt hop
      obtain ⟨b, hb, hiff⟩ := ih (s := rest) (by omega)
      -- a push is the first one or a later one
      have hsplit : f.Matches s ↔ (vch ≠ [] ∧ f.Has vch) ∨ f.Matches rest := by
        constructor
        · rintro ⟨data, hpush, hne, hhas⟩
          cases hpush with
          | here hop' =>
            cases hop.symm.trans hop'
            exact Or.inl ⟨hne, hhas⟩
          | later hop' hpush =>
            cases hop.symm.trans hop'
            exact Or.inr ⟨data, hpush, hne, hhas⟩
        · rintro (⟨hne, hhas⟩ | ⟨data, hpush, hne, hhas⟩)
          · exact ⟨vch, .here hop, hne, hhas⟩
          · exact ⟨data, .later hop hpush, hne, hhas⟩
      dsimp only
      split
      next hne =>
        have hne' : vch ≠ [] := by
          rintro rfl
          exact hne rfl
        obtain ⟨found, hfound⟩ := h.contains vch
        rw [hfound, Option.bind_eq_bind, Option.bind_some]
        cases found with
        | true => exact ⟨true, rfl, fun _ => hsplit.mpr (Or.inl ⟨hne', hfound⟩), fun _ => rfl⟩
        | false =>
          have hnot : ¬ f.Has vch := by
            intro hhas
            cases hfound.symm.trans hhas
          refine ⟨b, hb, hiff.trans ?_⟩
          rw [hsplit]
          simp [hnot]
      next hnil =>
        have hnil' : vch = [] := List.length_eq_zero_iff.mp (not_not.mp hnil)
        refine ⟨b, hb, hiff.trans ?_⟩
        rw [hsplit]
        simp [hnil']

theorem Sized.update (h : Sized f) (hash : UInt256) (i : ℕ) (s : CScript) :
    ∃ g, f.update hash i s = some g ∧ Grows f g ∧
      (f.nFlags &&& BLOOM_UPDATE_MASK = BLOOM_UPDATE_ALL → g.Has (COutPoint.mk hash i).write) := by
  obtain ⟨g, hinsert, hgrows, hhas⟩ := h.insert (COutPoint.mk hash i).write
  unfold CBloomFilter.update
  split
  next => exact ⟨g, hinsert, hgrows, fun _ => hhas⟩
  next hall =>
    have hnot : ∀ k : CBloomFilter, f.nFlags &&& BLOOM_UPDATE_MASK = BLOOM_UPDATE_ALL →
        k.Has (COutPoint.mk hash i).write := fun _ h => absurd h hall
    split
    next =>
      dsimp only
      split
      next => exact ⟨g, hinsert, hgrows, hnot g⟩
      next => exact ⟨f, rfl, Grows.refl f, hnot f⟩
    next => exact ⟨f, rfl, Grows.refl f, hnot f⟩

theorem Sized.scanOutputs (hash : UInt256) : ∀ (vout : List CTxOut) (i : ℕ) (fFound : Bool)
    {f : CBloomFilter}, Sized f → ∃ b g, scanOutputs hash vout i fFound f = some (b, g) ∧
      Grows f g ∧ (fFound = true → b = true) ∧
      (∀ txout ∈ vout, f.Matches txout.scriptPubKey → b = true) := by
  intro vout
  induction vout with
  | nil => exact fun i fFound f _ => ⟨fFound, f, rfl, Grows.refl f, fun h => h, by simp⟩
  | cons txout vout ih =>
    intro i fFound f h
    obtain ⟨found, hfound, hiff⟩ := h.findPush (le_refl txout.scriptPubKey.length)
    rw [CBloomFilter.scanOutputs, hfound, Option.bind_eq_bind, Option.bind_some]
    cases found with
    | true =>
      obtain ⟨k, hupdate, hgrows, -⟩ := h.update hash i txout.scriptPubKey
      obtain ⟨b, g, hscan, hgrows', hb, -⟩ := ih (i + 1) true (hgrows.sized h)
      refine ⟨b, g, ?_, hgrows.trans hgrows', fun _ => hb rfl, fun _ _ _ => hb rfl⟩
      rw [if_pos rfl, hupdate]
      exact hscan
    | false =>
      obtain ⟨b, g, hscan, hgrows', hb, hmatch⟩ := ih (i + 1) fFound h
      refine ⟨b, g, hscan, hgrows', hb, fun out hout hmatches => ?_⟩
      rcases List.mem_cons.mp hout with rfl | hout
      · exact absurd (hiff.mpr hmatches) Bool.false_ne_true
      · exact hmatch out hout hmatches

theorem scanOutputs_append (hash : UInt256) (vout' : List CTxOut) : ∀ (vout : List CTxOut) (i : ℕ)
    (fFound : Bool) (f : CBloomFilter), CBloomFilter.scanOutputs hash (vout ++ vout') i fFound f =
      (CBloomFilter.scanOutputs hash vout i fFound f).bind fun p =>
        CBloomFilter.scanOutputs hash vout' (i + vout.length) p.1 p.2 := by
  intro vout
  induction vout with
  | nil => exact fun i fFound f => rfl
  | cons txout vout ih =>
    intro i fFound f
    have hlen : i + (txout :: vout).length = i + 1 + vout.length := by
      rw [List.length_cons]
      omega
    rw [List.cons_append, CBloomFilter.scanOutputs, CBloomFilter.scanOutputs, hlen]
    cases f.findPush txout.scriptPubKey.length txout.scriptPubKey with
    | none => rfl
    | some found =>
      cases found with
      | false => exact ih (i + 1) fFound f
      | true =>
        cases f.update hash i txout.scriptPubKey with
        | none => rfl
        | some g => exact ih (i + 1) true g

theorem scanOutputs_found (hash : UInt256) (b b' : Bool) : ∀ (vout : List CTxOut) (i : ℕ)
    (f : CBloomFilter), (CBloomFilter.scanOutputs hash vout i b f).map Prod.snd =
      (CBloomFilter.scanOutputs hash vout i b' f).map Prod.snd := by
  intro vout
  induction vout with
  | nil => exact fun i f => rfl
  | cons txout vout ih =>
    intro i f
    rw [CBloomFilter.scanOutputs, CBloomFilter.scanOutputs]
    cases f.findPush txout.scriptPubKey.length txout.scriptPubKey with
    | none => rfl
    | some found =>
      cases found with
      | false => exact ih (i + 1) f
      | true => rfl

theorem Sized.scanOutputs_eq (h : Sized f) (hnone : ∀ vKey, ¬ f.Has vKey) (hash : UInt256) :
    ∀ (vout : List CTxOut) (i : ℕ) (fFound : Bool),
      CBloomFilter.scanOutputs hash vout i fFound f = some (fFound, f) := by
  intro vout
  induction vout with
  | nil => exact fun i fFound => rfl
  | cons txout vout ih =>
    intro i fFound
    obtain ⟨found, hfound, hiff⟩ := h.findPush (le_refl txout.scriptPubKey.length)
    rw [CBloomFilter.scanOutputs, hfound, Option.bind_eq_bind, Option.bind_some]
    cases found with
    | false => exact ih (i + 1) fFound
    | true =>
      obtain ⟨data, -, -, hhas⟩ := hiff.mp rfl
      exact absurd hhas (hnone data)

theorem Sized.scanInputs (h : Sized f) : ∀ vin : List CTxIn, ∃ b, f.scanInputs vin = some b ∧
    ∀ txin ∈ vin, f.Has txin.prevout.write ∨ f.Matches txin.scriptSig → b = true := by
  intro vin
  induction vin with
  | nil => exact ⟨false, rfl, by simp⟩
  | cons txin vin ih =>
    obtain ⟨b, hscan, hb⟩ := ih
    obtain ⟨spent, hspent⟩ := h.contains txin.prevout.write
    obtain ⟨found, hfound, hiff⟩ := h.findPush (le_refl txin.scriptSig.length)
    rw [CBloomFilter.scanInputs, hspent, Option.bind_eq_bind, Option.bind_some]
    cases spent with
    | true => exact ⟨true, rfl, fun _ _ _ => rfl⟩
    | false =>
      rw [if_neg Bool.false_ne_true, hfound, Option.bind_some]
      cases found with
      | true => exact ⟨true, rfl, fun _ _ _ => rfl⟩
      | false =>
        refine ⟨b, hscan, fun txin' hin hhas => ?_⟩
        rcases List.mem_cons.mp hin with rfl | hin
        · rcases hhas with hhas | hhas
          · cases hspent.symm.trans hhas
          · exact absurd (hiff.mpr hhas) Bool.false_ne_true
        · exact hb txin' hin hhas

def reached (f : CBloomFilter) (tx : CTransaction) (i : ℕ) : Option CBloomFilter :=
  (CBloomFilter.scanOutputs tx.hash (tx.vout.take i) 0 false f).map Prod.snd

/-- What the answer says of a transaction, and what is in the filter afterwards. -/
structure Answered (f : CBloomFilter) (tx : CTransaction) (b : Bool) (f' : CBloomFilter) : Prop where
  txid : f.Has (writeHash tx.hash) → b = true
  output : ∀ txout ∈ tx.vout, f.Matches txout.scriptPubKey → b = true
  spent : ∀ txin ∈ tx.vin, f.Has txin.prevout.write → b = true
  input : ∀ txin ∈ tx.vin, f.Matches txin.scriptSig → b = true
  updated : f.nFlags &&& BLOOM_UPDATE_MASK = BLOOM_UPDATE_ALL → ∀ i txout,
    tx.vout[i]? = some txout → ∃ g, f.reached tx i = some g ∧ (∀ vKey, f.Has vKey → g.Has vKey) ∧
      (g.Matches txout.scriptPubKey → f'.Has (COutPoint.mk tx.hash i).write)

theorem Sized.updated (h : Sized f) (hall : f.nFlags &&& BLOOM_UPDATE_MASK = BLOOM_UPDATE_ALL)
    {b b' : Bool} {f' : CBloomFilter}
    (hscan : CBloomFilter.scanOutputs tx.hash tx.vout 0 b f = some (b', f')) {i : ℕ}
    {txout : CTxOut} (hi : tx.vout[i]? = some txout) :
    ∃ g, f.reached tx i = some g ∧ (∀ vKey, f.Has vKey → g.Has vKey) ∧
      (g.Matches txout.scriptPubKey → f'.Has (COutPoint.mk tx.hash i).write) := by
  obtain ⟨hlt, rfl⟩ := List.getElem?_eq_some_iff.mp hi
  obtain ⟨b₁, g, hg, hgrows, -⟩ := h.scanOutputs tx.hash (tx.vout.take i) 0 b
  have hsized := hgrows.sized h
  refine ⟨g, ?_, fun vKey hhas => hgrows.has h hhas, fun hmatches => ?_⟩
  · rw [reached, scanOutputs_found tx.hash false b, hg]
    rfl
  · obtain ⟨found, hfound, hiff⟩ := hsized.findPush (le_refl tx.vout[i].scriptPubKey.length)
    obtain rfl := hiff.mpr hmatches
    obtain ⟨k, hupdate, hgrows', hhas⟩ := hsized.update tx.hash i tx.vout[i].scriptPubKey
    have hlen : 0 + (tx.vout.take i).length = i := by
      rw [List.length_take]
      omega
    -- the scan goes on behind the output
    have hrest : CBloomFilter.scanOutputs tx.hash (tx.vout.drop (i + 1)) (i + 1) true k =
        some (b', f') := by
      have hsplit : tx.vout = tx.vout.take i ++ tx.vout[i] :: tx.vout.drop (i + 1) := by
        rw [← List.drop_eq_getElem_cons hlt, List.take_append_drop]
      rw [hsplit, scanOutputs_append, hg, Option.bind_some, hlen, CBloomFilter.scanOutputs, hfound,
        Option.bind_eq_bind, Option.bind_some, if_pos rfl, hupdate] at hscan
      exact hscan
    obtain ⟨b₂, g₂, hg₂, hgrows₂, -⟩ := (hgrows'.sized hsized).scanOutputs tx.hash
      (tx.vout.drop (i + 1)) (i + 1) true
    obtain ⟨-, rfl⟩ := Prod.mk.inj (Option.some.inj (hrest.symm.trans hg₂))
    exact hgrows₂.has (hgrows'.sized hsized) (hhas (by rw [hgrows.nFlags]; exact hall))

theorem Sized.isRelevantAndUpdate (h : Sized f) (tx : CTransaction) :
    ∃ b f', f.isRelevantAndUpdate tx = some (b, f') ∧ Grows f f' ∧ Answered f tx b f' := by
  obtain ⟨hit, hhit⟩ := h.contains (writeHash tx.hash)
  obtain ⟨b, f', hscan, hgrows, hkeep, hout⟩ := h.scanOutputs tx.hash tx.vout 0 hit
  unfold CBloomFilter.isRelevantAndUpdate
  cases hfull : f.isFull with
  | true =>
    refine ⟨true, f, rfl, Grows.refl f, fun _ => rfl, fun _ _ _ => rfl, fun _ _ _ => rfl,
      fun _ _ _ => rfl, fun hall i txout hi => ?_⟩
    obtain ⟨g, hg, hkept, -⟩ := h.updated hall hscan hi
    exact ⟨g, hg, hkept, fun _ => h.has_iff.mpr (Or.inl hfull)⟩
  | false =>
    rw [if_neg Bool.false_ne_true]
    cases hempty : f.isEmpty with
    | true =>
      -- nothing is contained
      have hnone : ∀ vKey, ¬ f.Has vKey := by
        intro vKey hhas
        rcases h.has_iff.mp hhas with hfull' | ⟨hempty', -⟩
        · exact absurd (hfull.symm.trans hfull') Bool.false_ne_true
        · exact absurd (hempty'.symm.trans hempty) Bool.false_ne_true
      have hmatches : ∀ s, ¬ f.Matches s := by
        rintro s ⟨data, -, -, hhas⟩
        exact hnone data hhas
      refine ⟨false, f, rfl, Grows.refl f, fun hhas => absurd hhas (hnone _),
        fun _ _ hm => absurd hm (hmatches _), fun _ _ hhas => absurd hhas (hnone _),
        fun _ _ hm => absurd hm (hmatches _), fun _ i txout _ => ?_⟩
      refine ⟨f, ?_, fun _ hhas => hhas, fun hm => absurd hm (hmatches _)⟩
      rw [reached, h.scanOutputs_eq hnone]
      rfl
    | false =>
      rw [if_neg Bool.false_ne_true, hhit, Option.bind_eq_bind, Option.bind_some, hscan,
        Option.bind_eq_bind, Option.bind_some]
      have htxid : f.Has (writeHash tx.hash) → b = true := by
        intro hhas
        refine hkeep ?_
        rw [Has, hhit] at hhas
        exact Option.some.inj hhas
      cases b with
      | true =>
        exact ⟨true, f', rfl, hgrows, fun _ => rfl, fun _ _ _ => rfl, fun _ _ _ => rfl,
          fun _ _ _ => rfl, fun hall i txout hi => h.updated hall hscan hi⟩
      | false =>
        obtain ⟨r, hin, hr⟩ := (hgrows.sized h).scanInputs tx.vin
        have hmatches : ∀ s, f.Matches s → f'.Matches s := by
          rintro s ⟨data, hpush, hne, hhas⟩
          exact ⟨data, hpush, hne, hgrows.has h hhas⟩
        refine ⟨r, f', ?_, hgrows, fun hhas => absurd (htxid hhas) Bool.false_ne_true,
          fun txout hmem hm => absurd (hout txout hmem hm) Bool.false_ne_true,
          fun txin hmem hhas => hr txin hmem (Or.inl (hgrows.has h hhas)),
          fun txin hmem hm => hr txin hmem (Or.inr (hmatches _ hm)),
          fun hall i txout hi => h.updated hall hscan hi⟩
        dsimp only
        rw [if_neg Bool.false_ne_true, hin]
        rfl

/-! ### Runs -/

inductive Call
  | insert (vKey : List UInt8)
  | insertOutPoint (outpoint : COutPoint)
  | insertHash (hash : UInt256)
  | isRelevantAndUpdate (tx : CTransaction)

def Call.inserted : Call → Option (List UInt8)
  | .insert vKey => some vKey
  | .insertOutPoint outpoint => some outpoint.write
  | .insertHash hash => some (writeHash hash)
  | .isRelevantAndUpdate _ => none

def call (f : CBloomFilter) : Call → Option CBloomFilter
  | .insert vKey => f.insert vKey
  | .insertOutPoint outpoint => f.insert outpoint.write
  | .insertHash hash => f.insert (writeHash hash)
  | .isRelevantAndUpdate tx => (f.isRelevantAndUpdate tx).map Prod.snd

def calls (f : CBloomFilter) (cs : List Call) : Option CBloomFilter := cs.foldlM call f

theorem Sized.call (h : Sized f) (c : Call) : ∃ g, f.call c = some g ∧ Grows f g ∧
    ∀ vKey, c.inserted = some vKey → g.Has vKey := by
  have hinsert : ∀ key, ∃ g, f.insert key = some g ∧ Grows f g ∧
      ∀ vKey, some key = some vKey → g.Has vKey := by
    intro key
    obtain ⟨g, hg, hgrows, hhas⟩ := h.insert key
    exact ⟨g, hg, hgrows, fun vKey heq => Option.some.inj heq ▸ hhas⟩
  cases c with
  | insert vKey => exact hinsert vKey
  | insertOutPoint outpoint => exact hinsert outpoint.write
  | insertHash hash => exact hinsert (writeHash hash)
  | isRelevantAndUpdate tx =>
    obtain ⟨b, g, hg, hgrows, -⟩ := h.isRelevantAndUpdate tx
    refine ⟨g, ?_, hgrows, fun vKey hnone => ?_⟩
    · rw [CBloomFilter.call, hg]
      rfl
    · cases hnone

theorem Sized.calls : ∀ (cs : List Call) {f : CBloomFilter}, Sized f →
    ∃ g, f.calls cs = some g ∧ Grows f g ∧
      ∀ c ∈ cs, ∀ vKey, c.inserted = some vKey → g.Has vKey := by
  intro cs
  induction cs with
  | nil => exact fun _ => ⟨_, rfl, Grows.refl _, by simp⟩
  | cons c cs ih =>
    intro f h
    obtain ⟨k, hcall, hgrows, hhas⟩ := h.call c
    obtain ⟨g, hcalls, hgrows', hall⟩ := ih (hgrows.sized h)
    refine ⟨g, ?_, hgrows.trans hgrows', fun c' hc' vKey hkey => ?_⟩
    · rw [CBloomFilter.calls, List.foldlM_cons, hcall]
      exact hcalls
    · rcases List.mem_cons.mp hc' with rfl | hc'
      · exact hgrows'.has (hgrows.sized h) (hhas vKey hkey)
      · exact hall c' hc' vKey hkey

/-! ### The rolling filter -/

def reset (f : CBloomFilter) (nNewTweak : UInt32) : CBloomFilter :=
  { f.clear with nTweak := nNewTweak }

/-- The filter as a set that is inserted into. -/
def store : Store CBloomFilter (List UInt8) where
  insert := insert
  clear := clear
  Has := Has

theorem lawful_store : store.Lawful fun f => f.vData ≠ [] where
  clear h hnil := h (List.length_eq_zero_iff.mp (by simpa [store, clear] using hnil))
  insert vKey h := by
    obtain ⟨g, hg, hgrows, hhas⟩ := Sized.insert (Or.inr h) vKey
    refine ⟨g, hg, fun hnil => h ?_, hhas, fun key hkey => hgrows.has (Or.inr h) hkey⟩
    rw [← List.length_eq_zero_iff, ← hgrows.length, hnil]
    rfl

end CBloomFilter

structure CRollingBloomFilter where
  nBloomSize : ℕ
  nInsertions : ℕ
  b1 : CBloomFilter
  b2 : CBloomFilter

namespace CRollingBloomFilter

/-- `CRollingBloomFilter(nElements, fpRate)`, with the size of the tables and the number of hash
functions that are computed from them, and the tweak that is drawn. -/
def of (nElements vDataSize nHashFuncs : ℕ) (nTweak : UInt32) : CRollingBloomFilter :=
  let b : CBloomFilter := ⟨List.replicate vDataSize 0, false, true, nHashFuncs, 0, 0⟩
  { nBloomSize := nElements * 2 % 2 ^ 32
    nInsertions := 0
    b1 := b.reset nTweak
    b2 := b.reset nTweak }

variable (r : CRollingBloomFilter)

def insert (vKey : List UInt8) : Option CRollingBloomFilter := do
  let b1 ← (if r.nInsertions = 0 then r.b1.clear else r.b1).insert vKey
  let b2 ← (if r.nInsertions ≠ 0 ∧ r.nInsertions = r.nBloomSize / 2 then r.b2.clear
    else r.b2).insert vKey
  let nInsertions := (r.nInsertions + 1) % 2 ^ 32
  pure { r with
    nInsertions := if nInsertions = r.nBloomSize then 0 else nInsertions
    b1 := b1
    b2 := b2 }

def contains (vKey : List UInt8) : Option Bool :=
  if r.nInsertions < r.nBloomSize / 2 then r.b2.contains vKey else r.b1.contains vKey

def inserts (keys : List (List UInt8)) : Option CRollingBloomFilter := keys.foldlM insert r

variable {r} {n : ℕ} {q q' : Rolling CBloomFilter}

/-- The filter is two sets that are cleared in turns. -/
structure Rolls (n : ℕ) (r : CRollingBloomFilter) (q : Rolling CBloomFilter) : Prop where
  size : r.nBloomSize = n * 2
  count : r.nInsertions = q.count
  first : r.b1 = q.first
  second : r.b2 = q.second

theorem insert_eq {vKey : List UInt8} {first second : CBloomFilter}
    (hfirst : (if r.nInsertions = 0 then r.b1.clear else r.b1).insert vKey = some first)
    (hsecond : (if r.nInsertions ≠ 0 ∧ r.nInsertions = r.nBloomSize / 2 then r.b2.clear
      else r.b2).insert vKey = some second) :
    r.insert vKey = some { r with
      nInsertions := if (r.nInsertions + 1) % 2 ^ 32 = r.nBloomSize then 0
        else (r.nInsertions + 1) % 2 ^ 32
      b1 := first
      b2 := second } := by
  rw [CRollingBloomFilter.insert, hfirst, Option.bind_eq_bind, Option.bind_some, hsecond]
  rfl

theorem Rolls.insert (h : Rolls n r q) (hn : n < 2 ^ 31) (hcount : q.count < 2 * n)
    {vKey : List UInt8} (hroll : roll CBloomFilter.store n q vKey = some q') :
    ∃ r', r.insert vKey = some r' ∧ Rolls n r' q' := by
  have hhalf : r.nBloomSize / 2 = n := by
    rw [h.size]
    omega
  have hmod : (r.nInsertions + 1) % 2 ^ 32 = q.count + 1 := by
    rw [h.count, Nat.mod_eq_of_lt (by omega)]
  obtain ⟨first, hfirst, hroll⟩ := Option.bind_eq_some_iff.mp hroll
  obtain ⟨second, hsecond, hroll⟩ := Option.bind_eq_some_iff.mp hroll
  obtain rfl := Option.some.inj hroll
  have hfirst' : (if r.nInsertions = 0 then r.b1.clear else r.b1).insert vKey = some first := by
    rw [h.count, h.first]
    exact hfirst
  have hsecond' : (if r.nInsertions ≠ 0 ∧ r.nInsertions = r.nBloomSize / 2 then r.b2.clear
      else r.b2).insert vKey = some second := by
    rw [hhalf, h.count, h.second]
    exact hsecond
  refine ⟨_, insert_eq hfirst' hsecond', h.size, ?_, rfl, rfl⟩
  dsimp only
  rw [hmod, h.size, Nat.mul_comm n 2]

theorem Rolls.inserts (hn : n < 2 ^ 31) (hn' : n ≠ 0) : ∀ (keys : List (List UInt8))
    {l : List (List UInt8)} {r : CRollingBloomFilter} {q : Rolling CBloomFilter}, Rolls n r q →
      Grows CBloomFilter.store n (fun f => f.vData ≠ []) l q →
      ∃ r' q', r.inserts keys = some r' ∧ Rolls n r' q' ∧
        Grows CBloomFilter.store n (fun f => f.vData ≠ []) (keys.reverse ++ l) q' := by
  intro keys
  induction keys with
  | nil => exact fun h hgrows => ⟨_, _, rfl, h, hgrows⟩
  | cons vKey keys ih =>
    intro l r q h hgrows
    obtain ⟨q₁, hroll, hgrows₁⟩ := hgrows.roll CBloomFilter.lawful_store vKey
    obtain ⟨r₁, hinsert, h₁⟩ := h.insert hn (hgrows.count hn') hroll
    obtain ⟨r', q', hinserts, h', hgrows'⟩ := ih h₁ hgrows₁
    refine ⟨r', q', ?_, h', ?_⟩
    · rw [CRollingBloomFilter.inserts, List.foldlM_cons, hinsert]
      exact hinserts
    · rw [List.reverse_cons, List.append_assoc]
      exact hgrows'

theorem inserts_defined : ∀ (keys : List (List UInt8)) {r : CRollingBloomFilter},
    r.b1.vData ≠ [] → r.b2.vData ≠ [] → ∃ r', r.inserts keys = some r' := by
  intro keys
  induction keys with
  | nil => exact fun {r} _ _ => ⟨r, rfl⟩
  | cons vKey keys ih =>
    intro r h1 h2
    have hgood : ∀ (p : Prop) [Decidable p] (f : CBloomFilter), f.vData ≠ [] →
        (if p then f.clear else f).vData ≠ [] := by
      intro p _ f hf
      split
      · exact CBloomFilter.lawful_store.clear hf
      · exact hf
    obtain ⟨first, hfirst, hgood₁, -⟩ := CBloomFilter.lawful_store.insert vKey
      (hgood (r.nInsertions = 0) r.b1 h1)
    obtain ⟨second, hsecond, hgood₂, -⟩ := CBloomFilter.lawful_store.insert vKey
      (hgood (r.nInsertions ≠ 0 ∧ r.nInsertions = r.nBloomSize / 2) r.b2 h2)
    rw [CRollingBloomFilter.inserts, List.foldlM_cons, insert_eq hfirst hsecond]
    exact ih hgood₁ hgood₂

theorem contains_last {nElements vDataSize : ℕ} (hn : nElements < 2 ^ 31) (hsize : vDataSize ≠ 0)
    (nHashFuncs : ℕ) (nTweak : UInt32) (keys : List (List UInt8)) :
    ∃ r, (of nElements vDataSize nHashFuncs nTweak).inserts keys = some r ∧
      ∀ vKey ∈ keys.reverse.take nElements, r.contains vKey = some true := by
  have hgood : (of nElements vDataSize nHashFuncs nTweak).b1.vData ≠ [] := by
    simp [of, CBloomFilter.reset, CBloomFilter.clear, hsize]
  by_cases hzero : nElements = 0
  · obtain ⟨r, hr⟩ := inserts_defined keys hgood hgood
    refine ⟨r, hr, fun vKey hmem => ?_⟩
    rw [hzero] at hmem
    exact absurd hmem (by simp)
  · let q : Rolling CBloomFilter := ⟨0, (of nElements vDataSize nHashFuncs nTweak).b1,
      (of nElements vDataSize nHashFuncs nTweak).b2⟩
    have hrolls : Rolls nElements (of nElements vDataSize nHashFuncs nTweak) q := by
      refine ⟨?_, rfl, rfl, rfl⟩
      show nElements * 2 % 2 ^ 32 = nElements * 2
      omega
    obtain ⟨r, q', hr, hrolls', hgrows⟩ := hrolls.inserts hn hzero keys
      (Grows.start hgood hgood)
    refine ⟨r, hr, fun vKey hmem => ?_⟩
    rw [List.append_nil] at hgrows
    have hhas : CBloomFilter.Has (asked nElements q') vKey := hgrows.reports vKey hmem
    have hhalf : r.nBloomSize / 2 = nElements := by
      rw [hrolls'.size]
      omega
    rw [asked] at hhas
    rw [CRollingBloomFilter.contains, hhalf, hrolls'.count]
    split
    next hlt =>
      rw [if_pos hlt] at hhas
      rw [hrolls'.second]
      exact hhas
    next hge =>
      rw [if_neg hge] at hhas
      rw [hrolls'.first]
      exact hhas

end CRollingBloomFilter

open CBloomFilter in
/-- **Bloom filters have no false negatives.**  A filter that a peer has loaded never takes a hash
modulo zero, contains what was inserted, finds every transaction that has something of it, and
keeps what it contains; and a rolling filter contains the last `nElements` elements, where twice
their number does not wrap around. -/
theorem no_false_negatives {nElements : ℕ} (hn : nElements < 2 ^ 31) :
    (∀ vData nHashFuncs nTweak nFlags cs, ∃ f,
      (load vData nHashFuncs nTweak nFlags).calls cs = some f ∧
        (∀ c ∈ cs, ∀ vKey, c.inserted = some vKey → f.contains vKey = some true) ∧
        (∀ vKey, ∃ b, f.contains vKey = some b) ∧
        (∀ tx, ∃ b f', f.isRelevantAndUpdate tx = some (b, f') ∧ Answered f tx b f') ∧
        ∀ cs', ∃ g, f.calls cs' = some g ∧ ∀ vKey, f.Has vKey → g.Has vKey) ∧
    ∀ vDataSize, vDataSize ≠ 0 → ∀ nHashFuncs nTweak keys, ∃ r,
      (CRollingBloomFilter.of nElements vDataSize nHashFuncs nTweak).inserts keys = some r ∧
        ∀ vKey ∈ keys.reverse.take nElements, r.contains vKey = some true := by
  refine ⟨fun vData nHashFuncs nTweak nFlags cs => ?_, fun vDataSize hsize nHashFuncs nTweak keys =>
    CRollingBloomFilter.contains_last hn hsize nHashFuncs nTweak keys⟩
  have hload := sized_load vData nHashFuncs nTweak nFlags
  obtain ⟨f, hcalls, hgrows, hhas⟩ := hload.calls cs
  have hsized := hgrows.sized hload
  refine ⟨f, hcalls, hhas, hsized.contains, fun tx => ?_, fun cs' => ?_⟩
  · obtain ⟨b, f', hrel, -, hanswered⟩ := hsized.isRelevantAndUpdate tx
    exact ⟨b, f', hrel, hanswered⟩
  · obtain ⟨g, hcalls', hgrows', -⟩ := hsized.calls cs'
    exact ⟨g, hcalls', fun vKey hkey => hgrows'.has hsized hkey⟩

/-- A rolling filter for two elements has tables of three bytes and eight hash functions. -/
theorem no_false_negatives_two :
    (∀ vData nHashFuncs nTweak nFlags cs, ∃ f,
      (CBloomFilter.load vData nHashFuncs nTweak nFlags).calls cs = some f ∧
        (∀ c ∈ cs, ∀ vKey, c.inserted = some vKey → f.contains vKey = some true) ∧
        (∀ vKey, ∃ b, f.contains vKey = some b) ∧
        (∀ tx, ∃ b f', f.isRelevantAndUpdate tx = some (b, f') ∧ f.Answered tx b f') ∧
        ∀ cs', ∃ g, f.calls cs' = some g ∧ ∀ vKey, f.Has vKey → g.Has vKey) ∧
    ∀ vDataSize, vDataSize ≠ 0 → ∀ nHashFuncs nTweak keys, ∃ r,
      (CRollingBloomFilter.of 2 vDataSize nHashFuncs nTweak).inserts keys = some r ∧
        ∀ vKey ∈ keys.reverse.take 2, r.contains vKey = some true :=
  no_false_negatives (by decide)

/-- Twice the number of elements wraps around to two: the tables are made for two elements, and the
last but one is not contained. -/
theorem forgotten_element : ∃ r,
    (CRollingBloomFilter.of (2 ^ 31 + 1) 3 8 0).inserts [[1], [2]] = some r ∧
      ([1] : List UInt8) ∈ ([[1], [2]] : List (List UInt8)).reverse.take (2 ^ 31 + 1) ∧ r.contains [1] = some false := by
  have hrun : (((CRollingBloomFilter.of (2 ^ 31 + 1) 3 8 0).inserts [[1], [2]]).bind fun r =>
      r.contains [1]) = some false := by decide +kernel
  obtain ⟨r, hr, hcontains⟩ := Option.bind_eq_some_iff.mp hrun
  refine ⟨r, hr, ?_, hcontains⟩
  rw [List.take_of_length_le (by decide)]
  decide

end Stonecoin
