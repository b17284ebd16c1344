/-
`ConnectBlock` of `main.cpp`, called with `fJustCheck = false`: the checks that need the
coins, the index entries of the block, the coins themselves, and the writes to the index
database.

What is decided elsewhere (the script checks, the time locks, the payee rules, the spend
height) is the environment `ConnectBlockEnv`.  Writing to disk is taken to succeed, and an
undo record that is already there to be the one of the same block.

The outputs that the inputs of a transaction spend are read once, after `HaveInputs` has
brought them into the cache; the source reads them again for every purpose, with nothing
in between that changes them.
-/
import Stonecoin.RestoreCoins

namespace Stonecoin

/-! ### What is decided elsewhere -/

/-- Why `ConnectBlock` stops: it rejects the block, or does not return. -/
inductive ConnectFailure where
  | state (r : Reject)
  /-- A failed assertion or an exception. -/
  | stopped (what : String)

def reject {α : Type} (level : ℕ) (reason : String) : Except ConnectFailure α :=
  .error (.state ⟨level, REJECT_INVALID, reason, false⟩)

/-- Everything `ConnectBlock` reads besides the block, its index entry and the coins. -/
structure ConnectBlockEnv extends CheckBlockEnv where
  /-- `block.GetHash() == hashGenesisBlock`. -/
  isGenesisBlock : CBlockHeader → Bool
  BIP34Hash : UInt256
  /-- `SequenceLocks`, given the heights of the outputs spent. -/
  sequenceLocks : CTransaction → List ℤ → Bool
  /-- `GetSpendHeight(view)`. -/
  nSpendHeight : ℤ
  nStoneHeight : ℤ
  isInputBanned : CTxIn → CTxOut → Bool
  /-- The script part of `CheckInputs`, where it is not left to the script threads. -/
  checkScripts : CTransaction → List CTxOut → Except Reject Unit
  /-- `control.Wait()`: the verdict of the script threads. -/
  controlWait : CBlock → Bool
  isBlockValueValid : CBlock → ℤ → ℤ → Bool
  isBlockPayeeValid : CTransaction → ℤ → ℤ → Bool

structure ConnectPos extends BlockPos where
  nTime : ℕ
  /-- `pprev->nBits` and `pprev->nHeight`. -/
  nPrevBits : ℕ
  nPrevHeight : ℤ
  /-- The hash of `pprev->GetAncestor(BIP34Height)`, if there is one. -/
  bip34Ancestor : Option UInt256

variable (env : ConnectBlockEnv) (cfg : IndexConfig)

/-- `fEnforceBIP30`: all blocks but two, and none above the block of BIP 34. -/
def fEnforceBIP30 (pindex : ConnectPos) : Bool :=
  !(pindex.nHeight = 91842 ∧
      pindex.hash = 0x00000000000a4d0a398161ffc163c503763b1f4360639393e0e4c8e300e0caec ∨
    pindex.nHeight = 91880 ∧
      pindex.hash = 0x00000000000743f190a18c5577a3c2d2a1f610ae9601ac046a38084ccb7cd721) &&
    pindex.bip34Ancestor ≠ some env.BIP34Hash

def checkBIP30 : List CTransaction → CCoinsViewCache → Bool × CCoinsViewCache
  | [], view => (true, view)
  | tx :: txs, view =>
    match view.accessCoins tx.hash with
    | (none, view) => checkBIP30 txs view
    | (some coins, view) => if !coins.1.isPruned then (false, view) else checkBIP30 txs view

/-! ### The inputs of a transaction -/

def haveInputs : List CTxIn → CCoinsViewCache → Bool × CCoinsViewCache
  | [], view => (true, view)
  | txin :: vin, view =>
    match view.accessCoins txin.prevout.hash with
    | (none, view) => (false, view)
    | (some coins, view) =>
      if !coins.1.isAvailable txin.prevout.n then (false, view) else haveInputs vin view

/-- The coins of the inputs; a missing one would be a null pointer. -/
def inputCoins (view : CCoinsViewCache) : List CTxIn → Option (List CCoins)
  | [] => some []
  | txin :: vin =>
    match (view.accessCoins txin.prevout.hash).1, inputCoins view vin with
    | some coins, some cs => some (coins.1 :: cs)
    | _, _ => none

def getOutputsFor (view : CCoinsViewCache) : List CTxIn → Option (List CTxOut)
  | [] => some []
  | txin :: vin =>
    match getOutputFor view txin.prevout, getOutputsFor view vin with
    | some prevout, some prevouts => some (prevout :: prevouts)
    | _, _ => none

/-- The loop of `GetSigOpCount(scriptSig)` to the last item pushed; an opcode that pushes
nothing, or that cannot be read, ends it with nothing. -/
def lastPush : ℕ → CScript → List UInt8 → Option (List UInt8)
  | 0, _, data => some data
  | fuel + 1, pc, data =>
    if pc.isEmpty then some data
    else
      match getOp pc with
      | none => none
      | some (opcode, vch, pc) => if OP_16 < opcode then none else lastPush fuel pc vch

def getP2SHSigOpCount (vin : List CTxIn) (prevouts : List CTxOut) : ℕ :=
  ((vin.zip prevouts).map fun (txin, prevout) =>
    if isPayToScriptHash prevout.scriptPubKey then
      match lastPush txin.scriptSig.length txin.scriptSig [] with
      | none => 0
      | some subscript => getSigOpCount subscript true
    else 0).sum

def checkTxInputsLoop : ℤ → List (CTxIn × CCoins × CTxOut) → Except Reject ℤ
  | nValueIn, [] => .ok nValueIn
  | nValueIn, (txin, coins, prevout) :: rest =>
    if coins.fCoinBase ∧ env.nSpendHeight - coins.nHeight < COINBASE_MATURITY then
      dos 0 "bad-txns-premature-spend-of-coinbase" false
    else
      let nValueIn := nValueIn + prevout.nValue
      if !moneyRange prevout.nValue || !moneyRange nValueIn then
        dos 100 "bad-txns-inputvalues-outofrange" false
      else if env.nStoneHeight ≤ env.nSpendHeight ∧ env.isInputBanned txin prevout then
        dos 100 "bad-txns-in-banned" false
      else checkTxInputsLoop nValueIn rest

def checkTxInputs (tx : CTransaction) (coins : List CCoins) (prevouts : List CTxOut)
    (nValueOut : ℤ) : Except Reject Unit :=
  match checkTxInputsLoop env 0 (tx.vin.zip (coins.zip prevouts)) with
  | .error e => .error e
  | .ok nValueIn =>
    if nValueIn < nValueOut then dos 100 "bad-txns-in-belowout" false
    else if nValueIn - nValueOut < 0 then dos 100 "bad-txns-fee-negative" false
    else if !moneyRange (nValueIn - nValueOut) then dos 100 "bad-txns-fee-outofrange" false
    else .ok ()

def checkInputs (tx : CTransaction) (coins : List CCoins) (prevouts : List CTxOut)
    (nValueOut : ℤ) : Except Reject Unit :=
  match checkTxInputs env tx coins prevouts nValueOut with
  | .error e => .error e
  | .ok () => env.checkScripts tx prevouts

/-! ### Index entries -/

section

variable (nHeight : ℤ)

/-- The entries for input `j`, which spends `prevout`: its spending activity, the removal
of the unspent entry, and the spent entry. -/
def inputConnected (i : ℕ) (txhash : UInt256) (j : ℕ) (input : CTxIn) (prevout : CTxOut) :
    IndexBatch where
  addressIndex :=
    match scriptAddress prevout.scriptPubKey with
    | some (type, hashBytes) =>
      if cfg.fAddressIndex then
        [(⟨type, hashBytes, nHeight, i, txhash, j, true⟩, prevout.nValue * -1)]
      else []
    | none => []
  addressUnspentIndex :=
    match scriptAddress prevout.scriptPubKey with
    | some (type, hashBytes) =>
      if cfg.fAddressIndex then
        [(⟨type, hashBytes, input.prevout.hash, input.prevout.n⟩, .null)]
      else []
    | none => []
  spentIndex :=
    if cfg.fSpentIndex then
      let (addressType, hashBytes) := (scriptAddress prevout.scriptPubKey).getD (0, .null)
      [(⟨input.prevout.hash, input.prevout.n⟩,
        ⟨txhash, j, nHeight, prevout.nValue, addressType, hashBytes⟩)]
    else []

def inputsConnected (i : ℕ) (txhash : UInt256) : ℕ → List CTxIn → List CTxOut → IndexBatch
  | j, input :: vin, prevout :: prevouts =>
    inputConnected cfg nHeight i txhash j input prevout
      ++ inputsConnected i txhash (j + 1) vin prevouts
  | _, _, _ => .empty

/-- The entries for output `k`: its receiving activity and its unspent entry. -/
def outputConnected (i : ℕ) (txhash : UInt256) (k : ℕ) (out : CTxOut) : IndexBatch :=
  match scriptAddress out.scriptPubKey with
  | none => .empty
  | some (type, hashBytes) =>
    { addressIndex := [(⟨type, hashBytes, nHeight, i, txhash, k, false⟩, out.nValue)]
      addressUnspentIndex :=
        [(⟨type, hashBytes, txhash, k⟩, ⟨out.nValue, out.scriptPubKey, nHeight⟩)]
      spentIndex := [] }

def outputsConnected (i : ℕ) (txhash : UInt256) : ℕ → List CTxOut → IndexBatch
  | _, [] => .empty
  | k, out :: vout =>
    outputConnected nHeight i txhash k out ++ outputsConnected i txhash (k + 1) vout

end

/-! ### `ConnectBlock` -/

/-- What `ConnectBlock` keeps while it goes through the transactions. -/
structure ConnectState where
  view : CCoinsViewCache
  nSigOps : ℕ
  nFees : ℤ
  batch : IndexBatch

def nBIP16SwitchTime : ℕ := 1333238400

/-- The signature operations added under `fStrictPayToScriptHash`. -/
def strictP2SHSigOps (pindex : ConnectPos) (vin : List CTxIn) (prevouts : List CTxOut) : ℕ :=
  if nBIP16SwitchTime ≤ pindex.nTime then getP2SHSigOpCount vin prevouts else 0

/-- The checks and index entries for the inputs of a transaction other than a coinbase. -/
def connectInputs (pindex : ConnectPos) (i : ℕ) (tx : CTransaction) (st : ConnectState) :
    Except ConnectFailure ConnectState :=
  let (fHave, view) := haveInputs tx.vin st.view
  if !fHave then reject 100 "bad-txns-inputs-missingorspent"
  else
    match inputCoins view tx.vin with
    | none => .error (.stopped "null pointer")
    | some coins =>
      if !env.sequenceLocks tx (coins.map CCoins.nHeight) then reject 100 "bad-txns-nonfinal"
      else
        match getOutputsFor view tx.vin with
        | none => .error (.stopped "assertion failed")
        | some prevouts =>
          let nSigOps := st.nSigOps + strictP2SHSigOps pindex tx.vin prevouts
          if MAX_BLOCK_SIGOPS < nSigOps then reject 100 "bad-blk-sigops"
          else
            match tx.getValueOut with
            | none => .error (.stopped "GetValueOut(): value out of range")
            | some nValueOut =>
              match checkInputs env tx coins prevouts nValueOut with
              | .error e => .error (.state e)
              | .ok () =>
                .ok ⟨view, nSigOps, st.nFees + ((prevouts.map CTxOut.nValue).sum - nValueOut),
                  st.batch ++ inputsConnected cfg pindex.nHeight i tx.hash 0 tx.vin prevouts⟩

def connectTx (pindex : ConnectPos) (i : ℕ) (tx : CTransaction) (st : ConnectState) :
    Except ConnectFailure (CTxUndo × ConnectState) :=
  let nSigOps := st.nSigOps + getLegacySigOpCount tx
  if MAX_BLOCK_SIGOPS < nSigOps then reject 100 "bad-blk-sigops"
  else
    let st := { st with nSigOps := nSigOps }
    match if tx.isCoinBase then .ok st else connectInputs env cfg pindex i tx st with
    | .error e => .error e
    | .ok st =>
      match updateCoins tx st.view pindex.nHeight with
      | none => .error (.stopped "assertion failed")
      | some (txundo, view) =>
        .ok (txundo,
          { st with
            view := view
            batch :=
              if cfg.fAddressIndex then
                st.batch ++ outputsConnected pindex.nHeight i tx.hash 0 tx.vout
              else st.batch })

/-- The transaction loop, with the undo records of all transactions. -/
def connectTxs (pindex : ConnectPos) :
    ℕ → List CTransaction → ConnectState → Except ConnectFailure (CBlockUndo × ConnectState)
  | _, [], st => .ok ([], st)
  | i, tx :: txs, st =>
    match connectTx env cfg pindex i tx st with
    | .error e => .error e
    | .ok (txundo, st) =>
      match connectTxs pindex (i + 1) txs st with
      | .error e => .error e
      | .ok (vtxundo, st) => .ok (txundo :: vtxundo, st)

/-- What `ConnectBlock` leaves. -/
structure Connected where
  view : CCoinsViewCache
  /-- The undo record on disk; none is written for the genesis block. -/
  blockUndo : Option CBlockUndo
  db : CBlockTreeDB

def writeIndexes (db : CBlockTreeDB) (batch : IndexBatch) : CBlockTreeDB :=
  let db :=
    if cfg.fAddressIndex then
      (db.writeAddressIndex batch.addressIndex).updateAddressUnspentIndex
        batch.addressUnspentIndex
    else db
  if cfg.fSpentIndex then db.updateSpentIndex batch.spentIndex else db

def connectBlockTxs (block : CBlock) (pindex : ConnectPos) (view : CCoinsViewCache)
    (db : CBlockTreeDB) : Except ConnectFailure Connected :=
  match connectTxs env cfg pindex 0 block.vtx ⟨view, 0, 0, .empty⟩ with
  | .error e => .error e
  | .ok (vtxundo, st) =>
    let blockReward := st.nFees
      + getBlockSubsidy env.nSubsidyHalvingInterval pindex.nPrevBits pindex.nPrevHeight
    if !env.isBlockValueValid block pindex.nHeight blockReward then reject 0 "bad-cb-amount"
    else
      match block.vtx with
      | [] => .error (.stopped "index out of range")
      | tx :: _ =>
        if !env.isBlockPayeeValid tx pindex.nHeight blockReward then reject 0 "bad-cb-payee"
        else if !env.controlWait block then .error (.state ⟨100, 0, "", false⟩)
        else
          -- the record of the first transaction went to `undoDummy`
          .ok ⟨st.view.setBestBlock pindex.hash, some vtxundo.tail,
            writeIndexes cfg db st.batch⟩

def connectBlock (block : CBlock) (pindex : ConnectPos) (view : CCoinsViewCache)
    (db : CBlockTreeDB) : Except ConnectFailure Connected :=
  match checkBlock env.toCheckBlockEnv block true true with
  | .error e => .error (.state e)
  | .ok block =>
    let (hashBest, view) := view.getBestBlock
    if pindex.hashPrev ≠ hashBest then .error (.stopped "assertion failed")
    else if env.isGenesisBlock block.toCBlockHeader then
      .ok ⟨view.setBestBlock pindex.hash, none, db⟩
    else if fEnforceBIP30 env pindex then
      let (new, view) := checkBIP30 block.vtx view
      if !new then reject 100 "bad-txns-BIP30"
      else connectBlockTxs env cfg block pindex view db
    else connectBlockTxs env cfg block pindex view db

/-! ### Lookups -/

theorem Keeps.trans {v v' v'' : CCoinsView} (h : Keeps v v') (h' : Keeps v' v'') : Keeps v v'' :=
  ⟨h'.coherent, h'.maps_eq.trans h.maps_eq⟩

theorem Keeps.below_eq {v v' : CCoinsViewCache} (h : Keeps v.toView v'.toView) :
    v'.base.maps = v.base.maps :=
  congrArg List.tail h.maps_eq

theorem haveInputs_keeps : ∀ (vin : List CTxIn) (v : CCoinsViewCache), v.toView.Coherent →
    Keeps v.toView (haveInputs vin v).2.toView := by
  intro vin
  induction vin with
  | nil => exact fun v hv => ⟨hv, rfl⟩
  | cons txin vin ih =>
    intro v hv
    have hk := (accessCoins_spec v txin.prevout.hash hv).2
    simp only [haveInputs]
    rcases e : v.accessCoins txin.prevout.hash with ⟨- | c, w⟩
    · simpa [e] using hk
    · rw [e] at hk
      dsimp only
      split
      · exact hk
      · exact hk.trans (ih w hk.coherent)

theorem checkBIP30_spec : ∀ (txs : List CTransaction) (v : CCoinsViewCache),
    v.toView.Coherent → Keeps v.toView (checkBIP30 txs v).2.toView ∧
      ((checkBIP30 txs v).1 = true → ∀ tx ∈ txs, v.toView.coinsAt tx.hash = .empty) := by
  intro txs
  induction txs with
  | nil => exact fun v hv => ⟨⟨hv, rfl⟩, by simp⟩
  | cons tx txs ih =>
    intro v hv
    obtain ⟨hans, hk⟩ := accessCoins_spec v tx.hash hv
    simp only [checkBIP30]
    rcases e : v.accessCoins tx.hash with ⟨ans, w⟩
    rw [e] at hans hk
    obtain ⟨hk', hrest⟩ := ih w hk.coherent
    rw [hk.shows_eq] at hrest
    have hcons : v.toView.coinsAt tx.hash = .empty → (checkBIP30 txs w).1 = true →
        ∀ t ∈ tx :: txs, v.toView.coinsAt t.hash = .empty := by
      intro h0 h t ht
      rcases List.mem_cons.mp ht with rfl | ht'
      · exact h0
      · exact hrest h t ht'
    cases ans with
    | none => exact ⟨hk.trans hk', hcons hans.symm⟩
    | some c =>
      dsimp only
      by_cases hp : c.1.isPruned = true
      · simp only [hp, Bool.not_true, Bool.false_eq_true, if_false]
        refine ⟨hk.trans hk', hcons ?_⟩
        rw [← hans]
        exact CCoins.norm_eq_empty_iff.mpr hp
      · simp only [hp, Bool.not_false, if_true]
        exact ⟨hk, by simp⟩

/-! ### The outputs spent -/

theorem Spends.recorded {M M' : UInt256 → CCoins} {vin : List CTxIn} {us : CTxUndo}
    (h : Spends M vin us M') :
    List.Forall₂ (fun i u => (M i.prevout.hash).outputAt i.prevout.n = some u.txout) vin us := by
  induction h with
  | nil M => exact .nil
  | @cons M M' i is o us ho _ ih =>
    refine .cons (by rw [ofSpend_txout, ho]) (ih.imp fun j u hj => ?_)
    have hone : Spends M [i] [.ofSpend (M i.prevout.hash) i.prevout.n o]
        (Function.update M i.prevout.hash ((M i.prevout.hash).spend i.prevout.n).norm) :=
      .cons ho (.nil _)
    exact hone.outputAt_of hj

theorem getOutputsFor_eq {v : CCoinsViewCache} (hv : v.toView.Coherent) {vin : List CTxIn}
    {us : CTxUndo}
    (h : List.Forall₂
      (fun i u => (v.toView.coinsAt i.prevout.hash).outputAt i.prevout.n = some u.txout) vin us) :
    getOutputsFor v vin = some (us.map CTxInUndo.txout) := by
  induction h with
  | nil => rfl
  | @cons i u vin us hi _ ih =>
    rw [← getOutputFor_eq hv] at hi
    simp [getOutputsFor, hi, ih]

/-! ### The transaction loop -/

section

variable (nHeight : ℤ)

def txConnected (i : ℕ) (tx : CTransaction) (us : CTxUndo) : IndexBatch :=
  inputsConnected cfg nHeight i tx.hash 0 tx.vin (us.map CTxInUndo.txout)
    ++ if cfg.fAddressIndex then outputsConnected nHeight i tx.hash 0 tx.vout else .empty

/-- The entries of the transactions, in their order. -/
def txsConnected : ℕ → List CTransaction → CBlockUndo → IndexBatch
  | i, tx :: txs, us :: uss => txConnected cfg nHeight i tx us ++ txsConnected (i + 1) txs uss
  | _, _, _ => .empty

end

theorem connectInputs_spec {pindex : ConnectPos} {i : ℕ} {tx : CTransaction}
    (st : ConnectState) {st' : ConnectState} (hv : st.view.toView.Coherent)
    (h : connectInputs env cfg pindex i tx st = .ok st') :
    Keeps st.view.toView st'.view.toView ∧
      ∃ prevouts, getOutputsFor st'.view tx.vin = some prevouts ∧
        st'.batch
          = st.batch ++ inputsConnected cfg pindex.nHeight i tx.hash 0 tx.vin prevouts := by
  have hk := haveInputs_keeps tx.vin st.view hv
  simp only [connectInputs] at h
  split at h
  · cases h
  split at h
  · cases h
  split at h
  · cases h
  split at h
  · cases h
  next prevouts hprev =>
    split at h
    · cases h
    split at h
    · cases h
    split at h
    · cases h
    · obtain rfl := Except.ok.inj h
      exact ⟨hk, prevouts, hprev, rfl⟩

theorem connectTx_spec {pindex : ConnectPos} {i : ℕ} {tx : CTransaction} {us : CTxUndo}
    {st st' : ConnectState} (hv : st.view.toView.Coherent)
    (hnew : st.view.base.coinsAt tx.hash = .empty)
    (h : connectTx env cfg pindex i tx st = .ok (us, st')) :
    st'.view.toView.Coherent ∧ st'.view.base.maps = st.view.base.maps ∧
      Applies pindex.nHeight st.view.toView.coinsAt tx us st'.view.toView.coinsAt ∧
      st'.batch = st.batch ++ txConnected cfg pindex.nHeight i tx us := by
  simp only [connectTx] at h
  split at h
  · cases h
  split at h
  · cases h
  next st₁ hst₁ =>
    split at h
    · cases h
    next u view hupd =>
      simp only [Except.ok.injEq, Prod.mk.injEq] at h
      obtain ⟨rfl, rfl⟩ := h
      -- the part before `UpdateCoins` changes no coins
      have hpre : Keeps st.view.toView st₁.view.toView := by
        split at hst₁
        · obtain rfl := Except.ok.inj hst₁
          exact ⟨hv, rfl⟩
        · exact (connectInputs_spec env cfg _ (by exact hv) hst₁).1
      have hnew₁ : st₁.view.base.coinsAt tx.hash = .empty := by
        have hb := hpre.below_eq
        rw [maps_eq_cons st₁.view.base, maps_eq_cons st.view.base] at hb
        rw [(List.cons.inj hb).1, hnew]
      obtain ⟨hco, hbelow, hap⟩ := updateCoins_applies hpre.coherent hnew₁ hupd
      have hbatch : st₁.batch
          = st.batch ++ inputsConnected cfg pindex.nHeight i tx.hash 0 tx.vin
              (u.map CTxInUndo.txout) := by
        obtain ⟨M₁, -, hcase⟩ := hap.elim
        rcases hcase with ⟨hcb, rfl, -⟩ | ⟨hcb, hsp⟩
        · rw [if_pos hcb] at hst₁
          obtain rfl := Except.ok.inj hst₁
          cases tx.vin <;> exact (IndexBatch.append_empty _).symm
        · rw [if_neg (by simp [hcb])] at hst₁
          obtain ⟨-, prevouts, hprev, hb⟩ :=
            connectInputs_spec env cfg _ (by exact hv) hst₁
          rw [getOutputsFor_eq hpre.coherent hsp.recorded] at hprev
          obtain rfl := Option.some.inj hprev
          exact hb
      rw [hpre.shows_eq] at hap
      refine ⟨hco, hbelow.trans hpre.below_eq, hap, ?_⟩
      show (if cfg.fAddressIndex then st₁.batch ++ _ else st₁.batch) = _
      rw [hbatch, txConnected]
      split
      · exact IndexBatch.append_assoc _ _ _
      · rw [IndexBatch.append_empty]

theorem connectTxs_spec {pindex : ConnectPos} : ∀ (txs : List CTransaction) {i : ℕ}
    {uss : CBlockUndo} {st st' : ConnectState}, st.view.toView.Coherent →
      (∀ tx ∈ txs, st.view.base.coinsAt tx.hash = .empty) →
      connectTxs env cfg pindex i txs st = .ok (uss, st') →
      AppliesAll pindex.nHeight st.view.toView.coinsAt txs uss st'.view.toView.coinsAt ∧
        st'.batch = st.batch ++ txsConnected cfg pindex.nHeight i txs uss := by
  intro txs
  induction txs with
  | nil =>
    intro i uss st st' _ _ h
    simp only [connectTxs, Except.ok.injEq, Prod.mk.injEq] at h
    obtain ⟨rfl, rfl⟩ := h
    exact ⟨.nil _, (IndexBatch.append_empty _).symm⟩
  | cons tx txs ih =>
    intro i uss st st' hv hnew h
    simp only [connectTxs] at h
    split at h
    · cases h
    next us st₁ h₁ =>
      obtain ⟨hv₁, hbelow, hap, hb₁⟩ := connectTx_spec env cfg hv (hnew tx (by simp)) h₁
      split at h
      · cases h
      next uss₁ st₂ h₂ =>
        simp only [Except.ok.injEq, Prod.mk.injEq] at h
        obtain ⟨rfl, rfl⟩ := h
        have hbase : st₁.view.base.coinsAt = st.view.base.coinsAt := by
          rw [maps_eq_cons st₁.view.base, maps_eq_cons st.view.base] at hbelow
          exact (List.cons.inj hbelow).1
        obtain ⟨hall, hb₂⟩ := ih hv₁ (fun t ht => by rw [hbase]; exact hnew t (by simp [ht])) h₂
        refine ⟨.cons hap hall, ?_⟩
        rw [hb₂, hb₁, txsConnected, IndexBatch.append_assoc]

/-! ### The block -/

theorem checkBlock_eq {env : CheckBlockEnv} {block b : CBlock} {fPOW fMerkle : Bool}
    (h : checkBlock env block fPOW fMerkle = .ok b) :
    b.vtx = block.vtx ∧ b.toCBlockHeader = block.toCBlockHeader := by
  unfold checkBlock at h
  split at h
  · obtain rfl := Except.ok.inj h
    exact ⟨rfl, rfl⟩
  split at h
  · cases h
  split at h
  · obtain rfl := Except.ok.inj h
    exact ⟨rfl, rfl⟩
  · unfold checkBlockTxs at h
    split at h
    · cases h
    split at h
    · cases h
    split at h
    · cases h
    · obtain rfl := Except.ok.inj h
      exact ⟨rfl, rfl⟩

theorem connectBlockTxs_spec {block : CBlock} {pindex : ConnectPos} {v : CCoinsViewCache}
    {db : CBlockTreeDB} {c : Connected} (hv : v.toView.Coherent)
    (hnew : ∀ tx ∈ block.vtx, v.base.coinsAt tx.hash = .empty)
    (h : connectBlockTxs env cfg block pindex v db = .ok c) :
    ∃ uss M', AppliesAll pindex.nHeight v.toView.coinsAt block.vtx uss M' ∧
      c.blockUndo = some uss.tail ∧
      c.db = writeIndexes cfg db (txsConnected cfg pindex.nHeight 0 block.vtx uss) := by
  unfold connectBlockTxs at h
  split at h
  · cases h
  next uss st hst =>
    dsimp only at h
    split at h
    · cases h
    split at h
    · cases h
    split at h
    · cases h
    split at h
    · cases h
    · obtain rfl := Except.ok.inj h
      obtain ⟨hall, hb⟩ := connectTxs_spec env cfg block.vtx hv hnew hst
      exact ⟨uss, _, hall, rfl, congrArg (writeIndexes cfg db) hb⟩

theorem connectBlock_spec {V : CCoinsView} {block : CBlock} {pindex : ConnectPos}
    {db : CBlockTreeDB} {c : Connected} (hV : V.Coherent)
    (hnew : fEnforceBIP30 env pindex = false → ∀ tx ∈ block.vtx, V.coinsAt tx.hash = .empty)
    (h : connectBlock env cfg block pindex (.new V) db = .ok c) :
    env.isGenesisBlock block.toCBlockHeader = true ∧ c.blockUndo = none ∧ c.db = db ∨
    env.isGenesisBlock block.toCBlockHeader = false ∧
      (∀ tx ∈ block.vtx, V.coinsAt tx.hash = .empty) ∧
      ∃ uss M', AppliesAll pindex.nHeight V.coinsAt block.vtx uss M' ∧
        c.blockUndo = some uss.tail ∧
        c.db = writeIndexes cfg db (txsConnected cfg pindex.nHeight 0 block.vtx uss) := by
  unfold connectBlock at h
  split at h
  · cases h
  next b hb =>
    obtain ⟨hvtx, hheader⟩ := checkBlock_eq hb
    have hk := getBestBlock_spec (.new V) (new_coherent hV)
    -- what the new cache shows, whatever was fetched into it
    have hshow : ∀ w : CCoinsViewCache, Keeps (CCoinsViewCache.new V).toView w.toView →
        w.toView.coinsAt = V.coinsAt ∧ w.base.coinsAt = V.coinsAt := by
      intro w hw
      have hbelow := hw.below_eq
      rw [maps_eq_cons w.base, maps_eq_cons (CCoinsViewCache.new V).base] at hbelow
      exact ⟨hw.shows_eq.trans (funext fun t => new_coinsAt V t), (List.cons.inj hbelow).1⟩
    have hdone : ∀ w : CCoinsViewCache, Keeps (CCoinsViewCache.new V).toView w.toView →
        (∀ tx ∈ block.vtx, V.coinsAt tx.hash = .empty) →
        connectBlockTxs env cfg b pindex w db = .ok c →
        ∃ uss M', AppliesAll pindex.nHeight V.coinsAt block.vtx uss M' ∧
          c.blockUndo = some uss.tail ∧
          c.db = writeIndexes cfg db (txsConnected cfg pindex.nHeight 0 block.vtx uss) := by
      intro w hw hids hc
      obtain ⟨h₁, h₂⟩ := hshow w hw
      obtain ⟨uss, M', hall, hu, hdb⟩ := connectBlockTxs_spec env cfg hw.coherent
        (fun tx htx => by rw [h₂]; exact hids tx (hvtx ▸ htx)) hc
      rw [h₁, hvtx] at hall
      rw [hvtx] at hdb
      exact ⟨uss, M', hall, hu, hdb⟩
    dsimp only at h
    split at h
    · cases h
    rw [hheader] at h
    split at h
    next hg =>
      obtain rfl := Except.ok.inj h
      exact .inl ⟨hg, rfl, rfl⟩
    next hg =>
      have hg' : env.isGenesisBlock block.toCBlockHeader = false := by simpa using hg
      split at h
      next hbip =>
        obtain ⟨hk', hids⟩ := checkBIP30_spec b.vtx _ hk.coherent
        split at h
        · cases h
        next hres =>
          have hids' : ∀ tx ∈ block.vtx, V.coinsAt tx.hash = .empty := by
            intro tx htx
            rw [← (hshow _ hk).1]
            exact hids (by simpa using hres) tx (hvtx ▸ htx)
          exact .inr ⟨hg', hids', hdone _ (hk.trans hk') hids' h⟩
      next hbip =>
        have hids := hnew (by simpa using hbip)
        exact .inr ⟨hg', hids, hdone _ hk hids h⟩

end Stonecoin
