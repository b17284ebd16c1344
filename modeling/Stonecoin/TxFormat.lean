/-
Transactions in a stream (`SerializationOp` in `primitives/transaction.h`).
-/
import Stonecoin.Streams
import Stonecoin.Darksend

namespace Stonecoin

open Readers

/-! ### Inputs -/

def writeBytes (v : List UInt8) : List UInt8 := writeVector (fun b => [b]) v

def readBytes : Reader UInt8 (List UInt8) := readVector next

def COutPoint.write (o : COutPoint) : List UInt8 := writeHash o.hash ++ writeLE 4 o.n

def COutPoint.read : Reader UInt8 COutPoint := do
  let hash ← readHash
  let n ← readNum 4
  pure ⟨hash, n⟩

namespace CTxIn

def write (vin : CTxIn) : List UInt8 :=
  vin.prevout.write ++ (writeBytes vin.scriptSig ++ writeLE 4 vin.nSequence)

def read : Reader UInt8 CTxIn := do
  let prevout ← COutPoint.read
  let scriptSig ← readBytes
  let nSequence ← readNum 4
  pure ⟨prevout, scriptSig, nSequence⟩

structure Typed (vin : CTxIn) : Prop where
  n : vin.prevout.n < 256 ^ 4
  scriptSig : vin.scriptSig.length < 256 ^ 8
  nSequence : vin.nSequence < 256 ^ 4

def Fits (vin : CTxIn) : Prop := vin.scriptSig.length ≤ MAX_SIZE

theorem readsIf {vin : CTxIn} (h : vin.Typed) : ReadsIf vin.Fits read vin.write vin :=
  .after ((reads_hash _).bind ((reads_num h.n).bind_pure _))
    ((readsIf_bytes h.scriptSig).before ((reads_num h.nSequence).bind_pure _))

end CTxIn

/-! ### Outputs and transactions -/

/-- The rounds of an output are not serialized. -/
def CTxOut.write (vout : CTxOut) : List UInt8 := writeInt 8 vout.nValue ++ writeBytes vout.scriptPubKey

def CMutableTransaction.write (tx : CMutableTransaction) : List UInt8 :=
  writeInt 4 tx.nVersion ++ (writeVector CTxIn.write tx.vin ++
    (writeVector CTxOut.write tx.vout ++ writeLE 4 tx.nLockTime))

end Stonecoin
