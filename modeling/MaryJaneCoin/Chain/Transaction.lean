import MaryJaneCoin.Chain.Script
import MaryJaneCoin.Mw.Validation

/-!
# Transparent transactions of `main.h` and `main.cpp`

`CTransaction` with its serialization, its hash and the checks that need no
context.  As for the Mimblewimble data, a digest inside a preimage is one atom;
its 32 bytes count for the sizes.
-/

namespace MaryJaneCoin

open Codec

def MAX_BLOCK_SIZE : Nat := 1000000
def MAX_BLOCK_SIZE_GEN : Nat := MAX_BLOCK_SIZE / 2
def MAX_BLOCK_SIGOPS : Nat := MAX_BLOCK_SIZE / 50
def CENT : Int64 := 1000000
def MIN_TX_FEE : Int64 := 42000000
def MIN_RELAY_TX_FEE : Int64 := MIN_TX_FEE
def MARYJ_DECOY_FEE : Int64 := 42000000
def MARYJ_STANDARD_FEE : Int64 := 420000000
def MARYJ_POOL_FEE : Int64 := 4200000000
def FEE_TIER_ACTIVATION_HEIGHT : Nat := 60000
def L5_GRAPH_NORM_ACTIVATION_HEIGHT : Nat := 60000
def CANONICAL_OPRETURN_LEN : Nat := 35
def LOCKTIME_THRESHOLD : Nat := 500000000
def CT_TX_VERSION : Int32 := 2

structure COutPoint (H : Type) where
  hash : H
  n : UInt32
deriving DecidableEq

structure CTxIn (H : Type) where
  prevout : COutPoint H
  scriptSig : CScript
  nSequence : UInt32
deriving DecidableEq

structure CTxOut where
  nValue : Int64
  scriptPubKey : CScript
deriving DecidableEq

structure CMWTransaction where
  body : CMWTransactionBody
  offset : BlindingFactor
deriving DecidableEq

structure CTransaction (H : Type) where
  nVersion : Int32
  nTime : UInt32
  vin : List (CTxIn H)
  vout : List CTxOut
  nLockTime : UInt32
  mwTx : CMWTransaction
deriving DecidableEq

/-- The bytes a preimage takes in a file. -/
def Preimage.size {H : Type} (data : Preimage H) : Nat :=
  (data.map fun
    | .byte _ => 1
    | .digest _ => 32).sum

/-- `CMWInput`. -/
def putCMWInput (input : CMWInput) : Bytes :=
  input.commitment.toList ++ input.outputPubKey.toList ++ input.signature.toList

/-- `CMWKernel`: some fields are written for some features only. -/
def putCMWKernel (kernel : CMWKernel) : Bytes :=
  putByte kernel.nFeatures ++ putInt64 kernel.nFee ++
    (if kernel.isPegIn || kernel.isPegOut then putInt64 kernel.nPegAmount else []) ++
    (if kernel.isHeightLocked then putInt32 kernel.nLockHeight else []) ++
    kernel.excess.toList ++ kernel.signature.toList ++
    (if kernel.isPegOut then putVec putByte kernel.pegoutScript else [])

/-- `CMWTransactionBody`. -/
def putCMWTransactionBody (body : CMWTransactionBody) : Bytes :=
  putVec putCMWInput body.vInputs ++ putVec putCMWOutput body.vOutputs ++
    putVec putCMWKernel body.vKernels

/-- `CMWTransaction`. -/
def putCMWTransaction (mwTx : CMWTransaction) : Bytes :=
  putCMWTransactionBody mwTx.body ++ mwTx.offset.toList

def CMWTransaction.isNull (mwTx : CMWTransaction) : Bool := mwTx.body.isNull

def CTxOut.isEmpty (txout : CTxOut) : Bool := txout.nValue == 0 && txout.scriptPubKey.isEmpty

def CTxOut.serialize {H : Type} (txout : CTxOut) : Preimage H :=
  feed (putInt64 txout.nValue ++ putVec putByte txout.scriptPubKey)

section

variable {H : Type}

def COutPoint.isNull [DecidableEq H] (sha : Sha256 H) (prevout : COutPoint H) : Bool :=
  prevout.hash == sha.zero && prevout.n == 0xffffffff

def CTxIn.serialize (txin : CTxIn H) : Preimage H :=
  .digest txin.prevout.hash :: (feedLE 4 txin.prevout.n.toNat ++
    (feed (putVec putByte txin.scriptSig) ++ feedLE 4 txin.nSequence.toNat))

def CTxIn.isFinal (txin : CTxIn H) : Bool := txin.nSequence == 0xffffffff

namespace CTransaction

/-- Serialization of `CTransaction`: the Mimblewimble part is written from
version `CT_TX_VERSION` on. -/
def serialize (tx : CTransaction H) : Preimage H :=
  feed (putInt32 tx.nVersion) ++ (feedLE 4 tx.nTime.toNat ++
    (feed (putCompactSize tx.vin.length) ++ (tx.vin.flatMap CTxIn.serialize ++
    (feed (putCompactSize tx.vout.length) ++ (tx.vout.flatMap CTxOut.serialize ++
    (feedLE 4 tx.nLockTime.toNat ++
    (if tx.nVersion ≥ CT_TX_VERSION then feed (putCMWTransaction tx.mwTx) else [])))))))

/-- `GetSerializeSize`. -/
def serializeSize (tx : CTransaction H) : Nat := Preimage.size tx.serialize

def hasMWEB (tx : CTransaction H) : Bool := tx.nVersion ≥ CT_TX_VERSION && !tx.mwTx.isNull

def getLegacySigOpCount (tx : CTransaction H) : Nat :=
  (tx.vin.map fun txin => CScript.getSigOpCount txin.scriptSig false).sum +
    (tx.vout.map fun txout => CScript.getSigOpCount txout.scriptPubKey false).sum

/-- `CTransaction::GetValueOut`; `none` is the exception. -/
def getValueOut (tx : CTransaction H) : Option Int64 :=
  tx.vout.foldlM (fun nValueOut txout =>
    if !moneyRange txout.nValue || !moneyRange (nValueOut + txout.nValue) then none
    else some (nValueOut + txout.nValue)) 0

/-- `CTransaction::IsFinal` for a given height and time. -/
def isFinal (tx : CTransaction H) (nBlockHeight : Nat) (nBlockTime : UInt32) : Bool :=
  tx.nLockTime == 0 ||
    (tx.nLockTime.toNat <
      if tx.nLockTime.toNat < LOCKTIME_THRESHOLD then nBlockHeight else nBlockTime.toNat) ||
    tx.vin.all CTxIn.isFinal

/-- A marker output: no value, and a script with this start and length. -/
def hasMarker (tx : CTransaction H) (length : Nat) (start : Bytes) : Bool :=
  tx.vout.any fun txout => txout.nValue == 0 && txout.scriptPubKey.length == length &&
    txout.scriptPubKey.take start.length == start

def hasStealthMarker (tx : CTransaction H) : Bool := tx.hasMarker 35 [0x6a, 0x21]

def hasPegoutMarker (tx : CTransaction H) : Bool :=
  tx.hasMarker 8 ([0x6a, 0x06] ++ "PEGOUT".toUTF8.toList)

def hasBridgeMarker (tx : CTransaction H) : Bool :=
  tx.hasMarker 8 ([0x6a, 0x06] ++ "BRIDGE".toUTF8.toList)

/-- `GetMinFee_mode`. -/
inductive MinFeeMode where
  | GMF_BLOCK
  | GMF_RELAY
  | GMF_SEND
deriving DecidableEq

def getMinFee (tx : CTransaction H) (nBlockSize : Nat) (mode : MinFeeMode) (nBytes : Nat) : Int64 :=
  let nBaseFee := if mode = .GMF_RELAY then MIN_RELAY_TX_FEE else MIN_TX_FEE
  let nNewBlockSize := nBlockSize + nBytes
  let nSizeFee := (1 + Int64.ofNat nBytes / 1000) * nBaseFee
  let nDustFee :=
    if nSizeFee < nBaseFee && tx.vout.any (·.nValue < CENT) then nBaseFee else nSizeFee
  let crowded := nBlockSize != 1 && nNewBlockSize ≥ MAX_BLOCK_SIZE_GEN / 2
  if crowded && nNewBlockSize ≥ MAX_BLOCK_SIZE_GEN then MAX_MONEY
  else
    let nMinFee :=
      if crowded then
        nDustFee * Int64.ofNat (MAX_BLOCK_SIZE_GEN / (MAX_BLOCK_SIZE_GEN - nNewBlockSize))
      else nDustFee
    if !moneyRange nMinFee then MAX_MONEY else nMinFee

section

variable (sha : Sha256 H)

def getHash (tx : CTransaction H) : H := sha.sha256d tx.serialize

variable [DecidableEq H]

def isCoinBase (tx : CTransaction H) : Bool :=
  match tx.vin with
  | [txin] => txin.prevout.isNull sha && tx.vout.length ≥ 1
  | _ => false

def isCoinStake (tx : CTransaction H) : Bool :=
  match tx.vin, tx.vout with
  | txin :: _, first :: _ :: _ => !txin.prevout.isNull sha && first.isEmpty
  | _, _ => false

def getTxTypeFeeFloor (tx : CTransaction H) (nHeight : Nat) : Int64 :=
  if nHeight < FEE_TIER_ACTIVATION_HEIGHT then 0
  else if tx.isCoinBase sha || tx.isCoinStake sha then 0
  else if tx.hasBridgeMarker then MARYJ_STANDARD_FEE
  else if tx.hasPegoutMarker || (tx.hasMWEB && tx.mwTx.body.getTotalPegIn > 0) then MARYJ_POOL_FEE
  else if tx.hasStealthMarker then MARYJ_STANDARD_FEE
  else MARYJ_DECOY_FEE

def checkCanonicalStructure (tx : CTransaction H) (nHeight : Nat) : Bool :=
  nHeight < L5_GRAPH_NORM_ACTIVATION_HEIGHT ||
    (tx.isCoinBase sha || tx.isCoinStake sha || tx.hasPegoutMarker) ||
    tx.vout.all fun txout =>
      txout.scriptPubKey.head? != some OP_RETURN ||
        txout.scriptPubKey.length == CANONICAL_OPRETURN_LEN

/-- The output loop of `CheckTransaction`. -/
def checkOutputs (tx : CTransaction H) : Option Int64 :=
  tx.vout.foldlM (fun nValueOut txout =>
    if txout.isEmpty && !tx.isCoinBase sha && !tx.isCoinStake sha then none
    else if txout.nValue < 0 then none
    else if txout.nValue > MAX_MONEY then none
    else if !moneyRange (nValueOut + txout.nValue) then none
    else some (nValueOut + txout.nValue)) 0

end

section

variable [DecidableEq H] (crypto : MWCrypto H)

/-- The Mimblewimble part of a transaction: proofs, signatures, balance, and a
marker output when coins are pegged in. -/
def checkMWEB (tx : CTransaction H) : Bool :=
  verifyRangeProofs crypto tx.mwTx.body && verifyKernelSignatures crypto tx.mwTx.body &&
    verifyCommitmentSum crypto tx.mwTx.body tx.mwTx.offset &&
    (tx.mwTx.body.getTotalPegIn ≤ 0 ||
      tx.vout.any fun txout => CScript.isPegInMarker txout.scriptPubKey)

def checkTransaction (tx : CTransaction H) : Bool :=
  !tx.vin.isEmpty && !tx.vout.isEmpty && tx.serializeSize ≤ MAX_BLOCK_SIZE &&
    (tx.checkOutputs crypto.toSha256).isSome &&
    (tx.vin.map CTxIn.prevout).Nodup &&
    (if tx.isCoinBase crypto.toSha256 then
        tx.vin.head?.any fun txin => 2 ≤ txin.scriptSig.length && txin.scriptSig.length ≤ 100
      else tx.vin.all fun txin => !txin.prevout.isNull crypto.toSha256) &&
    !(tx.nVersion ≥ CT_TX_VERSION && tx.mwTx.isNull) &&
    (!tx.hasMWEB ||
      (tx.checkMWEB crypto && tx.mwTx.body.vKernels.all fun kernel => 0 ≤ kernel.nFee))

end

/-- `IsPegInTransaction`: the amount of a peg-in; `none` stands for a
transaction that is none. -/
def pegInAmount (tx : CTransaction H) : Option Int64 :=
  (tx.vout.find? fun txout => CScript.isPegInMarker txout.scriptPubKey).bind fun txout =>
    tx.getValueOut.map fun nValueOut => nValueOut - txout.nValue

end CTransaction

end

/-- A transaction without a Mimblewimble part, hashed transparently. -/
def sampleTx (nTime : UInt32) (vin : List (CTxIn (List Nat))) (vout : List CTxOut) :
    CTransaction (List Nat) where
  nVersion := 1
  nTime := nTime
  vin := vin
  vout := vout
  nLockTime := 0
  mwTx := ⟨⟨[], [], []⟩, Vector.replicate 32 0⟩

/-- A coinbase for a height, which is its time as well. -/
def sampleCoinbase (nHeight : Nat) (vout : List CTxOut) : CTransaction (List Nat) :=
  sampleTx (UInt32.ofNat nHeight)
    [⟨⟨transparent.zero, 0xffffffff⟩, CScript.pushInt64 nHeight ++ [0], 0⟩] vout

/-- A transaction that spends one output. -/
def samplePayment (nTime : UInt32) (prevout : COutPoint (List Nat)) (vout : List CTxOut) :
    CTransaction (List Nat) :=
  sampleTx nTime [⟨prevout, [], 0⟩] vout

end MaryJaneCoin
