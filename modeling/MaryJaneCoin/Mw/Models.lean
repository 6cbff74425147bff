import MaryJaneCoin.Lib.Codec
import MaryJaneCoin.Lib.FinMap
import MaryJaneCoin.Mw.Mmr

/-!
# Mimblewimble data: inputs, outputs, kernels, bodies and blocks

The classes of `mw/mw_common.h` and `mw/models/`.  Fixed byte arrays are
vectors, so their length is part of the type; `int64_t`, `int32_t` and
`uint8_t` are the machine integers of the source.

Hashing is over a generic digest type `H`.  A preimage is a byte string in
which a digest that the source copies in as 32 bytes stays one atom, so that
an injective hash is possible.
-/

namespace MaryJaneCoin

open Codec

abbrev Commitment := Vector UInt8 33

/-- Commitments are compared with `memcmp`. -/
instance commitmentTransOrd : Std.TransOrd Commitment := Vector.instTransOrd

instance commitmentLawfulEqOrd : Std.LawfulEqOrd Commitment := Vector.instLawfulEqOrd

/-- A compressed public key. -/
abbrev PubKey := Vector UInt8 33

abbrev Signature := Vector UInt8 64

abbrev BlindingFactor := Vector UInt8 32

/-- `IsNull` of the fixed byte arrays: all bytes are zero. -/
def allZero {n : Nat} (data : Vector UInt8 n) : Bool :=
  data.toList.all (· == 0)

/-- What a hash function is fed: bytes and whole digests. -/
inductive Atom (H : Type) where
  | byte (b : UInt8)
  | digest (h : H)
deriving DecidableEq

/-- A hash preimage. -/
abbrev Preimage (H : Type) := List (Atom H)

def feed {H : Type} (bytes : Bytes) : Preimage H := bytes.map .byte

/-- A number written least significant byte first, as `SHA256_Update` and the
stream operators feed an integer on the supported machines. -/
def feedLE {H : Type} (width n : Nat) : Preimage H := feed (putLE width n)

/-- A number written most significant byte first. -/
def feedBE {H : Type} (width n : Nat) : Preimage H := feed (putLE width n).reverse

/-- SHA-256 and the zero digest. -/
structure Sha256 (H : Type) where
  sha256 : Preimage H → H
  zero : H

namespace Sha256

variable {H : Type} (sha : Sha256 H)

def sha256d (data : Preimage H) : H := sha.sha256 [.digest (sha.sha256 data)]

/-- The tagged hashes of `mw/state/mmr.h`. -/
def mmr : MMRHash H where
  hashLeaf leaf := sha.sha256d (feed "MARYJ_MMR_LEAF".toUTF8.toList ++ [.digest leaf])
  hashParent left right :=
    sha.sha256d (feed "MARYJ_MMR_NODE".toUTF8.toList ++ [.digest left, .digest right])
  zero := sha.zero

end Sha256

/-- The kernel features that have a meaning; other values of the byte are
possible. -/
def KERNEL_PLAIN : UInt8 := 0x00
def KERNEL_PEGIN : UInt8 := 0x01
def KERNEL_PEGOUT : UInt8 := 0x02
def KERNEL_HEIGHT_LOCKED : UInt8 := 0x03
def KERNEL_COINBASE : UInt8 := 0x04

/-- `COIN` and `MAX_MONEY` of `main.h`. -/
def COIN : Int64 := 100000000
def MAX_MONEY : Int64 := 1000 * 1000000 * COIN

def moneyRange (nValue : Int64) : Bool := 0 ≤ nValue && nValue ≤ MAX_MONEY

structure CMWInput where
  commitment : Commitment
  outputPubKey : PubKey
  signature : Signature
deriving DecidableEq

structure CMWOutput where
  commitment : Commitment
  senderPubKey : PubKey
  receiverPubKey : PubKey
  rangeProof : Bytes
  nFeatures : UInt8
deriving DecidableEq

structure CMWKernel where
  nFeatures : UInt8
  nFee : Int64
  nPegAmount : Int64
  nLockHeight : Int32
  excess : Commitment
  signature : Signature
  pegoutScript : Bytes
deriving DecidableEq

structure CMWTransactionBody where
  vInputs : List CMWInput
  vOutputs : List CMWOutput
  vKernels : List CMWKernel
deriving DecidableEq

structure CMWBlock (H : Type) where
  hashPrevMWBlock : H
  body : CMWTransactionBody
  vCutThrough : List Commitment
  nHeight : Int32
  offset : BlindingFactor
deriving DecidableEq

/-- `IsCanonicallyOrdered` for one component: no element is below the one
before it. -/
def noDescent {α : Type} (lt : α → α → Bool) : List α → Bool
  | a :: b :: rest => !lt b a && noDescent lt (b :: rest)
  | _ => true

section

variable {H : Type} (sha : Sha256 H)

namespace CMWOutput

def isNull (output : CMWOutput) : Bool := allZero output.commitment

def getOutputID (output : CMWOutput) : H :=
  sha.sha256d (feed (output.nFeatures :: output.commitment.toList))

end CMWOutput

namespace CMWKernel

def isPegIn (kernel : CMWKernel) : Bool := kernel.nFeatures == KERNEL_PEGIN
def isPegOut (kernel : CMWKernel) : Bool := kernel.nFeatures == KERNEL_PEGOUT
def isHeightLocked (kernel : CMWKernel) : Bool := kernel.nFeatures == KERNEL_HEIGHT_LOCKED
def isCoinbase (kernel : CMWKernel) : Bool := kernel.nFeatures == KERNEL_COINBASE

/-- `CMWKernel::GetSignatureMessage`, which is also `GetHash`. -/
def getSignatureMessage (kernel : CMWKernel) : H :=
  sha.sha256d (feed [kernel.nFeatures] ++ feedBE 8 kernel.nFee.toUInt64.toNat ++
    (if kernel.isPegIn || kernel.isPegOut then feedBE 8 kernel.nPegAmount.toUInt64.toNat else []) ++
    (if kernel.isHeightLocked then feedBE 4 kernel.nLockHeight.toUInt32.toNat else []) ++
    feed kernel.excess.toList ++ (if kernel.isPegOut then feed kernel.pegoutScript else []))

end CMWKernel

namespace CMWTransactionBody

def isNull (body : CMWTransactionBody) : Bool :=
  body.vInputs.isEmpty && body.vOutputs.isEmpty && body.vKernels.isEmpty

def isCanonicallyOrdered [Ord H] (body : CMWTransactionBody) : Bool :=
  noDescent (fun a b : CMWInput => compare a.commitment b.commitment == .lt) body.vInputs &&
  noDescent (fun a b : CMWOutput => compare a.commitment b.commitment == .lt) body.vOutputs &&
  noDescent (fun a b : CMWKernel =>
    compare (a.getSignatureMessage sha) (b.getSignatureMessage sha) == .lt) body.vKernels

def getTotalFee (body : CMWTransactionBody) : Int64 :=
  body.vKernels.foldl (fun nTotal kernel => nTotal + kernel.nFee) 0

def getTotalPegIn (body : CMWTransactionBody) : Int64 :=
  body.vKernels.foldl (fun nTotal kernel =>
    if kernel.isPegIn then nTotal + kernel.nPegAmount else nTotal) 0

def getTotalPegOut (body : CMWTransactionBody) : Int64 :=
  body.vKernels.foldl (fun nTotal kernel =>
    if kernel.isPegOut then nTotal + kernel.nPegAmount else nTotal) 0

/-- `CMWTransactionBody::GetHash`: the three counts and the kernel messages,
hashed three times. -/
def getHash (body : CMWTransactionBody) : H :=
  sha.sha256 [.digest (sha.sha256d (feedLE 4 body.vInputs.length ++
    feedLE 4 body.vOutputs.length ++ feedLE 4 body.vKernels.length ++
    body.vKernels.map fun kernel => .digest (kernel.getSignatureMessage sha)))]

end CMWTransactionBody

namespace CMWBlock

def isNull [DecidableEq H] (block : CMWBlock H) : Bool :=
  block.body.isNull && block.hashPrevMWBlock == sha.zero

/-- `CMWBlock::GetHash`: the cut-through list is hashed by its length only. -/
def getHash (block : CMWBlock H) : H :=
  sha.sha256d ([.digest block.hashPrevMWBlock, .digest (block.body.getHash sha)] ++
    feedLE 4 block.nHeight.toUInt32.toNat ++ feed block.offset.toList ++
    feedLE 4 block.vCutThrough.length)

end CMWBlock

end

/-- A hash that hides nothing: a digest is its preimage, written down
injectively.  Concrete runs are evaluated with it. -/
def transparent : Sha256 (List Nat) where
  sha256 data := 1 :: data.flatMap fun
    | .byte b => [0, b.toNat]
    | .digest h => 1 :: h.length :: h
  zero := []

/-- The commitment all of whose bytes are `tag`. -/
def sampleCommitment (tag : UInt8) : Commitment := Vector.replicate 33 tag

/-- An output with that commitment and a one-byte range proof. -/
def sampleOutput (tag : UInt8) : CMWOutput where
  commitment := sampleCommitment tag
  senderPubKey := Vector.replicate 33 2
  receiverPubKey := Vector.replicate 33 3
  rangeProof := [1]
  nFeatures := 0

/-- An input that spends it. -/
def sampleInput (tag : UInt8) : CMWInput where
  commitment := sampleCommitment tag
  outputPubKey := Vector.replicate 33 2
  signature := Vector.replicate 64 1

end MaryJaneCoin
