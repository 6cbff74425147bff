import MaryJaneCoin.Chain.Identity

/-!
# The encoding of transactions is canonical

`Unserialize` of the parts of a transaction, with vectors read in blocks, and
`GetSerializeSize`.  Every reader is exact: it accepts what the writer makes of
values within the limits of `serialize.h` and nothing else.  Sizes are counted
in an `unsigned int`, so they are right up to multiples of `2 ^ 32`.
-/

namespace MaryJaneCoin

open List hiding Vector
open Codec PrefixCode

theorem exact_sizeFrom (width least : Nat) :
    Exact (putLE width) (getSizeFrom width least) (fun n => n < 256 ^ width ∧ least ≤ n) := by
  intro bytes n rest
  unfold getSizeFrom
  rw [(exact_LE width).bind_eq_some]
  constructor
  · rintro ⟨n, rest, ⟨hlt, rfl⟩, heq⟩
    split at heq
    · cases heq
    · rename_i hle
      cases heq
      exact ⟨⟨hlt, Nat.not_lt.mp hle⟩, rfl⟩
  · rintro ⟨⟨hlt, hle⟩, rfl⟩
    exact ⟨n, rest, ⟨hlt, rfl⟩, if_neg (Nat.not_lt.mpr hle)⟩

/-- **A size has one encoding**: the shortest. -/
theorem exact_compactSize : Exact putCompactSize getCompactSize (· ≤ MAX_SIZE) := by
  intro bytes n rest
  constructor
  · intro hread
    cases bytes with
    | nil => cases hread
    | cons chSize bytes =>
      unfold getCompactSize at hread
      obtain ⟨⟨m, last⟩, hsize, hlimit⟩ := Option.bind_eq_some_iff.mp hread
      split at hlimit
      · cases hlimit
      rename_i hle
      cases hlimit
      refine ⟨Nat.not_lt.mp hle, ?_⟩
      have hbyte : ∀ {k : UInt8}, chSize.toNat = k.toNat → chSize = k := UInt8.toNat_inj.mp
      split at hsize
      · rename_i hsmall
        cases hsize
        rw [putCompactSize, if_pos hsmall, UInt8.ofNat_toNat]
        rfl
      · split at hsize
        · rename_i h253
          obtain ⟨⟨hlt, hleast⟩, rfl⟩ := (exact_sizeFrom 2 253 _ _ _).mp hsize
          rw [putCompactSize, if_neg (by omega), if_pos (by omega), hbyte (k := 253) h253]
          rfl
        · split at hsize
          · rename_i h254
            obtain ⟨⟨hlt, hleast⟩, rfl⟩ := (exact_sizeFrom 4 0x10000 _ _ _).mp hsize
            rw [putCompactSize, if_neg (by omega), if_neg (by omega), if_pos (by omega),
              hbyte (k := 254) h254]
            rfl
          · obtain ⟨⟨hlt, hleast⟩, rfl⟩ := (exact_sizeFrom 8 0x100000000 _ _ _).mp hsize
            have hmax := chSize.toNat_lt
            rw [putCompactSize, if_neg (by omega), if_neg (by omega), if_neg (by omega),
              hbyte (k := 255) (by show _ = 255; omega)]
            rfl
  · rintro ⟨hle, rfl⟩
    have hlt : n < 2 ^ 64 := Nat.lt_of_le_of_lt hle (by decide)
    rw [getCompactSize_put rest hlt, if_neg (Nat.not_lt.mpr hle)]

theorem exact_byte : Exact putByte getByte fun _ => True := by
  intro bytes b rest
  cases bytes with
  | nil => simp [getByte, putByte]
  | cons first bytes => simp [getByte, putByte]

theorem exact_int32 : Exact putInt32 getInt32 fun _ => True :=
  (exact_LE 4).equiv (fun n : Int32 => n.toUInt32.toNat) (fun n => (UInt32.ofNat n).toInt32)
    (fun n => by rw [UInt32.ofNat_toNat, Int32.toInt32_toUInt32])
    (fun n hlt => by rw [UInt32.toUInt32_toInt32, UInt32.toNat_ofNat_of_lt' hlt])
    fun n => n.toUInt32.toNat_lt

theorem exact_int64 : Exact putInt64 getInt64 fun _ => True :=
  (exact_LE 8).equiv (fun n : Int64 => n.toUInt64.toNat) (fun n => (UInt64.ofNat n).toInt64)
    (fun n => by rw [UInt64.ofNat_toNat, Int64.toInt64_toUInt64])
    (fun n hlt => by rw [UInt64.toUInt64_toInt64, UInt64.toNat_ofNat_of_lt' hlt])
    fun n => n.toUInt64.toNat_lt

/-- An `unsigned int`. -/
def putUInt32 (n : UInt32) : Bytes := putLE 4 n.toNat

def getUInt32 : Get UInt32 := fun bytes =>
  (getLE 4 bytes).map fun read => (UInt32.ofNat read.1, read.2)

theorem exact_uint32 : Exact putUInt32 getUInt32 fun _ => True :=
  (exact_LE 4).equiv UInt32.toNat UInt32.ofNat (fun _ => UInt32.ofNat_toNat)
    (fun _ hlt => UInt32.toNat_ofNat_of_lt' hlt) fun n => n.toNat_lt

theorem exact_hash : Exact putHash getHash fun _ => True :=
  (exact_LE 32).equiv BitVec.toNat (BitVec.ofNat 256)
    (fun h => by rw [BitVec.ofNat_toNat, BitVec.setWidth_eq])
    (fun _ hlt => (BitVec.toNat_ofNat _ _).trans (Nat.mod_eq_of_lt hlt)) fun h => h.isLt

section

variable {α : Type} {put : α → Bytes} {get : Get α} {valid : α → Prop}

/-- `Unserialize` of a `std::vector`, in blocks of `blk` elements. -/
def unserializeVec (blk : Nat) (get : Get α) : Get (List α) := fun bytes =>
  (getCompactSize bytes).bind fun nSize => getBlocks get blk nSize.1 nSize.1 nSize.2

/-- What limits a vector: its length, and its elements. -/
def ShortVec (valid : α → Prop) (v : List α) : Prop := v.length ≤ MAX_SIZE ∧ ∀ a ∈ v, valid a

theorem exact_vec (h : Exact put get valid) {blk : Nat} (hblk : 0 < blk) :
    Exact (putVec put) (unserializeVec blk get) (ShortVec valid) := by
  intro bytes v rest
  unfold unserializeVec
  rw [exact_compactSize.bind_eq_some]
  simp only [getBlocks_eq_getMany get hblk le_rfl, h.many]
  constructor
  · rintro ⟨n, behind, ⟨hle, rfl⟩, rfl, hvalid, rfl⟩
    exact ⟨⟨hle, hvalid⟩, by rw [putVec, append_assoc]⟩
  · rintro ⟨⟨hle, hvalid⟩, rfl⟩
    exact ⟨v.length, v.flatMap put ++ rest, ⟨hle, by rw [putVec, append_assoc]⟩, rfl, hvalid, rfl⟩

end

/-- The `sizeof` of the elements of the vectors on a platform, which set the
blocks that vectors are read in. -/
structure ElementSizes where
  txin : Nat
  txout : Nat
  mwInput : Nat
  mwOutput : Nat
  mwKernel : Nat
  fits : ∀ size ∈ [txin, txout, mwInput, mwOutput, mwKernel], 0 < size ∧ size ≤ 5000000

/-- The elements of a block, for fundamental types. -/
def rawBlock (size : Nat) : Nat := 1 + 4999999 / size

/-- The elements of a block, for other types. -/
def objectBlock (size : Nat) : Nat := 5000000 / size

theorem objectBlock_pos {size : Nat} (h : 0 < size ∧ size ≤ 5000000) : 0 < objectBlock size :=
  Nat.div_pos h.2 h.1

/-- `Unserialize` of a script. -/
def unserializeScript : Get Bytes := unserializeVec (rawBlock 1) getByte

/-- `CMWTransaction()`. -/
def CMWTransaction.null : CMWTransaction := ⟨⟨[], [], []⟩, Vector.replicate 32 0⟩

/-- A kernel within the limits, the fields of other features at their defaults. -/
structure CMWKernel.Encodable (kernel : CMWKernel) : Prop where
  pegAmount : ¬(kernel.isPegIn || kernel.isPegOut) → kernel.nPegAmount = 0
  lockHeight : ¬kernel.isHeightLocked → kernel.nLockHeight = 0
  pegoutScript : ¬kernel.isPegOut → kernel.pegoutScript = []
  short : kernel.pegoutScript.length ≤ MAX_SIZE

/-- A body within the limits. -/
structure CMWTransactionBody.Encodable (body : CMWTransactionBody) : Prop where
  inputs : body.vInputs.length ≤ MAX_SIZE
  outputs : ShortVec (fun output : CMWOutput => output.rangeProof.length ≤ MAX_SIZE) body.vOutputs
  kernels : ShortVec CMWKernel.Encodable body.vKernels

/-- A transaction within the limits; the Mimblewimble part is not written below
`CT_TX_VERSION`. -/
structure CTransaction.Encodable {H : Type} (tx : CTransaction H) : Prop where
  version : 1 ≤ tx.nVersion
  vin : ShortVec (fun txin : CTxIn H => txin.scriptSig.length ≤ MAX_SIZE) tx.vin
  vout : ShortVec (fun txout : CTxOut => txout.scriptPubKey.length ≤ MAX_SIZE) tx.vout
  body : tx.mwTx.body.Encodable
  plain : ¬tx.nVersion ≥ CT_TX_VERSION → tx.mwTx = CMWTransaction.null

/-- `CTxIn` as it is written to a stream. -/
def putCTxIn (txin : CTxIn uint256) : Bytes :=
  putHash txin.prevout.hash ++ putUInt32 txin.prevout.n ++ putVec putByte txin.scriptSig ++
    putUInt32 txin.nSequence

/-- `CTxOut` as it is written to a stream. -/
def putCTxOut (txout : CTxOut) : Bytes :=
  putInt64 txout.nValue ++ putVec putByte txout.scriptPubKey

/-- `CTransaction` as it is written to a stream. -/
def putCTransaction (tx : CTransaction uint256) : Bytes :=
  putInt32 tx.nVersion ++ putUInt32 tx.nTime ++ putVec putCTxIn tx.vin ++
    putVec putCTxOut tx.vout ++ putUInt32 tx.nLockTime ++
    if tx.nVersion ≥ CT_TX_VERSION then putCMWTransaction tx.mwTx else []

def unserializeTxIn : Get (CTxIn uint256) := fun bytes =>
  (getHash bytes).bind fun hash =>
  (getUInt32 hash.2).bind fun n =>
  (unserializeScript n.2).bind fun scriptSig =>
  (getUInt32 scriptSig.2).map fun nSequence =>
    (⟨⟨hash.1, n.1⟩, scriptSig.1, nSequence.1⟩, nSequence.2)

def unserializeTxOut : Get CTxOut := fun bytes =>
  (getInt64 bytes).bind fun nValue =>
  (unserializeScript nValue.2).map fun scriptPubKey =>
    (⟨nValue.1, scriptPubKey.1⟩, scriptPubKey.2)

def unserializeMWInput : Get CMWInput := fun bytes =>
  (getVector 33 bytes).bind fun commitment =>
  (getVector 33 commitment.2).bind fun outputPubKey =>
  (getVector 64 outputPubKey.2).map fun signature =>
    (⟨commitment.1, outputPubKey.1, signature.1⟩, signature.2)

def unserializeMWOutput : Get CMWOutput := fun bytes =>
  (getVector 33 bytes).bind fun commitment =>
  (getVector 33 commitment.2).bind fun senderPubKey =>
  (getVector 33 senderPubKey.2).bind fun receiverPubKey =>
  (unserializeScript receiverPubKey.2).bind fun rangeProof =>
  (getByte rangeProof.2).map fun nFeatures =>
    (⟨commitment.1, senderPubKey.1, receiverPubKey.1, rangeProof.1, nFeatures.1⟩, nFeatures.2)

/-- A field that is read for some features only, else left at its default. -/
def getIf {α : Type} (present : Bool) (get : Get α) (default : α) : Get α := fun bytes =>
  if present then get bytes else some (default, bytes)

/-- `Unserialize` of a new `CMWKernel`. -/
def unserializeMWKernel : Get CMWKernel := fun bytes =>
  (getByte bytes).bind fun nFeatures =>
  (getInt64 nFeatures.2).bind fun nFee =>
  (getIf (nFeatures.1 == KERNEL_PEGIN || nFeatures.1 == KERNEL_PEGOUT) getInt64 0 nFee.2).bind
    fun nPegAmount =>
  (getIf (nFeatures.1 == KERNEL_HEIGHT_LOCKED) getInt32 0 nPegAmount.2).bind fun nLockHeight =>
  (getVector 33 nLockHeight.2).bind fun excess =>
  (getVector 64 excess.2).bind fun signature =>
  (getIf (nFeatures.1 == KERNEL_PEGOUT) unserializeScript [] signature.2).map fun pegoutScript =>
    (⟨nFeatures.1, nFee.1, nPegAmount.1, nLockHeight.1, excess.1, signature.1, pegoutScript.1⟩,
      pegoutScript.2)

section

variable (sizes : ElementSizes)

def unserializeMWBody : Get CMWTransactionBody := fun bytes =>
  (unserializeVec (objectBlock sizes.mwInput) unserializeMWInput bytes).bind fun vInputs =>
  (unserializeVec (objectBlock sizes.mwOutput) unserializeMWOutput vInputs.2).bind fun vOutputs =>
  (unserializeVec (objectBlock sizes.mwKernel) unserializeMWKernel vOutputs.2).map fun vKernels =>
    (⟨vInputs.1, vOutputs.1, vKernels.1⟩, vKernels.2)

def unserializeMWTransaction : Get CMWTransaction := fun bytes =>
  (unserializeMWBody sizes bytes).bind fun body =>
  (getVector 32 body.2).map fun offset => (⟨body.1, offset.1⟩, offset.2)

/-- `Unserialize` of a new `CTransaction`; `none` is the exception. -/
def unserializeTransaction : Get (CTransaction uint256) := fun bytes =>
  (getInt32 bytes).bind fun nVersion =>
  if nVersion.1 < 1 then none
  else
    (getUInt32 nVersion.2).bind fun nTime =>
    (unserializeVec (objectBlock sizes.txin) unserializeTxIn nTime.2).bind fun vin =>
    (unserializeVec (objectBlock sizes.txout) unserializeTxOut vin.2).bind fun vout =>
    (getUInt32 vout.2).bind fun nLockTime =>
    (getIf (nVersion.1 ≥ CT_TX_VERSION) (unserializeMWTransaction sizes) .null nLockTime.2).map
      fun mwTx =>
        (⟨nVersion.1, nTime.1, vin.1, vout.1, nLockTime.1, mwTx.1⟩, mwTx.2)

end

theorem exact_script : Exact (putVec putByte) unserializeScript (fun script => script.length ≤ MAX_SIZE) := by
  intro bytes script rest
  rw [unserializeScript, exact_vec exact_byte (by decide)]
  simp [ShortVec]

theorem exact_txIn : Exact putCTxIn unserializeTxIn (fun txin => txin.scriptSig.length ≤ MAX_SIZE) := by
  intro bytes txin rest
  simp only [unserializeTxIn, exact_hash.bind_eq_some, exact_uint32.bind_eq_some,
    exact_script.bind_eq_some, exact_uint32.map_eq_some]
  constructor
  · rintro ⟨hash, _, ⟨-, rfl⟩, n, _, ⟨-, rfl⟩, scriptSig, _, ⟨hshort, rfl⟩, nSequence, _, ⟨-, rfl⟩, heq⟩
    cases heq
    exact ⟨hshort, by simp only [putCTxIn, append_assoc]⟩
  · rintro ⟨hshort, rfl⟩
    simp only [putCTxIn, append_assoc]
    exact ⟨_, _, ⟨trivial, rfl⟩, _, _, ⟨trivial, rfl⟩, _, _, ⟨hshort, rfl⟩, _, _, ⟨trivial, rfl⟩, rfl⟩

theorem exact_txOut :
    Exact putCTxOut unserializeTxOut (fun txout => txout.scriptPubKey.length ≤ MAX_SIZE) := by
  intro bytes txout rest
  simp only [unserializeTxOut, exact_int64.bind_eq_some, exact_script.map_eq_some]
  constructor
  · rintro ⟨nValue, _, ⟨-, rfl⟩, scriptPubKey, _, ⟨hshort, rfl⟩, heq⟩
    cases heq
    exact ⟨hshort, by simp only [putCTxOut, append_assoc]⟩
  · rintro ⟨hshort, rfl⟩
    simp only [putCTxOut, append_assoc]
    exact ⟨_, _, ⟨trivial, rfl⟩, _, _, ⟨hshort, rfl⟩, rfl⟩

theorem exact_mwInput : Exact putCMWInput unserializeMWInput fun _ => True := by
  intro bytes input rest
  simp only [unserializeMWInput, (exact_vector _).bind_eq_some, (exact_vector _).map_eq_some]
  constructor
  · rintro ⟨commitment, _, ⟨-, rfl⟩, outputPubKey, _, ⟨-, rfl⟩, signature, _, ⟨-, rfl⟩, heq⟩
    cases heq
    exact ⟨trivial, by simp only [putCMWInput, append_assoc]⟩
  · rintro ⟨-, rfl⟩
    simp only [putCMWInput, append_assoc]
    exact ⟨_, _, ⟨trivial, rfl⟩, _, _, ⟨trivial, rfl⟩, _, _, ⟨trivial, rfl⟩, rfl⟩

theorem exact_mwOutput :
    Exact putCMWOutput unserializeMWOutput (fun output => output.rangeProof.length ≤ MAX_SIZE) := by
  intro bytes output rest
  simp only [unserializeMWOutput, (exact_vector _).bind_eq_some, exact_script.bind_eq_some,
    exact_byte.map_eq_some]
  constructor
  · rintro ⟨commitment, _, ⟨-, rfl⟩, senderPubKey, _, ⟨-, rfl⟩, receiverPubKey, _, ⟨-, rfl⟩,
      rangeProof, _, ⟨hshort, rfl⟩, nFeatures, _, ⟨-, rfl⟩, heq⟩
    cases heq
    exact ⟨hshort, by simp only [putCMWOutput, append_assoc]⟩
  · rintro ⟨hshort, rfl⟩
    simp only [putCMWOutput, append_assoc]
    exact ⟨_, _, ⟨trivial, rfl⟩, _, _, ⟨trivial, rfl⟩, _, _, ⟨trivial, rfl⟩, _, _, ⟨hshort, rfl⟩, _,
      _, ⟨trivial, rfl⟩, rfl⟩

/-- A field that is written for some features only. -/
theorem exact_if {α : Type} {put : α → Bytes} {get : Get α} {valid : α → Prop} {present : Bool}
    {default : α} (h : Exact put get valid) :
    Exact (fun a => if present then put a else []) (getIf present get default)
      (fun a => if present then valid a else a = default) := by
  intro bytes a rest
  cases present with
  | true => exact h bytes a rest
  | false =>
    simp only [getIf, Bool.false_eq_true, if_false, Option.some.injEq, Prod.mk.injEq, nil_append]
    exact and_congr_left' eq_comm

theorem CMWKernel.encodable_iff {kernel : CMWKernel} :
    kernel.Encodable ↔ (if kernel.isPegIn || kernel.isPegOut then True else kernel.nPegAmount = 0) ∧
      (if kernel.isHeightLocked then True else kernel.nLockHeight = 0) ∧
      (if kernel.isPegOut then kernel.pegoutScript.length ≤ MAX_SIZE else kernel.pegoutScript = []) := by
  have hempty : ([] : Bytes).length ≤ MAX_SIZE := Nat.zero_le _
  constructor
  · intro h
    refine ⟨?_, ?_, ?_⟩
    · split
      · trivial
      · exact h.pegAmount ‹_›
    · split
      · trivial
      · exact h.lockHeight ‹_›
    · split
      · exact h.short
      · exact h.pegoutScript ‹_›
  · rintro ⟨hpeg, hlock, hscript⟩
    refine ⟨fun hno => ?_, fun hno => ?_, fun hno => ?_, ?_⟩
    · rwa [if_neg hno] at hpeg
    · rwa [if_neg hno] at hlock
    · rwa [if_neg hno] at hscript
    · split at hscript
      · exact hscript
      · rw [hscript]
        exact hempty

theorem exact_mwKernel : Exact putCMWKernel unserializeMWKernel CMWKernel.Encodable := by
  intro bytes kernel rest
  rw [CMWKernel.encodable_iff]
  simp only [unserializeMWKernel, exact_byte.bind_eq_some, exact_int64.bind_eq_some,
    (exact_if exact_int64).bind_eq_some, (exact_if exact_int32).bind_eq_some,
    (exact_vector _).bind_eq_some, (exact_if exact_script).map_eq_some]
  constructor
  · rintro ⟨nFeatures, _, ⟨-, rfl⟩, nFee, _, ⟨-, rfl⟩, nPegAmount, _, ⟨hpeg, rfl⟩, nLockHeight, _,
      ⟨hlock, rfl⟩, excess, _, ⟨-, rfl⟩, signature, _, ⟨-, rfl⟩, pegoutScript, _, ⟨hscript, rfl⟩, heq⟩
    cases heq
    refine ⟨⟨hpeg, hlock, hscript⟩, ?_⟩
    simp only [putCMWKernel, append_assoc]
    rfl
  · rintro ⟨⟨hpeg, hlock, hscript⟩, rfl⟩
    simp only [putCMWKernel, append_assoc]
    exact ⟨_, _, ⟨trivial, rfl⟩, _, _, ⟨trivial, rfl⟩, _, _, ⟨hpeg, rfl⟩, _, _, ⟨hlock, rfl⟩, _, _,
      ⟨trivial, rfl⟩, _, _, ⟨trivial, rfl⟩, _, _, ⟨hscript, rfl⟩, rfl⟩

section

variable (sizes : ElementSizes)

theorem exact_mwBody :
    Exact putCMWTransactionBody (unserializeMWBody sizes) CMWTransactionBody.Encodable := by
  have hinput := exact_vec exact_mwInput (objectBlock_pos (sizes.fits sizes.mwInput (by simp)))
  have houtput := exact_vec exact_mwOutput (objectBlock_pos (sizes.fits sizes.mwOutput (by simp)))
  have hkernel := exact_vec exact_mwKernel (objectBlock_pos (sizes.fits sizes.mwKernel (by simp)))
  intro bytes body rest
  simp only [unserializeMWBody, hinput.bind_eq_some, houtput.bind_eq_some, hkernel.map_eq_some]
  constructor
  · rintro ⟨vInputs, _, ⟨hinputs, rfl⟩, vOutputs, _, ⟨houtputs, rfl⟩, vKernels, _, ⟨hkernels, rfl⟩, heq⟩
    cases heq
    exact ⟨⟨hinputs.1, houtputs, hkernels⟩, by simp only [putCMWTransactionBody, append_assoc]⟩
  · rintro ⟨⟨hinputs, houtputs, hkernels⟩, rfl⟩
    simp only [putCMWTransactionBody, append_assoc]
    exact ⟨_, _, ⟨⟨hinputs, fun _ _ => trivial⟩, rfl⟩, _, _, ⟨houtputs, rfl⟩, _, _, ⟨hkernels, rfl⟩, rfl⟩

theorem exact_mwTransaction :
    Exact putCMWTransaction (unserializeMWTransaction sizes) (fun mwTx => mwTx.body.Encodable) := by
  intro bytes mwTx rest
  simp only [unserializeMWTransaction, (exact_mwBody sizes).bind_eq_some, (exact_vector _).map_eq_some]
  constructor
  · rintro ⟨body, _, ⟨hbody, rfl⟩, offset, _, ⟨-, rfl⟩, heq⟩
    cases heq
    exact ⟨hbody, by simp only [putCMWTransaction, append_assoc]⟩
  · rintro ⟨hbody, rfl⟩
    simp only [putCMWTransaction, append_assoc]
    exact ⟨_, _, ⟨hbody, rfl⟩, _, _, ⟨trivial, rfl⟩, rfl⟩

/-- **What is read as a transaction is what is written of it.** -/
theorem exact_transaction : Exact putCTransaction (unserializeTransaction sizes) CTransaction.Encodable := by
  have hvin := exact_vec exact_txIn (objectBlock_pos (sizes.fits sizes.txin (by simp)))
  have hvout := exact_vec exact_txOut (objectBlock_pos (sizes.fits sizes.txout (by simp)))
  have hnull : CMWTransaction.null.body.Encodable :=
    ⟨Nat.zero_le _, ⟨Nat.zero_le _, fun _ hmem => absurd hmem not_mem_nil⟩,
      ⟨Nat.zero_le _, fun _ hmem => absurd hmem not_mem_nil⟩⟩
  intro bytes tx rest
  simp only [unserializeTransaction, exact_int32.bind_eq_some, Option.ite_none_left_eq_some,
    exact_uint32.bind_eq_some, hvin.bind_eq_some, hvout.bind_eq_some,
    (exact_if (exact_mwTransaction sizes)).map_eq_some]
  constructor
  · rintro ⟨nVersion, _, ⟨-, rfl⟩, hversion, nTime, _, ⟨-, rfl⟩, vin, _, ⟨hin, rfl⟩, vout, _,
      ⟨hout, rfl⟩, nLockTime, _, ⟨-, rfl⟩, mwTx, _, ⟨hmw, hlast⟩, heq⟩
    cases heq
    refine ⟨⟨Int32.not_lt.mp hversion, hin, hout, ?_, ?_⟩, ?_⟩
    · split at hmw
      · exact hmw
      · rw [hmw]
        exact hnull
    · intro hplain
      rwa [if_neg (by simpa using hplain)] at hmw
    · rw [hlast]
      simp only [putCTransaction, append_assoc, decide_eq_true_eq]
  · rintro ⟨⟨hversion, hin, hout, hbody, hplain⟩, rfl⟩
    simp only [putCTransaction, append_assoc]
    refine ⟨_, _, ⟨trivial, rfl⟩, Int32.not_lt.mpr hversion, _, _, ⟨trivial, rfl⟩, _, _, ⟨hin, rfl⟩,
      _, _, ⟨hout, rfl⟩, _, _, ⟨trivial, rfl⟩, tx.mwTx, rest, ⟨?_, ?_⟩, rfl⟩
    · split
      · exact hbody
      · rename_i hno
        exact hplain fun hversion => hno (decide_eq_true hversion)
    · simp only [decide_eq_true_eq]

end

end MaryJaneCoin
