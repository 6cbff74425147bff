import MaryJaneCoin.Chain.TransactionCodec

/-!
# Sizes and identities of encoded transactions

`GetSerializeSize` counts in an `unsigned int` what is written; the hash of a
transaction is the hash of what is written.  With the exact readers this makes
the encoding canonical.
-/

namespace MaryJaneCoin

open CTransaction
open List hiding Vector
open Codec PrefixCode UInt32

def getSizeOfCompactSize (nSize : Nat) : UInt32 :=
  if nSize < 253 then 1
  else if nSize ≤ 0xFFFF then 3
  else if nSize ≤ 0xFFFFFFFF then 5
  else 9

/-- The size of a vector of bytes, which is added up in a `size_t`. -/
def sizeOfBytes (v : Bytes) : UInt32 :=
  UInt32.ofNat ((getSizeOfCompactSize v.length).toNat + v.length)

/-- The size of another vector, element by element. -/
def sizeOfVec {α : Type} (size : α → UInt32) (v : List α) : UInt32 :=
  v.foldl (fun nSize a => nSize + size a) (getSizeOfCompactSize v.length)

def CTxIn.getSerializeSize (txin : CTxIn uint256) : UInt32 := 36 + sizeOfBytes txin.scriptSig + 4

def CTxOut.getSerializeSize (txout : CTxOut) : UInt32 := 8 + sizeOfBytes txout.scriptPubKey

def CMWInput.getSerializeSize (_ : CMWInput) : UInt32 := 33 + 33 + 64

def CMWOutput.getSerializeSize (output : CMWOutput) : UInt32 :=
  33 + 33 + 33 + sizeOfBytes output.rangeProof + 1

def CMWKernel.getSerializeSize (kernel : CMWKernel) : UInt32 :=
  1 + 8 + (if kernel.isPegIn || kernel.isPegOut then 8 else 0) +
    (if kernel.isHeightLocked then 4 else 0) + 33 + 64 +
    (if kernel.isPegOut then sizeOfBytes kernel.pegoutScript else 0)

def CMWTransaction.getSerializeSize (mwTx : CMWTransaction) : UInt32 :=
  sizeOfVec CMWInput.getSerializeSize mwTx.body.vInputs +
    sizeOfVec CMWOutput.getSerializeSize mwTx.body.vOutputs +
    sizeOfVec CMWKernel.getSerializeSize mwTx.body.vKernels + 32

/-- `GetSerializeSize` of a transaction. -/
def CTransaction.getSerializeSize (tx : CTransaction uint256) : UInt32 :=
  4 + 4 + sizeOfVec CTxIn.getSerializeSize tx.vin + sizeOfVec CTxOut.getSerializeSize tx.vout + 4 +
    if tx.nVersion ≥ CT_TX_VERSION then tx.mwTx.getSerializeSize else 0

/-- A size counts what is written, up to multiples of `2 ^ 32`. -/
def Measures {α : Type} (size : α → UInt32) (put : α → Bytes) : Prop :=
  ∀ a, size a = UInt32.ofNat (put a).length

theorem measures_compactSize : Measures getSizeOfCompactSize putCompactSize := by
  intro nSize
  unfold getSizeOfCompactSize putCompactSize
  split
  · rfl
  · split
    · rw [length_cons, length_putLE]
      rfl
    · split
      · rw [length_cons, length_putLE]
        rfl
      · rw [length_cons, length_putLE]
        rfl

theorem measures_bytes : Measures sizeOfBytes (putVec putByte) := by
  intro v
  have hbytes : v.flatMap putByte = v := flatMap_singleton' v
  rw [sizeOfBytes, putVec, hbytes, length_append, ofNat_add, ofNat_add,
    UInt32.ofNat_toNat, measures_compactSize]

theorem measures_vec {α : Type} {size : α → UInt32} {put : α → Bytes} (h : Measures size put) :
    Measures (sizeOfVec size) (putVec put) := by
  intro v
  have hloop : ∀ nSize : UInt32, v.foldl (fun nSize a => nSize + size a) nSize =
      nSize + UInt32.ofNat (v.flatMap put).length := by
    induction v with
    | nil => exact fun nSize => (UInt32.add_zero nSize).symm
    | cons a v ih =>
      intro nSize
      rw [foldl_cons, ih, h a, flatMap_cons, length_append, ofNat_add, UInt32.add_assoc]
  rw [sizeOfVec, hloop, putVec, length_append, ofNat_add, measures_compactSize]

theorem measures_txIn : Measures CTxIn.getSerializeSize putCTxIn := by
  intro txin
  simp only [CTxIn.getSerializeSize, measures_bytes _, putCTxIn, putHash, putUInt32, length_append,
    length_putLE, ofNat_add]
  rfl

theorem measures_txOut : Measures CTxOut.getSerializeSize putCTxOut := by
  intro txout
  simp only [CTxOut.getSerializeSize, measures_bytes _, putCTxOut, putInt64, length_append,
    length_putLE, ofNat_add]
  rfl

theorem measures_mwInput : Measures CMWInput.getSerializeSize putCMWInput := by
  intro input
  simp only [CMWInput.getSerializeSize, putCMWInput, length_append, Vector.length_toList]
  rfl

theorem measures_mwOutput : Measures CMWOutput.getSerializeSize putCMWOutput := by
  intro output
  simp only [CMWOutput.getSerializeSize, measures_bytes _, putCMWOutput, putByte, length_append,
    Vector.length_toList, ofNat_add, UInt32.add_assoc]
  rfl

theorem measures_mwKernel : Measures CMWKernel.getSerializeSize putCMWKernel := by
  intro kernel
  have hif : ∀ (present : Bool) (size : UInt32) (bytes : Bytes), size = UInt32.ofNat bytes.length →
      (if present then size else 0) = UInt32.ofNat (if present then bytes else []).length := by
    intro present size bytes hsize
    cases present with
    | true => exact hsize
    | false => rfl
  have hpeg := hif (kernel.isPegIn || kernel.isPegOut) 8 (putInt64 kernel.nPegAmount) rfl
  have hlock := hif kernel.isHeightLocked 4 (putInt32 kernel.nLockHeight) rfl
  have hscript := hif kernel.isPegOut _ _ (measures_bytes kernel.pegoutScript)
  simp only [CMWKernel.getSerializeSize, hpeg, hlock, hscript, putCMWKernel, putByte, putInt64,
    length_append, Vector.length_toList, ofNat_add, length_putLE]
  rfl

theorem measures_mwTransaction : Measures CMWTransaction.getSerializeSize putCMWTransaction := by
  intro mwTx
  simp only [CMWTransaction.getSerializeSize, measures_vec measures_mwInput _,
    measures_vec measures_mwOutput _, measures_vec measures_mwKernel _, putCMWTransaction,
    putCMWTransactionBody, length_append, Vector.length_toList, ofNat_add]
  rfl

/-- **The size of a transaction** is that of its bytes, in an `unsigned int`. -/
theorem measures_transaction : Measures getSerializeSize putCTransaction := by
  intro tx
  have hpart : (if tx.nVersion ≥ CT_TX_VERSION then tx.mwTx.getSerializeSize else 0) = UInt32.ofNat
      (if tx.nVersion ≥ CT_TX_VERSION then putCMWTransaction tx.mwTx else []).length := by
    split
    · exact measures_mwTransaction tx.mwTx
    · rfl
  simp only [getSerializeSize, hpart, measures_vec measures_txIn _,
    measures_vec measures_txOut _, putCTransaction, putInt32, putUInt32, length_append,
    length_putLE, ofNat_add]
  rfl

/-- A preimage as the bytes that are hashed. -/
def Preimage.toBytes (data : Preimage uint256) : Bytes :=
  data.flatMap fun
    | .byte b => [b]
    | .digest h => putHash h

theorem toBytes_append (data data' : Preimage uint256) :
    (data ++ data').toBytes = data.toBytes ++ data'.toBytes := flatMap_append

theorem toBytes_feed (bytes : Bytes) : Preimage.toBytes (feed bytes) = bytes := by
  induction bytes with
  | nil => rfl
  | cons b bytes ih => exact congrArg (b :: ·) ih

theorem toBytes_flatMap {α : Type} {write : α → Preimage uint256} {put : α → Bytes}
    (h : ∀ a, (write a).toBytes = put a) (v : List α) :
    Preimage.toBytes (v.flatMap write) = v.flatMap put := by
  induction v with
  | nil => rfl
  | cons a v ih => rw [flatMap_cons, flatMap_cons, toBytes_append, h, ih]

/-- **What is hashed of a transaction is what is written of it.** -/
theorem CTransaction.toBytes_serialize (tx : CTransaction uint256) :
    tx.serialize.toBytes = putCTransaction tx := by
  have hin : ∀ txin : CTxIn uint256, txin.serialize.toBytes = putCTxIn txin := by
    intro txin
    have hdigest : ∀ (h : uint256) (data : Preimage uint256),
        Preimage.toBytes (.digest h :: data) = putHash h ++ data.toBytes := fun _ _ => rfl
    simp only [CTxIn.serialize, hdigest, feedLE, toBytes_append, toBytes_feed, putCTxIn, putUInt32,
      append_assoc]
  have hout : ∀ txout : CTxOut, (CTxOut.serialize txout).toBytes = putCTxOut txout :=
    fun txout => toBytes_feed _
  have hpart : Preimage.toBytes (if tx.nVersion ≥ CT_TX_VERSION then feed (putCMWTransaction tx.mwTx)
      else []) = if tx.nVersion ≥ CT_TX_VERSION then putCMWTransaction tx.mwTx else [] := by
    split
    · exact toBytes_feed _
    · rfl
  simp only [serialize, feedLE, toBytes_append, toBytes_feed, toBytes_flatMap hin,
    toBytes_flatMap hout, hpart, putCTransaction, putUInt32, putVec, append_assoc]

section

variable {H : Type} {tx tx' : CTransaction H}

theorem CTransaction.Encodable.countable (h : tx.Encodable) : tx.Countable := by
  have hlimit : MAX_SIZE < 2 ^ 64 := by decide
  exact ⟨Nat.lt_of_le_of_lt h.vin.1 hlimit, fun txin hmem => Nat.lt_of_le_of_lt (h.vin.2 txin hmem) hlimit,
    Nat.lt_of_le_of_lt h.vout.1 hlimit, fun txout hmem => Nat.lt_of_le_of_lt (h.vout.2 txout hmem) hlimit⟩

/-- The blocks that vectors are read in on a 64-bit platform. -/
def sampleSizes : ElementSizes := ⟨72, 32, 130, 128, 152, by decide⟩

/-- **Equal hashes, equal transactions.** -/
theorem CTransaction.eq_of_getHash_eq {sha : Sha256 H} (hinj : Function.Injective sha.sha256)
    (h : tx.Encodable) (h' : tx'.Encodable) (heq : tx.getHash sha = tx'.getHash sha) : tx = tx' := by
  have hserialize := congrArg (· ++ []) (Sha256.sha256d_injective hinj heq)
  obtain ⟨⟨hversion, htime, hvin, hvout, hlock⟩, hpart⟩ :=
    eq_of_serialize_append h.countable h'.countable hserialize
  rw [append_nil, append_nil] at hpart
  have hmw : tx.mwTx = tx'.mwTx := by
    have hbytes := feed_inj hpart
    unfold mwPart at hbytes
    rw [← hversion] at hbytes
    split at hbytes
    · have hread := (exact_mwTransaction sampleSizes _ tx.mwTx []).mpr ⟨h.body, rfl⟩
      rw [hbytes] at hread
      have hread' := (exact_mwTransaction sampleSizes _ tx'.mwTx []).mpr ⟨h'.body, rfl⟩
      exact (Prod.mk.inj (Option.some.inj (hread.symm.trans hread'))).1
    · rename_i hplain
      rw [h.plain hplain, h'.plain (hversion ▸ hplain)]
  cases tx
  cases tx'
  simp_all

end

/-- **The encoding of transactions is canonical.** -/
theorem transaction_encoding_canonical (sizes : ElementSizes) :
    (∀ (tx : CTransaction uint256) (rest : Bytes), tx.Encodable →
      unserializeTransaction sizes (putCTransaction tx ++ rest) = some (tx, rest)) ∧
    (∀ tx : CTransaction uint256, tx.getSerializeSize.toNat = (putCTransaction tx).length % 2 ^ 32) ∧
    (∀ (bytes : Bytes) (tx : CTransaction uint256) (rest : Bytes),
      unserializeTransaction sizes bytes = some (tx, rest) →
      tx.Encodable ∧ bytes = putCTransaction tx ++ rest) ∧
    (∀ (bytes bytes' : Bytes) (tx : CTransaction uint256) (rest rest' : Bytes),
      unserializeTransaction sizes bytes = some (tx, rest) →
      unserializeTransaction sizes bytes' = some (tx, rest') →
      ∃ consumed, bytes = consumed ++ rest ∧ bytes' = consumed ++ rest') ∧
    ∀ {H : Type} (sha : Sha256 H), Function.Injective sha.sha256 →
      ∀ tx tx' : CTransaction H, tx.Encodable → tx'.Encodable →
        tx.getHash sha = tx'.getHash sha → tx = tx' := by
  have hexact := exact_transaction sizes
  refine ⟨?_, ?_, ?_, ?_, ?_⟩
  · intro tx rest henc
    exact (hexact _ tx rest).mpr ⟨henc, rfl⟩
  · intro tx
    rw [measures_transaction tx, UInt32.toNat_ofNat']
  · intro bytes tx rest hread
    exact (hexact bytes tx rest).mp hread
  · intro bytes bytes' tx rest rest' hread hread'
    exact ⟨putCTransaction tx, ((hexact _ _ _).mp hread).2, ((hexact _ _ _).mp hread').2⟩
  · intro H sha hinj tx tx' henc henc' heq
    exact CTransaction.eq_of_getHash_eq hinj henc henc' heq

/-- A transaction with an input, an output, and a kernel that pegs coins in. -/
def pegInTx : CTransaction uint256 where
  nVersion := 2
  nTime := 1600000000
  vin := [⟨⟨7, 1⟩, [1, 2, 3], 0xffffffff⟩]
  vout := [⟨COIN, [OP_RETURN]⟩]
  nLockTime := 0
  mwTx := ⟨⟨[], [], [⟨KERNEL_PEGIN, 1, COIN, 0, sampleCommitment 6, Vector.replicate 64 1, []⟩]⟩,
    Vector.replicate 32 5⟩

theorem pegInTx_encodable : pegInTx.Encodable := by
  have hshort : ∀ n ≤ 3, n ≤ MAX_SIZE := fun n hn => Nat.le_trans hn (by decide)
  refine ⟨by decide, ⟨hshort 1 (by decide), ?_⟩, ⟨hshort 1 (by decide), ?_⟩, ⟨Nat.zero_le _,
    ⟨Nat.zero_le _, ?_⟩, ⟨hshort 1 (by decide), ?_⟩⟩, fun hplain => absurd ?_ hplain⟩
  · exact forall_mem_singleton.mpr (hshort 3 (by decide))
  · exact forall_mem_singleton.mpr (hshort 1 (by decide))
  · exact fun _ hmem => absurd hmem not_mem_nil
  · exact forall_mem_singleton.mpr
      ⟨fun hno => absurd rfl hno, fun _ => rfl, fun _ => rfl, Nat.zero_le _⟩
  · decide

theorem transaction_encoding_canonical_pegInTx :
    unserializeTransaction sampleSizes (putCTransaction pegInTx ++ [9]) = some (pegInTx, [9]) ∧
      ∀ bytes, unserializeTransaction sampleSizes bytes = some (pegInTx, []) →
        bytes = putCTransaction pegInTx := by
  refine ⟨(transaction_encoding_canonical sampleSizes).1 pegInTx [9] pegInTx_encodable, ?_⟩
  intro bytes hread
  have hbytes := ((transaction_encoding_canonical sampleSizes).2.2.1 bytes pegInTx [] hread).2
  rwa [append_nil] at hbytes

/-- A transaction of 128 inputs whose scripts have the greatest size. -/
def longTx : CTransaction uint256 where
  nVersion := 1
  nTime := 0
  vin := List.replicate 128 ⟨⟨0, 0⟩, List.replicate MAX_SIZE 0, 0⟩
  vout := []
  nLockTime := 0
  mwTx := CMWTransaction.null

/-- **A size of four gigabytes and more is not reported.** -/
theorem long_transaction_size :
    longTx.Encodable ∧ longTx.getSerializeSize.toNat ≠ (putCTransaction longTx).length := by
  have hvin : ∀ txin ∈ longTx.vin, txin.scriptSig.length ≤ MAX_SIZE := by
    intro txin htxin
    rw [eq_of_mem_replicate htxin, length_replicate]
  have hcount : longTx.vin.length = 128 := length_replicate
  refine ⟨⟨by decide, ⟨by rw [hcount]; decide, hvin⟩, ⟨Nat.zero_le _, ?_⟩, ?_, fun _ => rfl⟩, ?_⟩
  · exact fun _ hmem => absurd hmem not_mem_nil
  · exact ⟨Nat.zero_le _, ⟨Nat.zero_le _, fun _ hmem => absurd hmem not_mem_nil⟩,
      ⟨Nat.zero_le _, fun _ hmem => absurd hmem not_mem_nil⟩⟩
  · have hlong : 2 ^ 32 ≤ (putCTransaction longTx).length := by
      have hflat : ((List.replicate 128 (⟨⟨0, 0⟩, List.replicate MAX_SIZE 0, 0⟩ : CTxIn uint256)).flatMap
          putCTxIn).length = 128 * (putCTxIn ⟨⟨0, 0⟩, List.replicate MAX_SIZE 0, 0⟩).length := by
        rw [length_flatMap, map_replicate, sum_replicate_nat]
      have hscript : MAX_SIZE ≤ (putCTxIn ⟨⟨0, 0⟩, List.replicate MAX_SIZE 0, 0⟩).length := by
        have hbytes : (List.replicate MAX_SIZE (0 : UInt8)).flatMap putByte = List.replicate MAX_SIZE 0 :=
          flatMap_singleton' _
        simp only [putCTxIn, putVec, hbytes, length_append, length_replicate]
        omega
      have hmax : 128 * MAX_SIZE = 2 ^ 32 := by decide
      simp only [putCTransaction, longTx, putVec, length_append]
      omega
    rw [measures_transaction, UInt32.toNat_ofNat']
    have hmod := Nat.mod_lt (putCTransaction longTx).length (show 2 ^ 32 > 0 by decide)
    omega

end MaryJaneCoin
