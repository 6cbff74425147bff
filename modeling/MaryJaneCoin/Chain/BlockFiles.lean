import MaryJaneCoin.Chain.CanonicalEncoding
import MaryJaneCoin.Chain.LedgerFresh

/-!
# Blocks in files, and where their transactions stand

The readers and writers of blocks are exact, as those of their parts.
`WriteToDisk` appends a block to a file; `ConnectBlock` predicts where each of
its transactions came to stand.  The prediction starts from the size of an empty
block, corrected for the width of the transaction count, and adds the sizes of
the transactions before, all of it in an `unsigned int`.
-/

namespace MaryJaneCoin

open List hiding Vector
open Codec PrefixCode Std

/-- `CMWBlock` as it is written to a stream. -/
def putCMWBlock (block : CMWBlock uint256) : Bytes :=
  putHash block.hashPrevMWBlock ++ putCMWTransactionBody block.body ++
    putVec Vector.toList block.vCutThrough ++ putInt32 block.nHeight ++ block.offset.toList

/-- `CBlockHeader` as it is written to a stream. -/
def putCBlockHeader (header : CBlockHeader uint256) : Bytes :=
  putInt32 header.nVersion ++ putHash header.hashPrevBlock ++ putHash header.hashMerkleRoot ++
    putUInt32 header.nTime ++ putUInt32 header.nBits ++ putUInt32 header.nNonce

/-- `CBlock` as it is written to a stream. -/
def putCBlock (block : CBlock uint256) : Bytes :=
  putCBlockHeader block.toCBlockHeader ++ putVec putCTransaction block.vtx ++
    putVec putByte block.vchBlockSig ++
    if block.hasMWEBVersion then putCMWBlock block.mwExtBlock else []

def CMWBlock.getSerializeSize (block : CMWBlock uint256) : UInt32 :=
  32 + (sizeOfVec CMWInput.getSerializeSize block.body.vInputs +
    sizeOfVec CMWOutput.getSerializeSize block.body.vOutputs +
    sizeOfVec CMWKernel.getSerializeSize block.body.vKernels) +
    sizeOfVec (fun _ : Commitment => 33) block.vCutThrough + 4 + 32

def CBlockHeader.getSerializeSize (_ : CBlockHeader uint256) : UInt32 := 4 + 32 + 32 + 4 + 4 + 4

/-- `GetSerializeSize` of a block. -/
def CBlock.getSerializeSize (block : CBlock uint256) : UInt32 :=
  block.toCBlockHeader.getSerializeSize + sizeOfVec CTransaction.getSerializeSize block.vtx +
    sizeOfBytes block.vchBlockSig +
    if block.hasMWEBVersion then block.mwExtBlock.getSerializeSize else 0

/-- `CMWBlock()`. -/
def CMWBlock.null : CMWBlock uint256 := ⟨0, ⟨[], [], []⟩, [], 0, Vector.replicate 32 0⟩

/-- `CBlock()`. -/
def CBlock.null : CBlock uint256 where
  nVersion := CBlockHeader.CURRENT_VERSION
  hashPrevBlock := 0
  hashMerkleRoot := 0
  nTime := 0
  nBits := 0
  nNonce := 0
  vtx := []
  vchBlockSig := []
  mwExtBlock := .null

theorem length_putCBlockHeader (header : CBlockHeader uint256) :
    (putCBlockHeader header).length = HEADER_SIZE := by
  simp only [putCBlockHeader, putInt32, putUInt32, putHash, length_append, length_putLE]
  rfl

/-- The `sizeof` of the elements of the vectors of a block. -/
structure BlockSizes extends ElementSizes where
  tx : Nat
  fits_tx : 0 < tx ∧ tx ≤ 5000000

/-- An extension block within the limits. -/
structure CMWBlock.Encodable (block : CMWBlock uint256) : Prop where
  body : block.body.Encodable
  vCutThrough : block.vCutThrough.length ≤ MAX_SIZE

/-- A block within the limits; the extension block is written for some versions
only. -/
structure CBlock.Encodable (block : CBlock uint256) : Prop where
  vtx : ShortVec CTransaction.Encodable block.vtx
  vchBlockSig : block.vchBlockSig.length ≤ MAX_SIZE
  mwExtBlock : if block.hasMWEBVersion then block.mwExtBlock.Encodable else block.mwExtBlock = .null

def unserializeBlockHeader : Get (CBlockHeader uint256) := fun bytes =>
  (getInt32 bytes).bind fun nVersion =>
  (getHash nVersion.2).bind fun hashPrevBlock =>
  (getHash hashPrevBlock.2).bind fun hashMerkleRoot =>
  (getUInt32 hashMerkleRoot.2).bind fun nTime =>
  (getUInt32 nTime.2).bind fun nBits =>
  (getUInt32 nBits.2).map fun nNonce =>
    (⟨nVersion.1, hashPrevBlock.1, hashMerkleRoot.1, nTime.1, nBits.1, nNonce.1⟩, nNonce.2)

def unserializeMWBlock (sizes : ElementSizes) : Get (CMWBlock uint256) := fun bytes =>
  (getHash bytes).bind fun hashPrevMWBlock =>
  (unserializeMWBody sizes hashPrevMWBlock.2).bind fun body =>
  (unserializeVec (objectBlock 33) (getVector 33) body.2).bind fun vCutThrough =>
  (getInt32 vCutThrough.2).bind fun nHeight =>
  (getVector 32 nHeight.2).map fun offset =>
    (⟨hashPrevMWBlock.1, body.1, vCutThrough.1, nHeight.1, offset.1⟩, offset.2)

/-- `Unserialize` of a new `CBlock`; `none` is the exception. -/
def unserializeBlock (sizes : BlockSizes) : Get (CBlock uint256) := fun bytes =>
  (unserializeBlockHeader bytes).bind fun header =>
  (unserializeVec (objectBlock sizes.tx) (unserializeTransaction sizes.toElementSizes)
    header.2).bind fun vtx =>
  (unserializeScript vtx.2).bind fun vchBlockSig =>
  (getIf (header.1.nVersion &&& MWEB_VERSION_BIT != 0) (unserializeMWBlock sizes.toElementSizes)
    .null vchBlockSig.2).map fun mwExtBlock =>
      (⟨header.1, vtx.1, vchBlockSig.1, mwExtBlock.1⟩, mwExtBlock.2)

theorem exact_blockHeader : Exact putCBlockHeader unserializeBlockHeader fun _ => True := by
  intro bytes header rest
  simp only [unserializeBlockHeader, exact_int32.bind_eq_some, exact_hash.bind_eq_some,
    exact_uint32.bind_eq_some, exact_uint32.map_eq_some]
  constructor
  · rintro ⟨nVersion, _, ⟨-, rfl⟩, hashPrevBlock, _, ⟨-, rfl⟩, hashMerkleRoot, _, ⟨-, rfl⟩, nTime,
      _, ⟨-, rfl⟩, nBits, _, ⟨-, rfl⟩, nNonce, _, ⟨-, rfl⟩, heq⟩
    cases heq
    exact ⟨trivial, by simp only [putCBlockHeader, append_assoc]⟩
  · rintro ⟨-, rfl⟩
    simp only [putCBlockHeader, append_assoc]
    exact ⟨_, _, ⟨trivial, rfl⟩, _, _, ⟨trivial, rfl⟩, _, _, ⟨trivial, rfl⟩, _, _, ⟨trivial, rfl⟩,
      _, _, ⟨trivial, rfl⟩, _, _, ⟨trivial, rfl⟩, rfl⟩

theorem exact_mwBlock (sizes : ElementSizes) :
    Exact putCMWBlock (unserializeMWBlock sizes) CMWBlock.Encodable := by
  have hfits : 0 < 33 ∧ 33 ≤ 5000000 := by decide
  have hcut := exact_vec (exact_vector 33) (objectBlock_pos hfits)
  intro bytes block rest
  simp only [unserializeMWBlock, exact_hash.bind_eq_some, (exact_mwBody sizes).bind_eq_some,
    hcut.bind_eq_some, exact_int32.bind_eq_some, (exact_vector _).map_eq_some]
  constructor
  · rintro ⟨hashPrevMWBlock, _, ⟨-, rfl⟩, body, _, ⟨hbody, rfl⟩, vCutThrough, _, ⟨hshort, rfl⟩,
      nHeight, _, ⟨-, rfl⟩, offset, _, ⟨-, rfl⟩, heq⟩
    cases heq
    exact ⟨⟨hbody, hshort.1⟩, by simp only [putCMWBlock, append_assoc]⟩
  · rintro ⟨⟨hbody, hshort⟩, rfl⟩
    simp only [putCMWBlock, append_assoc]
    exact ⟨_, _, ⟨trivial, rfl⟩, _, _, ⟨hbody, rfl⟩, _, _, ⟨⟨hshort, fun _ _ => trivial⟩, rfl⟩, _,
      _, ⟨trivial, rfl⟩, _, _, ⟨trivial, rfl⟩, rfl⟩

/-- **What is read as a block is what is written of it.** -/
theorem exact_block (sizes : BlockSizes) : Exact putCBlock (unserializeBlock sizes) CBlock.Encodable := by
  have hvtx := exact_vec (exact_transaction sizes.toElementSizes) (objectBlock_pos sizes.fits_tx)
  intro bytes block rest
  simp only [unserializeBlock, exact_blockHeader.bind_eq_some, hvtx.bind_eq_some,
    exact_script.bind_eq_some, (exact_if (exact_mwBlock sizes.toElementSizes)).map_eq_some]
  constructor
  · rintro ⟨header, _, ⟨-, rfl⟩, vtx, _, ⟨htxs, rfl⟩, vchBlockSig, _, ⟨hsig, rfl⟩, mwExtBlock, _,
      ⟨hext, rfl⟩, heq⟩
    cases heq
    refine ⟨⟨htxs, hsig, hext⟩, ?_⟩
    simp only [putCBlock, append_assoc]
    rfl
  · rintro ⟨⟨htxs, hsig, hext⟩, rfl⟩
    simp only [putCBlock, append_assoc]
    exact ⟨_, _, ⟨trivial, rfl⟩, _, _, ⟨htxs, rfl⟩, _, _, ⟨hsig, rfl⟩, _, _, ⟨hext, rfl⟩, rfl⟩

/-- The block files by their number, a missing one without bytes, and
`nCurrentBlockFile`. -/
structure BlockFiles where
  bytes : Nat → Bytes
  nCurrentBlockFile : Nat

namespace BlockFiles

/-- Whether `OpenBlockFile` takes the number for one of a file. -/
def opens (nFile : Nat) : Bool := !(nFile < 1 || nFile == 0xFFFFFFFF)

/-- The loop of `AppendBlockFile`, which the last number ends. -/
def appendFrom (bytes : Nat → Bytes) : Nat → Nat → Option Nat
  | 0, _ => none
  | tries + 1, nFile =>
    if !opens nFile then none
    else if (bytes nFile).length < 0x7F000000 - MAX_SIZE then some nFile
    else appendFrom bytes tries (nFile + 1)

/-- `AppendBlockFile`: the file to be appended to. -/
def appendBlockFile (files : BlockFiles) : Option Nat :=
  appendFrom files.bytes (0x100000000 - files.nCurrentBlockFile) files.nCurrentBlockFile

variable (pchMessageStart : Vector UInt8 4)

/-- `CBlock::WriteToDisk`: `nFileRet`, `nBlockPosRet` and the files with the block. -/
def writeToDisk (files : BlockFiles) (block : CBlock uint256) :
    Option (Nat × UInt32 × BlockFiles) :=
  files.appendBlockFile.map fun nFile =>
    let fileout := files.bytes nFile ++ pchMessageStart.toList ++ putUInt32 block.getSerializeSize
    (nFile, UInt32.ofNat fileout.length,
      { bytes := fun n => if n = nFile then fileout ++ putCBlock block else files.bytes n
        nCurrentBlockFile := nFile })

/-- Blocks that are written one after the other. -/
def writeAll (files : BlockFiles) (blocks : List (CBlock uint256)) : Option BlockFiles :=
  blocks.foldlM (fun files block =>
    (files.writeToDisk pchMessageStart block).map fun written => written.2.2) files

/-- `CTransaction::ReadFromDisk(CDiskTxPos)` of a new transaction. -/
def readTransaction (sizes : ElementSizes) (files : BlockFiles) (pos : CDiskTxPos) :
    Option (CTransaction uint256) :=
  if opens pos.nFile then
    (unserializeTransaction sizes ((files.bytes pos.nFile).drop pos.nTxPos)).map Prod.fst
  else none

/-- Every file holds what it held before, at the same place. -/
def Extends (files later : BlockFiles) : Prop := ∀ nFile, files.bytes nFile <+: later.bytes nFile

variable {files written later : BlockFiles} {pchMessageStart}

/-- **A block is appended** to a file that leaves room for it. -/
theorem appendFrom_some {bytes : Nat → Bytes} {tries start nFile : Nat}
    (h : appendFrom bytes tries start = some nFile) :
    opens nFile ∧ (bytes nFile).length < 0x7F000000 - MAX_SIZE := by
  induction tries generalizing start with
  | zero => cases h
  | succ tries ih =>
    unfold appendFrom at h
    split at h
    · cases h
    · rename_i hopens
      split at h
      · rename_i hshort
        cases h
        exact ⟨by simpa using hopens, hshort⟩
      · exact ih h

theorem writeToDisk_some {block : CBlock uint256} {nFile : Nat} {nBlockPos : UInt32}
    (h : files.writeToDisk pchMessageStart block = some (nFile, nBlockPos, written)) :
    opens nFile ∧ files.Extends written ∧ nBlockPos.toNat < 0x7F000000 ∧
      ∃ before, written.bytes nFile = before ++ putCBlock block ∧ before.length = nBlockPos.toNat := by
  obtain ⟨_, happend, heq⟩ := Option.map_eq_some_iff.mp h
  cases heq
  obtain ⟨hopens, hshort⟩ := appendFrom_some happend
  have hlength : (files.bytes nFile ++ pchMessageStart.toList ++
      putUInt32 block.getSerializeSize).length = (files.bytes nFile).length + 8 := by
    simp only [length_append, Vector.length_toList, putUInt32, length_putLE]
  have hroom : (files.bytes nFile).length + 8 < 0x7F000000 := by
    have hmax : MAX_SIZE = 0x02000000 := rfl
    omega
  have hpos : (UInt32.ofNat (files.bytes nFile ++ pchMessageStart.toList ++
      putUInt32 block.getSerializeSize).length).toNat = (files.bytes nFile).length + 8 := by
    rw [hlength]
    exact UInt32.toNat_ofNat_of_lt' (Nat.lt_trans hroom (by decide))
  refine ⟨hopens, ?_, hpos ▸ hroom, _, if_pos rfl, hlength.trans hpos.symm⟩
  intro n
  show files.bytes n <+: if n = nFile then _ else files.bytes n
  split
  · rename_i heq
    rw [heq, append_assoc, append_assoc]
    exact prefix_append _ _
  · exact prefix_refl _

/-- **The files are append-only**, over any run of written blocks. -/
theorem extends_writeAll {blocks : List (CBlock uint256)}
    (h : files.writeAll pchMessageStart blocks = some later) : files.Extends later := by
  induction blocks generalizing files with
  | nil =>
    cases h
    exact fun _ => prefix_refl _
  | cons block blocks ih =>
    obtain ⟨next, hnext, hrest⟩ := OptionLoop.foldlM_cons h
    obtain ⟨⟨nFile, nBlockPos, written⟩, hwrite, rfl⟩ := Option.map_eq_some_iff.mp hnext
    intro n
    exact ((writeToDisk_some hwrite).2.1 n).trans (ih hrest n)

end BlockFiles

/-- `nTxPos` of `ConnectBlock` at one of the transactions. -/
def CBlock.predictTxPos (block : CBlock uint256) (nBlockPos : UInt32) (i : Nat) : UInt32 :=
  (block.vtx.take i).foldl (fun nTxPos tx => nTxPos + tx.getSerializeSize)
    (nBlockPos + CBlock.null.getSerializeSize - 2 * getSizeOfCompactSize 0 +
      getSizeOfCompactSize block.vtx.length)

namespace Ledger

variable {H : Type} [Ord H] [TransOrd H] [LawfulEqOrd H] {index index' : TxIndexMap H}

/-- The position recorded for a transaction. -/
def posAt (index : TxIndexMap H) (hash : H) : Option CDiskTxPos := index[hash]?.map CTxIndex.pos

/-- A spent output leaves its transaction where it is. -/
theorem posAt_spends {pos : CDiskTxPos} {prevouts : List (COutPoint H)}
    (h : prevouts.foldlM (spend pos) index = some index') (hash : H) :
    posAt index' hash = posAt index hash := by
  refine OptionLoop.foldlM_invariant (fun mid => posAt mid hash = posAt index hash) ?_ h rfl
  intro prevout _ mid next hmid hspend
  obtain ⟨txindex, hlook, _, rfl⟩ := spend_eq_some.mp hspend
  rw [← hmid]
  unfold posAt
  rw [ExtTreeMap.getElem?_insert]
  split
  · rename_i heq
    rw [← LawfulEqCmp.eq_of_compare heq, hlook]
    rfl
  · rfl

variable [DecidableEq H] {sha : Sha256 H}

theorem posAt_connectTx {pos : CDiskTxPos} {tx : CTransaction H}
    (h : connectTx sha pos index tx = some index') (hash : H) :
    posAt index' hash = if tx.getHash sha = hash then some pos else posAt index hash := by
  obtain ⟨spent, hspent, rfl⟩ := Option.map_eq_some_iff.mp h
  rw [← posAt_spends hspent hash]
  unfold posAt
  rw [ExtTreeMap.getElem?_insert]
  simp only [LawfulEqCmp.compare_eq_iff_eq]
  split
  · rfl
  · rfl

variable {nFile nBlockPos nTxPos : Nat} {txs : List (CTransaction H)}

/-- Transactions keep the positions of others. -/
theorem posAt_connectTxs
    (h : connectTxs sha nFile nBlockPos nTxPos txs index = some index') {hash : H}
    (hother : hash ∉ txs.map (CTransaction.getHash sha)) : posAt index' hash = posAt index hash := by
  induction txs generalizing index nTxPos with
  | nil =>
    cases h
    rfl
  | cons tx txs ih =>
    obtain ⟨mid, hmid, hrest⟩ := Option.bind_eq_some_iff.mp h
    rw [map_cons, List.mem_cons, not_or] at hother
    rw [ih hrest hother.2, posAt_connectTx hmid, if_neg (Ne.symm hother.1)]

/-- **Distinct transactions are recorded one behind the other.** -/
theorem posAt_getElem (hdistinct : (txs.map (CTransaction.getHash sha)).Nodup)
    (h : connectTxs sha nFile nBlockPos nTxPos txs index = some index') {i : Nat}
    (hi : i < txs.length) : posAt index' (txs[i].getHash sha) =
      some ⟨nFile, nBlockPos, nTxPos + ((txs.take i).map CTransaction.serializeSize).sum⟩ := by
  induction txs generalizing index nTxPos i with
  | nil => cases hi
  | cons tx txs ih =>
    obtain ⟨mid, hmid, hrest⟩ := Option.bind_eq_some_iff.mp h
    rw [map_cons, nodup_cons] at hdistinct
    cases i with
    | zero =>
      rw [getElem_cons_zero, posAt_connectTxs hrest hdistinct.1, posAt_connectTx hmid, if_pos rfl]
      rfl
    | succ i =>
      rw [getElem_cons_succ, ih hdistinct.2 hrest (Nat.lt_of_succ_lt_succ hi),
        take_succ_cons, map_cons, sum_cons, Nat.add_assoc]

end Ledger

/-- What is hashed is as long as it is counted. -/
theorem length_toBytes (data : Preimage uint256) : data.toBytes.length = Preimage.size data := by
  rw [Preimage.toBytes, length_flatMap, Preimage.size]
  congr 1
  apply map_congr_left
  intro atom _
  cases atom with
  | byte b => rfl
  | digest h => exact length_putLE 32 _

theorem CTransaction.serializeSize_eq (tx : CTransaction uint256) :
    tx.serializeSize = (putCTransaction tx).length := by
  rw [serializeSize, ← length_toBytes, tx.toBytes_serialize]

theorem CBlockHeader.toBytes_serialize (header : CBlockHeader uint256) :
    header.serialize.toBytes = putCBlockHeader header := by
  have hdigest : ∀ (h : uint256) (data : Preimage uint256),
      Preimage.toBytes (.digest h :: data) = putHash h ++ data.toBytes := fun _ _ => rfl
  simp only [CBlockHeader.serialize, hdigest, feedLE, toBytes_append, toBytes_feed, putCBlockHeader,
    putUInt32, append_assoc]

theorem CMWBlock.toBytes_serialize (block : CMWBlock uint256) :
    block.serialize.toBytes = putCMWBlock block := by
  have hdigest : ∀ (h : uint256) (data : Preimage uint256),
      Preimage.toBytes (.digest h :: data) = putHash h ++ data.toBytes := fun _ _ => rfl
  simp only [CMWBlock.serialize, hdigest, toBytes_feed, putCMWBlock, append_assoc]

namespace CBlock

variable (block : CBlock uint256)

/-- The size that `CheckBlock` limits is that of the bytes. -/
theorem serializeSize_eq : block.serializeSize = (putCBlock block).length := by
  have hsizes : block.vtx.map CTransaction.serializeSize =
      block.vtx.map fun tx => (putCTransaction tx).length :=
    map_congr_left fun tx _ => tx.serializeSize_eq
  have hpart : (if block.hasMWEBVersion then Preimage.size block.mwExtBlock.serialize else 0) =
      (if block.hasMWEBVersion then putCMWBlock block.mwExtBlock else []).length := by
    split
    · rw [← length_toBytes, block.mwExtBlock.toBytes_serialize]
    · rfl
  rw [serializeSize, hpart, hsizes, ← length_flatMap, ← length_toBytes,
    block.toCBlockHeader.toBytes_serialize, putCBlock]
  simp only [putVec, length_append]
  omega

/-- What a block writes before one of its transactions. -/
def putBefore (i : Nat) : Bytes :=
  putCBlockHeader block.toCBlockHeader ++ putCompactSize block.vtx.length ++
    (block.vtx.take i).flatMap putCTransaction

theorem putCBlock_eq {i : Nat} (hi : i < block.vtx.length) :
    ∃ rest, putCBlock block = block.putBefore i ++ (putCTransaction block.vtx[i] ++ rest) := by
  have hvtx : block.vtx = block.vtx.take i ++ block.vtx[i] :: block.vtx.drop (i + 1) := by
    rw [getElem_cons_drop, take_append_drop]
  have hflat : block.vtx.flatMap putCTransaction = (block.vtx.take i).flatMap putCTransaction ++
      (putCTransaction block.vtx[i] ++ (block.vtx.drop (i + 1)).flatMap putCTransaction) := by
    conv => lhs; rw [hvtx]
    rw [flatMap_append, flatMap_cons]
  refine ⟨(block.vtx.drop (i + 1)).flatMap putCTransaction ++ (putVec putByte block.vchBlockSig ++
    if block.hasMWEBVersion then putCMWBlock block.mwExtBlock else []), ?_⟩
  simp only [putCBlock, putBefore, putVec, hflat, append_assoc]

/-- The transactions are written one behind the other from `firstTxPos` on. -/
theorem firstTxPos_add (nBlockPos i : Nat) :
    block.firstTxPos nBlockPos + ((block.vtx.take i).map CTransaction.serializeSize).sum =
      nBlockPos + (block.putBefore i).length := by
  have hsizes : (block.vtx.take i).map CTransaction.serializeSize =
      (block.vtx.take i).map fun tx => (putCTransaction tx).length :=
    map_congr_left fun tx _ => tx.serializeSize_eq
  rw [hsizes, ← length_flatMap, firstTxPos, putBefore, length_append, length_append,
    length_putCBlockHeader]
  omega

/-- **What is predicted is what is written**, up to multiples of `2 ^ 32`. -/
theorem predictTxPos_eq (nBlockPos : UInt32) (i : Nat) : block.predictTxPos nBlockPos i =
      nBlockPos + UInt32.ofNat (block.putBefore i).length := by
  have hloop : ∀ (txs : List (CTransaction uint256)) (nTxPos : UInt32),
      txs.foldl (fun nTxPos tx => nTxPos + tx.getSerializeSize) nTxPos =
        nTxPos + UInt32.ofNat (txs.flatMap putCTransaction).length := by
    intro txs
    induction txs with
    | nil => exact fun nTxPos => (UInt32.add_zero nTxPos).symm
    | cons tx txs ih =>
      intro nTxPos
      rw [foldl_cons, ih, measures_transaction tx, flatMap_cons, length_append,
        UInt32.ofNat_add, UInt32.add_assoc]
  -- An empty block is its header and the counts of two empty vectors.
  have hempty : ∀ n : UInt32, n + CBlock.null.getSerializeSize - 2 * getSizeOfCompactSize 0 =
      n + UInt32.ofNat HEADER_SIZE := by
    intro n
    have hsize : CBlock.null.getSerializeSize = UInt32.ofNat HEADER_SIZE + 2 := by decide
    have hwidth : getSizeOfCompactSize 0 = 1 := rfl
    rw [hsize, hwidth, ← UInt32.add_assoc]
    exact UInt32.add_sub_cancel _ _
  rw [predictTxPos, hloop, hempty, measures_compactSize, putBefore, length_append,
    length_append, length_putCBlockHeader, UInt32.ofNat_add, UInt32.ofNat_add,
    UInt32.add_assoc, UInt32.add_assoc, UInt32.add_assoc]

theorem size_of_checkBlock {c : Consensus uint256} {block : CBlock uint256} {adjustedTime : Int}
    {fCheckPOW fCheckMerkleRoot fCheckSig : Bool}
    (h : block.checkBlock c adjustedTime fCheckPOW fCheckMerkleRoot fCheckSig) :
    block.serializeSize ≤ MAX_BLOCK_SIZE := by
  unfold checkBlock at h
  simp only [Bool.and_eq_true, decide_eq_true_eq] at h
  obtain ⟨⟨⟨⟨⟨⟨⟨⟨⟨⟨_, hsize⟩, _⟩, _⟩, _⟩, _⟩, _⟩, _⟩, _⟩, _⟩, _⟩ := h
  exact hsize

/-- Behind a marker in a file, no prediction for a block of the size that `CheckBlock` allows
leaves an `unsigned int`. -/
theorem toNat_predictTxPos {nBlockPos : UInt32} (hpos : nBlockPos.toNat < 0x7F000000)
    (hsize : block.serializeSize ≤ MAX_BLOCK_SIZE) {i : Nat} (hi : i < block.vtx.length) :
    (block.predictTxPos nBlockPos i).toNat = nBlockPos.toNat + (block.putBefore i).length := by
  obtain ⟨rest, hblock⟩ := block.putCBlock_eq hi
  have hmax : MAX_BLOCK_SIZE ≤ 0x1000000 := by decide
  have hbefore : (block.putBefore i).length ≤ MAX_BLOCK_SIZE := by
    rw [serializeSize_eq, hblock, length_append] at hsize
    omega
  rw [predictTxPos_eq, UInt32.toNat_add, UInt32.toNat_ofNat']
  omega

end CBlock

/-- **Transaction positions on disk.**  What `ConnectBlock` records for the transactions of a
block that `WriteToDisk` stored is where they stand, also after more blocks are written.  The
transactions are such as a reader returns, `exact_transaction`. -/
theorem Node.txPositions_read (c : Consensus uint256) (sizes : ElementSizes)
    (pchMessageStart : Vector UInt8 4) {files written later : BlockFiles} {block : CBlock uint256}
    {nFile : Nat} {nBlockPos : UInt32} {blocks : List (CBlock uint256)}
    {s t : Node uint256} {env : Env uint256} {pindex : CBlockIndex uint256} {pprev : PIndex uint256}
    (hwrite : files.writeToDisk pchMessageStart block = some (nFile, nBlockPos, written))
    (hlater : written.writeAll pchMessageStart blocks = some later)
    (hpindex : pindex.nFile = nFile ∧ pindex.nBlockPos = nBlockPos.toNat)
    (hconnect : s.connectBlock c env block pindex pprev false = (true, t))
    (hencodable : ∀ tx ∈ block.vtx, tx.Encodable) (i : Nat) (hi : i < block.vtx.length) :
    ∃ txindex, t.txdb.readTxIndex (block.vtx[i].getHash c.toSha256) = some txindex ∧
      txindex.pos = ⟨nFile, nBlockPos.toNat, (block.predictTxPos nBlockPos i).toNat⟩ ∧
      later.readTransaction sizes txindex.pos = some block.vtx[i] := by
  obtain ⟨hopens, _, hroom, before, hbytes, hbefore⟩ := BlockFiles.writeToDisk_some hwrite
  obtain ⟨acc, _, hchecks, _, _⟩ := Node.connectBlock_true hconnect
  have hcheck := (Node.connectChecks_some hchecks).1
  obtain ⟨_, _, hshape⟩ := CBlock.checkBlock_shape hcheck
  have hpredict := block.toNat_predictTxPos hroom (CBlock.size_of_checkBlock hcheck) hi
  -- The ledger records the sums of the sizes that the prediction adds up.
  have hrecorded := Ledger.posAt_getElem hshape.distinct (Node.connectBlock_ledger hconnect) hi
  rw [hpindex.1, hpindex.2, block.firstTxPos_add, ← hpredict] at hrecorded
  obtain ⟨txindex, hlook, hpos⟩ := Option.map_eq_some_iff.mp hrecorded
  refine ⟨txindex, hlook, hpos, ?_⟩
  -- What was written is still there, and the transaction behind what the block writes before it.
  obtain ⟨appended, hlonger⟩ := BlockFiles.extends_writeAll hlater nFile
  obtain ⟨rest, hblock⟩ := block.putCBlock_eq hi
  have hdrop : (later.bytes nFile).drop (block.predictTxPos nBlockPos i).toNat =
      putCTransaction block.vtx[i] ++ (rest ++ appended) := by
    rw [hpredict, ← hlonger, hbytes, hblock, ← hbefore, ← length_append, append_assoc,
      append_assoc, ← append_assoc before, drop_left, append_assoc]
  rw [hpos, BlockFiles.readTransaction, if_pos hopens, hdrop,
    (exact_transaction sizes _ _ _).mpr ⟨hencodable _ (getElem_mem hi), rfl⟩]
  rfl

/-- Consensus rules whose cryptography accepts everything and has one digest. -/
def lenient : Consensus uint256 where
  sha256 _ := 7
  zero := 0
  verifyExcess _ _ _ := true
  verifyRangeProof _ _ := true
  commit _ _ := sampleCommitment 1
  commitBlind _ := sampleCommitment 2
  verifySum _ _ := true
  verifySchnorr _ _ _ := true
  hash9 _ := 7
  verifySignature _ _ _ := true
  checkProofOfWork _ _ := true
  checkBlockSignature _ := true
  getNextTargetRequired _ _ := 0
  getBlockTrust _ := 1
  checkHardened _ _ := true
  getTotalBlocksEstimate := 0
  getDevFundScript := none

/-- A block of one coinbase and an extension block. -/
def extendedBlock : CBlock uint256 where
  nVersion := 0x20000001
  hashPrevBlock := 7
  hashMerkleRoot := 7
  nTime := 10
  nBits := 0
  nNonce := 0
  vtx := [⟨1, 10, [⟨⟨0, 0xffffffff⟩, [1, 1, 0], 0⟩], [⟨0, [OP_RETURN]⟩], 0, .null⟩]
  vchBlockSig := []
  mwExtBlock := ⟨9, ⟨[], [], []⟩, [sampleCommitment 3], 1, Vector.replicate 32 0⟩

/-- Surroundings in which everything succeeds. -/
def lenientEnv : Env uint256 where
  adjustedTime := 1000
  readsBlock _ _ := true
  readsTx _ := true
  commits _ := true
  commitsIndex _ := true
  mempool _ := none
  appendsAt := none
  checksProofOfStake _ := true
  checksSync _ := true
  computesStakeModifier _ := true

theorem extendedBlock_encodable : ∀ tx ∈ extendedBlock.vtx, tx.Encodable := by
  have hshort : ∀ n ≤ 3, n ≤ MAX_SIZE := fun n hn => Nat.le_trans hn (by decide)
  refine forall_mem_singleton.mpr ⟨by decide, ⟨hshort 1 (by decide), ?_⟩,
    ⟨hshort 1 (by decide), ?_⟩, ⟨Nat.zero_le _, ⟨Nat.zero_le _, ?_⟩, ⟨Nat.zero_le _, ?_⟩⟩,
    fun _ => rfl⟩
  · exact forall_mem_singleton.mpr (hshort 3 (by decide))
  · exact forall_mem_singleton.mpr (hshort 1 (by decide))
  · exact fun _ hmem => absurd hmem not_mem_nil
  · exact fun _ hmem => absurd hmem not_mem_nil

/-- The theorem at a block that is the first of its file. -/
theorem Node.txPositions_read_extendedBlock : ∃ written t txindex,
      BlockFiles.writeToDisk #v[1, 2, 3, 4] ⟨fun _ => [], 1⟩ extendedBlock = some (1, 8, written) ∧
      (genesis lenient extendedBlock).connectBlock lenient lenientEnv extendedBlock
        (newIndex lenient extendedBlock 1 8 []) [] false = (true, t) ∧
      t.txdb.readTxIndex 7 = some txindex ∧ txindex.pos = ⟨1, 8, 89⟩ ∧
      written.readTransaction sampleSizes txindex.pos = extendedBlock.vtx[0]? := by
  have hpos : (BlockFiles.writeToDisk #v[1, 2, 3, 4] ⟨fun _ => [], 1⟩ extendedBlock).map
      (fun written => (written.1, written.2.1)) = some (1, 8) := by decide +kernel
  obtain ⟨⟨nFile, nBlockPos, written⟩, hwrite, heq⟩ := Option.map_eq_some_iff.mp hpos
  cases heq
  cases hconnect : (genesis lenient extendedBlock).connectBlock lenient lenientEnv extendedBlock
      (newIndex lenient extendedBlock 1 8 []) [] false with
  | mk ok t =>
    have hok : ((genesis lenient extendedBlock).connectBlock lenient lenientEnv extendedBlock
        (newIndex lenient extendedBlock 1 8 []) [] false).1 = true := by decide +kernel
    rw [hconnect] at hok
    cases hok
    have hlater : written.writeAll #v[1, 2, 3, 4] [] = some written := rfl
    obtain ⟨txindex, hlook, hrecorded, hread⟩ := txPositions_read lenient sampleSizes
      #v[1, 2, 3, 4] hwrite hlater ⟨rfl, rfl⟩ hconnect extendedBlock_encodable 0 (by decide)
    exact ⟨written, t, txindex, hwrite, rfl, hlook, hrecorded, hread⟩

end MaryJaneCoin
