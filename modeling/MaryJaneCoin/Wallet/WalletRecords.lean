import MaryJaneCoin.Chain.CanonicalEncoding
import MaryJaneCoin.Lib.Digits

/-!
# The records of the wallet database

`CWalletTx` and `CAccountingEntry` as they are written and read.  Fields that
came late are written in the map of comments, under keys that are taken out of
it afterwards; of an accounting entry the whole map stands in the comment,
behind a NUL.  Writing changes the object and puts it right again.
-/

namespace MaryJaneCoin

open List hiding Vector
open Codec Std

/-- `Serialize` of a `std::string`. -/
def putString (str : Bytes) : Bytes := putVec putByte str

/-- `Unserialize` of a `std::string`. -/
def unserializeString : Get Bytes := fun bytes =>
  (getCompactSize bytes).bind fun nSize =>
    if nSize.1 ≤ nSize.2.length then some (nSize.2.take nSize.1, nSize.2.drop nSize.1) else none

/-- `Serialize` of a `std::pair` of strings. -/
def putPair (item : Bytes × Bytes) : Bytes := putString item.1 ++ putString item.2

def unserializePair : Get (Bytes × Bytes) := fun bytes =>
  (unserializeString bytes).bind fun first =>
  (unserializeString first.2).map fun second => ((first.1, second.1), second.2)

/-- `mapValue_t`. -/
abbrev MapValue := ExtTreeMap Bytes Bytes

/-- `Serialize` of a `std::map`. -/
def putMap (m : MapValue) : Bytes := putVec putPair m.toList

/-- `Unserialize` of a `std::map`.  An entry whose key is there already is
passed over. -/
def unserializeMap : Get MapValue := fun bytes =>
  (getVec unserializePair bytes).map fun read =>
    (read.1.foldl (fun m item => m.insertIfNew item.1 item.2) ∅, read.2)

/-- What limits a string. -/
def ShortString (str : Bytes) : Prop := str.length ≤ MAX_SIZE

/-- What limits a pair of strings. -/
def ShortPair (item : Bytes × Bytes) : Prop := ShortString item.1 ∧ ShortString item.2

theorem reads_string : Reads putString unserializeString ShortString := by
  intro str rest hshort
  have hsize : str.length < 2 ^ 64 := Nat.lt_of_le_of_lt hshort (by decide)
  have hbytes : str.flatMap putByte = str := flatMap_singleton' str
  have hfits : str.length ≤ (str ++ rest).length := by
    rw [length_append]
    exact Nat.le_add_right _ _
  rw [unserializeString, putString, putVec, append_assoc, getCompactSize_put _ hsize,
    if_neg (Nat.not_lt.mpr hshort), Option.bind_some, hbytes, if_pos hfits, take_left, drop_left]

theorem reads_pair : Reads putPair unserializePair ShortPair := by
  intro item rest hshort
  rw [unserializePair, putPair, append_assoc, reads_string _ _ hshort.1, Option.bind_some,
    reads_string _ _ hshort.2, Option.map_some]

/-- **A map is read back.** -/
theorem reads_map : Reads putMap unserializeMap (fun m => ShortVec ShortPair m.toList) := by
  intro m rest hshort
  rw [unserializeMap, putMap, reads_vec reads_pair _ _ hshort, Option.map_some,
    FinMap.foldl_insertIfNew_toList]

theorem reads_blocks {α : Type} {put : α → Bytes} {get : Get α} {valid : α → Prop}
    (h : Reads put get valid) {blk : Nat} (hblk : 0 < blk) :
    Reads (putVec put) (unserializeVec blk get) (ShortVec valid) := by
  intro v rest hv
  have hread := reads_vec h v rest hv
  simp only [unserializeVec, getBlocks_eq_getMany get hblk le_rfl]
  exact hread

def i64tostr (n : Int64) : Bytes := Decimal.ofInt n.toInt

/-- `atoi64`, that is `strtoll`. -/
def atoi64 (str : Bytes) : Int64 := Int64.ofIntClamp (Decimal.readInt str)

theorem atoi64_i64tostr (n : Int64) : atoi64 (i64tostr n) = n := by
  rw [atoi64, i64tostr, Decimal.readInt_ofInt, Int64.ofIntClamp_toInt]

/-- `"fromaccount"`. -/
def keyFromAccount : Bytes := [0x66, 0x72, 0x6f, 0x6d, 0x61, 0x63, 0x63, 0x6f, 0x75, 0x6e, 0x74]

/-- `"version"`. -/
def keyVersion : Bytes := [0x76, 0x65, 0x72, 0x73, 0x69, 0x6f, 0x6e]

/-- `"spent"`. -/
def keySpent : Bytes := [0x73, 0x70, 0x65, 0x6e, 0x74]

/-- `"n"`. -/
def keyOrderPos : Bytes := [0x6e]

/-- `"timesmart"`. -/
def keyTimeSmart : Bytes := [0x74, 0x69, 0x6d, 0x65, 0x73, 0x6d, 0x61, 0x72, 0x74]

def readOrderPos (mapValue : MapValue) : Int64 :=
  match mapValue[keyOrderPos]? with
  | none => -1
  | some str => atoi64 str

def writeOrderPos (nOrderPos : Int64) (mapValue : MapValue) : MapValue :=
  if nOrderPos = -1 then mapValue else mapValue.insert keyOrderPos (i64tostr nOrderPos)

theorem readOrderPos_write (nOrderPos : Int64) {mapValue : MapValue} (hnew : keyOrderPos ∉ mapValue) :
    readOrderPos (writeOrderPos nOrderPos mapValue) = nOrderPos := by
  unfold readOrderPos writeOrderPos
  split_ifs with hunset
  · rw [ExtTreeMap.getElem?_eq_none hnew, hunset]
  · rw [ExtTreeMap.getElem?_insert_self]
    exact atoi64_i64tostr nOrderPos

theorem erase_writeOrderPos (nOrderPos : Int64) {mapValue : MapValue} (hnew : keyOrderPos ∉ mapValue) :
    (writeOrderPos nOrderPos mapValue).erase keyOrderPos = mapValue := by
  unfold writeOrderPos
  split
  · exact FinMap.erase_of_notMem hnew
  · exact FinMap.erase_insert _ hnew

structure CMerkleTx extends CTransaction uint256 where
  hashBlock : uint256
  vMerkleBranch : List uint256
  nIndex : Int32

/-- `CWalletTx`, all that a record holds of it. -/
structure WalletTxRecord extends CMerkleTx where
  vtxPrev : List CMerkleTx
  mapValue : MapValue
  vOrderForm : List (Bytes × Bytes)
  fTimeReceivedIsTxTime : UInt32
  nTimeReceived : UInt32
  nTimeSmart : UInt32
  fFromMe : UInt8
  strFromAccount : Bytes
  vfSpent : List Bool
  nOrderPos : Int64

/-- The `sizeof` of further elements. -/
structure RecordSizes extends ElementSizes where
  merkleTx : Nat
  stringPair : Nat
  fitsRecords : ∀ size ∈ [merkleTx, stringPair], 0 < size ∧ size ≤ 5000000

/-- A transaction within the limits. -/
structure CMerkleTx.Encodable (tx : CMerkleTx) : Prop where
  transaction : tx.toCTransaction.Encodable
  branch : tx.vMerkleBranch.length ≤ MAX_SIZE

/-- `CMerkleTx` as it is written to a stream. -/
def putMerkleTx (tx : CMerkleTx) : Bytes :=
  putCTransaction tx.toCTransaction ++ putHash tx.hashBlock ++ putVec putHash tx.vMerkleBranch ++
    putInt32 tx.nIndex

/-- `Unserialize` of a new `CMerkleTx`. -/
def unserializeMerkleTx (sizes : ElementSizes) : Get CMerkleTx := fun bytes =>
  (unserializeTransaction sizes bytes).bind fun tx =>
  (getHash tx.2).bind fun hashBlock =>
  (unserializeVec (objectBlock 32) getHash hashBlock.2).bind fun vMerkleBranch =>
  (getInt32 vMerkleBranch.2).map fun nIndex =>
    (⟨tx.1, hashBlock.1, vMerkleBranch.1, nIndex.1⟩, nIndex.2)

theorem reads_merkleTx (sizes : ElementSizes) :
    Reads putMerkleTx (unserializeMerkleTx sizes) CMerkleTx.Encodable := by
  intro tx rest henc
  have hbranch : Reads (putVec putHash) (unserializeVec (objectBlock 32) getHash) _ :=
    reads_blocks reads_hash (objectBlock_pos (by decide))
  simp only [unserializeMerkleTx, putMerkleTx, append_assoc]
  rw [(exact_transaction sizes).reads _ _ henc.transaction, Option.bind_some,
    reads_hash _ _ trivial, Option.bind_some, hbranch _ _ ⟨henc.branch, fun _ _ => trivial⟩,
    Option.bind_some, reads_int32 _ _ trivial, Option.map_some]

/-- The keys that `CWalletTx` takes out of its map. -/
def reservedKeys : List Bytes := [keyFromAccount, keyVersion, keySpent, keyOrderPos, keyTimeSmart]

/-- The end of the macro. -/
def eraseReserved (mapValue : MapValue) : MapValue :=
  reservedKeys.foldl (fun m key => m.erase key) mapValue

/-- `strprintf("%u", nTimeSmart)`. -/
def timeText (nTimeSmart : UInt32) : Bytes := Decimal.ofInt nTimeSmart.toNat

/-- A flag for each output, as `mapValue["spent"]` holds them. -/
def spentText (vfSpent : List Bool) : Bytes := vfSpent.map fun f => if f then 49 else 48

/-- The flags that `mapValue["spent"]` holds. -/
def spentFlags (str : Bytes) : List Bool := str.map fun c => c != 48

theorem spentFlags_spentText (vfSpent : List Bool) : spentFlags (spentText vfSpent) = vfSpent := by
  have hflag : ((fun c : UInt8 => c != 48) ∘ fun f : Bool => if f then 49 else 48) = id := by
    funext f
    cases f with
    | false => rfl
    | true => rfl
  rw [spentFlags, spentText, map_map, hflag, map_id]

theorem atoi64_timeText (nTimeSmart : UInt32) :
    UInt32.ofInt (atoi64 (timeText nTimeSmart)).toInt = nTimeSmart := by
  have hlt : nTimeSmart.toNat < 2 ^ 32 := nTimeSmart.toNat_lt
  have hmin : Int64.minValue.toInt = -9223372036854775808 := rfl
  have hmax : Int64.maxValue.toInt = 9223372036854775807 := rfl
  have hmod : ((nTimeSmart.toNat : Int) % 2 ^ 32).toNat = nTimeSmart.toNat := by omega
  rw [atoi64, timeText, Decimal.readInt_ofInt, Int64.toInt_ofIntClamp (by omega) (by omega),
    UInt32.ofInt, hmod, UInt32.ofNat_toNat]

/-- The flags of the outputs, from the map or from the one flag for all. -/
def readSpent (mapValue : MapValue) (nOutputs : Nat) (fSpent : UInt8) : List Bool :=
  match mapValue[keySpent]? with
  | some str => spentFlags str
  | none => List.replicate nOutputs (fSpent != 0)

/-- `nTimeSmart`, from the map. -/
def readTimeSmart (mapValue : MapValue) : UInt32 :=
  match mapValue[keyTimeSmart]? with
  | some str => UInt32.ofInt (atoi64 str).toInt
  | none => 0

namespace WalletTxRecord

variable (wtx : WalletTxRecord)

/-- The map while the transaction is written. -/
def written : MapValue :=
  let mapValue := (wtx.mapValue.insert keyFromAccount wtx.strFromAccount).insert keySpent
    (spentText wtx.vfSpent)
  let mapValue := writeOrderPos wtx.nOrderPos mapValue
  if wtx.nTimeSmart ≠ 0 then mapValue.insert keyTimeSmart (timeText wtx.nTimeSmart) else mapValue

/-- `CWalletTx::Serialize`: what is written, and the object afterwards. -/
def serialize : Bytes × WalletTxRecord :=
  (putMerkleTx wtx.toCMerkleTx ++ putVec putMerkleTx wtx.vtxPrev ++ putMap wtx.written ++
      putVec putPair wtx.vOrderForm ++ putUInt32 wtx.fTimeReceivedIsTxTime ++
      putUInt32 wtx.nTimeReceived ++ putByte wtx.fFromMe ++
      putByte (if wtx.vfSpent.any id then 1 else 0),
    { wtx with mapValue := eraseReserved wtx.written })

/-- `CWalletTx::Unserialize` into a new object. -/
def unserialize (sizes : RecordSizes) : Get WalletTxRecord := fun bytes =>
  (unserializeMerkleTx sizes.toElementSizes bytes).bind fun tx =>
  (unserializeVec (objectBlock sizes.merkleTx) (unserializeMerkleTx sizes.toElementSizes) tx.2).bind
    fun vtxPrev =>
  (unserializeMap vtxPrev.2).bind fun mapValue =>
  (unserializeVec (objectBlock sizes.stringPair) unserializePair mapValue.2).bind fun vOrderForm =>
  (getUInt32 vOrderForm.2).bind fun fTimeReceivedIsTxTime =>
  (getUInt32 fTimeReceivedIsTxTime.2).bind fun nTimeReceived =>
  (getByte nTimeReceived.2).bind fun fFromMe =>
  (getByte fFromMe.2).map fun fSpent =>
    ({ toCMerkleTx := tx.1
       vtxPrev := vtxPrev.1
       mapValue := eraseReserved mapValue.1
       vOrderForm := vOrderForm.1
       fTimeReceivedIsTxTime := fTimeReceivedIsTxTime.1
       nTimeReceived := nTimeReceived.1
       nTimeSmart := readTimeSmart mapValue.1
       fFromMe := fFromMe.1
       strFromAccount := (mapValue.1[keyFromAccount]?).getD []
       vfSpent := readSpent mapValue.1 tx.1.vout.length fSpent.1
       nOrderPos := readOrderPos mapValue.1 },
      fSpent.2)

def Unreserved : Prop := ∀ key ∈ reservedKeys, key ∉ wtx.mapValue

/-- A record within the limits, the map with all that is written in it. -/
structure Encodable : Prop where
  merkle : wtx.toCMerkleTx.Encodable
  vtxPrev : ShortVec CMerkleTx.Encodable wtx.vtxPrev
  written : ShortVec ShortPair wtx.written.toList
  vOrderForm : ShortVec ShortPair wtx.vOrderForm

variable {wtx}

theorem getElem?_writeOrderPos_ne (nOrderPos : Int64) (mapValue : MapValue) {key : Bytes}
    (hne : keyOrderPos ≠ key) : (writeOrderPos nOrderPos mapValue)[key]? = mapValue[key]? := by
  unfold writeOrderPos
  split
  · rfl
  · exact FinMap.getElem?_insert_ne _ _ hne

theorem getElem?_written_ne {key : Bytes} (hne : keyTimeSmart ≠ key) :
    wtx.written[key]? = (writeOrderPos wtx.nOrderPos
      ((wtx.mapValue.insert keyFromAccount wtx.strFromAccount).insert keySpent
        (spentText wtx.vfSpent)))[key]? := by
  simp only [written]
  split
  · exact FinMap.getElem?_insert_ne _ _ hne
  · rfl

theorem getElem?_written_of_notMem {key : Bytes} (hother : key ∉ reservedKeys) :
    wtx.written[key]? = wtx.mapValue[key]? := by
  simp only [reservedKeys, List.mem_cons, not_mem_nil, or_false, not_or] at hother
  obtain ⟨hfrom, -, hspent, horder, htime⟩ := hother
  rw [getElem?_written_ne (Ne.symm htime), getElem?_writeOrderPos_ne _ _ (Ne.symm horder),
    FinMap.getElem?_insert_ne _ _ (Ne.symm hspent), FinMap.getElem?_insert_ne _ _ (Ne.symm hfrom)]

theorem written_fromAccount : wtx.written[keyFromAccount]? = some wtx.strFromAccount := by
  rw [getElem?_written_ne (by decide), getElem?_writeOrderPos_ne _ _ (by decide),
    FinMap.getElem?_insert_ne _ _ (by decide), ExtTreeMap.getElem?_insert_self]

theorem written_spent : wtx.written[keySpent]? = some (spentText wtx.vfSpent) := by
  rw [getElem?_written_ne (by decide), getElem?_writeOrderPos_ne _ _ (by decide),
    ExtTreeMap.getElem?_insert_self]

theorem readOrderPos_written (hkeys : wtx.Unreserved) : readOrderPos wtx.written = wtx.nOrderPos := by
  have hnew : keyOrderPos ∉ (wtx.mapValue.insert keyFromAccount wtx.strFromAccount).insert keySpent
      (spentText wtx.vfSpent) := by
    have hmap : keyOrderPos ∉ wtx.mapValue := hkeys _ (by decide)
    rw [ExtTreeMap.mem_insert, ExtTreeMap.mem_insert, not_or, not_or]
    exact ⟨by decide, by decide, hmap⟩
  rw [readOrderPos, getElem?_written_ne (by decide)]
  exact readOrderPos_write wtx.nOrderPos hnew

theorem readTimeSmart_written (hkeys : wtx.Unreserved) : readTimeSmart wtx.written = wtx.nTimeSmart := by
  have hmap : keyTimeSmart ∉ wtx.mapValue := hkeys _ (by decide)
  simp only [readTimeSmart, written]
  split_ifs with htime
  · rw [ExtTreeMap.getElem?_insert_self]
    exact atoi64_timeText wtx.nTimeSmart
  · rw [getElem?_writeOrderPos_ne _ _ (by decide), FinMap.getElem?_insert_ne _ _ (by decide),
      FinMap.getElem?_insert_ne _ _ (by decide), ExtTreeMap.getElem?_eq_none hmap]
    exact (not_not.mp htime).symm

/-- **The keys that were put in are taken out.** -/
theorem eraseReserved_written (hkeys : wtx.Unreserved) : eraseReserved wtx.written = wtx.mapValue := by
  apply ExtTreeMap.ext_getElem?
  intro key
  obtain ⟨hin, hout⟩ := FinMap.getElem?_foldl_erase reservedKeys wtx.written key
  by_cases hkey : key ∈ reservedKeys
  · rw [eraseReserved, hin hkey, ExtTreeMap.getElem?_eq_none (hkeys key hkey)]
  · rw [eraseReserved, hout hkey, getElem?_written_of_notMem hkey]

/-- **Writing leaves the object as it was.** -/
theorem serialize_object (hkeys : wtx.Unreserved) : wtx.serialize.2 = wtx := by
  rw [serialize, eraseReserved_written hkeys]

/-- **What is written of a transaction is read back.** -/
theorem unserialize_serialize (sizes : RecordSizes) (rest : Bytes) (hkeys : wtx.Unreserved)
    (henc : wtx.Encodable) : unserialize sizes (wtx.serialize.1 ++ rest) = some (wtx, rest) := by
  have hprev := reads_blocks (reads_merkleTx sizes.toElementSizes)
    (objectBlock_pos (sizes.fitsRecords sizes.merkleTx (by simp)))
  have hform := reads_blocks reads_pair
    (objectBlock_pos (sizes.fitsRecords sizes.stringPair (by simp)))
  simp only [unserialize, serialize, append_assoc]
  rw [reads_merkleTx _ _ _ henc.merkle, Option.bind_some, hprev _ _ henc.vtxPrev, Option.bind_some,
    reads_map _ _ henc.written, Option.bind_some, hform _ _ henc.vOrderForm, Option.bind_some,
    exact_uint32.reads _ _ trivial, Option.bind_some, exact_uint32.reads _ _ trivial,
    Option.bind_some, exact_byte.reads _ _ trivial, Option.bind_some,
    exact_byte.reads _ _ trivial, Option.map_some]
  have hspent : readSpent wtx.written wtx.vout.length (if wtx.vfSpent.any id then 1 else 0) =
      wtx.vfSpent := by
    rw [readSpent, written_spent]
    exact spentFlags_spentText wtx.vfSpent
  rw [hspent, eraseReserved_written hkeys, readTimeSmart_written hkeys, written_fromAccount,
    readOrderPos_written hkeys]
  rfl

end WalletTxRecord

structure CAccountingEntry where
  strAccount : Bytes
  nCreditDebit : Int64
  nTime : Int64
  strOtherAccount : Bytes
  strComment : Bytes
  mapValue : MapValue
  nOrderPos : Int64
  nEntryNo : UInt64
  /-- `_ssExtra`. -/
  ssExtra : Bytes

/-- `strComment.find("\0", 0, 1)`. -/
def sepPos (strComment : Bytes) : Option Nat := strComment.idxOf? 0

/-- `strComment.erase(nSepPos)`, where there is a separator. -/
def eraseFromSep (strComment : Bytes) : Bytes :=
  match sepPos strComment with
  | none => strComment
  | some nSepPos => strComment.take nSepPos

theorem sepPos_append {strComment : Bytes} (hplain : 0 ∉ strComment) (behind : Bytes) :
    sepPos (strComment ++ 0 :: behind) = some strComment.length := by
  induction strComment with
  | nil => rw [sepPos, nil_append, idxOf?_cons, if_pos (beq_self_eq_true _), length_nil]
  | cons c strComment ih =>
    rw [List.mem_cons, not_or] at hplain
    have hne : ¬(c == 0) = true := by
      rw [beq_iff_eq]
      exact Ne.symm hplain.1
    have htail := ih hplain.2
    rw [sepPos] at htail
    rw [sepPos, cons_append, idxOf?_cons, if_neg hne, htail, Option.map_some, length_cons]

theorem sepPos_eq_none {strComment : Bytes} (hplain : 0 ∉ strComment) : sepPos strComment = none :=
  idxOf?_eq_none_iff.mpr hplain

namespace CAccountingEntry

variable (entry : CAccountingEntry)

/-- The map while the entry is written. -/
def written : MapValue := writeOrderPos entry.nOrderPos entry.mapValue

/-- The comment while the entry is written. -/
def writtenComment : Bytes :=
  if entry.written.isEmpty && entry.ssExtra.isEmpty then entry.strComment
  else entry.strComment ++ 0 :: (putMap entry.written ++ entry.ssExtra)

/-- `CAccountingEntry::Serialize`: what is written, and the object afterwards.  The
version is not hashed. -/
def serialize (forHash : Bool) (nVersion : Int32) : Bytes × CAccountingEntry :=
  ((if forHash then [] else putInt32 nVersion) ++ putInt64 entry.nCreditDebit ++
      putInt64 entry.nTime ++ putString entry.strOtherAccount ++ putString entry.writtenComment,
    { entry with
      strComment := eraseFromSep entry.writtenComment
      mapValue := entry.written.erase keyOrderPos })

/-- What stands behind the separator: the map and the extra bytes. -/
def readExtra (entry : CAccountingEntry) (strComment : Bytes) : Option (MapValue × Bytes) :=
  match sepPos strComment with
  | none => some (∅, entry.ssExtra)
  | some nSepPos => unserializeMap (strComment.drop (nSepPos + 1))

/-- `CAccountingEntry::Unserialize` into an object.  The account and the number are no
part of the record, and the extra bytes stay where there is no separator. -/
def unserialize (forHash : Bool) : Get CAccountingEntry := fun bytes =>
  (getIf (!forHash) getInt32 0 bytes).bind fun nVersion =>
  (getInt64 nVersion.2).bind fun nCreditDebit =>
  (getInt64 nCreditDebit.2).bind fun nTime =>
  (unserializeString nTime.2).bind fun strOtherAccount =>
  (unserializeString strOtherAccount.2).bind fun strComment =>
  (entry.readExtra strComment.1).map fun extra =>
    ({ entry with
       nCreditDebit := nCreditDebit.1
       nTime := nTime.1
       strOtherAccount := strOtherAccount.1
       strComment := eraseFromSep strComment.1
       mapValue := extra.1.erase keyOrderPos
       nOrderPos := readOrderPos extra.1
       ssExtra := extra.2 },
      strComment.2)

/-- The comment has no separator, and no key of the map is reserved. -/
structure Unreserved : Prop where
  comment : 0 ∉ entry.strComment
  mapValue : keyOrderPos ∉ entry.mapValue

/-- A record within the limits, the comment with all that is written in it. -/
structure Encodable : Prop where
  otherAccount : ShortString entry.strOtherAccount
  written : ShortVec ShortPair entry.written.toList
  comment : ShortString entry.writtenComment

variable {entry}

theorem writtenComment_cases :
    (entry.written = ∅ ∧ entry.ssExtra = [] ∧ entry.writtenComment = entry.strComment) ∨
      entry.writtenComment = entry.strComment ++ 0 :: (putMap entry.written ++ entry.ssExtra) := by
  unfold writtenComment
  split
  · rename_i hempty
    rw [Bool.and_eq_true, ExtTreeMap.isEmpty_iff, List.isEmpty_iff] at hempty
    exact Or.inl ⟨hempty.1, hempty.2, rfl⟩
  · exact Or.inr rfl

theorem eraseFromSep_writtenComment (hplain : 0 ∉ entry.strComment) :
    eraseFromSep entry.writtenComment = entry.strComment := by
  rcases @writtenComment_cases entry with ⟨-, -, heq⟩ | heq
  · rw [heq, eraseFromSep, sepPos_eq_none hplain]
  · rw [heq, eraseFromSep, sepPos_append hplain]
    exact take_left

/-- What was put behind the separator is found there. -/
theorem readExtra_writtenComment (target : CAccountingEntry) (hplain : 0 ∉ entry.strComment)
    (hshort : ShortVec ShortPair entry.written.toList) (hnew : target.ssExtra = []) :
    target.readExtra entry.writtenComment = some (entry.written, entry.ssExtra) := by
  rcases @writtenComment_cases entry with ⟨hmap, hextra, heq⟩ | heq
  · rw [heq, readExtra, sepPos_eq_none hplain, hmap, hextra, hnew]
  · have hbehind : (entry.strComment ++ 0 :: (putMap entry.written ++ entry.ssExtra)).drop
        (entry.strComment.length + 1) = putMap entry.written ++ entry.ssExtra := by
      rw [← drop_drop, drop_left, drop_one, tail_cons]
    rw [heq, readExtra, sepPos_append hplain]
    simp only [hbehind]
    exact reads_map _ _ hshort

/-- **Writing leaves the object as it was.** -/
theorem serialize_object (forHash : Bool) (nVersion : Int32) (hkeys : entry.Unreserved) :
    (entry.serialize forHash nVersion).2 = entry := by
  have hmap : entry.written.erase keyOrderPos = entry.mapValue :=
    erase_writeOrderPos entry.nOrderPos hkeys.mapValue
  rw [serialize, eraseFromSep_writtenComment hkeys.comment, hmap]

/-- **What is written of an entry is read back** into a new object. -/
theorem unserialize_serialize (target : CAccountingEntry) (forHash : Bool) (nVersion : Int32)
    (rest : Bytes) (hkeys : entry.Unreserved) (henc : entry.Encodable) (hnew : target.ssExtra = []) :
    target.unserialize forHash ((entry.serialize forHash nVersion).1 ++ rest) =
      some ({ entry with strAccount := target.strAccount, nEntryNo := target.nEntryNo }, rest) := by
  have hversion : ∀ bytes, ∃ read, getIf (!forHash) getInt32 0
      ((if forHash then [] else putInt32 nVersion) ++ bytes) = some (read, bytes) := by
    intro bytes
    cases forHash with
    | true => exact ⟨0, rfl⟩
    | false => exact ⟨nVersion, reads_int32 nVersion bytes trivial⟩
  have hmap : entry.written.erase keyOrderPos = entry.mapValue :=
    erase_writeOrderPos entry.nOrderPos hkeys.mapValue
  have horder : readOrderPos entry.written = entry.nOrderPos :=
    readOrderPos_write entry.nOrderPos hkeys.mapValue
  simp only [unserialize, serialize, append_assoc]
  obtain ⟨read, hread⟩ := hversion (putInt64 entry.nCreditDebit ++ (putInt64 entry.nTime ++
    (putString entry.strOtherAccount ++ (putString entry.writtenComment ++ rest))))
  rw [hread, Option.bind_some, reads_int64 _ _ trivial, Option.bind_some, reads_int64 _ _ trivial,
    Option.bind_some, reads_string _ _ henc.otherAccount, Option.bind_some,
    reads_string _ _ henc.comment, Option.bind_some,
    readExtra_writtenComment target hkeys.comment henc.written hnew, Option.map_some,
    eraseFromSep_writtenComment hkeys.comment, hmap, horder]

end CAccountingEntry

/-- **Records of the wallet are read back, and writing leaves the objects alone.**
The account and the number of an entry stand in the key of its record. -/
theorem walletRecords_round_trip (sizes : RecordSizes) :
    (∀ wtx : WalletTxRecord, wtx.Unreserved → wtx.serialize.2 = wtx ∧
      (wtx.Encodable → ∀ rest,
        WalletTxRecord.unserialize sizes (wtx.serialize.1 ++ rest) = some (wtx, rest))) ∧
    (∀ (entry : CAccountingEntry) (forHash : Bool) (nVersion : Int32), entry.Unreserved →
      (entry.serialize forHash nVersion).2 = entry ∧
      (entry.Encodable → ∀ (target : CAccountingEntry) (rest : Bytes), target.ssExtra = [] →
        target.unserialize forHash ((entry.serialize forHash nVersion).1 ++ rest) =
          some ({ entry with strAccount := target.strAccount, nEntryNo := target.nEntryNo }, rest))) := by
  refine ⟨fun wtx hkeys => ⟨WalletTxRecord.serialize_object hkeys, fun henc rest => ?_⟩,
    fun entry forHash nVersion hkeys =>
      ⟨CAccountingEntry.serialize_object forHash nVersion hkeys, fun henc target rest hnew => ?_⟩⟩
  · exact WalletTxRecord.unserialize_serialize sizes rest hkeys henc
  · exact CAccountingEntry.unserialize_serialize target forHash nVersion rest hkeys henc hnew

/-- The blocks that vectors are read in on a 64-bit platform. -/
def sampleRecordSizes : RecordSizes := ⟨sampleSizes, 208, 64, by decide⟩

/-- A transaction with two outputs, the second spent. -/
def sampleRecord : WalletTxRecord where
  nVersion := 1
  nTime := 5
  vin := []
  vout := [⟨7, []⟩, ⟨8, []⟩]
  nLockTime := 0
  mwTx := CMWTransaction.null
  hashBlock := 3
  vMerkleBranch := [4]
  nIndex := 0
  vtxPrev := []
  mapValue := (∅ : MapValue).insert [0x74, 0x6f] [0x62]
  vOrderForm := []
  fTimeReceivedIsTxTime := 0
  nTimeReceived := 5
  nTimeSmart := 6
  fFromMe := 1
  strFromAccount := [0x61]
  vfSpent := [false, true]
  nOrderPos := 2

/-- An entry with a map and extra bytes, but without a position. -/
def sampleEntry : CAccountingEntry where
  strAccount := []
  nCreditDebit := 9
  nTime := 5
  strOtherAccount := [0x62]
  strComment := [0x63]
  mapValue := (∅ : MapValue).insert [0x74, 0x6f] [0x62]
  nOrderPos := -1
  nEntryNo := 1
  ssExtra := [0, 1]

theorem sampleRecord_unreserved : sampleRecord.Unreserved := by
  have hall : (reservedKeys.all fun key => !sampleRecord.mapValue.contains key) = true := by decide
  intro key hkey hmem
  have hnot := all_eq_true.mp hall key hkey
  rw [ExtTreeMap.contains_iff_mem.mpr hmem] at hnot
  cases hnot

theorem shortPairs_of_all {items : List (Bytes × Bytes)} {bound : Nat} (hbound : bound ≤ MAX_SIZE)
    (hlength : items.length ≤ bound)
    (hall : (items.all fun item => item.1.length ≤ bound && item.2.length ≤ bound) = true) :
    ShortVec ShortPair items := by
  refine ⟨Nat.le_trans hlength hbound, fun item hmem => ?_⟩
  have hitem := all_eq_true.mp hall item hmem
  rw [Bool.and_eq_true, decide_eq_true_eq, decide_eq_true_eq] at hitem
  exact ⟨Nat.le_trans hitem.1 hbound, Nat.le_trans hitem.2 hbound⟩

theorem sampleRecord_encodable : sampleRecord.Encodable := by
  have hshort : ∀ n ≤ 20, n ≤ MAX_SIZE := fun n hn => Nat.le_trans hn (by decide)
  have hbody : CMWTransaction.null.body.Encodable :=
    ⟨Nat.zero_le _, ⟨Nat.zero_le _, fun _ hmem => absurd hmem not_mem_nil⟩,
      ⟨Nat.zero_le _, fun _ hmem => absurd hmem not_mem_nil⟩⟩
  have hvin : ShortVec (fun txin : CTxIn uint256 => txin.scriptSig.length ≤ MAX_SIZE) [] :=
    ⟨Nat.zero_le _, fun _ hmem => absurd hmem not_mem_nil⟩
  have hvout : ShortVec (fun txout : CTxOut => txout.scriptPubKey.length ≤ MAX_SIZE)
      sampleRecord.vout :=
    ⟨hshort 2 (by decide), forall_mem_cons.mpr ⟨Nat.zero_le _, forall_mem_singleton.mpr (Nat.zero_le _)⟩⟩
  exact {
    merkle := ⟨⟨by decide, hvin, hvout, hbody, fun _ => rfl⟩, hshort 1 (by decide)⟩
    vtxPrev := ⟨Nat.zero_le _, fun _ hmem => absurd hmem not_mem_nil⟩
    written := shortPairs_of_all (hshort 20 (by decide)) (by decide) (by decide)
    vOrderForm := shortPairs_of_all (hshort 0 (by decide)) (by decide) (by decide) }

theorem sampleEntry_unreserved : sampleEntry.Unreserved := ⟨by decide, by decide⟩

theorem sampleEntry_encodable : sampleEntry.Encodable := by
  have hshort : ∀ n ≤ 20, n ≤ MAX_SIZE := fun n hn => Nat.le_trans hn (by decide)
  exact {
    otherAccount := hshort 1 (by decide)
    written := shortPairs_of_all (hshort 20 (by decide)) (by decide) (by decide)
    comment := hshort _ (by decide) }

theorem walletRecords_round_trip_sample :
    (sampleRecord.serialize.2 = sampleRecord ∧
      WalletTxRecord.unserialize sampleRecordSizes (sampleRecord.serialize.1 ++ [9]) =
        some (sampleRecord, [9])) ∧
    (sampleEntry.serialize false 60000).2 = sampleEntry ∧
      CAccountingEntry.unserialize { sampleEntry with ssExtra := [] } false
        ((sampleEntry.serialize false 60000).1 ++ [9]) = some (sampleEntry, [9]) := by
  obtain ⟨hrecord, hentry⟩ := walletRecords_round_trip sampleRecordSizes
  obtain ⟨hobject, hread⟩ := hrecord sampleRecord sampleRecord_unreserved
  obtain ⟨hobject', hread'⟩ := hentry sampleEntry false 60000 sampleEntry_unreserved
  exact ⟨⟨hobject, hread sampleRecord_encodable [9]⟩, hobject',
    hread' sampleEntry_encodable { sampleEntry with ssExtra := [] } [9] rfl⟩

/-- A transaction without a version is refused when it is read. -/
theorem WalletTxRecord.unserialize_unversioned (sizes : RecordSizes) (wtx : WalletTxRecord)
    (rest : Bytes) (hversion : wtx.nVersion < 1) : unserialize sizes (wtx.serialize.1 ++ rest) = none := by
  simp only [unserialize, serialize, unserializeMerkleTx, putMerkleTx, unserializeTransaction,
    putCTransaction, append_assoc]
  rw [reads_int32 _ _ trivial, Option.bind_some, if_pos hversion]
  rfl

theorem CAccountingEntry.unserialize_long (entry target : CAccountingEntry) (nVersion : Int32)
    (rest : Bytes) (hother : ShortString entry.strOtherAccount)
    (hlong : MAX_SIZE < entry.writtenComment.length) (hsize : entry.writtenComment.length < 2 ^ 64) :
    target.unserialize false ((entry.serialize false nVersion).1 ++ rest) = none := by
  have hversion : ∀ bytes, getIf (!false) getInt32 0 (putInt32 nVersion ++ bytes) =
      some (nVersion, bytes) := fun bytes => reads_int32 nVersion bytes trivial
  have hcomment : unserializeString (putString entry.writtenComment ++ rest) = none := by
    rw [unserializeString, putString, putVec, append_assoc, getCompactSize_put _ hsize,
      if_pos hlong, Option.bind_none]
  simp only [unserialize, serialize, append_assoc, Bool.false_eq_true, if_false]
  rw [hversion, Option.bind_some, reads_int64 _ _ trivial, Option.bind_some,
    reads_int64 _ _ trivial, Option.bind_some, reads_string _ _ hother, Option.bind_some, hcomment]
  rfl

/-- A transaction whose version does not write its Mimblewimble part. -/
def concealedRecord : WalletTxRecord :=
  { sampleRecord with mwTx := ⟨⟨[], [], []⟩, Vector.replicate 32 1⟩ }

/-- An entry with a comment that is one letter too long. -/
def longEntry : CAccountingEntry :=
  { sampleEntry with strComment := List.replicate (MAX_SIZE + 1) 0x63, mapValue := ∅, ssExtra := [] }

/-- **Some records are not read back**: without a version, with a Mimblewimble part that is
not written, or too long. -/
theorem walletRecords_lost :
    (WalletTxRecord.Unreserved { sampleRecord with nVersion := 0 } ∧
      WalletTxRecord.unserialize sampleRecordSizes
        (WalletTxRecord.serialize { sampleRecord with nVersion := 0 }).1 = none) ∧
    (concealedRecord.Unreserved ∧
      WalletTxRecord.unserialize sampleRecordSizes concealedRecord.serialize.1 =
        some (sampleRecord, []) ∧ sampleRecord ≠ concealedRecord) ∧ (longEntry.Unreserved ∧
    sampleEntry.unserialize false (longEntry.serialize false 60000).1 = none) := by
  refine ⟨⟨sampleRecord_unreserved, ?_⟩, ⟨sampleRecord_unreserved, ?_, ?_⟩, ⟨⟨?_, ?_⟩, ?_⟩⟩
  · have hread := WalletTxRecord.unserialize_unversioned sampleRecordSizes
      { sampleRecord with nVersion := 0 } [] (by decide)
    rwa [append_nil] at hread
  · have hread := WalletTxRecord.unserialize_serialize sampleRecordSizes [] sampleRecord_unreserved
      sampleRecord_encodable
    rwa [append_nil] at hread
  · intro heq
    have hoffset := congrArg (fun wtx : WalletTxRecord => wtx.mwTx.offset) heq
    exact absurd hoffset (by decide)
  · exact fun hmem => absurd (eq_of_mem_replicate hmem) (by decide)
  · exact ExtTreeMap.not_mem_empty
  · have hcomment : longEntry.writtenComment = List.replicate (MAX_SIZE + 1) 0x63 := rfl
    have hother : ShortString longEntry.strOtherAccount := sampleEntry_encodable.otherAccount
    have hread := CAccountingEntry.unserialize_long longEntry sampleEntry 60000 [] hother
      (by rw [hcomment, length_replicate]; exact Nat.lt_succ_self _)
      (by rw [hcomment, length_replicate]; decide)
    rwa [append_nil] at hread

end MaryJaneCoin
