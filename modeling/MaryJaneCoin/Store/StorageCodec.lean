import Mathlib.Data.List.Nodup
import Mathlib.Data.List.Perm.Basic
import MaryJaneCoin.Lib.Codec
import MaryJaneCoin.Lib.OptionLoop

/-!
# The storage codec of `storage.h`

A payload is framed by its length and a checksum, padded, and cut into chunks that each fit
an `OP_RETURN` output.  `StorageDecode` on the chunks of an encoding succeeds on exactly the
rearrangements of all of them, and then gives back the payload.
-/

namespace MaryJaneCoin

open Codec

def STORAGE_ENVELOPE_LEN : Nat := 35
def STORAGE_OP_RETURN : UInt8 := 0x6a
def STORAGE_PUSH33 : UInt8 := 0x21
def STORAGE_CHUNK_DATA_LEN : Nat := 33
def STORAGE_HEADER_LEN : Nat := 9
def STORAGE_PAYLOAD_PER_CHUNK : Nat := STORAGE_CHUNK_DATA_LEN - STORAGE_HEADER_LEN
def STORAGE_VERSION : UInt8 := 1
def STORAGE_MAX_CHUNKS : Nat := 65535
def STORAGE_MAX_PAYLOAD : Nat := STORAGE_MAX_CHUNKS * STORAGE_PAYLOAD_PER_CHUNK - 8

/-- The constant of the checksum. -/
def storageCrcPoly : UInt32 := 0xEDB88720

/-- The inner loop of `StorageCrc32`, once. -/
def storageCrcShift (crc : UInt32) : UInt32 :=
  (crc >>> 1) ^^^ (storageCrcPoly &&& (~~~(crc &&& 1) + 1))

/-- The outer loop of `StorageCrc32`, once. -/
def storageCrcByte (crc : UInt32) (byte : UInt8) : UInt32 :=
  storageCrcShift^[8] (crc ^^^ byte.toUInt32)

/-- The checksum of a framed payload. -/
def storageCrc32 (p : Bytes) : UInt32 := p.foldl storageCrcByte 0xFFFFFFFF ^^^ 0xFFFFFFFF

/-- What `StorageEncode` frames: the length, the payload and the checksum of both. -/
def storageStream (payload : Bytes) : Bytes :=
  putLE 4 payload.length ++ payload ++
    putLE 4 (storageCrc32 (putLE 4 payload.length ++ payload)).toNat

/-- The body of one chunk around its data. -/
def storageBody (flags : UInt8) (streamId : UInt32) (idx total : Nat) (data : Bytes) : Bytes :=
  (STORAGE_VERSION <<< 4 ||| (flags &&& 0x0f)) ::
    (putLE 4 streamId.toNat ++ (putLE 2 idx ++ (putLE 2 total ++ data)))

/-- The data of one chunk: behind the end of the stream there are zeros. -/
def storageData (stream : Bytes) (idx : Nat) : Bytes :=
  (List.range STORAGE_PAYLOAD_PER_CHUNK).map fun b =>
    stream.getD (idx * STORAGE_PAYLOAD_PER_CHUNK + b) 0

/-- The number of chunks that a stream takes. -/
def storageTotal (stream : Bytes) : Nat :=
  let total := (stream.length + STORAGE_PAYLOAD_PER_CHUNK - 1) / STORAGE_PAYLOAD_PER_CHUNK
  if total = 0 then 1 else total

/-- `StorageEncode`; `none` is a `false` return. -/
def storageEncode (payload : Bytes) (flags : UInt8) (streamId : UInt32) : Option (List Bytes) :=
  if payload.length > STORAGE_MAX_PAYLOAD then none
  else
    let stream := storageStream payload
    let total := storageTotal stream
    if total > STORAGE_MAX_CHUNKS then none
    else some ((List.range total).map fun idx =>
      storageBody flags streamId idx total (storageData stream idx))

/-- The script of an output that carries a chunk. -/
def storageChunkToScript (body : Bytes) : Bytes :=
  STORAGE_OP_RETURN :: STORAGE_PUSH33 ::
    (List.range STORAGE_CHUNK_DATA_LEN).map fun i => body.getD i 0

/-- The chunk of such a script. -/
def storageScriptToChunk (spk : Bytes) : Option Bytes :=
  if spk.length ≠ STORAGE_ENVELOPE_LEN then none
  else if spk[0]? ≠ some STORAGE_OP_RETURN ∨ spk[1]? ≠ some STORAGE_PUSH33 then none
  else if (spk.drop 2).length = STORAGE_CHUNK_DATA_LEN then some (spk.drop 2) else none

/-- What `StorageParseHeader` reads. -/
structure StorageHeader where
  flags : UInt8
  streamId : UInt32
  index : Nat
  total : Nat
deriving DecidableEq

/-- The header of a chunk, if version, number and total make sense. -/
def storageParseHeader (body : Bytes) : Option StorageHeader :=
  if body.length ≠ STORAGE_CHUNK_DATA_LEN then none
  else
    match body with
    | [] => none
    | first :: rest =>
      if first >>> 4 ≠ STORAGE_VERSION then none
      else
        (getLE 4 rest).bind fun streamId =>
        (getLE 2 streamId.2).bind fun index =>
        (getLE 2 index.2).bind fun total =>
          if 1 ≤ total.1 ∧ index.1 < total.1 then
            some ⟨first &&& 0x0f, UInt32.ofNat streamId.1, index.1, total.1⟩
          else none

/-- `seen` and `ordered` of `StorageDecode`. -/
structure StorageParts where
  seen : List Bool
  ordered : List Bytes

/-- One round of the first loop of `StorageDecode`. -/
def storageGather (first : StorageHeader) (parts : StorageParts) (chunk : Bytes) :
    Option StorageParts :=
  (storageParseHeader chunk).bind fun header =>
    if header.streamId ≠ first.streamId ∨ header.total ≠ first.total ∨ header.flags ≠ first.flags then none
    else if first.total ≤ header.index ∨ parts.seen.getD header.index false = true then none
    else some
      { seen := parts.seen.set header.index true
        ordered := parts.ordered.set header.index (chunk.drop STORAGE_HEADER_LEN) }

/-- The end of `StorageDecode`: the payload of a stream.  A length that fits the stream is
small, so the sums do not wrap around. -/
def storageUnframe (stream : Bytes) : Option Bytes :=
  if stream.length < 8 then none
  else
    (getLE 4 stream).bind fun declaredLen =>
      if 4 + declaredLen.1 + 4 > stream.length then none
      else
        (getLE 4 (stream.drop (4 + declaredLen.1))).bind fun wantCrc =>
          if UInt32.ofNat wantCrc.1 ≠ storageCrc32 (stream.take (4 + declaredLen.1)) then none
          else some ((stream.drop 4).take declaredLen.1)

/-- `StorageDecode`: the payload and the flags. -/
def storageDecode (chunks : List Bytes) : Option (Bytes × UInt8) :=
  match chunks with
  | [] => none
  | chunk :: _ =>
    (storageParseHeader chunk).bind fun first =>
    (chunks.foldlM (storageGather first)
      ⟨List.replicate first.total false, List.replicate first.total []⟩).bind fun parts =>
    if parts.seen.all id then
      (storageUnframe parts.ordered.flatten).map fun payload => (payload, first.flags)
    else none

open List

/-- The chunk reads back as part `idx` of the encoding that a header names. -/
def StorageHeader.Names (header : StorageHeader) (idx : Nat) (chunk : Bytes) : Prop :=
  storageParseHeader chunk = some { header with index := idx }

/-- The number of a chunk that reads back is below the total. -/
theorem StorageHeader.Names.lt {header : StorageHeader} {idx : Nat} {chunk : Bytes}
    (h : header.Names idx chunk) : idx < header.total := by
  rw [Names] at h
  unfold storageParseHeader at h
  split at h
  · cases h
  · split at h
    · cases h
    · split at h
      · cases h
      · obtain ⟨streamId, -, h⟩ := Option.bind_eq_some_iff.mp h
        obtain ⟨index, -, h⟩ := Option.bind_eq_some_iff.mp h
        obtain ⟨total, -, h⟩ := Option.bind_eq_some_iff.mp h
        split at h
        · rename_i hrange
          have hheader := Option.some.inj h
          have hindex := congrArg StorageHeader.index hheader
          have htotal := congrArg StorageHeader.total hheader
          rw [← show index.1 = idx from hindex, ← show total.1 = header.total from htotal]
          exact hrange.2
        · cases h

/-- Version and flags share a byte and do not touch each other. -/
theorem storageVersion_flags (flags : UInt8) :
    (STORAGE_VERSION <<< 4 ||| (flags &&& 0x0f)) >>> 4 = STORAGE_VERSION ∧
      (STORAGE_VERSION <<< 4 ||| (flags &&& 0x0f)) &&& 0x0f = flags &&& 0x0f := by
  have hall : ∀ n < 256, (STORAGE_VERSION <<< 4 ||| (UInt8.ofNat n &&& 0x0f)) >>> 4 = STORAGE_VERSION ∧
      (STORAGE_VERSION <<< 4 ||| (UInt8.ofNat n &&& 0x0f)) &&& 0x0f = UInt8.ofNat n &&& 0x0f := by
    decide +kernel
  have hflags := hall flags.toNat flags.toNat_lt
  rwa [UInt8.ofNat_toNat] at hflags

/-- A chunk fills its output. -/
theorem length_storageBody {flags : UInt8} {streamId : UInt32} {idx total : Nat} {data : Bytes}
    (hdata : data.length = STORAGE_PAYLOAD_PER_CHUNK) :
    (storageBody flags streamId idx total data).length = STORAGE_CHUNK_DATA_LEN := by
  rw [storageBody, length_cons, length_append, length_append, length_append,
    length_putLE, length_putLE, length_putLE, hdata]
  rfl

/-- A chunk reads back under the number it was given. -/
theorem names_storageBody {flags : UInt8} {streamId : UInt32} {idx total : Nat} {data : Bytes}
    (hdata : data.length = STORAGE_PAYLOAD_PER_CHUNK) (hidx : idx < total)
    (htotal : total ≤ STORAGE_MAX_CHUNKS) : StorageHeader.Names ⟨flags &&& 0x0f, streamId, 0,
      total⟩ idx (storageBody flags streamId idx total data) := by
  have hmax : total < 256 ^ 2 := Nat.lt_of_le_of_lt htotal (by decide)
  have hrange : 1 ≤ total ∧ idx < total := ⟨Nat.lt_of_le_of_lt (Nat.zero_le _) hidx, hidx⟩
  obtain ⟨hversion, hlow⟩ := storageVersion_flags flags
  unfold StorageHeader.Names storageParseHeader
  rw [if_neg (not_not_intro (length_storageBody hdata)), storageBody]
  simp only [hversion, hlow, ne_eq, not_true, if_false, reads_LE 4 _ _ streamId.toNat_lt,
    reads_LE 2 _ _ (Nat.lt_trans hidx hmax), reads_LE 2 _ _ hmax, Option.bind_some, if_pos hrange,
    UInt32.ofNat_toNat]

/-- Behind its header a chunk has the data. -/
theorem drop_storageBody (flags : UInt8) (streamId : UInt32) (idx total : Nat) (data : Bytes) :
    (storageBody flags streamId idx total data).drop STORAGE_HEADER_LEN = data := by
  have hlen : ((STORAGE_VERSION <<< 4 ||| (flags &&& 0x0f)) ::
      (putLE 4 streamId.toNat ++ putLE 2 idx ++ putLE 2 total)).length = STORAGE_HEADER_LEN := by
    rw [length_cons, length_append, length_append, length_putLE, length_putLE, length_putLE]
    rfl
  rw [storageBody, ← append_assoc, ← append_assoc, ← cons_append]
  exact drop_left' hlen

/-- The data of a chunk is padded to its full length. -/
theorem length_storageData (stream : Bytes) (idx : Nat) :
    (storageData stream idx).length = STORAGE_PAYLOAD_PER_CHUNK := by
  rw [storageData, length_map, length_range]

/-- What `StorageDecode` holds of the chunks with these numbers. -/
def partsOf (total : Nat) (chunk : Nat → Bytes) (idxs : List Nat) : StorageParts where
  seen := (List.range total).map fun i => decide (i ∈ idxs)
  ordered := (List.range total).map fun i =>
    if i ∈ idxs then (chunk i).drop STORAGE_HEADER_LEN else []

/-- Before the first chunk nothing was seen. -/
theorem partsOf_nil (total : Nat) (chunk : Nat → Bytes) :
    partsOf total chunk [] = ⟨List.replicate total false, List.replicate total []⟩ := by
  simp only [partsOf, not_mem_nil, decide_false, if_false, map_const', length_range]

/-- Setting one entry of a table changes the function that it lists at one place. -/
theorem set_map_range {α : Type} {f g : Nat → α} {total idx : Nat} {a : α} (hidx : g idx = a)
    (hother : ∀ i, i ≠ idx → g i = f i) :
    ((List.range total).map f).set idx a = (List.range total).map g := by
  apply ext_getElem
  · rw [length_set, length_map, length_map]
  · intro i hi hi'
    rw [getElem_set, getElem_map, getElem_map, getElem_range]
    by_cases h : idx = i
    · rw [if_pos h, ← h, hidx]
    · rw [if_neg h, hother i (Ne.symm h)]

section

variable {header : StorageHeader} {chunk : Nat → Bytes} {idxs : List Nat}

/-- **One round**: a chunk that was seen is refused, a new one is put in its place. -/
theorem storageGather_partsOf {idx : Nat} (hnames : header.Names idx (chunk idx)) :
    storageGather header (partsOf header.total chunk idxs) (chunk idx) =
      if idx ∈ idxs then none else some (partsOf header.total chunk (idxs ++ [idx])) := by
  have hlt := hnames.lt
  rw [storageGather, show storageParseHeader (chunk idx) = _ from hnames, Option.bind_some]
  have hseen : (partsOf header.total chunk idxs).seen.getD idx false = decide (idx ∈ idxs) := by
    rw [partsOf, getD_eq_getElem?_getD, getElem?_map, getElem?_range hlt]
    rfl
  simp only [ne_eq, not_true, or_self, if_false, hseen, decide_eq_true_eq, Nat.not_le.mpr hlt, false_or]
  split
  · rfl
  · simp only [partsOf]
    congr 2
    · apply set_map_range
      · exact decide_eq_true (by simp)
      · intro i hi
        simp [hi]
    · apply set_map_range
      · rw [if_pos (by simp)]
      · intro i hi
        simp [hi]

/-- **The loop** holds every chunk once, or stops. -/
theorem foldlM_storageGather (hnames : ∀ idx ∈ idxs, header.Names idx (chunk idx)) :
    (idxs.map chunk).foldlM (storageGather header) (partsOf header.total chunk []) =
      if idxs.Nodup then some (partsOf header.total chunk idxs) else none := by
  induction idxs using List.reverseRecOn with
  | nil => rfl
  | append_singleton idxs idx ih =>
    have hlast := hnames idx (by simp)
    rw [map_append, List.foldlM_append, ih fun i hi => hnames i (mem_append_left _ hi)]
    have hnodup : (idxs ++ [idx]).Nodup ↔ idxs.Nodup ∧ idx ∉ idxs := by
      rw [nodup_append_comm, singleton_append, nodup_cons, and_comm]
    by_cases hold : idxs.Nodup
    · rw [if_pos hold, Option.bind_eq_bind, Option.bind_some, map_singleton, List.foldlM_cons,
        storageGather_partsOf hlast]
      by_cases hmem : idx ∈ idxs
      · rw [if_pos hmem, if_neg fun h => (hnodup.mp h).2 hmem]
        rfl
      · rw [if_neg hmem, if_pos (hnodup.mpr ⟨hold, hmem⟩)]
        rfl
    · rw [if_neg hold, if_neg fun h => hold (hnodup.mp h).1]
      rfl

/-- Numbers below the total are a rearrangement of all of them if none is twice and none is
missing. -/
theorem perm_range_iff {total : Nat} (hlt : ∀ idx ∈ idxs, idx < total) :
    idxs.Perm (List.range total) ↔ idxs.Nodup ∧ ∀ i < total, i ∈ idxs := by
  constructor
  · intro hperm
    exact ⟨hperm.nodup_iff.mpr nodup_range, fun i hi => hperm.mem_iff.mpr (mem_range.mpr hi)⟩
  · intro h
    refine (perm_ext_iff_of_nodup h.1 nodup_range).mpr fun i => ?_
    rw [mem_range]
    exact ⟨hlt i, h.2 i⟩

/-- **`StorageDecode`** reads exactly the rearrangements of all chunks. -/
theorem storageDecode_map (hnames : ∀ idx ∈ idxs, header.Names idx (chunk idx))
    (hpos : 0 < header.total) : storageDecode (idxs.map chunk) =
      if idxs.Perm (List.range header.total) then (storageUnframe ((List.range header.total).flatMap fun i =>
          (chunk i).drop STORAGE_HEADER_LEN)).map fun payload => (payload, header.flags)
      else none := by
  have hperm := perm_range_iff fun idx hidx => (hnames idx hidx).lt
  cases idxs with
  | nil =>
    have hnot : ¬[].Perm (List.range header.total) := fun h => not_mem_nil ((hperm.mp h).2 0 hpos)
    rw [if_neg hnot]
    rfl
  | cons idx idxs =>
    have hloop := foldlM_storageGather hnames
    have hsame : storageGather { header with index := idx } = storageGather header := rfl
    rw [partsOf_nil] at hloop
    rw [map_cons] at hloop ⊢
    rw [storageDecode, show storageParseHeader (chunk idx) = _ from hnames idx mem_cons_self,
      Option.bind_some, hsame, hloop]
    by_cases hnodup : (idx :: idxs).Nodup
    · rw [if_pos hnodup, Option.bind_some]
      have hseen : (partsOf header.total chunk (idx :: idxs)).seen.all id = true ↔
          (idx :: idxs).Perm (List.range header.total) := by
        rw [hperm, partsOf, all_map, all_eq_true]
        simp only [mem_range, Function.comp_apply, id_eq, decide_eq_true_eq]
        exact (and_iff_right hnodup).symm
      by_cases hall : (idx :: idxs).Perm (List.range header.total)
      · rw [if_pos (hseen.mpr hall), if_pos hall, partsOf, List.flatMap]
        congr 3
        apply map_congr_left
        intro i hi
        rw [if_pos (hall.mem_iff.mpr hi)]
      · rw [if_neg fun h => hall (hseen.mp h), if_neg hall]
    · rw [if_neg hnodup, if_neg fun h => hnodup (hperm.mp h).1]
      rfl

end

/-- Blocks of equal length, one behind the other. -/
theorem flatMap_blocks {α : Type} (f : Nat → α) (size count : Nat) :
    ((List.range count).flatMap fun i => (List.range size).map fun b => f (i * size + b)) =
      (List.range (count * size)).map f := by
  induction count with
  | zero => rw [Nat.zero_mul]; rfl
  | succ count ih =>
    rw [range_succ, flatMap_append, ih, flatMap_singleton, Nat.succ_mul, range_add, map_append, map_map]
    rfl

/-- Reading past the end of a stream pads it with zeros. -/
theorem map_getD_range {stream : Bytes} {size : Nat} (hsize : stream.length ≤ size) :
    ((List.range size).map fun i => stream.getD i 0) = stream ++ List.replicate (size - stream.length) 0 := by
  apply ext_getElem
  · rw [length_map, length_range, length_append, length_replicate]
    omega
  · intro i hi hi'
    rw [getElem_map, getElem_range, getElem_append, getD_eq_getElem?_getD]
    split
    · rename_i h
      rw [getElem?_eq_getElem h, Option.getD_some]
    · rename_i h
      rw [getElem?_eq_none (Nat.not_lt.mp h), getElem_replicate, Option.getD_none]

/-- The data of all chunks is the stream and its padding. -/
theorem flatMap_storageData {stream : Bytes} {total : Nat}
    (htotal : stream.length ≤ total * STORAGE_PAYLOAD_PER_CHUNK) :
    (List.range total).flatMap (storageData stream) =
      stream ++ List.replicate (total * STORAGE_PAYLOAD_PER_CHUNK - stream.length) 0 := by
  rw [← map_getD_range htotal]
  exact flatMap_blocks (fun i => stream.getD i 0) STORAGE_PAYLOAD_PER_CHUNK total

/-- **The end of `StorageDecode`** on a stream with a true length. -/
theorem storageUnframe_eq {payload : Bytes} (hlen : payload.length < 256 ^ 4) (crc : UInt32) (pad : Bytes) :
    storageUnframe (putLE 4 payload.length ++ (payload ++ (putLE 4 crc.toNat ++ pad))) =
      if crc = storageCrc32 (putLE 4 payload.length ++ payload) then some payload else none := by
  have hfour : ∀ n, (putLE 4 n).length = 4 := length_putLE 4
  have htake : (putLE 4 payload.length ++ (payload ++ (putLE 4 crc.toNat ++ pad))).take
      (4 + payload.length) = putLE 4 payload.length ++ payload := by
    rw [← append_assoc]
    exact take_left' (by rw [length_append, hfour])
  have hdrop : (putLE 4 payload.length ++ (payload ++ (putLE 4 crc.toNat ++ pad))).drop
      (4 + payload.length) = putLE 4 crc.toNat ++ pad := by
    rw [← append_assoc]
    exact drop_left' (by rw [length_append, hfour])
  have hpayload : ((putLE 4 payload.length ++ (payload ++ (putLE 4 crc.toNat ++ pad))).drop 4).take
      payload.length = payload := by
    rw [drop_left' (hfour _)]
    exact take_left' rfl
  have hlength : (putLE 4 payload.length ++ (payload ++ (putLE 4 crc.toNat ++ pad))).length =
      4 + (payload.length + (4 + pad.length)) := by
    rw [length_append, length_append, length_append, hfour, hfour]
  rw [storageUnframe, if_neg (by omega), reads_LE 4 _ _ hlen, Option.bind_some, if_neg (by simp only; omega),
    hdrop, reads_LE 4 _ _ crc.toNat_lt, Option.bind_some, htake, hpayload, UInt32.ofNat_toNat]
  simp only [ne_eq, ite_not]

/-- A framed payload is unframed, whatever pads it. -/
theorem storageUnframe_stream {payload : Bytes} (hlen : payload.length < 256 ^ 4) (pad : Bytes) :
    storageUnframe (storageStream payload ++ pad) = some payload := by
  rw [storageStream, append_assoc, append_assoc, storageUnframe_eq hlen, if_pos rfl]

/-- The frame of a payload takes eight bytes. -/
theorem length_storageStream (payload : Bytes) : (storageStream payload).length = payload.length + 8 := by
  rw [storageStream, length_append, length_append, length_putLE, length_putLE]
  omega

/-- The number of chunks fits its field and has room for the stream. -/
theorem storageTotal_spec {payload : Bytes} (hlen : payload.length ≤ STORAGE_MAX_PAYLOAD) :
    0 < storageTotal (storageStream payload) ∧ storageTotal (storageStream payload) ≤ STORAGE_MAX_CHUNKS ∧
      (storageStream payload).length ≤ storageTotal (storageStream payload) * STORAGE_PAYLOAD_PER_CHUNK := by
  simp only [STORAGE_MAX_PAYLOAD, STORAGE_MAX_CHUNKS, STORAGE_PAYLOAD_PER_CHUNK,
    STORAGE_CHUNK_DATA_LEN, STORAGE_HEADER_LEN] at hlen
  simp only [storageTotal, length_storageStream, STORAGE_MAX_CHUNKS, STORAGE_PAYLOAD_PER_CHUNK,
    STORAGE_CHUNK_DATA_LEN, STORAGE_HEADER_LEN]
  split <;> omega

/-- The header that all chunks of an encoding share. -/
def storageHeader (payload : Bytes) (flags : UInt8) (streamId : UInt32) : StorageHeader :=
  ⟨flags &&& 0x0f, streamId, 0, storageTotal (storageStream payload)⟩

/-- One chunk of an encoding. -/
def storageChunk (payload : Bytes) (flags : UInt8) (streamId : UInt32) (idx : Nat) : Bytes :=
  storageBody flags streamId idx (storageTotal (storageStream payload))
    (storageData (storageStream payload) idx)

variable {payload : Bytes} {flags : UInt8} {streamId : UInt32} {chunks : List Bytes}

/-- **`StorageEncode`** succeeds on every payload that is not too long. -/
theorem storageEncode_eq (hlen : payload.length ≤ STORAGE_MAX_PAYLOAD) (flags : UInt8)
    (streamId : UInt32) : storageEncode payload flags streamId =
      some ((List.range (storageTotal (storageStream payload))).map
        (storageChunk payload flags streamId)) := by
  rw [storageEncode, if_neg (Nat.not_lt.mpr hlen)]
  exact if_neg (Nat.not_lt.mpr (storageTotal_spec hlen).2.1)

/-- What an encoding says of its payload and its chunks. -/
theorem storageEncode_eq_some (h : storageEncode payload flags streamId = some chunks) :
    payload.length ≤ STORAGE_MAX_PAYLOAD ∧ chunks = (List.range
        (storageTotal (storageStream payload))).map (storageChunk payload flags streamId) := by
  by_cases hlen : payload.length ≤ STORAGE_MAX_PAYLOAD
  · rw [storageEncode_eq hlen] at h
    exact ⟨hlen, (Option.some.inj h).symm⟩
  · rw [storageEncode, if_pos (Nat.not_le.mp hlen)] at h
    cases h

/-- Every chunk of an encoding reads back under its number. -/
theorem names_storageChunk (hlen : payload.length ≤ STORAGE_MAX_PAYLOAD) (flags : UInt8)
    (streamId : UInt32) {idx : Nat} (hidx : idx < storageTotal (storageStream payload)) :
    (storageHeader payload flags streamId).Names idx (storageChunk payload flags streamId idx) :=
  names_storageBody (length_storageData _ _) hidx (storageTotal_spec hlen).2.1

/-- Chunks drawn from an encoding are drawn by their numbers. -/
theorem exists_numbers {total : Nat} {chunk : Nat → Bytes} {drawn : List Bytes}
    (hdrawn : drawn ⊆ (List.range total).map chunk) :
    ∃ idxs : List Nat, drawn = idxs.map chunk ∧ ∀ idx ∈ idxs, idx < total := by
  induction drawn with
  | nil => exact ⟨[], rfl, fun _ h => absurd h not_mem_nil⟩
  | cons body drawn ih =>
    obtain ⟨idxs, hidxs, hlt⟩ := ih fun other hother => hdrawn (mem_cons_of_mem _ hother)
    obtain ⟨idx, hidx, hbody⟩ := mem_map.mp (hdrawn mem_cons_self)
    refine ⟨idx :: idxs, ?_, ?_⟩
    · rw [hidxs, map_cons, hbody]
    · intro i hi
      cases hi with
      | head => exact mem_range.mp hidx
      | tail _ hi => exact hlt i hi

/-- Chunks are rearranged exactly if their numbers are. -/
theorem map_chunk_perm {header : StorageHeader} {chunk : Nat → Bytes} {idxs idxs' : List Nat}
    (hnames : ∀ idx ∈ idxs, header.Names idx (chunk idx))
    (hnames' : ∀ idx ∈ idxs', header.Names idx (chunk idx)) :
    (idxs.map chunk).Perm (idxs'.map chunk) ↔ idxs.Perm idxs' := by
  have hnumber : ∀ l : List Nat, (∀ idx ∈ l, header.Names idx (chunk idx)) → (l.map chunk).map
      (fun body => (storageParseHeader body).map StorageHeader.index) = l.map some := by
    intro l hl
    rw [map_map]
    apply map_congr_left
    intro idx hidx
    rw [Function.comp_apply, show storageParseHeader (chunk idx) = _ from hl idx hidx, Option.map_some]
  constructor
  · intro hperm
    have hsome := hperm.map fun body => (storageParseHeader body).map StorageHeader.index
    rw [hnumber _ hnames, hnumber _ hnames'] at hsome
    exact (map_perm_map_iff (Option.some_injective _)).mp hsome
  · exact fun hperm => hperm.map chunk

/-- All chunks of a list that decodes have one header. -/
theorem storageDecode_same {result : Bytes × UInt8} (h : storageDecode chunks = some result) :
    ∃ first : StorageHeader, ∀ body ∈ chunks, ∃ idx, first.Names idx body := by
  cases chunks with
  | nil => cases h
  | cons chunk chunks =>
    rw [storageDecode] at h
    obtain ⟨first, -, h⟩ := Option.bind_eq_some_iff.mp h
    obtain ⟨parts, hloop, -⟩ := Option.bind_eq_some_iff.mp h
    refine ⟨first, fun body hbody => ?_⟩
    obtain ⟨before, after, hstep⟩ := OptionLoop.foldlM_mem hloop hbody
    rw [storageGather] at hstep
    obtain ⟨header, hheader, hstep⟩ := Option.bind_eq_some_iff.mp hstep
    split at hstep
    · cases hstep
    · rename_i hsame
      simp only [ne_eq, not_or, not_not] at hsame
      refine ⟨header.index, ?_⟩
      rw [StorageHeader.Names, hheader, ← hsame.1, ← hsame.2.1, ← hsame.2.2]

variable {header header' : StorageHeader}

/-- Two headers that name one chunk agree but for the number. -/
theorem StorageHeader.Names.same {idx idx' : Nat} {body : Bytes}
    (h : header.Names idx body) (h' : header'.Names idx' body) : header.streamId =
    header'.streamId ∧ header.total = header'.total ∧ header.flags = header'.flags := by
  rw [Names, show storageParseHeader body = _ from h', Option.some.injEq, StorageHeader.mk.injEq] at h
  exact ⟨h.2.1.symm, h.2.2.2.symm, h.1.symm⟩

/-- Chunks of two encodings do not decode together. -/
theorem storageDecode_mixed {idx idx' : Nat} {body body' : Bytes}
    (hbody : body ∈ chunks) (hbody' : body' ∈ chunks) (hnames : header.Names idx body)
    (hnames' : header'.Names idx' body')
    (hdiffer : header'.streamId ≠ header.streamId ∨ header'.total ≠ header.total ∨
      header'.flags ≠ header.flags) : storageDecode chunks = none := by
  rw [Option.eq_none_iff_forall_not_mem]
  intro result hresult
  obtain ⟨first, hfirst⟩ := storageDecode_same hresult
  obtain ⟨i, hi⟩ := hfirst body hbody
  obtain ⟨i', hi'⟩ := hfirst body' hbody'
  obtain ⟨hstream, htotal, hflags⟩ := hnames.same hi
  obtain ⟨hstream', htotal', hflags'⟩ := hnames'.same hi'
  rcases hdiffer with h | h | h
  · exact h (hstream'.trans hstream.symm)
  · exact h (htotal'.trans htotal.symm)
  · exact h (hflags'.trans hflags.symm)

/-- A chunk passes through its script unchanged. -/
theorem storageScriptToChunk_storageChunkToScript {body : Bytes}
    (hlen : body.length = STORAGE_CHUNK_DATA_LEN) :
    storageScriptToChunk (storageChunkToScript body) = some body := by
  have hdata : ((List.range STORAGE_CHUNK_DATA_LEN).map fun i => body.getD i 0) = body := by
    rw [map_getD_range hlen.le, hlen, Nat.sub_self, replicate_zero, append_nil]
  have hscript : storageChunkToScript body = STORAGE_OP_RETURN :: STORAGE_PUSH33 :: body := by
    rw [storageChunkToScript, hdata]
  have hlong : (STORAGE_OP_RETURN :: STORAGE_PUSH33 :: body).length = STORAGE_ENVELOPE_LEN := by
    rw [length_cons, length_cons, hlen]
    rfl
  rw [hscript, storageScriptToChunk, if_neg (not_not_intro hlong)]
  exact (if_neg (by simp)).trans (if_pos hlen)

/-- **The storage codec.**  Chunks drawn from an encoding decode exactly if they are a
rearrangement of all of it; a chunk that differs in stream, number or low flags spoils them;
a chunk passes through its script unchanged. -/
theorem storage_codec (hlen : payload.length ≤ STORAGE_MAX_PAYLOAD) (flags : UInt8) (streamId : UInt32) :
    ∃ chunks, storageEncode payload flags streamId = some chunks ∧ (∀ drawn ⊆ chunks, storageDecode drawn =
        if drawn.Perm chunks then some (payload, flags &&& 0x0f) else none) ∧
      (∀ payload' flags' streamId' chunks', storageEncode payload' flags' streamId' = some chunks' →
        (streamId' ≠ streamId ∨ chunks'.length ≠ chunks.length ∨ flags' &&& 0x0f ≠ flags &&& 0x0f) →
        ∀ drawn ⊆ chunks, drawn ≠ [] → ∀ alien ∈ chunks', ∀ mixed, mixed.Perm (alien :: drawn) →
          storageDecode mixed = none) ∧
      ∀ chunk ∈ chunks, storageScriptToChunk (storageChunkToScript chunk) = some chunk := by
  obtain ⟨hpos, -, hfits⟩ := storageTotal_spec hlen
  have hnames : ∀ idx < storageTotal (storageStream payload),
      (storageHeader payload flags streamId).Names idx (storageChunk payload flags streamId idx) :=
    fun idx hidx => names_storageChunk hlen flags streamId hidx
  refine ⟨_, storageEncode_eq hlen flags streamId, ?_, ?_, ?_⟩
  · intro drawn hdrawn
    obtain ⟨idxs, rfl, hlt⟩ := exists_numbers hdrawn
    have hall := fun idx hidx => hnames idx (hlt idx hidx)
    have hperm := map_chunk_perm hall fun idx hidx => hnames idx (mem_range.mp hidx)
    have hstream : (List.range (storageTotal (storageStream payload))).flatMap
        (fun i => (storageChunk payload flags streamId i).drop STORAGE_HEADER_LEN) = (List.range
        (storageTotal (storageStream payload))).flatMap (storageData (storageStream payload)) := by
      simp only [storageChunk, drop_storageBody]
    have hshort : payload.length < 256 ^ 4 := Nat.lt_of_le_of_lt hlen (by decide)
    rw [storageDecode_map hall hpos]
    simp only [storageHeader, hperm, hstream, flatMap_storageData hfits,
      storageUnframe_stream hshort, Option.map_some]
  · intro payload' flags' streamId' chunks' hencode hdiffer drawn hdrawn hne alien halien mixed hmixed
    obtain ⟨hlen', rfl⟩ := storageEncode_eq_some hencode
    obtain ⟨body, hbody⟩ := exists_mem_of_ne_nil drawn hne
    obtain ⟨idx, hidx, rfl⟩ := mem_map.mp (hdrawn hbody)
    obtain ⟨idx', hidx', rfl⟩ := mem_map.mp halien
    rw [length_map, length_range, length_map, length_range] at hdiffer
    exact storageDecode_mixed (hmixed.mem_iff.mpr (mem_cons_of_mem _ hbody))
      (hmixed.mem_iff.mpr mem_cons_self) (hnames idx (mem_range.mp hidx))
      (names_storageChunk hlen' flags' streamId' (mem_range.mp hidx')) hdiffer
  · intro chunk hchunk
    obtain ⟨idx, -, rfl⟩ := mem_map.mp hchunk
    exact storageScriptToChunk_storageChunkToScript (length_storageBody (length_storageData _ _))

/-- A payload that takes two chunks. -/
def storageSample : Bytes := List.replicate 20 9

/-- Two chunks decode in the other order, and one of them does not. -/
theorem storage_codec_sample : storageSample.length ≤ STORAGE_MAX_PAYLOAD ∧ ∃ first second,
      storageEncode storageSample 0x13 7 = some [first, second] ∧ storageDecode [second, first] =
        some (storageSample, 0x03) ∧ storageDecode [first] = none := by
  have hlen : storageSample.length ≤ STORAGE_MAX_PAYLOAD := by decide
  obtain ⟨chunks, hencode, hdecode, -⟩ := storage_codec hlen 0x13 7
  have htwo : chunks = (List.range 2).map (storageChunk storageSample 0x13 7) :=
    (storageEncode_eq_some hencode).2
  refine ⟨hlen, storageChunk storageSample 0x13 7 0, storageChunk storageSample 0x13 7 1, ?_, ?_, ?_⟩
  · rw [hencode, htwo]
    rfl
  · rw [hdecode _ (by rw [htwo]; decide +kernel), if_pos (by rw [htwo]; decide +kernel)]
    rfl
  · rw [hdecode _ (by rw [htwo]; decide +kernel), if_neg (by rw [htwo]; decide +kernel)]

/-- **A chunk of another encoding** that decodes: of the flags only the low half is stored,
and alone it makes a list of its own. -/
theorem storage_mixed_decodes : ∃ first second second' only,
    storageEncode storageSample 0x00 7 = some [first, second] ∧
      storageEncode storageSample 0x10 7 = some [first, second'] ∧
      storageDecode (second' :: [first]) = some (storageSample, 0x00) ∧
      storageEncode [] 0x00 8 = some [only] ∧ storageDecode (only :: []) = some ([], 0x00) :=
  ⟨storageChunk storageSample 0 7 0, storageChunk storageSample 0 7 1,
    storageChunk storageSample 0 7 1, storageChunk [] 0 8 0, by decide +kernel⟩

end MaryJaneCoin
