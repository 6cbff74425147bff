import MaryJaneCoin.Lib.Crc
import MaryJaneCoin.Store.StorageCodec

/-!
# Changed chunks

The checksum of `storage.h` has a constant of its own, whose top bit is set.  That is enough
for it to show every change within 32 consecutive bits of what it covers.
-/

namespace MaryJaneCoin

open Codec List

/-- The bits of a byte string, in the order in which the checksum takes them. -/
def storageBits (bytes : Bytes) : List Bool := bytes.flatMap fun byte => Crc.bitsLE 8 byte.toNat

/-- The stream that chunks carry. -/
def storageCarried (chunks : List Bytes) : Bytes := chunks.flatMap fun body => body.drop STORAGE_HEADER_LEN

/-- Only bytes of the payload are changed, and of them only bits in one window of 32. -/
structure PayloadBurst (payloadLen : Nat) (stream tampered : Bytes) : Prop where
  changed : tampered ≠ stream
  before : tampered.take 4 = stream.take 4
  behind : tampered.drop (4 + payloadLen) = stream.drop (4 + payloadLen)
  window : ∃ start, ∀ i, i < start ∨ start + 32 ≤ i →
    (storageBits tampered)[i]? = (storageBits stream)[i]?

theorem storageCrcShift_eq (crc : UInt32) :
    (storageCrcShift crc).toBitVec = Crc.shift storageCrcPoly.toBitVec crc.toBitVec := by
  have hlow : (crc &&& 1).toBitVec = BitVec.setWidth 32 (BitVec.ofBool (crc.toBitVec.getLsbD 0)) := by
    rw [UInt32.toBitVec_and]
    exact BitVec.and_one_eq_setWidth_ofBool_getLsbD
  have hmask : storageCrcPoly.toBitVec &&& (~~~(crc &&& 1) + 1).toBitVec =
      if crc.toBitVec.getLsbD 0 then storageCrcPoly.toBitVec else 0#32 := by
    rw [UInt32.toBitVec_add, UInt32.toBitVec_not, hlow]
    cases crc.toBitVec.getLsbD 0 <;> rfl
  rw [storageCrcShift, UInt32.toBitVec_xor, UInt32.toBitVec_and, hmask]
  rfl

theorem iterate_storageCrcShift (n : Nat) (crc : UInt32) :
    (storageCrcShift^[n] crc).toBitVec = (Crc.shift storageCrcPoly.toBitVec)^[n] crc.toBitVec := by
  induction n generalizing crc with
  | zero => rfl
  | succ n ih => rw [Function.iterate_succ_apply, Function.iterate_succ_apply, ih, storageCrcShift_eq]

theorem storageCrcByte_eq (crc : UInt32) (byte : UInt8) : (storageCrcByte crc byte).toBitVec =
      Crc.feed storageCrcPoly.toBitVec crc.toBitVec (Crc.bitsLE 8 byte.toNat) := by
  have hbyte : byte.toUInt32.toBitVec = BitVec.ofNat 32 byte.toNat := by
    apply BitVec.eq_of_toNat_eq
    rw [BitVec.toNat_ofNat, Nat.mod_eq_of_lt (Nat.lt_trans byte.toNat_lt (by decide))]
    exact UInt8.toNat_toUInt32 byte
  rw [Crc.feed_word (by decide) byte.toNat_lt, storageCrcByte, iterate_storageCrcShift,
    UInt32.toBitVec_xor, hbyte]

/-- **The checksum** is that of the bits. -/
theorem storageCrc32_eq (p : Bytes) : (storageCrc32 p).toBitVec =
      Crc.feed storageCrcPoly.toBitVec 0xFFFFFFFF#32 (storageBits p) ^^^ 0xFFFFFFFF#32 := by
  have hloop : ∀ crc : UInt32, (p.foldl storageCrcByte crc).toBitVec =
      Crc.feed storageCrcPoly.toBitVec crc.toBitVec (storageBits p) := by
    induction p with
    | nil => exact fun _ => rfl
    | cons byte p ih =>
      intro crc
      rw [foldl_cons, ih, storageCrcByte_eq, ← Crc.feed_append]
      rfl
  rw [storageCrc32, UInt32.toBitVec_xor, hloop]
  rfl

theorem storageBits_append (front back : Bytes) :
    storageBits (front ++ back) = storageBits front ++ storageBits back := flatMap_append

theorem length_storageBits (bytes : Bytes) : (storageBits bytes).length = 8 * bytes.length := by
  induction bytes with
  | nil => rfl
  | cons byte bytes ih =>
    rw [storageBits, flatMap_cons, length_append, Crc.length_bitsLE, ← storageBits, ih, length_cons]
    omega

theorem storageBits_injective : Function.Injective storageBits := by
  intro bytes
  induction bytes with
  | nil =>
    intro bytes' hsame
    have hlen := congrArg List.length hsame
    rw [length_storageBits, length_storageBits, length_nil] at hlen
    exact (eq_nil_of_length_eq_zero (by omega)).symm
  | cons byte bytes ih =>
    intro bytes' hsame
    cases bytes' with
    | nil =>
      have hlen := congrArg List.length hsame
      rw [length_storageBits, length_storageBits, length_cons, length_nil] at hlen
      omega
    | cons byte' bytes' =>
      rw [storageBits, flatMap_cons, storageBits, flatMap_cons] at hsame
      obtain ⟨hbyte, hbytes⟩ := append_inj hsame (by rw [Crc.length_bitsLE, Crc.length_bitsLE])
      rw [UInt8.toNat_inj.mp (Crc.bitsLE_inj byte.toNat_lt byte'.toNat_lt hbyte), ih hbytes]

/-- **A burst changes the checksum.** -/
theorem storageCrc32_ne {p p' : Bytes} {start : Nat} (hlen : p'.length = p.length) (hne : p' ≠ p)
    (hwindow : ∀ i, i < start ∨ start + 32 ≤ i → (storageBits p')[i]? = (storageBits p)[i]?) :
    storageCrc32 p ≠ storageCrc32 p' := by
  intro hsame
  have hbits : storageBits p ≠ storageBits p' := fun h => hne (storageBits_injective h).symm
  have hlong : (storageBits p').length = (storageBits p).length := by
    rw [length_storageBits, length_storageBits, hlen]
  have hregisters := congrArg UInt32.toBitVec hsame
  rw [storageCrc32_eq, storageCrc32_eq, BitVec.xor_left_inj] at hregisters
  exact Crc.feed_ne_of_window (by decide) _ hlong hbits hwindow hregisters

/-- The part of a stream in front of a place agrees where the stream does. -/
theorem storageBits_front {front back front' : Bytes} {i : Nat} (hlen : front'.length = front.length)
    (h : (storageBits (front' ++ back))[i]? = (storageBits (front ++ back))[i]?) :
    (storageBits front')[i]? = (storageBits front)[i]? := by
  have hlong : (storageBits front').length = (storageBits front).length := by
    rw [length_storageBits, length_storageBits, hlen]
  by_cases hi : i < (storageBits front).length
  · rwa [storageBits_append, storageBits_append, getElem?_append_left (hlong ▸ hi),
      getElem?_append_left hi] at h
  · rw [getElem?_eq_none (Nat.not_lt.mp hi), getElem?_eq_none (hlong ▸ Nat.not_lt.mp hi)]

theorem storageUnframe_tampered {payload pad tampered : Bytes} (hlen : payload.length < 256 ^ 4)
    (hburst : PayloadBurst payload.length (storageStream payload ++ pad) tampered)
    (hlength : tampered.length = (storageStream payload ++ pad).length) : storageUnframe tampered = none := by
  obtain ⟨hchanged, hbefore, hbehind, start, hwindow⟩ := hburst
  have hfour : ∀ n, (putLE 4 n).length = 4 := length_putLE 4
  have hstream : storageStream payload ++ pad = (putLE 4 payload.length ++ payload) ++
      (putLE 4 (storageCrc32 (putLE 4 payload.length ++ payload)).toNat ++ pad) := by
    rw [storageStream, append_assoc]
  have hcovered : (putLE 4 payload.length ++ payload).length = 4 + payload.length := by
    rw [length_append, hfour]
  rw [hstream] at hchanged hbefore hbehind hwindow hlength
  rw [append_assoc, take_left' (hfour _)] at hbefore
  rw [drop_left' hcovered] at hbehind
  have hsplit : tampered = (putLE 4 payload.length ++ (tampered.drop 4).take payload.length) ++
      (putLE 4 (storageCrc32 (putLE 4 payload.length ++ payload)).toNat ++ pad) := by
    rw [← hbehind, ← hbefore, append_assoc, ← drop_drop, take_append_drop, take_append_drop]
  have hsame : ((tampered.drop 4).take payload.length).length = payload.length := by
    rw [length_append, hcovered] at hlength
    rw [length_take, length_drop, Nat.min_eq_left (by omega)]
  have hlong : (putLE 4 payload.length ++ (tampered.drop 4).take payload.length).length =
      (putLE 4 payload.length ++ payload).length := by
    rw [length_append, length_append, hsame]
  rw [hsplit] at hwindow
  have hcrc := storageCrc32_ne hlong (fun h => hchanged (by rw [hsplit, h]))
    fun i hi => storageBits_front hlong (hwindow i hi)
  have hread := storageUnframe_eq (hsame.symm ▸ hlen)
    (storageCrc32 (putLE 4 payload.length ++ payload)) pad
  rw [hsame, if_neg hcrc, ← append_assoc, ← hsplit] at hread
  exact hread

theorem storageBody_append (flags : UInt8) (streamId : UInt32) (idx total : Nat) (data : Bytes) :
    storageBody flags streamId idx total data = storageBody flags streamId idx total [] ++ data := by
  simp only [storageBody, append_nil, cons_append, append_assoc]

theorem take_storageBody (flags : UInt8) (streamId : UInt32) (idx total : Nat) (data : Bytes) :
    (storageBody flags streamId idx total data).take STORAGE_HEADER_LEN =
      storageBody flags streamId idx total [] := by
  have hlen : (storageBody flags streamId idx total []).length = STORAGE_HEADER_LEN := by
    rw [storageBody, length_cons, length_append, length_append, length_append,
      length_putLE, length_putLE, length_putLE]
    rfl
  rw [storageBody_append]
  exact take_left' hlen

theorem eq_map_getD {α : Type} {l : List α} {n : Nat} (hlen : l.length = n) (default : α) :
    l = (List.range n).map (l.getD · default) := by
  apply ext_getElem
  · rw [length_map, length_range, hlen]
  · intro i hi hi'
    rw [getElem_map, getElem_range, getD_eq_getElem?_getD, getElem?_eq_getElem hi, Option.getD_some]

section

variable {payload : Bytes} {flags : UInt8} {streamId : UInt32} {tampered : List Bytes}

theorem storageCarried_encode (hlen : payload.length ≤ STORAGE_MAX_PAYLOAD) (flags : UInt8)
    (streamId : UInt32) : ∃ pad, storageCarried ((List.range (storageTotal (storageStream payload))).map
      (storageChunk payload flags streamId)) = storageStream payload ++ pad := by
  refine ⟨_, Eq.trans ?_ (flatMap_storageData (storageTotal_spec hlen).2.2)⟩
  rw [storageCarried, flatMap_map]
  simp only [storageChunk, drop_storageBody]

theorem names_tampered (hlen : payload.length ≤ STORAGE_MAX_PAYLOAD)
    (hlengths : tampered.map List.length = ((List.range (storageTotal (storageStream payload))).map
      (storageChunk payload flags streamId)).map List.length)
    (hheaders : tampered.map (List.take STORAGE_HEADER_LEN) =
      ((List.range (storageTotal (storageStream payload))).map
        (storageChunk payload flags streamId)).map (List.take STORAGE_HEADER_LEN))
    {idx : Nat} (hidx : idx < storageTotal (storageStream payload)) :
    (storageHeader payload flags streamId).Names idx (tampered.getD idx []) := by
  have hlong := congrArg (fun l : List Nat => l[idx]?) hlengths
  have hheader := congrArg (fun l : List Bytes => l[idx]?) hheaders
  simp only [getElem?_map, getElem?_range hidx, Option.map_some, Option.map_eq_some_iff]
    at hlong hheader
  obtain ⟨body, hget, hlong⟩ := hlong
  obtain ⟨body', hget', hheader⟩ := hheader
  rw [hget, Option.some.injEq] at hget'
  subst hget'
  rw [storageChunk, length_storageBody (length_storageData _ _)] at hlong
  rw [storageChunk, take_storageBody] at hheader
  have hdata : (body.drop STORAGE_HEADER_LEN).length = STORAGE_PAYLOAD_PER_CHUNK := by
    rw [length_drop, hlong]
    rfl
  have hbody : body = storageBody flags streamId idx (storageTotal (storageStream payload))
      (body.drop STORAGE_HEADER_LEN) := by
    rw [storageBody_append, ← hheader, take_append_drop]
  rw [getD_eq_getElem?_getD, hget, Option.getD_some, hbody]
  exact names_storageBody hdata hidx (storageTotal_spec hlen).2.1

theorem length_storageCarried {chunks : List Bytes}
    (hlengths : tampered.map List.length = chunks.map List.length) :
    (storageCarried tampered).length = (storageCarried chunks).length := by
  have hmap : ∀ l : List Bytes, l.map (fun body => (body.drop STORAGE_HEADER_LEN).length) =
      (l.map List.length).map (· - STORAGE_HEADER_LEN) := by
    intro l
    rw [map_map]
    apply map_congr_left
    intro body _
    exact length_drop
  rw [storageCarried, storageCarried, length_flatMap, length_flatMap, hmap, hmap, hlengths]

end

/-- **Tampering is detected.**  Where the chunks of an encoding keep their headers and lengths and
of what they carry only payload bits within one window of 32 change, they do not decode. -/
theorem storage_tamper_detected {payload : Bytes} {flags : UInt8} {streamId : UInt32}
    {chunks tampered : List Bytes} (hencode : storageEncode payload flags streamId = some chunks)
    (hlengths : tampered.map List.length = chunks.map List.length) (hheaders : tampered.map
    (List.take STORAGE_HEADER_LEN) = chunks.map (List.take STORAGE_HEADER_LEN))
    (hburst : PayloadBurst payload.length (storageCarried chunks) (storageCarried tampered)) :
    storageDecode tampered = none := by
  obtain ⟨hlen, rfl⟩ := storageEncode_eq_some hencode
  have hcount : tampered.length = storageTotal (storageStream payload) := by
    have hlists := congrArg List.length hlengths
    rwa [length_map, length_map, length_map, length_range] at hlists
  have hlist := eq_map_getD hcount []
  have hlength := length_storageCarried hlengths
  obtain ⟨pad, hstream⟩ := storageCarried_encode hlen flags streamId
  rw [hstream] at hburst hlength
  have hshort : payload.length < 256 ^ 4 := Nat.lt_of_le_of_lt hlen (by decide)
  have hrefused := storageUnframe_tampered hshort hburst hlength
  rw [storageCarried, hlist, flatMap_map] at hrefused
  rw [hlist, storageDecode_map (fun idx hidx => names_tampered hlen hlengths hheaders
    (mem_range.mp hidx)) (storageTotal_spec hlen).1]
  simp only [storageHeader, hrefused, Option.map_none, ite_self]

/-- The encoding of a payload with one byte changed. -/
def tamperedSample : List Bytes :=
  ((storageEncode storageSample 0 7).getD []).modify 0 (List.modify · 20 (· ^^^ 0xFF))

theorem storage_tamper_detected_sample : storageDecode tamperedSample = none ∧
      PayloadBurst storageSample.length (storageCarried ((storageEncode storageSample 0 7).getD []))
        (storageCarried tamperedSample) := by
  have hburst : PayloadBurst storageSample.length (storageCarried
      ((storageEncode storageSample 0 7).getD [])) (storageCarried tamperedSample) := by
    refine ⟨by decide +kernel, by decide +kernel, by decide +kernel, 88, ?_⟩
    intro i hi
    have hlong : ∀ i < 384, i < 88 ∨ 88 + 32 ≤ i → (storageBits (storageCarried tamperedSample))[i]? =
        (storageBits (storageCarried ((storageEncode storageSample 0 7).getD [])))[i]? := by
      decide +kernel
    by_cases hrange : i < 384
    · exact hlong i hrange hi
    · rw [getElem?_eq_none (by rw [length_storageBits]; exact Nat.not_lt.mp hrange),
        getElem?_eq_none (by rw [length_storageBits]; exact Nat.not_lt.mp hrange)]
  exact ⟨storage_tamper_detected rfl (by decide +kernel) (by decide +kernel) hburst, hburst⟩

end MaryJaneCoin
