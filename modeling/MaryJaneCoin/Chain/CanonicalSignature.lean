import MaryJaneCoin.Chain.Signing
import MaryJaneCoin.Lib.Der

/-!
# Canonical signatures

`IsCanonicalSignature` with its reads, each of which stays in the vector, and what it accepts: two
numbers in the distinguished encoding and a hash type.
-/

namespace MaryJaneCoin

open Codec Der List Option

/-- One of the two numbers, as the code reads it; none where it reads outside of the vector. -/
def readCanonicalInteger (vchSig : Bytes) (start nLen : Nat) : Option Bool :=
  vchSig[start - 2]?.bind fun tag =>
    if tag != 0x02 then some false
    else if nLen = 0 then some false
    else vchSig[start]?.bind fun first =>
      if first &&& 0x80 != 0 then some false
      else if 1 < nLen && first == 0x00 then vchSig[start + 1]?.map fun second => second &&& 0x80 != 0
      else some true

/-- `IsCanonicalSignature` with its reads in their order; none where it reads outside of the
vector. -/
def readCanonicalSignature (vchSig : Bytes) : Option Bool :=
  if vchSig.length < 9 then some false
  else if 73 < vchSig.length then some false
  else vchSig[vchSig.length - 1]?.bind fun last =>
    if last &&& ~~~SIGHASH_ANYONECANPAY < SIGHASH_ALL || SIGHASH_SINGLE <
      last &&& ~~~SIGHASH_ANYONECANPAY then
      some false
    else vchSig[0]?.bind fun type =>
      if type != 0x30 then some false
      else vchSig[1]?.bind fun marker =>
        if marker.toNat != vchSig.length - 3 then some false
        else vchSig[3]?.bind fun nLenR =>
          if vchSig.length ≤ 5 + nLenR.toNat then some false
          else vchSig[5 + nLenR.toNat]?.bind fun nLenS =>
            if nLenR.toNat + nLenS.toNat + 7 != vchSig.length then some false
            else (readCanonicalInteger vchSig 4 nLenR.toNat).bind fun fR =>
              if !fR then some false
              else (readCanonicalInteger vchSig (6 + nLenR.toNat) nLenS.toNat).map fun fS =>
                fS && nLenS.toNat ≤ 32

/-- What a signature should be: two numbers in the distinguished encoding, and the hash type. -/
def signatureOf (r s : Nat) (hashType : UInt8) : Bytes :=
  Der.sequence [Der.integer r, Der.integer s] ++ [hashType]

/-- The hash types: all, none or single, with or without anyone-can-pay. -/
def hashTypes : List UInt8 :=
  [SIGHASH_ALL, SIGHASH_NONE, SIGHASH_SINGLE].flatMap fun hashType =>
    [hashType, hashType ||| SIGHASH_ANYONECANPAY]

/-- The numbers and the hash type that stand in a signature. -/
def signatureValues (vchSig : Bytes) : Nat × Nat × UInt8 :=
  let nLenR := (vchSig.getD 3 0).toNat
  let nLenS := (vchSig.getD (5 + nLenR) 0).toNat
  (ofBE ((vchSig.drop 4).take nLenR), ofBE ((vchSig.drop (6 + nLenR)).take nLenS),
    vchSig.getD (vchSig.length - 1) 0)

theorem getElem?_eq_getD {bytes : Bytes} {i : Nat} (h : i < bytes.length) :
    bytes[i]? = some (bytes.getD i 0) := by
  rw [getD_eq_getElem?_getD, getElem?_eq_getElem h]
  rfl

theorem forall_byte {p : UInt8 → Prop} (h : ∀ n : Fin 256, p (UInt8.ofFin n)) (byte : UInt8) : p byte :=
  h byte.toFin

theorem sign_iff (byte : UInt8) : byte &&& 0x80 = 0 ↔ byte < 0x80 := by
  revert byte
  exact forall_byte (by decide +kernel)

/-- **The reads of a number** stay in the vector when the number does. -/
theorem readCanonicalInteger_eq {vchSig : Bytes} {start nLen : Nat} (hend : start + nLen < vchSig.length) :
    readCanonicalInteger vchSig start nLen = some (isCanonicalInteger vchSig start nLen) := by
  unfold readCanonicalInteger isCanonicalInteger
  rw [getElem?_eq_getD (by omega), getElem?_eq_getD (by omega)]
  have hnext : 1 < nLen → vchSig[start + 1]? = some (vchSig.getD (start + 1) 0) :=
    fun hlong => getElem?_eq_getD (by omega)
  simp only [bind_some]
  generalize vchSig[start + 1]? = second at hnext ⊢
  generalize vchSig.getD (start - 2) 0 = tag
  generalize vchSig.getD start 0 = first
  generalize vchSig.getD (start + 1) 0 = next at hnext ⊢
  by_cases htag : tag = 0x02
  · by_cases hlen : nLen = 0
    · simp [htag, hlen]
    · by_cases hsign : first &&& 0x80 = 0
      · by_cases hlong : 1 < nLen
        · by_cases hzero : first = 0x00
          · simp [htag, hlen, hlong, hzero, hnext hlong, bne]
          · simp [htag, hlen, hsign, hlong, hzero]
        · simp [htag, hlen, hsign, hlong]
      · simp [htag, hlen, hsign]
  · simp [htag]

theorem isCanonicalSignature_tests (vchSig : Bytes) :
    let nLenR := (vchSig.getD 3 0).toNat
    let nLenS := (vchSig.getD (5 + nLenR) 0).toNat
    let nHashType := vchSig.getD (vchSig.length - 1) 0 &&& 0x7f
    isCanonicalSignature vchSig = true ↔ 9 ≤ vchSig.length ∧ vchSig.length ≤ 73 ∧ 1 ≤ nHashType ∧
      nHashType ≤ 3 ∧ vchSig.getD 0 0 = 0x30 ∧ (vchSig.getD 1 0).toNat = vchSig.length - 3 ∧
      5 + nLenR < vchSig.length ∧ nLenR + nLenS + 7 = vchSig.length ∧
      isCanonicalInteger vchSig 4 nLenR = true ∧ isCanonicalInteger vchSig (6 + nLenR) nLenS =
      true ∧ nLenS ≤ 32 := by
  unfold isCanonicalSignature
  simp only [Bool.and_eq_true, decide_eq_true_eq, beq_iff_eq, and_assoc]

/-- **No read is outside of the vector.** -/
theorem readCanonicalSignature_eq (vchSig : Bytes) :
    readCanonicalSignature vchSig = some (isCanonicalSignature vchSig) := by
  have htests := isCanonicalSignature_tests vchSig
  have hrefused : ¬isCanonicalSignature vchSig = true → some false = some (isCanonicalSignature vchSig) :=
    fun hnot => congrArg some (Bool.eq_false_iff.mpr hnot).symm
  unfold readCanonicalSignature
  by_cases hshort : vchSig.length < 9
  · rw [if_pos hshort]
    exact hrefused fun h => Nat.not_lt.mpr (htests.mp h).1 hshort
  by_cases hlong : 73 < vchSig.length
  · rw [if_neg hshort, if_pos hlong]
    exact hrefused fun h => Nat.not_lt.mpr (htests.mp h).2.1 hlong
  rw [if_neg hshort, if_neg hlong, getElem?_eq_getD (by omega), getElem?_eq_getD (by omega),
    getElem?_eq_getD (by omega), getElem?_eq_getD (by omega)]
  simp only [bind_some]
  split
  · rename_i htype
    refine hrefused fun h => ?_
    obtain ⟨-, -, hlow, hhigh, -⟩ := htests.mp h
    rw [Bool.or_eq_true, decide_eq_true_eq, decide_eq_true_eq] at htype
    exact htype.elim (UInt8.not_lt.mpr hlow) (UInt8.not_lt.mpr hhigh)
  split
  · rename_i htag
    refine hrefused fun h => ?_
    obtain ⟨-, -, -, -, hthirty, -⟩ := htests.mp h
    exact bne_iff_ne.mp htag hthirty
  split
  · rename_i hmarker
    refine hrefused fun h => ?_
    obtain ⟨-, -, -, -, -, hlength, -⟩ := htests.mp h
    exact bne_iff_ne.mp hmarker hlength
  split
  · rename_i hplaced
    refine hrefused fun h => ?_
    obtain ⟨-, -, -, -, -, -, hbefore, -⟩ := htests.mp h
    exact Nat.not_lt.mpr hplaced hbefore
  rename_i htype htag hmarker hplaced
  rw [getElem?_eq_getD (Nat.lt_of_not_le hplaced), bind_some]
  split
  · rename_i hmismatch
    refine hrefused fun h => ?_
    obtain ⟨-, -, -, -, -, -, -, hsum, -⟩ := htests.mp h
    exact bne_iff_ne.mp hmismatch hsum
  rename_i hmismatch
  have hsum := Decidable.not_not.mp (mt bne_iff_ne.mpr hmismatch)
  rw [readCanonicalInteger_eq (by omega), readCanonicalInteger_eq (by omega), bind_some]
  split
  · rename_i hnegated
    refine hrefused fun h => ?_
    obtain ⟨-, -, -, -, -, -, -, -, hR, -⟩ := htests.mp h
    rw [hR] at hnegated
    exact Bool.false_ne_true hnegated
  · rename_i hnegated
    rw [map_some]
    refine congrArg some (Bool.eq_iff_iff.mpr (Iff.trans ?_ htests.symm))
    rw [Bool.and_eq_true, decide_eq_true_eq]
    rw [Bool.or_eq_true, decide_eq_true_eq, decide_eq_true_eq, not_or] at htype
    rw [bne_iff_ne, ne_eq, Decidable.not_not] at htag hmarker
    rw [Bool.not_eq_true', Bool.not_eq_false] at hnegated
    constructor
    · rintro ⟨hS, hlow⟩
      exact ⟨Nat.le_of_not_lt hshort, Nat.le_of_not_lt hlong, UInt8.not_lt.mp htype.1,
        UInt8.not_lt.mp htype.2, htag, hmarker, Nat.lt_of_not_le hplaced, hsum, hnegated, hS, hlow⟩
    · rintro ⟨-, -, -, -, -, -, -, -, -, hS, hlow⟩
      exact ⟨hS, hlow⟩

theorem isCanonicalInteger_iff {vchSig contents : Bytes} {start : Nat}
    (hcontents : ∀ i < contents.length, vchSig.getD (start + i) 0 = contents.getD i 0) :
    isCanonicalInteger vchSig start contents.length = true ↔
      vchSig.getD (start - 2) 0 = 0x02 ∧ Shortest contents := by
  have hfirst : contents ≠ [] → vchSig.getD start 0 = contents.getD 0 0 :=
    fun hne => hcontents 0 (length_pos_iff.mpr hne)
  have hsecond : 1 < contents.length → vchSig.getD (start + 1) 0 = contents.getD 1 0 := hcontents 1
  unfold isCanonicalInteger Shortest
  simp only [Bool.and_eq_true, beq_iff_eq, bne_iff_ne, ne_eq, length_eq_zero_iff, Bool.not_eq_true',
    Bool.and_eq_false_iff, sign_iff, decide_eq_false_iff_not, beq_eq_false_iff_ne, and_assoc]
  refine and_congr_right fun _ => and_congr_right fun hne => ?_
  rw [hfirst hne]
  refine and_congr_right fun _ => ?_
  by_cases hlong : 1 < contents.length
  · rw [hsecond hlong]
    tauto
  · tauto

/-- What stands at a place. -/
theorem getD_eq_of_drop {bytes rest : Bytes} {i j : Nat} (h : bytes.drop i = rest) :
    bytes.getD (i + j) 0 = rest.getD j 0 := by
  rw [← h, getD_eq_getElem?_getD, getD_eq_getElem?_getD, getElem?_drop]

/-- The bytes of a signature: what stands around the two numbers. -/
def signatureBytes (type marker tagR nLenR : UInt8) (R : Bytes) (tagS nLenS : UInt8) (S : Bytes)
    (last : UInt8) : Bytes :=
  type :: marker :: tagR :: nLenR :: (R ++ tagS :: nLenS :: (S ++ [last]))

section

variable (type marker tagR nLenR : UInt8) (R : Bytes) (tagS nLenS : UInt8) (S : Bytes) (last : UInt8)

theorem length_signatureBytes : (signatureBytes type marker tagR nLenR R tagS nLenS S last).length =
    R.length + S.length + 7 := by
  simp only [signatureBytes, length_cons, length_append, length_nil]
  omega

theorem drop_signatureBytes_R : (signatureBytes type marker tagR nLenR R tagS nLenS S last).drop 4 =
    R ++ tagS :: nLenS :: (S ++ [last]) := rfl

theorem drop_signatureBytes (i : Nat) :
    (signatureBytes type marker tagR nLenR R tagS nLenS S last).drop (4 + R.length + i) =
      (tagS :: nLenS :: (S ++ [last])).drop i := by
  rw [Nat.add_assoc, ← drop_drop, drop_signatureBytes_R, drop_append, drop_eq_nil_of_le (by omega),
    nil_append, Nat.add_sub_cancel_left]

theorem getD_nLenS : (signatureBytes type marker tagR nLenR R tagS nLenS S last).getD
    (5 + R.length) 0 = nLenS := by
  rw [show 5 + R.length = 4 + R.length + 0 + 1 by omega]
  exact getD_eq_of_drop (drop_signatureBytes type marker tagR nLenR R tagS nLenS S last 0)

theorem getD_last : (signatureBytes type marker tagR nLenR R tagS nLenS S last).getD
    ((signatureBytes type marker tagR nLenR R tagS nLenS S last).length - 1) 0 = last := by
  rw [length_signatureBytes, show R.length + S.length + 7 - 1 = 4 + R.length + 2 + S.length by omega,
    getD_eq_of_drop (drop_signatureBytes type marker tagR nLenR R tagS nLenS S last 2)]
  simp

end

/-- **The tests on the parts of a signature.** -/
theorem isCanonicalSignature_bytes {type marker tagR nLenR tagS nLenS last : UInt8} {R S : Bytes}
    (hR : nLenR.toNat = R.length) (hS : nLenS.toNat = S.length) :
    isCanonicalSignature (signatureBytes type marker tagR nLenR R tagS nLenS S last) = true ↔
      R.length + S.length ≤ 66 ∧ S.length ≤ 32 ∧ (1 ≤ last &&& 0x7f ∧ last &&& 0x7f ≤ 3) ∧
        type = 0x30 ∧ marker.toNat = R.length + S.length + 4 ∧ (tagR = 0x02 ∧ Shortest R) ∧
        tagS = 0x02 ∧ Shortest S := by
  have hlength := length_signatureBytes type marker tagR nLenR R tagS nLenS S last
  have hdropS := drop_signatureBytes type marker tagR nLenR R tagS nLenS S last
  have hlenS := getD_nLenS type marker tagR nLenR R tagS nLenS S last
  have hlast := getD_last type marker tagR nLenR R tagS nLenS S last
  generalize hv : signatureBytes type marker tagR nLenR R tagS nLenS S last = v at hlength hdropS hlenS hlast
  have htype : v.getD 0 0 = type := by rw [← hv]; rfl
  have hmarker : v.getD 1 0 = marker := by rw [← hv]; rfl
  have htagR : v.getD 2 0 = tagR := by rw [← hv]; rfl
  have hlenR : v.getD 3 0 = nLenR := by rw [← hv]; rfl
  have htagS : v.getD (4 + R.length) 0 = tagS := getD_eq_of_drop (j := 0) (hdropS 0)
  have hintR : isCanonicalInteger v 4 R.length = true ↔ tagR = 0x02 ∧ Shortest R := by
    rw [← htagR]
    refine isCanonicalInteger_iff fun i hi => ?_
    have hdropR : v.drop 4 = R ++ tagS :: nLenS :: (S ++ [last]) := by
      rw [← hv]
      rfl
    rw [getD_eq_of_drop hdropR, getD_eq_getElem?_getD, getD_eq_getElem?_getD, getElem?_append_left hi]
  have hintS : isCanonicalInteger v (6 + R.length) S.length = true ↔ tagS = 0x02 ∧ Shortest S := by
    rw [← htagS, show 6 + R.length = 4 + R.length + 2 by omega]
    refine isCanonicalInteger_iff fun i hi => ?_
    rw [getD_eq_of_drop (hdropS 2)]
    show (S ++ [last]).getD i 0 = S.getD i 0
    rw [getD_eq_getElem?_getD, getD_eq_getElem?_getD, getElem?_append_left hi]
  have htests := isCanonicalSignature_tests v
  simp only [hlenR, hR, hlenS, hS, hlast, htype, hmarker, hintR, hintS] at htests
  rw [htests, hlength]
  constructor
  · rintro ⟨-, hmax, hlow, hhigh, htype, hmarker, -, -, hR, hS, hshort⟩
    exact ⟨by omega, hshort, ⟨hlow, hhigh⟩, htype, by omega, hR, hS⟩
  · rintro ⟨hmax, hshort, ⟨hlow, hhigh⟩, htype, hmarker, hR, hS⟩
    have hposR := length_pos_iff.mpr hR.2.1
    have hposS := length_pos_iff.mpr hS.2.1
    exact ⟨by omega, by omega, hlow, hhigh, htype, by omega, by omega, by omega, hR, hS, hshort⟩

/-- Every vector that is long enough has the parts of a signature. -/
theorem exists_signatureBytes {vchSig : Bytes} {lenR lenS : Nat} (hlength : lenR + lenS + 7 = vchSig.length) :
    ∃ type marker tagR nLenR R tagS nLenS S last, R.length = lenR ∧ S.length = lenS ∧
      vchSig = signatureBytes type marker tagR nLenR R tagS nLenS S last := by
  obtain ⟨type, v1, rfl⟩ := exists_of_length_succ vchSig hlength.symm
  obtain ⟨marker, v2, rfl⟩ := exists_of_length_succ v1 (Nat.succ_injective hlength).symm
  obtain ⟨tagR, v3, rfl⟩ := exists_of_length_succ v2 (Nat.succ_injective (Nat.succ_injective hlength)).symm
  simp only [length_cons] at hlength
  obtain ⟨nLenR, v4, rfl⟩ := exists_of_length_succ v3 (n := lenR + lenS + 3) (by omega)
  have hrest : (v4.drop lenR).length = lenS + 3 := by
    rw [length_drop]
    rw [length_cons] at hlength
    omega
  obtain ⟨tagS, v5, htagS⟩ := exists_of_length_succ (v4.drop lenR) hrest
  rw [htagS, length_cons, Nat.add_right_cancel_iff] at hrest
  obtain ⟨nLenS, v6, rfl⟩ := exists_of_length_succ v5 hrest
  rw [length_cons, Nat.add_right_cancel_iff] at hrest
  have hne : v6 ≠ [] := by
    rintro rfl
    cases hrest
  refine ⟨type, marker, tagR, nLenR, v4.take lenR, tagS, nLenS, v6.dropLast, v6.getLast hne, ?_, ?_, ?_⟩
  · rw [length_take]
    rw [length_cons] at hlength
    omega
  · rw [length_dropLast, hrest]
    rfl
  · rw [signatureBytes, dropLast_append_getLast, ← htagS, take_append_drop]

theorem signatureOf_eq {r s : Nat} (hashType : UInt8)
    (hshort : (content r).length + (content s).length ≤ 66) :
    signatureOf r s hashType =
      signatureBytes 0x30 (UInt8.ofNat ((content r).length + (content s).length + 4)) 0x02
      (UInt8.ofNat (content r).length) (content r) 0x02 (UInt8.ofNat (content s).length)
      (content s) hashType := by
  have hR : Der.integer r = 0x02 :: UInt8.ofNat (content r).length :: content r := element_short (by omega)
  have hS : Der.integer s = 0x02 :: UInt8.ofNat (content s).length :: content s := element_short (by omega)
  have hmembers : [Der.integer r, Der.integer s].flatten.length =
      (content r).length + (content s).length + 4 := by
    rw [hR, hS]
    simp only [flatten_cons, flatten_nil, length_append, length_cons, length_nil]
    omega
  rw [signatureOf, Der.sequence, element_short (by omega), hmembers, hR, hS, signatureBytes]
  simp

/-- A signature that is short enough has short numbers. -/
theorem contents_le {r s : Nat} {hashType : UInt8} (hmax : (signatureOf r s hashType).length ≤ 73) :
    (content r).length + (content s).length ≤ 66 := by
  have hR := lengthBytes_pos (content r).length
  have hS := lengthBytes_pos (content s).length
  have hall := lengthBytes_pos [Der.integer r, Der.integer s].flatten.length
  simp only [signatureOf, Der.sequence, Der.integer, Der.element, flatten_cons, flatten_nil,
    length_append, length_cons, length_nil] at hmax hall
  omega

theorem hashType_iff (last : UInt8) : (1 ≤ last &&& 0x7f ∧ last &&& 0x7f ≤ 3) ↔ last ∈ hashTypes := by
  revert last
  exact forall_byte (by decide +kernel)

/-- **What is accepted**: the distinguished encoding of two numbers, with a hash type. -/
theorem isCanonicalSignature_iff (vchSig : Bytes) : isCanonicalSignature vchSig = true ↔
    ∃ r s hashType, vchSig = signatureOf r s hashType ∧ vchSig.length ≤ 73 ∧
      (content s).length ≤ 32 ∧ hashType ∈ hashTypes := by
  constructor
  · intro h
    obtain ⟨-, hmax, -, -, -, -, -, hsum, -⟩ := (isCanonicalSignature_tests vchSig).mp h
    obtain ⟨type, marker, tagR, nLenR, R, tagS, nLenS, S, last, hR, hS, rfl⟩ := exists_signatureBytes hsum
    have hlenR : nLenR.toNat = R.length := hR.symm
    have hlenS : nLenS.toNat = S.length := by
      rw [← getD_nLenS type marker tagR nLenR R tagS nLenS S last, hR]
      exact hS.symm
    obtain ⟨hfits, hshort, hlast, rfl, hmarker, ⟨rfl, hminR⟩, rfl, hminS⟩ :=
      (isCanonicalSignature_bytes hlenR hlenS).mp h
    refine ⟨ofBE R, ofBE S, last, ?_, hmax, by rwa [content_ofBE hminS], (hashType_iff last).mp hlast⟩
    have hbytes : ∀ {byte : UInt8} {n : Nat}, byte.toNat = n → byte = UInt8.ofNat n := by
      rintro byte n rfl
      exact (UInt8.ofNat_toNat).symm
    rw [signatureOf_eq last (by rwa [content_ofBE hminR, content_ofBE hminS]), content_ofBE hminR,
      content_ofBE hminS, ← hbytes hlenR, ← hbytes hlenS, ← hbytes hmarker]
  · rintro ⟨r, s, hashType, rfl, hmax, hshort, htype⟩
    have hfits := contents_le hmax
    rw [signatureOf_eq hashType hfits]
    have hnat : ∀ {n : Nat}, n < 256 → (UInt8.ofNat n).toNat = n := UInt8.toNat_ofNat_of_lt'
    refine (isCanonicalSignature_bytes (hnat (by omega)) (hnat (by omega))).mpr ?_
    exact ⟨hfits, hshort, (hashType_iff hashType).mpr htype, rfl, hnat (by omega),
      ⟨rfl, shortest_content r⟩, rfl, shortest_content s⟩

/-- The numbers are those that were written. -/
theorem signatureValues_signatureOf {r s : Nat} (hashType : UInt8)
    (hfits : (content r).length + (content s).length ≤ 66) :
    signatureValues (signatureOf r s hashType) = (r, s, hashType) := by
  rw [signatureOf_eq hashType hfits]
  have hnat : ∀ {n : Nat}, n < 256 → (UInt8.ofNat n).toNat = n := UInt8.toNat_ofNat_of_lt'
  have hlenR := hnat (show (content r).length < 256 by omega)
  have hlenS := hnat (show (content s).length < 256 by omega)
  generalize UInt8.ofNat ((content r).length + (content s).length + 4) = marker
  generalize UInt8.ofNat (content r).length = nLenR at hlenR ⊢
  generalize UInt8.ofNat (content s).length = nLenS at hlenS ⊢
  have hthird :
      (signatureBytes 0x30 marker 0x02 nLenR (content r) 0x02 nLenS (content s) hashType).getD 3 0 =
        nLenR :=
    rfl
  have hdrop := drop_signatureBytes 0x30 marker 0x02 nLenR (content r) 0x02 nLenS (content s) hashType 2
  rw [signatureValues]
  simp only [hthird, hlenR, getD_nLenS, hlenS, getD_last]
  rw [show 6 + (content r).length = 4 + (content r).length + 2 by omega, hdrop, drop_signatureBytes_R,
    take_left, ofBE_content]
  show (r, ofBE ((content s ++ [hashType]).take (content s).length), hashType) = _
  rw [take_left, ofBE_content]

/-- **The check of signature encodings** reads no byte outside of the vector and accepts the
distinguished encoding of two numbers with a hash type, and nothing else.  So what is accepted is
determined by the numbers and the hash type. -/
theorem canonicalSignature_exact (vchSig : Bytes) :
    readCanonicalSignature vchSig = some (isCanonicalSignature vchSig) ∧
    (isCanonicalSignature vchSig = true ↔ ∃ r s hashType, vchSig = signatureOf r s hashType ∧
      vchSig.length ≤ 73 ∧ (content s).length ≤ 32 ∧ hashType ∈ hashTypes) ∧
    (isCanonicalSignature vchSig = true → ∀ other, isCanonicalSignature other = true →
      signatureValues vchSig = signatureValues other → vchSig = other) := by
  refine ⟨readCanonicalSignature_eq vchSig, isCanonicalSignature_iff vchSig, fun h other hother hvalues => ?_⟩
  obtain ⟨r, s, hashType, rfl, hmax, -⟩ := (isCanonicalSignature_iff vchSig).mp h
  obtain ⟨r', s', hashType', rfl, hmax', -⟩ := (isCanonicalSignature_iff other).mp hother
  rw [signatureValues_signatureOf hashType (contents_le hmax),
    signatureValues_signatureOf hashType' (contents_le hmax')] at hvalues
  cases hvalues
  rfl

end MaryJaneCoin
