import MaryJaneCoin.Chain.Interpreter
import MaryJaneCoin.Lib.Digits

/-!
# Base 58

Bytes are written as a number in base 58, with a letter one for each zero byte in front.  The number
passes through a signed format, where a byte is added for the sign and taken off again.
-/

namespace MaryJaneCoin

open List hiding Vector
open Codec Nat Decimal Radix

def pszBase58 : Bytes :=
  "123456789ABCDEFGHJKLMNPQRSTUVWXYZabcdefghijkmnopqrstuvwxyz".toList.map fun letter =>
    UInt8.ofNat letter.toNat

/-- `pszBase58[c]`. -/
def base58Letter (c : Nat) : UInt8 := pszBase58.getD c 0

/-- The loop of `EncodeBase58`. -/
def encodeBase58Loop (bn : Nat) (str : Bytes) : Bytes :=
  if h : bn = 0 then str
  else
    have : bn / 58 < bn := Nat.div_lt_self (Nat.pos_of_ne_zero h) (by decide)
    encodeBase58Loop (bn / 58) (str ++ [base58Letter (bn % 58)])
termination_by bn

def encodeBase58 (vch : Bytes) : Bytes :=
  let bn := bigNumOf (vch.reverse ++ [0])
  let str := encodeBase58Loop bn.toNat [] ++ List.replicate (vch.takeWhile (· == 0)).length (base58Letter 0)
  str.reverse

/-- The loop of `DecodeBase58`: letters, and then white space up to the end. -/
def decodeBase58Loop : Bytes → Nat → Option Nat
  | [], bn => some bn
  | c :: p, bn =>
    match pszBase58.idxOf? c with
    | none => if ((c :: p).dropWhile isSpace).isEmpty then some bn else none
    | some p1 => decodeBase58Loop p (bn * 58 + p1)

/-- The byte for the sign goes, where there is one. -/
def withoutSign (vchTmp : Bytes) : Bytes :=
  if 2 ≤ vchTmp.length ∧ vchTmp.getLast? = some 0 ∧ 0x80 ≤ vchTmp.getD (vchTmp.length - 2) 0 then
    vchTmp.dropLast
  else vchTmp

/-- `DecodeBase58(const char*)`, on what stands before the NUL. -/
def decodeBase58Psz (psz : Bytes) : Option Bytes :=
  let psz := psz.dropWhile isSpace
  (decodeBase58Loop psz 0).map fun bn : Nat =>
    List.replicate (psz.takeWhile (· == base58Letter 0)).length 0 ++ (withoutSign (bigNumVch bn)).reverse

/-- `c_str()`, up to the NUL. -/
def cStr (str : Bytes) : Bytes := str.takeWhile (· != 0)

/-- `DecodeBase58(const std::string&)`. -/
def decodeBase58 (str : Bytes) : Option Bytes := decodeBase58Psz (cStr str)

def encodeBase58Check (hashes : ScriptHashes) (vchIn : Bytes) : Bytes :=
  encodeBase58 (vchIn ++ (hashes.hash256 vchIn).toList.take 4)

/-- `DecodeBase58Check(const std::string&)`. -/
def decodeBase58Check (hashes : ScriptHashes) (str : Bytes) : Option Bytes :=
  (decodeBase58 str).bind fun vchRet =>
    if vchRet.length < 4 then none
    else
      let vch := vchRet.take (vchRet.length - 4)
      if (hashes.hash256 vch).toList.take 4 ≠ vchRet.drop (vchRet.length - 4) then none else some vch

theorem length_pszBase58 : pszBase58.length = 58 := by decide

variable {c : Nat}

theorem idxOf?_base58Letter (hc : c < 58) : pszBase58.idxOf? (base58Letter c) = some c := by
  have hall : ∀ c : Fin 58, pszBase58.idxOf? (base58Letter c) = some c.val := by decide +kernel
  exact hall ⟨c, hc⟩

theorem base58Letter_of_idxOf? {letter : UInt8} (h : pszBase58.idxOf? letter = some c) :
    c < 58 ∧ base58Letter c = letter := by
  obtain ⟨hc, hletter, -⟩ := idxOf?_eq_some_iff.mp h
  refine ⟨length_pszBase58 ▸ hc, ?_⟩
  rw [base58Letter, getD_eq_getElem?_getD, getElem?_eq_getElem hc, hletter]
  rfl

theorem base58Letter_plain (hc : c < 58) :
    isSpace (base58Letter c) = false ∧ base58Letter c ≠ 0 := by
  have hall : ∀ c : Fin 58, isSpace (base58Letter c) = false ∧ base58Letter c ≠ 0 := by decide +kernel
  exact hall ⟨c, hc⟩

theorem base58Letter_eq_zero_iff (hc : c < 58) : (base58Letter c == base58Letter 0) = (c == 0) := by
  have hall : ∀ c : Fin 58, (base58Letter c == base58Letter 0) = (c.val == 0) := by decide +kernel
  exact hall ⟨c, hc⟩

theorem space_not_letter {letter : UInt8} (hspace : isSpace letter = true) :
    pszBase58.idxOf? letter = none := by
  cases h : pszBase58.idxOf? letter with
  | none => rfl
  | some c =>
    obtain ⟨hc, rfl⟩ := base58Letter_of_idxOf? h
    rw [(base58Letter_plain hc).1] at hspace
    cases hspace

theorem encodeBase58Loop_eq (bn : Nat) (str : Bytes) :
    encodeBase58Loop bn str = str ++ (Nat.digits 58 bn).map base58Letter := by
  induction bn using Nat.strong_induction_on generalizing str with
  | _ bn ih =>
    rw [encodeBase58Loop]
    split
    · rename_i hzero
      rw [hzero, digits_zero, map_nil, append_nil]
    · rename_i hne
      have hpos := Nat.pos_of_ne_zero hne
      rw [ih (bn / 58) (Nat.div_lt_self hpos (by decide)), digits_def' (by decide) hpos, map_cons,
        append_assoc]
      rfl

/-- The zero byte in front keeps the number from being negative. -/
theorem bigNumOf_reverse (vch : Bytes) :
    bigNumOf (vch.reverse ++ [0]) = (Nat.ofDigits 256 (vch.map UInt8.toNat).reverse : Nat) := by
  have hlast : (vch.reverse ++ [(0 : UInt8)]).getLast? = some 0 := getLast?_concat
  rw [bigNumOf, hlast]
  simp only [dropLast_concat]
  have hsign : (0 : UInt8) &&& 0x80 = 0 := rfl
  have htop : (0 : UInt8) &&& 0x7f = 0 := rfl
  rw [hsign, if_pos rfl, htop, map_append, map_reverse]
  exact congrArg Int.ofNat (ofDigits_replicate_zero 256 1 (vch.map UInt8.toNat).reverse)

theorem takeWhile_zero_bytes (vch : Bytes) :
    ((vch.map UInt8.toNat).takeWhile (· == 0)).length = (vch.takeWhile (· == 0)).length := by
  have hzero : ((· == 0) ∘ UInt8.toNat : UInt8 → Bool) = (· == 0) := by
    funext byte
    rw [Function.comp_apply, Bool.eq_iff_iff, beq_iff_eq, beq_iff_eq]
    exact UInt8.toNat_inj (b := 0)
  rw [takeWhile_map, length_map, hzero]

/-- **What is written**: the bytes in base 58, digit by digit. -/
theorem encodeBase58_eq (vch : Bytes) :
    encodeBase58 vch = (convert 256 58 (vch.map UInt8.toNat)).map base58Letter := by
  rw [encodeBase58]
  simp only [bigNumOf_reverse, Int.toNat_natCast, encodeBase58Loop_eq, nil_append]
  rw [reverse_append, reverse_replicate, convert, join, Radix.split, map_append,
    map_replicate, map_reverse, takeWhile_zero_bytes]

theorem withoutSign_bigNumVch (n : Nat) : withoutSign (bigNumVch n) = (Nat.digits 256 n).map UInt8.ofNat := by
  have hplain : bigNumVch n = CScript.getvch n := by
    rw [bigNumVch, if_neg (by omega), Int.natAbs_natCast]
  have htop : ((Nat.digits 256 n).map UInt8.ofNat).getLast? ≠ some 0 := by
    rw [getLast?_map]
    intro hzero
    obtain ⟨d, hd, hbyte⟩ := Option.map_eq_some_iff.mp hzero
    have hlt : d < 256 := digits_lt_base (by decide) (mem_of_getLast? hd)
    have hd0 : d = 0 := by
      have hnat := congrArg UInt8.toNat hbyte
      rwa [UInt8.toNat_ofNat_of_lt' hlt] at hnat
    refine Radix.head?_digits_ne_zero 256 n ?_
    rw [head?_reverse, hd, hd0]
  rw [hplain, CScript.getvch]
  generalize (Nat.digits 256 n).map UInt8.ofNat = digits at htop ⊢
  cases hlast : digits.getLast? with
  | none =>
    rw [getLast?_eq_none_iff] at hlast
    rw [hlast]
    rfl
  | some top =>
    obtain ⟨front, rfl⟩ := getLast?_eq_some_iff.mp hlast
    rw [Option.any_some]
    by_cases hsign : 0x80 ≤ top
    · rw [if_pos (decide_eq_true hsign), withoutSign, if_pos, dropLast_concat]
      refine ⟨by simp, getLast?_concat, ?_⟩
      have hplace : (front ++ [top] ++ [0]).length - 2 = front.length := by simp
      rw [hplace, append_assoc, getD_append_right _ _ _ _ le_rfl, Nat.sub_self]
      exact hsign
    · rw [if_neg (by rw [decide_eq_true_eq]; exact hsign), withoutSign, if_neg]
      rintro ⟨-, hzero, -⟩
      rw [hlast] at hzero
      exact htop (hlast.trans hzero)

variable {digits : List Nat}

theorem decodeBase58Loop_letters (hlt : ∀ d ∈ digits, d < 58) {post : Bytes}
    (hpost : ∀ c ∈ post, isSpace c = true) (bn : Nat) :
    decodeBase58Loop (digits.map base58Letter ++ post) bn =
      some (bn * 58 ^ digits.length + Nat.ofDigits 58 digits.reverse) := by
  induction digits generalizing bn with
  | nil =>
    rw [map_nil, nil_append, length_nil, pow_zero, Nat.mul_one]
    show _ = some (bn + 0)
    cases post with
    | nil => rfl
    | cons c post =>
      have hall : (c :: post).dropWhile isSpace = [] := dropWhile_eq_nil_iff.mpr hpost
      rw [decodeBase58Loop, space_not_letter (hpost c mem_cons_self)]
      simp only [hall]
      rfl
  | cons d digits ih =>
    rw [map_cons, cons_append, decodeBase58Loop, idxOf?_base58Letter (hlt d mem_cons_self)]
    simp only
    rw [ih fun d hd => hlt d (mem_cons_of_mem _ hd), reverse_cons, ofDigits_append,
      ofDigits_singleton, length_reverse, length_cons, pow_succ]
    congr 1
    ring

theorem letters_of_decodeBase58Loop {p : Bytes} {bn n : Nat} (h : decodeBase58Loop p bn = some n) :
    ∃ digits : List Nat, (∀ d ∈ digits, d < 58) ∧ ∃ post : Bytes, (∀ c ∈ post, isSpace c = true) ∧
      p = digits.map base58Letter ++ post := by
  induction p generalizing bn with
  | nil => exact ⟨[], by simp, [], by simp, rfl⟩
  | cons c p ih =>
    rw [decodeBase58Loop] at h
    cases hidx : pszBase58.idxOf? c with
    | none =>
      simp only [hidx] at h
      split at h
      · rename_i hempty
        exact ⟨[], by simp, c :: p, dropWhile_eq_nil_iff.mp (List.isEmpty_iff.mp hempty), rfl⟩
      · cases h
    | some d =>
      simp only [hidx] at h
      obtain ⟨hd, hletter⟩ := base58Letter_of_idxOf? hidx
      obtain ⟨digits, hlt, post, hpost, rfl⟩ := ih h
      exact ⟨d :: digits, forall_mem_cons.mpr ⟨hd, hlt⟩, post, hpost, by rw [← hletter]; rfl⟩

theorem dropWhile_space {pre rest : Bytes} (hpre : ∀ c ∈ pre, isSpace c = true) :
    (pre ++ rest).dropWhile isSpace = rest.dropWhile isSpace := by
  induction pre with
  | nil => rfl
  | cons c pre ih =>
    rw [cons_append, dropWhile_cons, if_pos (hpre c mem_cons_self),
      ih fun c hc => hpre c (mem_cons_of_mem _ hc)]

theorem length_takeWhile_ones (hlt : ∀ d ∈ digits, d < 58) {post : Bytes}
    (hpost : ∀ c ∈ post, isSpace c = true) :
    ((digits.map base58Letter ++ post).takeWhile (· == base58Letter 0)).length =
      (digits.takeWhile (· == 0)).length := by
  induction digits with
  | nil =>
    cases post with
    | nil => rfl
    | cons c post =>
      have hletter : (c == base58Letter 0) = false := by
        rw [beq_eq_false_iff_ne]
        rintro rfl
        have hspace := hpost _ mem_cons_self
        rw [(base58Letter_plain (by decide)).1] at hspace
        cases hspace
      rw [map_nil, nil_append, takeWhile_cons, hletter]
      rfl
  | cons d digits ih =>
    rw [map_cons, cons_append, takeWhile_cons, takeWhile_cons, base58Letter_eq_zero_iff (hlt d mem_cons_self)]
    cases d == 0 with
    | false => rfl
    | true =>
      simp only [if_true, length_cons]
      rw [ih fun d hd => hlt d (mem_cons_of_mem _ hd)]

/-- **What is read**: the letters in base 256. -/
theorem decodeBase58Psz_letters (hlt : ∀ d ∈ digits, d < 58) {pre post : Bytes}
    (hpre : ∀ c ∈ pre, isSpace c = true) (hpost : ∀ c ∈ post, isSpace c = true) :
    decodeBase58Psz (pre ++ digits.map base58Letter ++ post) =
      some ((convert 58 256 digits).map UInt8.ofNat) := by
  have hskip : ∃ post' : Bytes, (∀ c ∈ post', isSpace c = true) ∧
      (digits.map base58Letter ++ post).dropWhile isSpace = digits.map base58Letter ++ post' := by
    cases digits with
    | nil => exact ⟨[], by simp, dropWhile_eq_nil_iff.mpr hpost⟩
    | cons d digits =>
      refine ⟨post, hpost, ?_⟩
      rw [map_cons, cons_append, dropWhile_cons,
        if_neg (by rw [(base58Letter_plain (hlt d mem_cons_self)).1]; exact Bool.false_ne_true)]
  obtain ⟨post', hpost', hskip⟩ := hskip
  rw [decodeBase58Psz, append_assoc, dropWhile_space hpre, hskip]
  rw [decodeBase58Loop_letters hlt hpost', length_takeWhile_ones hlt hpost',
    Option.map_some, Nat.zero_mul, Nat.zero_add, withoutSign_bigNumVch, convert, join, Radix.split,
    map_append, map_replicate, map_reverse]
  rfl

theorem map_ofNat_toNat (vch : Bytes) : (vch.map UInt8.toNat).map UInt8.ofNat = vch := by
  rw [map_map]
  exact (map_congr_left fun byte _ => UInt8.ofNat_toNat).trans (map_id vch)

theorem map_toNat_ofNat (hlt : ∀ d ∈ digits, d < 256) :
    (digits.map UInt8.ofNat).map UInt8.toNat = digits := by
  rw [map_map]
  exact (map_congr_left fun d hd => UInt8.toNat_ofNat_of_lt' (hlt d hd)).trans (map_id digits)

/-- **What is accepted**: encodings, with white space around them. -/
theorem decodeBase58Psz_eq_some_iff {psz vch : Bytes} : decodeBase58Psz psz = some vch ↔
    ∃ pre post : Bytes, (∀ c ∈ pre, isSpace c = true) ∧ (∀ c ∈ post, isSpace c = true) ∧
      psz = pre ++ encodeBase58 vch ++ post := by
  constructor
  · intro h
    have hread := h
    obtain ⟨n, hloop, -⟩ := Option.map_eq_some_iff.mp h
    obtain ⟨digits, hlt, post, hpost, hrest⟩ := letters_of_decodeBase58Loop hloop
    have hpre : ∀ c ∈ psz.takeWhile isSpace, isSpace c = true :=
      fun c hc => mem_takeWhile_imp hc
    have hpsz : psz = psz.takeWhile isSpace ++ digits.map base58Letter ++ post := by
      rw [append_assoc, ← hrest, takeWhile_append_dropWhile]
    refine ⟨psz.takeWhile isSpace, post, hpre, hpost, ?_⟩
    rw [hpsz, decodeBase58Psz_letters hlt hpre hpost] at hread
    have hvch := Option.some.inj hread
    rw [← hvch, encodeBase58_eq, map_toNat_ofNat fun d hd => convert_lt (by decide) hd,
      convert_convert 256 (by decide) hlt]
    exact hpsz
  · rintro ⟨pre, post, hpre, hpost, rfl⟩
    have hbytes : ∀ d ∈ vch.map UInt8.toNat, d < 256 := by
      intro d hd
      obtain ⟨byte, -, rfl⟩ := mem_map.mp hd
      exact byte.toNat_lt
    rw [encodeBase58_eq, decodeBase58Psz_letters (fun d hd => convert_lt (by decide) hd) hpre hpost,
      convert_convert 58 (by decide) hbytes, map_ofNat_toNat]

/-- The letters are no white space and no NUL. -/
theorem plain_of_mem_encodeBase58 {vch : Bytes} {c : UInt8} (hc : c ∈ encodeBase58 vch) :
    isSpace c = false ∧ c ≠ 0 := by
  rw [encodeBase58_eq] at hc
  obtain ⟨d, hd, rfl⟩ := mem_map.mp hc
  exact base58Letter_plain (convert_lt (by decide) hd)

theorem cStr_eq {str : Bytes} (h : ∀ c ∈ str, c ≠ 0) : cStr str = str :=
  takeWhile_eq_self_iff.mpr fun c hc => bne_iff_ne.mpr (h c hc)

theorem decodeBase58_encodeBase58 (vch : Bytes) : decodeBase58 (encodeBase58 vch) = some vch := by
  rw [decodeBase58, cStr_eq fun c hc => (plain_of_mem_encodeBase58 hc).2, decodeBase58Psz_eq_some_iff]
  exact ⟨[], [], by simp, by simp, by simp⟩

theorem encodeBase58_of_decodeBase58 {str vch : Bytes} (hplain : ∀ c ∈ str, isSpace c = false ∧
    c ≠ 0) (h : decodeBase58 str = some vch) : encodeBase58 vch = str := by
  rw [decodeBase58, cStr_eq fun c hc => (hplain c hc).2, decodeBase58Psz_eq_some_iff] at h
  obtain ⟨pre, post, hpre, hpost, rfl⟩ := h
  have hempty : ∀ part : Bytes, (∀ c ∈ part, isSpace c = true) →
      (∀ c ∈ part, c ∈ pre ++ encodeBase58 vch ++ post) → part = [] := by
    intro part hspace hmem
    refine eq_nil_iff_forall_not_mem.mpr fun c hc => ?_
    have hnot := (hplain c (hmem c hc)).1
    rw [hspace c hc] at hnot
    cases hnot
  rw [hempty pre hpre fun c hc => mem_append_left _ (mem_append_left _ hc),
    hempty post hpost fun c hc => mem_append_right _ hc, nil_append, append_nil]

variable (hashes : ScriptHashes)

theorem length_checksum (vch : Bytes) : ((hashes.hash256 vch).toList.take 4).length = 4 := by
  rw [length_take, Vector.length_toList]
  rfl

/-- **What the check accepts**: bytes with their checksum behind them. -/
theorem decodeBase58Check_eq_some_iff {str vch : Bytes} : decodeBase58Check hashes str = some vch ↔
    decodeBase58 str = some (vch ++ (hashes.hash256 vch).toList.take 4) := by
  have hchecksum := length_checksum hashes vch
  constructor
  · intro h
    obtain ⟨vchRet, hread, hrest⟩ := Option.bind_eq_some_iff.mp h
    split at hrest
    · cases hrest
    · simp only at hrest
      split at hrest
      · cases hrest
      · rename_i hmatch
        have hvch := Option.some.inj hrest
        rw [hvch, ne_eq, Decidable.not_not] at hmatch
        rw [hread, hmatch, ← hvch, take_append_drop]
  · intro h
    rw [decodeBase58Check, h, Option.bind_some]
    have hlength : (vch ++ (hashes.hash256 vch).toList.take 4).length - 4 = vch.length := by
      rw [length_append, hchecksum, Nat.add_sub_cancel]
    rw [if_neg (by rw [length_append, hchecksum]; omega)]
    simp only [hlength, take_left, drop_left]
    rw [if_neg (by rw [ne_eq, Decidable.not_not])]

/-- **Base 58 is a bijection** between bytes and strings without white space and NUL that are
accepted, and so is base 58 with a checksum. -/
theorem base58_bijection : (∀ vch, decodeBase58 (encodeBase58 vch) = some vch ∧
      decodeBase58Check hashes (encodeBase58Check hashes vch) = some vch) ∧
    ∀ str : Bytes, (∀ c ∈ str, isSpace c = false ∧ c ≠ 0) →
      (∀ vch, decodeBase58 str = some vch → encodeBase58 vch = str) ∧
      ∀ vch, decodeBase58Check hashes str = some vch → encodeBase58Check hashes vch = str := by
  refine ⟨fun vch => ⟨decodeBase58_encodeBase58 vch, ?_⟩,
    fun str hplain => ⟨fun vch h => ?_, fun vch h => ?_⟩⟩
  · rw [decodeBase58Check_eq_some_iff]
    exact decodeBase58_encodeBase58 _
  · exact encodeBase58_of_decodeBase58 hplain h
  · exact encodeBase58_of_decodeBase58 hplain ((decodeBase58Check_eq_some_iff hashes).mp h)

end MaryJaneCoin
