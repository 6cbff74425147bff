import Mathlib.Data.List.TakeWhile
import Mathlib.Data.Nat.Digits.Lemmas
import MaryJaneCoin.Lib.Codec

/-!
# Numbers and their digits

Digit strings in any base, numbers in base ten as programs print and read them, and numbers that
are cut to their leading digits.

A digit string, most significant digit first, is a number and a count of leading zeros.  The same
pair can be written in another base, and read back.  An integer in base ten is read in the manner
of `strtoll`, and what is printed is read back.  A number that is cut to its first few digits once
is cut the same way again.
-/

namespace Radix

open List

variable {base : Nat}

/-- The leading zeros and the number. -/
def split (base : Nat) (digits : List Nat) : Nat × Nat :=
  ((digits.takeWhile (· == 0)).length, Nat.ofDigits base digits.reverse)

/-- The string of so many zeros and the digits of a number. -/
def join (base : Nat) (parts : Nat × Nat) : List Nat :=
  List.replicate parts.1 0 ++ (Nat.digits base parts.2).reverse

/-- The same zeros and the same number in another base. -/
def convert (source target : Nat) (digits : List Nat) : List Nat := join target (split source digits)

theorem ofDigits_replicate_zero (base k : Nat) (digits : List Nat) :
    Nat.ofDigits base (digits ++ List.replicate k 0) = Nat.ofDigits base digits := by
  induction k generalizing digits with
  | zero => rw [replicate_zero, append_nil]
  | succ k ih => rw [replicate_succ, ← singleton_append, ← append_assoc, ih,
      Nat.ofDigits_append, Nat.ofDigits_singleton, Nat.mul_zero, Nat.add_zero]

theorem length_takeWhile_zeros (k : Nat) {rest : List Nat} (hrest : rest.head? ≠ some 0) :
    ((List.replicate k 0 ++ rest).takeWhile (· == 0)).length = k := by
  induction k with
  | zero =>
    cases rest with
    | nil => rfl
    | cons d rest =>
      have hd : (d == 0) = false := beq_eq_false_iff_ne.mpr fun h => hrest (congrArg some h)
      rw [replicate_zero, nil_append, takeWhile_cons, hd]
      rfl
  | succ k ih =>
    rw [replicate_succ, cons_append, takeWhile_cons, if_pos (beq_self_eq_true 0), length_cons, ih]

theorem exists_zeros (digits : List Nat) :
    ∃ k rest, digits = List.replicate k 0 ++ rest ∧ rest.head? ≠ some 0 := by
  induction digits with
  | nil => exact ⟨0, [], rfl, nofun⟩
  | cons d digits ih =>
    by_cases hd : d = 0
    · obtain ⟨k, rest, rfl, hrest⟩ := ih
      exact ⟨k + 1, rest, by rw [hd]; rfl, hrest⟩
    · exact ⟨0, d :: digits, rfl, fun h => hd (Option.some.inj h)⟩

theorem head?_digits_ne_zero (base n : Nat) : (Nat.digits base n).reverse.head? ≠ some 0 := by
  rw [head?_reverse]
  intro hlast
  have hne : Nat.digits base n ≠ [] := by
    intro hnil
    rw [hnil] at hlast
    cases hlast
  have hn : n ≠ 0 := by
    rintro rfl
    exact hne (Nat.digits_zero base)
  rw [getLast?_eq_some_getLast hne] at hlast
  exact Nat.getLast_digit_ne_zero base hn (Option.some.inj hlast)

variable {digits : List Nat}

/-- **A string is what it is split into.** -/
theorem join_split (hbase : 1 < base) (hlt : ∀ d ∈ digits, d < base) :
    join base (split base digits) = digits := by
  obtain ⟨k, rest, hsplit, hrest⟩ := exists_zeros digits
  have hnumber : Nat.digits base (Nat.ofDigits base digits.reverse) = rest.reverse := by
    rw [hsplit, reverse_append, reverse_replicate, ofDigits_replicate_zero]
    refine Nat.digits_ofDigits base hbase rest.reverse (fun d hd => ?_) (fun hne hzero => ?_)
    · exact hlt d (hsplit ▸ mem_append_right _ (mem_reverse.mp hd))
    · rw [← hzero, ← getLast?_eq_some_getLast hne, getLast?_reverse] at hrest
      exact hrest rfl
  rw [join, split, hnumber, reverse_reverse]
  conv_lhs => rw [hsplit]
  rw [length_takeWhile_zeros k hrest, ← hsplit]

/-- **The parts are found again.** -/
theorem split_join (base : Nat) (parts : Nat × Nat) : split base (join base parts) = parts := by
  refine Prod.ext (length_takeWhile_zeros parts.1 (head?_digits_ne_zero base parts.2)) ?_
  show Nat.ofDigits base (List.replicate parts.1 0 ++ (Nat.digits base parts.2).reverse).reverse = parts.2
  rw [reverse_append, reverse_reverse, reverse_replicate, ofDigits_replicate_zero, Nat.ofDigits_digits]

theorem lt_of_mem_join (hbase : 1 < base) {parts : Nat × Nat} {d : Nat} (hd : d ∈ join base parts) :
    d < base := by
  rcases mem_append.mp hd with hzero | hdigit
  · rw [eq_of_mem_replicate hzero]
    omega
  · exact Nat.digits_lt_base hbase (mem_reverse.mp hdigit)

/-- **Converting there and back.** -/
theorem convert_convert {source : Nat} (target : Nat) (hsource : 1 < source) (hlt : ∀ d ∈ digits,
    d < source) : convert target source (convert source target digits) = digits := by
  rw [convert, convert, split_join, join_split hsource hlt]

theorem convert_lt {source target : Nat} (htarget : 1 < target) {d : Nat}
    (hd : d ∈ convert source target digits) : d < target := lt_of_mem_join htarget hd

end Radix

namespace Decimal

open Codec List Bool Nat

def digitByte (d : Nat) : UInt8 := UInt8.ofNat (48 + d)

/-- A number in base ten, most significant digit first. -/
def ofNat (n : Nat) : Bytes := if n = 0 then [48] else (Nat.digits 10 n).reverse.map digitByte

/-- An integer in base ten. -/
def ofInt (n : Int) : Bytes := if n < 0 then 45 :: ofNat n.natAbs else ofNat n.natAbs

def isDigit (byte : UInt8) : Bool := 48 ≤ byte && byte ≤ 57

def isSpace (byte : UInt8) : Bool := byte == 32 || (9 ≤ byte && byte ≤ 13)

/-- The number that the leading digits write. -/
def readNat (bytes : Bytes) : Nat :=
  (bytes.takeWhile isDigit).foldl (fun n byte => 10 * n + (byte.toNat - 48)) 0

/-- The integer at the front, behind blanks. -/
def readInt (bytes : Bytes) : Int :=
  match bytes.dropWhile isSpace with
  | [] => 0
  | sign :: rest =>
    if sign = 45 then -(readNat rest : Int)
    else if sign = 43 then readNat rest
    else readNat (sign :: rest)

theorem toNat_digitByte {d : Nat} (hd : d < 10) : (digitByte d).toNat = 48 + d := by
  rw [digitByte, UInt8.toNat_ofNat']
  omega

theorem isDigit_iff (byte : UInt8) : isDigit byte = true ↔ 48 ≤ byte.toNat ∧ byte.toNat ≤ 57 := by
  rw [isDigit, and_eq_true, decide_eq_true_eq, decide_eq_true_eq]
  exact Iff.rfl

theorem isDigit_digitByte {d : Nat} (hd : d < 10) : isDigit (digitByte d) = true := by
  rw [isDigit_iff, toNat_digitByte hd]
  omega

variable {byte : UInt8}

theorem isDigit_of_mem_ofNat {n : Nat} (hmem : byte ∈ ofNat n) : isDigit byte = true := by
  unfold ofNat at hmem
  split at hmem
  · rw [mem_singleton.mp hmem]
    rfl
  · obtain ⟨d, hd, rfl⟩ := mem_map.mp hmem
    exact isDigit_digitByte (digits_lt_base (by decide) (mem_reverse.mp hd))

theorem ofNat_ne_nil (n : Nat) : ofNat n ≠ [] := by
  unfold ofNat
  split
  · exact cons_ne_nil _ _
  · rename_i hn
    rw [ne_eq, map_eq_nil_iff, reverse_eq_nil_iff]
    exact digits_ne_nil_iff_ne_zero.mpr hn

/-- The value of digits, most significant first. -/
theorem foldl_digitByte (digits : List Nat) (hlt : ∀ d ∈ digits, d < 10) :
    (digits.reverse.map digitByte).foldl (fun n byte => 10 * n + (byte.toNat - 48)) 0 =
      Nat.ofDigits 10 digits := by
  induction digits with
  | nil => rfl
  | cons d digits ih =>
    have hd : (digitByte d).toNat - 48 = d := by
      rw [toNat_digitByte (hlt d mem_cons_self)]
      omega
    rw [reverse_cons, map_append, foldl_append,
      ih fun d hd => hlt d (mem_cons_of_mem _ hd), ofDigits_cons, map_singleton,
      foldl_cons, foldl_nil, hd]
    exact Nat.add_comm _ _

theorem readNat_ofNat (n : Nat) : readNat (ofNat n) = n := by
  have hall : (ofNat n).takeWhile isDigit = ofNat n :=
    takeWhile_eq_self_iff.mpr fun _ hmem => isDigit_of_mem_ofNat hmem
  rw [readNat, hall, ofNat]
  split
  · rename_i hn
    rw [hn]
    rfl
  · rw [foldl_digitByte _ fun d hd => digits_lt_base (by decide) hd, ofDigits_digits]

theorem isSpace_of_isDigit (hdigit : isDigit byte = true) : isSpace byte = false := by
  rw [isDigit_iff] at hdigit
  refine eq_false_iff.mpr fun hspace => ?_
  rw [isSpace, or_eq_true, and_eq_true, beq_iff_eq, decide_eq_true_eq, decide_eq_true_eq] at hspace
  rcases hspace with rfl | ⟨-, hle⟩
  · exact absurd hdigit.1 (by decide)
  · have hle : byte.toNat ≤ 13 := hle
    omega

theorem readInt_digits {bytes : Bytes} (hdigit : isDigit byte = true) :
    readInt (byte :: bytes) = readNat (byte :: bytes) := by
  have hspace := eq_false_iff.mp (isSpace_of_isDigit hdigit)
  rw [isDigit_iff] at hdigit
  have hsign (sign : UInt8) (hsign : sign.toNat < 48) : byte ≠ sign := by
    rintro rfl
    omega
  rw [readInt, dropWhile_cons_of_neg hspace]
  simp only [if_neg (hsign 45 (by decide)), if_neg (hsign 43 (by decide))]

/-- **What is printed is read back.** -/
theorem readInt_ofInt (n : Int) : readInt (ofInt n) = n := by
  unfold ofInt
  split
  · rename_i hneg
    have hspace : ¬isSpace 45 = true := by decide
    rw [readInt, dropWhile_cons_of_neg hspace]
    simp only [if_true, readNat_ofNat]
    omega
  · rename_i hpos
    have hread := readNat_ofNat n.natAbs
    obtain ⟨byte, bytes, hbytes⟩ := exists_cons_of_ne_nil (ofNat_ne_nil n.natAbs)
    have hdigit : isDigit byte = true :=
      isDigit_of_mem_ofNat (n := n.natAbs) (by rw [hbytes]; exact mem_cons_self)
    rw [hbytes] at hread
    rw [hbytes, readInt_digits hdigit, hread]
    omega

end Decimal

namespace LeadingDigits

/-- The digits that a number and the room for its sign take. -/
def size (base n : Nat) : Nat := Nat.clog base (2 * n + 1)

/-- The first `width` digits of `n`. -/
def mantissa (base width n : Nat) : Nat :=
  if size base n ≤ width then n * base ^ (width - size base n)
  else n / base ^ (size base n - width)

/-- The number that a size and leading digits stand for. -/
def value (base width digits leading : Nat) : Nat :=
  if digits ≤ width then leading / base ^ (width - digits)
  else leading * base ^ (digits - width)

/-- `n` with all digits but the first `width` zero. -/
def cut (base width n : Nat) : Nat :=
  n / base ^ (size base n - width) * base ^ (size base n - width)

variable {base width : Nat}

theorem size_le_iff (hbase : 1 < base) {n k : Nat} : size base n ≤ k ↔ 2 * n < base ^ k :=
  Nat.clog_le_iff_le_pow hbase

theorem size_pos (hbase : 1 < base) {n : Nat} (hn : 0 < n) : 0 < size base n :=
  Nat.clog_pos hbase (by omega)

theorem cut_le (base width n : Nat) : cut base width n ≤ n := Nat.div_mul_le_self _ _

/-- The number that the stored form stands for. -/
theorem value_mantissa (hbase : 1 < base) (width n : Nat) :
    value base width (size base n) (mantissa base width n) = cut base width n := by
  unfold value mantissa cut
  split
  · next hsize =>
      rw [Nat.mul_div_cancel _ (Nat.pow_pos (by omega)), Nat.sub_eq_zero_of_le hsize]
      simp
  · rfl

/-- The leading digits leave room for the sign. -/
theorem two_mul_mantissa_lt (hbase : 1 < base) (n : Nat) : 2 * mantissa base width n < base ^ width := by
  have hn : 2 * n < base ^ size base n := (size_le_iff hbase).mp le_rfl
  unfold mantissa
  split
  · next hsize =>
      calc 2 * (n * base ^ (width - size base n))
          = 2 * n * base ^ (width - size base n) := by rw [Nat.mul_assoc]
        _ < base ^ size base n * base ^ (width - size base n) :=
          Nat.mul_lt_mul_of_pos_right hn (Nat.pow_pos (by omega))
        _ = base ^ width := by rw [← Nat.pow_add, Nat.add_sub_cancel' hsize]
  · next hsize =>
      have hpow : base ^ size base n = base ^ width * base ^ (size base n - width) := by
        rw [← Nat.pow_add, Nat.add_sub_cancel' (by omega)]
      have hcut : 2 * (n / base ^ (size base n - width)) * base ^ (size base n - width) ≤ 2 * n := by
        rw [Nat.mul_assoc]
        exact Nat.mul_le_mul_left 2 (Nat.div_mul_le_self _ _)
      rw [hpow] at hn
      exact Nat.lt_of_mul_lt_mul_right (hcut.trans_lt hn)

/-- In an even base the first digit is left where it is: half the base times a power is
the least number of its size, and cutting does not go below it. -/
theorem size_cut (hbase : 1 < base) (heven : 2 ∣ base) (hwidth : 2 ≤ width) (n : Nat) :
    size base (cut base width n) = size base n := by
  by_cases hsize : size base n ≤ width
  · simp [cut, Nat.sub_eq_zero_of_le hsize]
  obtain ⟨half, rfl⟩ := heven
  refine le_antisymm ?_ ?_
  · exact Nat.clog_mono_right _ (by have := cut_le (2 * half) width n; omega)
  have hlow : (2 * half) ^ (size (2 * half) n - 1) ≤ 2 * n := by
    have := (size_le_iff hbase (n := n) (k := size (2 * half) n - 1)).not.mp (by omega)
    omega
  -- The least number of this size is a multiple of what the cut is a multiple of.
  obtain ⟨m, hm⟩ : ∃ m, (2 * half) ^ (size (2 * half) n - 1) =
      2 * (m * (2 * half) ^ (size (2 * half) n - width)) := by
    refine ⟨half * (2 * half) ^ (width - 2), ?_⟩
    have hexp : size (2 * half) n - 1 = 1 + (width - 2) + (size (2 * half) n - width) := by omega
    rw [hexp, Nat.pow_add, Nat.pow_add, Nat.pow_one]
    simp only [Nat.mul_assoc]
  have hcut : m * (2 * half) ^ (size (2 * half) n - width) ≤ cut (2 * half) width n := by
    refine Nat.mul_le_mul_right _ ?_
    exact (Nat.le_div_iff_mul_le (Nat.pow_pos (by omega))).mpr (by omega)
  by_contra hlt
  have hpred : size (2 * half) (cut (2 * half) width n) ≤ size (2 * half) n - 1 := by omega
  have hsmall := (size_le_iff hbase).mp hpred
  omega

/-- Cutting a number that was cut changes nothing. -/
theorem mantissa_cut (hbase : 1 < base) (heven : 2 ∣ base) (hwidth : 2 ≤ width) (n : Nat) :
    mantissa base width (cut base width n) = mantissa base width n := by
  unfold mantissa
  rw [size_cut hbase heven hwidth]
  split
  · next hsize => simp [cut, Nat.sub_eq_zero_of_le hsize]
  · exact Nat.mul_div_cancel _ (Nat.pow_pos (by omega))

theorem cut_pos (hbase : 1 < base) (heven : 2 ∣ base) (hwidth : 2 ≤ width) {n : Nat}
    (hn : 0 < n) : 0 < cut base width n := by
  refine Nat.pos_of_ne_zero fun hzero => ?_
  have hsize := size_cut hbase heven hwidth n
  rw [hzero] at hsize
  have hpos := size_pos hbase hn
  simp [size] at hsize hpos
  omega

end LeadingDigits
