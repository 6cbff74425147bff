import Mathlib.Tactic.FieldSimp
import MaryJaneCoin.Lib.Digits

/-!
# Decimal numerals with a point

Digits with a point among them write a rational number.  Enough decimal places scale it to a
natural one, which the digits give without a division.
-/

namespace Decimal

open Codec List

/-- The number that digits write, most significant digit first. -/
def value (digits : Bytes) : Nat := digits.foldl (fun n byte => 10 * n + (byte.toNat - 48)) 0

theorem foldl_digits (digits : Bytes) (n : Nat) :
    digits.foldl (fun n byte => 10 * n + (byte.toNat - 48)) n = n * 10 ^ digits.length + value digits := by
  induction digits generalizing n with
  | nil => simp [value]
  | cons byte digits ih =>
    rw [value, foldl_cons, foldl_cons, ih, ih (10 * 0 + _), length_cons]
    ring

theorem value_append (front back : Bytes) :
    value (front ++ back) = value front * 10 ^ back.length + value back := by
  rw [value, foldl_append, foldl_digits]
  rfl

theorem value_cons (byte : UInt8) (digits : Bytes) :
    value (byte :: digits) = (byte.toNat - 48) * 10 ^ digits.length + value digits := by
  rw [value, foldl_cons, foldl_digits, Nat.mul_zero, Nat.zero_add]

theorem value_zeros (k : Nat) : value (List.replicate k 48) = 0 := by
  induction k with
  | zero => rfl
  | succ k ih =>
    rw [replicate_succ, value_cons, ih]
    simp

theorem value_lt {digits : Bytes} (h : ∀ byte ∈ digits, isDigit byte = true) :
    value digits < 10 ^ digits.length := by
  induction digits with
  | nil => decide
  | cons byte digits ih =>
    have hbyte := (isDigit_iff byte).mp (h byte mem_cons_self)
    have hrest := ih fun other hother => h other (mem_cons_of_mem _ hother)
    have hdigit : (byte.toNat - 48) * 10 ^ digits.length ≤ 9 * 10 ^ digits.length :=
      Nat.mul_le_mul_right _ (by omega)
    rw [value_cons, length_cons, Nat.pow_succ]
    omega

theorem readNat_digits {digits : Bytes} (h : ∀ byte ∈ digits, isDigit byte = true) :
    readNat digits = value digits := by
  rw [readNat, takeWhile_eq_self_iff.mpr h, value]

theorem value_ofNat (n : Nat) : value (ofNat n) = n :=
  (readNat_digits fun _ => isDigit_of_mem_ofNat).symm.trans (readNat_ofNat n)

theorem length_ofNat_le {n k : Nat} (hk : 0 < k) (hn : n < 10 ^ k) : (ofNat n).length ≤ k := by
  unfold ofNat
  split
  · exact hk
  · rw [length_map, length_reverse]
    exact (Nat.digits_length_le_iff (by decide) n).mpr hn

/-- Digits, and more of them behind a point where there is one. -/
structure Numeral where
  whole : Bytes
  fraction : Option Bytes
  whole_digit : ∀ byte ∈ whole, isDigit byte = true
  fraction_digit : ∀ byte ∈ fraction.getD [], isDigit byte = true

namespace Numeral

variable (numeral : Numeral)

/-- The digits behind the point. -/
def places : Bytes := numeral.fraction.getD []

/-- How it is written. -/
def text : Bytes := numeral.whole ++ numeral.fraction.elim [] (46 :: ·)

/-- What it is worth. -/
def value : ℚ := Decimal.value numeral.whole + (Decimal.value numeral.places : ℚ) / 10 ^ numeral.places.length

/-- What it is worth in units of the last of `n` decimal places. -/
def scaled (n : Nat) : Nat :=
  Decimal.value numeral.whole * 10 ^ n + Decimal.value numeral.places * 10 ^ (n - numeral.places.length)

/-- **Enough places** leave no fraction. -/
theorem value_mul_pow {n : Nat} (hn : numeral.places.length ≤ n) :
    numeral.value * 10 ^ n = (numeral.scaled n : ℚ) := by
  obtain ⟨k, rfl⟩ := Nat.exists_eq_add_of_le hn
  rw [value, scaled, Nat.add_sub_cancel_left, pow_add]
  push_cast
  field_simp
  ring

theorem scaled_lt {n k : Nat} (hwhole : numeral.whole.length ≤ k) (hn : numeral.places.length ≤ n) :
    numeral.scaled n < 10 ^ (k + n) := by
  have hvalue : Decimal.value numeral.whole < 10 ^ k :=
    Nat.lt_of_lt_of_le (value_lt numeral.whole_digit) (Nat.pow_le_pow_right (by decide) hwhole)
  have hplaces : Decimal.value numeral.places * 10 ^ (n - numeral.places.length) < 10 ^ n := by
    have hlt := Nat.mul_lt_mul_of_pos_right (value_lt numeral.fraction_digit)
      (Nat.pow_pos (n := n - numeral.places.length) (show 0 < 10 by decide))
    rwa [← Nat.pow_add, show (numeral.fraction.getD []).length + (n - numeral.places.length) = n from
      Nat.add_sub_of_le hn] at hlt
  have hmul := Nat.mul_le_mul_right (10 ^ n) hvalue
  rw [Nat.succ_mul, ← Nat.pow_add] at hmul
  rw [scaled]
  omega

end Numeral

end Decimal
