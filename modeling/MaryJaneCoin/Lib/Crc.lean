import Mathlib.Algebra.Group.Nat.Defs
import Mathlib.Data.List.Basic
import Mathlib.Logic.Function.Iterate

/-!
# Cyclic redundancy checks

A register of `w` bits takes in a stream bit by bit, least significant bits first.  A shift
of the register is linear, and one to one where the top bit of the constant is set.  So two
streams that differ in at most `w` consecutive bits leave different registers.
-/

namespace Crc

open List Bool Nat Function BitVec

variable {w : Nat} {poly crc : BitVec w}

/-- One shift of the register. -/
def shift (poly crc : BitVec w) : BitVec w := (crc >>> 1) ^^^ (if crc.getLsbD 0 then poly else 0#w)

/-- The register takes in a bit. -/
def takeBit (poly crc : BitVec w) (bit : Bool) : BitVec w :=
  shift poly (crc ^^^ BitVec.ofNat w bit.toNat)

/-- The register takes in a stream. -/
def feed (poly crc : BitVec w) (bits : List Bool) : BitVec w := bits.foldl (takeBit poly) crc

/-- The `n` low bits of a number, the lowest first. -/
def bitsLE : Nat → Nat → List Bool
  | 0, _ => []
  | n + 1, word => decide (word % 2 = 1) :: bitsLE n (word / 2)

/-- The number with these bits. -/
def ofBits (bits : List Bool) : Nat := bits.foldr (fun bit word => bit.toNat + 2 * word) 0

theorem length_bitsLE (n word : Nat) : (bitsLE n word).length = n := by
  induction n generalizing word with
  | zero => rfl
  | succ n ih => rw [bitsLE, length_cons, ih]

theorem ofBits_lt (bits : List Bool) : ofBits bits < 2 ^ bits.length := by
  induction bits with
  | nil => exact Nat.one_pos
  | cons bit bits ih =>
    have hbit := toNat_lt bit
    rw [length_cons, Nat.pow_succ, ofBits, foldr_cons, ← ofBits]
    omega

theorem bitsLE_ofBits (bits : List Bool) : bitsLE bits.length (ofBits bits) = bits := by
  induction bits with
  | nil => rfl
  | cons bit bits ih =>
    have hbit := toNat_lt bit
    have hword : ofBits (bit :: bits) = bit.toNat + 2 * ofBits bits := rfl
    have hlow : (bit.toNat + 2 * ofBits bits) % 2 = bit.toNat := by omega
    have hhigh : (bit.toNat + 2 * ofBits bits) / 2 = ofBits bits := by omega
    rw [length_cons, bitsLE, hword, hlow, hhigh, ih]
    cases bit <;> rfl

theorem ofBits_bitsLE {n word : Nat} (hword : word < 2 ^ n) : ofBits (bitsLE n word) = word := by
  induction n generalizing word with
  | zero => exact (lt_one_iff.mp hword).symm
  | succ n ih =>
    have hhalf : word / 2 < 2 ^ n := by
      rw [Nat.pow_succ] at hword
      omega
    have hrest := ih hhalf
    rw [bitsLE, ofBits, foldr_cons, ← ofBits, hrest]
    rcases mod_two_eq_zero_or_one word with h | h
    · rw [h]
      show 0 + 2 * (word / 2) = word
      omega
    · rw [h]
      show 1 + 2 * (word / 2) = word
      omega

theorem bitsLE_inj {n word word' : Nat} (hword : word < 2 ^ n) (hword' : word' < 2 ^ n)
    (hsame : bitsLE n word = bitsLE n word') : word = word' := by
  rw [← ofBits_bitsLE hword, hsame, ofBits_bitsLE hword']

/-- **A shift is linear.** -/
theorem shift_xor (a b : BitVec w) : shift poly (a ^^^ b) = shift poly a ^^^ shift poly b := by
  rw [shift, shift, shift, BitVec.ushiftRight_xor_distrib, BitVec.getLsbD_xor]
  cases a.getLsbD 0 <;> cases b.getLsbD 0 <;> simp only [false_xor, true_xor, Bool.not_true,
    Bool.not_false, false_eq_true, if_true, if_false, BitVec.xor_zero]
  · rw [BitVec.xor_assoc]
  · rw [BitVec.xor_assoc, BitVec.xor_assoc, BitVec.xor_comm poly]
  · rw [BitVec.xor_assoc, BitVec.xor_comm (b >>> 1) poly, ← BitVec.xor_assoc poly, BitVec.xor_self,
      BitVec.zero_xor]

theorem shift_eq_zero (hpoly : poly.msb = true) (hzero : shift poly crc = 0#w) : crc = 0#w := by
  rw [shift] at hzero
  have hw : 0 < w := by
    cases w with
    | zero => rw [eq_nil poly] at hpoly; cases hpoly
    | succ w => exact succ_pos w
  split at hzero
  · have hsame : crc >>> 1 = poly := BitVec.xor_eq_zero_iff.mp hzero
    rw [← hsame, msb_ushiftRight] at hpoly
    simp at hpoly
  · rename_i hlow
    rw [BitVec.xor_zero] at hzero
    apply BitVec.eq_of_getLsbD_eq
    intro i hi
    rw [getLsbD_zero]
    cases i with
    | zero => exact eq_false_iff.mpr hlow
    | succ i =>
      have hbit := congrArg (fun x : BitVec w => x.getLsbD i) hzero
      rwa [getLsbD_zero, getLsbD_ushiftRight, Nat.add_comm] at hbit

/-- **A shift is one to one.** -/
theorem shift_injective (hpoly : poly.msb = true) : Injective (shift poly) := by
  intro a b hsame
  rw [← BitVec.xor_eq_zero_iff] at hsame ⊢
  rw [← shift_xor] at hsame
  exact shift_eq_zero hpoly hsame

theorem takeBit_injective (hpoly : poly.msb = true) (bit : Bool) :
    Injective (fun crc => takeBit poly crc bit) := by
  intro a b hsame
  exact (xor_left_inj _).mp (shift_injective hpoly hsame)

/-- What a register takes in keeps registers apart. -/
theorem feed_injective (hpoly : poly.msb = true) (bits : List Bool) :
    Injective (fun crc => feed poly crc bits) := by
  induction bits with
  | nil => exact fun _ _ hsame => hsame
  | cons bit bits ih =>
    intro a b hsame
    exact takeBit_injective hpoly bit (ih hsame)

theorem feed_append (crc : BitVec w) (front back : List Bool) :
    feed poly crc (front ++ back) = feed poly (feed poly crc front) back := foldl_append

theorem shift_word {word : Nat} (hword : word < 2 ^ w) : shift poly (crc ^^^ BitVec.ofNat w word) =
      takeBit poly crc (decide (word % 2 = 1)) ^^^ BitVec.ofNat w (word / 2) := by
  have hsplit : BitVec.ofNat w word = BitVec.ofNat w (word % 2) ^^^ BitVec.ofNat w (2 * (word / 2)) := by
    apply BitVec.eq_of_getLsbD_eq
    intro i hi
    rw [BitVec.getLsbD_xor, getLsbD_ofNat, getLsbD_ofNat, getLsbD_ofNat]
    cases i with
    | zero => simp [hi, testBit_zero]
    | succ i =>
      have hlow : (word % 2).testBit (i + 1) = false := by
        rw [testBit_succ, div_eq_of_lt (mod_lt _ Nat.two_pos), zero_testBit]
      rw [hlow, Bool.and_false, false_xor, testBit_succ, testBit_succ,
        Nat.mul_div_cancel_left _ Nat.two_pos]
  have hbit : (decide (word % 2 = 1)).toNat = word % 2 := by
    rcases mod_two_eq_zero_or_one word with h | h <;> rw [h] <;> rfl
  have heven : shift poly (BitVec.ofNat w (2 * (word / 2))) = BitVec.ofNat w (word / 2) := by
    have hlow : (BitVec.ofNat w (2 * (word / 2))).getLsbD 0 = false := by
      rw [getLsbD_ofNat, testBit_zero, mul_mod_right]
      exact Bool.and_false _
    rw [shift, hlow, if_neg Bool.false_ne_true, BitVec.xor_zero]
    apply eq_of_toNat_eq
    rw [toNat_ushiftRight, toNat_ofNat, toNat_ofNat,
      mod_eq_of_lt (Nat.lt_of_le_of_lt (mul_div_le word 2) hword),
      mod_eq_of_lt (Nat.lt_of_le_of_lt (Nat.div_le_self word 2) hword), shiftRight_eq_div_pow,
      Nat.pow_one, Nat.mul_div_cancel_left _ Nat.two_pos]
  rw [takeBit, hbit, hsplit, ← BitVec.xor_assoc, shift_xor, heven]

/-- **A word is taken in at once**: it is added to the register, which is then shifted. -/
theorem feed_word {n word : Nat} (hn : n ≤ w) (hword : word < 2 ^ n) (crc : BitVec w) :
    feed poly crc (bitsLE n word) = (shift poly)^[n] (crc ^^^ BitVec.ofNat w word) := by
  induction n generalizing word crc with
  | zero =>
    have hnone : word = 0 := lt_one_iff.mp hword
    rw [hnone]
    exact (BitVec.xor_zero).symm
  | succ n ih =>
    have hhalf : word / 2 < 2 ^ n := by
      rw [Nat.pow_succ] at hword
      omega
    have hfits : word < 2 ^ w := Nat.lt_of_lt_of_le hword (Nat.pow_le_pow_right Nat.two_pos hn)
    rw [Function.iterate_succ_apply, shift_word hfits]
    exact ih (le_of_succ_le hn) hhalf _

/-- **A burst shows.**  Streams that differ in a window no wider than the register leave
different registers. -/
theorem feed_ne (hpoly : poly.msb = true) (crc : BitVec w) (front back : List Bool)
    {inside inside' : List Bool} (hlen : inside'.length = inside.length)
    (hshort : inside.length ≤ w) (hne : inside ≠ inside') :
    feed poly crc (front ++ (inside ++ back)) ≠ feed poly crc (front ++ (inside' ++ back)) := by
  intro hsame
  rw [feed_append, feed_append, feed_append, feed_append] at hsame
  have hinside := feed_injective hpoly back hsame
  rw [← bitsLE_ofBits inside, ← bitsLE_ofBits inside', hlen,
    feed_word hshort (ofBits_lt inside), feed_word hshort (hlen ▸ ofBits_lt inside')] at hinside
  have hwords := (xor_right_inj _).mp ((shift_injective hpoly).iterate _ hinside)
  have hbound : 2 ^ inside.length ≤ 2 ^ w := Nat.pow_le_pow_right Nat.two_pos hshort
  have hnumbers := congrArg BitVec.toNat hwords
  rw [toNat_ofNat, toNat_ofNat, mod_eq_of_lt (Nat.lt_of_lt_of_le (ofBits_lt inside) hbound),
    mod_eq_of_lt (Nat.lt_of_lt_of_le (hlen ▸ ofBits_lt inside') hbound)] at hnumbers
  apply hne
  rw [← bitsLE_ofBits inside, ← bitsLE_ofBits inside', hlen, hnumbers]

/-- The same for streams that agree outside a window. -/
theorem feed_ne_of_window (hpoly : poly.msb = true) (crc : BitVec w) {bits bits' : List Bool}
    {start : Nat} (hlen : bits'.length = bits.length) (hne : bits ≠ bits')
    (hwindow : ∀ i, i < start ∨ start + w ≤ i → bits'[i]? = bits[i]?) :
    feed poly crc bits ≠ feed poly crc bits' := by
  have hfront : bits'.take start = bits.take start := by
    apply ext_getElem?
    intro i
    rw [getElem?_take, getElem?_take]
    split
    · rename_i hi
      exact hwindow i (Or.inl hi)
    · rfl
  have hback : bits'.drop (start + w) = bits.drop (start + w) := by
    apply ext_getElem?
    intro i
    rw [getElem?_drop, getElem?_drop]
    exact hwindow _ (Or.inr (Nat.le_add_right _ _))
  have hsplit : ∀ stream : List Bool,
      stream.take start ++ ((stream.drop start).take w ++ stream.drop (start + w)) = stream := by
    intro stream
    rw [← drop_drop, take_append_drop, take_append_drop]
  have hinside : ((bits'.drop start).take w).length = ((bits.drop start).take w).length := by
    rw [length_take, length_take, length_drop, length_drop, hlen]
  rw [← hsplit bits, ← hsplit bits', hfront, hback]
  apply feed_ne hpoly crc _ _ hinside (length_take_le _ _)
  intro hsame
  apply hne
  rw [← hsplit bits, ← hsplit bits', hfront, hback, hsame]

end Crc
