import Mathlib.Data.Nat.Bitwise
import Mathlib.Tactic.Ring

/-!
# Counting binary digits

Bit length and population count of a natural number, by the usual
shift-and-mask loops, with the few facts that index arithmetic over binary
forests needs: how the count behaves under doubling, under an aligned sum and
under removal of the leading bit.
-/

namespace Popcount

/-- Number of binary digits: shift right until nothing is left. -/
def bitLength (n : Nat) : Nat :=
  if n = 0 then 0 else bitLength (n / 2) + 1
termination_by n

/-- Number of set bits: add the low bit, shift right. -/
def popcount (bits : Nat) : Nat :=
  if bits = 0 then 0 else bits % 2 + popcount (bits / 2)
termination_by bits

@[simp] theorem bitLength_zero : bitLength 0 = 0 := by
  rw [bitLength, if_pos rfl]

theorem bitLength_pos {n : Nat} (h : n ≠ 0) : bitLength n = bitLength (n / 2) + 1 := by
  rw [bitLength, if_neg h]

@[simp] theorem popcount_zero : popcount 0 = 0 := by
  rw [popcount, if_pos rfl]

theorem popcount_step (n : Nat) : popcount n = n % 2 + popcount (n / 2) := by
  by_cases h : n = 0
  · simp [h]
  · rw [popcount, if_neg h]

@[simp] theorem popcount_two_mul (n : Nat) : popcount (2 * n) = popcount n := by
  rw [popcount_step]
  simp

@[simp] theorem popcount_two_mul_add_one (n : Nat) : popcount (2 * n + 1) = popcount n + 1 := by
  rw [popcount_step]
  have hmod : (2 * n + 1) % 2 = 1 := by omega
  have hdiv : (2 * n + 1) / 2 = n := by omega
  rw [hmod, hdiv, Nat.add_comm]

/-- Shifting left adds no set bit. -/
theorem popcount_mul_two_pow (n k : Nat) : popcount (n * 2 ^ k) = popcount n := by
  induction k with
  | zero => simp
  | succ k ih =>
    have h : n * 2 ^ (k + 1) = 2 * (n * 2 ^ k) := by ring
    rw [h, popcount_two_mul, ih]

theorem popcount_le (n : Nat) : popcount n ≤ n := by
  induction n using Nat.strongRecOn with
  | ind n ih =>
    by_cases h : n = 0
    · simp [h]
    · have := ih (n / 2) (by omega)
      rw [popcount_step]
      omega

/-- Bits of an aligned sum are counted separately. -/
theorem popcount_aligned_add (a r k : Nat) (hr : r < 2 ^ k) :
    popcount (a * 2 ^ k + r) = popcount a + popcount r := by
  induction k generalizing r with
  | zero =>
    have : r = 0 := by simpa using hr
    simp [this]
  | succ k ih =>
    have hpow : 2 ^ (k + 1) = 2 * 2 ^ k := by ring
    have hsum : a * 2 ^ (k + 1) = 2 * (a * 2 ^ k) := by ring
    have hhalf : r / 2 < 2 ^ k := by omega
    have hmod : (a * 2 ^ (k + 1) + r) % 2 = r % 2 := by omega
    have hdiv : (a * 2 ^ (k + 1) + r) / 2 = a * 2 ^ k + r / 2 := by omega
    rw [popcount_step, hmod, hdiv, ih _ hhalf, popcount_step r]
    omega

/-- A bracket between consecutive powers of two determines the bit length. -/
theorem bitLength_eq {n b : Nat} (hlo : 2 ^ b ≤ n) (hhi : n < 2 ^ (b + 1)) : bitLength n = b + 1 := by
  induction b generalizing n with
  | zero =>
    have : n = 1 := by omega
    rw [this, bitLength_pos (by decide)]
    simp
  | succ b ih =>
    have hpow : 2 ^ (b + 1) = 2 * 2 ^ b := by ring
    have hpow' : 2 ^ (b + 1 + 1) = 2 * 2 ^ (b + 1) := by ring
    have hpos : 0 < 2 ^ b := Nat.two_pow_pos b
    rw [bitLength_pos (by omega), ih (by omega) (by omega)]

/-- Every positive number has a bracket between consecutive powers of two. -/
theorem exists_bracket {n : Nat} (h : n ≠ 0) : ∃ b, 2 ^ b ≤ n ∧ n < 2 ^ (b + 1) :=
  ⟨Nat.log2 n, Nat.log2_self_le h, Nat.lt_log2_self⟩

end Popcount

/-!
## Bits in bytes

A row of bits is written eight to a byte, the first one lowest; what is left of
the last byte is zero.  Reading gives back all eight bits of every byte, so the
row comes back with padding behind it.
-/

namespace BitBytes

open List Option Nat

/-- `bytes[p / 8] |= bit << (p % 8)`. -/
def setBit (bytes : List UInt8) (entry : Bool × Nat) : List UInt8 :=
  bytes.modify (entry.2 / 8) fun byte => byte ||| UInt8.ofNat (entry.1.toNat <<< (entry.2 % 8))

/-- The bytes that hold a row of bits. -/
def pack (bits : List Bool) : List UInt8 :=
  bits.zipIdx.foldl setBit (List.replicate ((bits.length + 7) / 8) 0)

/-- `bytes[p / 8] & (1 << (p % 8))`. -/
def bitAt (bytes : List UInt8) (p : Nat) : Bool := (bytes[p / 8]?.getD 0).toNat.testBit (p % 8)

/-- All bits of the bytes. -/
def unpack (bytes : List UInt8) : List Bool := (List.range (bytes.length * 8)).map (bitAt bytes)

@[simp] theorem length_setBit (bytes : List UInt8) (entry : Bool × Nat) :
    (setBit bytes entry).length = bytes.length := length_modify ..

theorem testBit_byte (bit : Bool) {p q : Nat} (hq : q < 8) :
    (UInt8.ofNat (bit.toNat <<< q)).toNat.testBit p = (bit && q == p) := by
  have hfits : bit.toNat <<< q < 2 ^ 8 := by
    rw [shiftLeft_eq]
    calc bit.toNat * 2 ^ q ≤ 1 * 2 ^ q := Nat.mul_le_mul_right _ (Bool.toNat_le bit)
      _ = 2 ^ q := Nat.one_mul _
      _ < 2 ^ 8 := Nat.pow_lt_pow_right (by decide) hq
  rw [UInt8.toNat_ofNat', mod_eq_of_lt hfits]
  cases bit with
  | false => simp
  | true => simp [shiftLeft_eq, testBit_two_pow, Bool.beq_eq_decide_eq]

theorem bitAt_setBit {bytes : List UInt8} {bit : Bool} {p q : Nat} (hq : q / 8 < bytes.length) :
    bitAt (setBit bytes (bit, q)) p = (bitAt bytes p || (bit && q == p)) := by
  unfold bitAt setBit
  by_cases hbyte : q / 8 = p / 8
  · have hsome : bytes[p / 8]? = some (bytes[q / 8]) := by
      rw [← hbyte]
      exact getElem?_eq_getElem hq
    have hsame : (q % 8 == p % 8) = (q == p) := by
      rw [Bool.eq_iff_iff, beq_iff_eq, beq_iff_eq]
      omega
    simp only [hbyte]
    rw [getElem?_modify_eq, hsome]
    simp only [map_some, Option.map_eq_map, getD_some, UInt8.toNat_or, testBit_or]
    rw [testBit_byte bit (mod_lt _ (by decide)), hsame]
  · have hne : (q == p) = false := by
      rw [beq_eq_false_iff_ne]
      intro heq
      exact hbyte (congrArg (· / 8) heq)
    rw [getElem?_modify_ne _ _ hbyte, hne, Bool.and_false, Bool.or_false]

theorem bitAt_foldl {bits : List Bool} {bytes : List UInt8} {start p : Nat}
    (hroom : start + bits.length ≤ bytes.length * 8) : bitAt ((bits.zipIdx start).foldl setBit bytes) p =
      (bitAt bytes p || (decide (start ≤ p) && bits[p - start]?.getD false)) := by
  induction bits generalizing bytes start with
  | nil => simp
  | cons bit bits ih =>
    rw [length_cons] at hroom
    rw [zipIdx_cons, foldl_cons, ih (by rw [length_setBit]; omega), bitAt_setBit (by omega), Bool.or_assoc]
    congr 1
    rcases Nat.lt_trichotomy p start with hlt | heq | hgt
    · have hne : (start == p) = false := beq_eq_false_iff_ne.mpr (Nat.ne_of_gt hlt)
      have hout : ¬start ≤ p := Nat.not_le.mpr hlt
      have hout' : ¬start + 1 ≤ p := by omega
      simp only [hne, hout, hout', decide_false, Bool.and_false, Bool.false_and, Bool.or_false]
    · have hout : ¬start + 1 ≤ start := not_succ_le_self start
      simp only [heq, beq_self_eq_true, hout, decide_false, Bool.and_true, Bool.false_and,
        Bool.or_false, Nat.le_refl, decide_true, Bool.true_and, Nat.sub_self,
        getElem?_cons_zero, getD_some]
    · have hne : (start == p) = false := beq_eq_false_iff_ne.mpr (Nat.ne_of_lt hgt)
      have hle : start + 1 ≤ p := hgt
      have hindex : p - start = p - (start + 1) + 1 := by omega
      simp only [hne, hle, Nat.le_of_lt hgt, decide_true, Bool.and_false, Bool.true_and,
        Bool.false_or, hindex, getElem?_cons_succ]

theorem length_pack (bits : List Bool) : (pack bits).length = (bits.length + 7) / 8 := by
  have hloop (entries : List (Bool × Nat)) (bytes : List UInt8) :
      (entries.foldl setBit bytes).length = bytes.length := by
    induction entries generalizing bytes with
    | nil => rfl
    | cons entry entries ih => rw [foldl_cons, ih, length_setBit]
  rw [pack, hloop, length_replicate]

/-- **The bits come back, with padding up to the next whole byte.** -/
theorem unpack_pack (bits : List Bool) : unpack (pack bits) =
    bits ++ List.replicate ((bits.length + 7) / 8 * 8 - bits.length) false := by
  have hroom : bits.length ≤ (bits.length + 7) / 8 * 8 := by omega
  have hblank (p : Nat) : bitAt (List.replicate ((bits.length + 7) / 8) 0) p = false := by
    unfold bitAt
    rw [getElem?_replicate]
    split <;> simp
  refine ext_getElem ?_ ?_
  · simp only [unpack, length_map, length_range, length_pack, length_append, length_replicate]
    omega
  · intro p hp _
    simp only [unpack, getElem_map, getElem_range]
    rw [pack, bitAt_foldl (by rw [length_replicate]; omega), hblank, Bool.false_or]
    simp only [Nat.zero_le, decide_true, Bool.true_and, Nat.sub_zero]
    by_cases hlt : p < bits.length
    · rw [getElem_append_left hlt, getElem?_eq_getElem hlt, getD_some]
    · rw [getElem_append_right (Nat.le_of_not_lt hlt), getElem_replicate,
        getElem?_eq_none (Nat.le_of_not_lt hlt), getD_none]

end BitBytes
