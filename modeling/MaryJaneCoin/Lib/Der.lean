import MaryJaneCoin.Lib.Digits

/-!
# The distinguished encoding of numbers

A number that is not negative takes the fewest bytes that leave room for its sign.  Of the strings
that write it, this is the one with no sign and no padding.
-/

namespace Der

open Codec List Nat

/-- The bytes that a number and the room for its sign take. -/
def width (n : Nat) : Nat := max 1 (LeadingDigits.size 256 n)

/-- The contents of an integer. -/
def content (n : Nat) : Bytes := putBE (width n) n

/-- The length in front of contents: one byte up to 127, or the count of its bytes and these. -/
def lengthBytes (n : Nat) : Bytes :=
  if n < 128 then [UInt8.ofNat n]
  else
    let count := Nat.clog 256 (n + 1)
    UInt8.ofNat (128 + count) :: putBE count n

def element (tag : UInt8) (contents : Bytes) : Bytes := tag :: (lengthBytes contents.length ++ contents)

def integer (n : Nat) : Bytes := element 0x02 (content n)

def sequence (members : List Bytes) : Bytes := element 0x30 members.flatten

/-- Contents that are not empty, not negative and not padded. -/
def Shortest (bytes : Bytes) : Prop :=
  bytes ≠ [] ∧ bytes.getD 0 0 < 0x80 ∧ ¬(1 < bytes.length ∧ bytes.getD 0 0 = 0 ∧ bytes.getD 1 0 < 0x80)

theorem width_pos (n : Nat) : 0 < width n := Nat.lt_of_lt_of_le Nat.one_pos (Nat.le_max_left 1 _)

theorem width_le_iff {n k : Nat} (hk : 0 < k) : width n ≤ k ↔ 2 * n < 256 ^ k := by
  rw [width, Nat.max_le, and_iff_right (succ_le_of_lt hk)]
  exact LeadingDigits.size_le_iff (by decide)

theorem lt_pow_width (n : Nat) : n < 256 ^ width n := by
  have h := (width_le_iff (width_pos n)).mp (Nat.le_refl (width n))
  omega

theorem length_content (n : Nat) : (content n).length = width n := length_putBE _ _

theorem ofBE_content (n : Nat) : ofBE (content n) = n := ofBE_putBE (lt_pow_width n)

theorem ofBE_cons (byte : UInt8) (bytes : Bytes) :
    ofBE (byte :: bytes) = byte.toNat * 256 ^ bytes.length + ofBE bytes := by
  induction bytes using List.reverseRecOn with
  | nil => simp [ofBE]
  | append_singleton bytes last ih =>
    rw [← cons_append, ofBE_concat, ih, ofBE_concat, length_append, length_singleton, pow_succ]
    ring

/-- The first byte has no sign just when the number leaves room for it. -/
theorem two_mul_ofBE_lt_iff (byte : UInt8) (bytes : Bytes) :
    2 * ofBE (byte :: bytes) < 256 ^ (bytes.length + 1) ↔ byte < 0x80 := by
  have hrest := ofBE_lt bytes
  rw [ofBE_cons, pow_succ]
  show _ ↔ byte.toNat < 128
  constructor
  · intro h
    by_contra hlarge
    have hmul := Nat.mul_le_mul_right (256 ^ bytes.length) (Nat.le_of_not_lt hlarge)
    omega
  · intro h
    have hmul := Nat.mul_le_mul_right (256 ^ bytes.length) (le_of_lt_succ h)
    omega

/-- **The strings of the fewest bytes** are those with no sign and no padding. -/
theorem shortest_iff {bytes : Bytes} : Shortest bytes ↔ bytes.length = width (ofBE bytes) := by
  cases bytes with
  | nil => exact iff_of_false (fun h => h.1 rfl) (Nat.ne_of_lt (width_pos _))
  | cons byte bytes =>
    have hfits : width (ofBE (byte :: bytes)) ≤ (byte :: bytes).length ↔ byte < 0x80 :=
      (width_le_iff (succ_pos _)).trans (two_mul_ofBE_lt_iff byte bytes)
    have hpadded : width (ofBE (byte :: bytes)) < (byte :: bytes).length ↔
        1 < (byte :: bytes).length ∧ byte = 0 ∧ (byte :: bytes).getD 1 0 < 0x80 := by
      cases bytes with
      | nil => exact iff_of_false (Nat.not_lt.mpr (width_pos _)) (fun h => absurd h.1 (by simp))
      | cons next bytes =>
        have hshort : width (ofBE (byte :: next :: bytes)) < (byte :: next :: bytes).length ↔
            2 * ofBE (byte :: next :: bytes) < 256 ^ (bytes.length + 1) :=
          Nat.lt_succ_iff.trans (width_le_iff (succ_pos _))
        have hlong : 1 < (byte :: next :: bytes).length := by simp
        rw [hshort, and_iff_right hlong]
        by_cases hzero : byte = 0
        · subst hzero
          rw [and_iff_right rfl, ofBE_cons]
          simpa using two_mul_ofBE_lt_iff next bytes
        · refine iff_of_false (fun h => ?_) (fun h => hzero h.1)
          have hpos : 1 ≤ byte.toNat := one_le_iff_ne_zero.mpr fun h => hzero (UInt8.toNat_inj.mp h)
          have hmul := Nat.mul_le_mul_right (256 ^ (next :: bytes).length) hpos
          rw [ofBE_cons] at h
          rw [length_cons] at hmul
          rw [length_cons] at h
          omega
    rw [Shortest, and_iff_right (cons_ne_nil byte bytes)]
    show byte < 0x80 ∧ ¬(_ ∧ byte = 0 ∧ _) ↔ _
    rw [← hfits, ← hpadded]
    omega

/-- **Contents are what the number determines.** -/
theorem content_ofBE {bytes : Bytes} (h : Shortest bytes) : content (ofBE bytes) = bytes := by
  rw [content, ← shortest_iff.mp h, putBE_ofBE]

theorem shortest_content (n : Nat) : Shortest (content n) := by
  rw [shortest_iff, ofBE_content, length_content]

theorem lengthBytes_pos (n : Nat) : 0 < (lengthBytes n).length := by
  unfold lengthBytes
  split
  · exact Nat.one_pos
  · exact succ_pos _

theorem element_short {tag : UInt8} {contents : Bytes} (h : contents.length < 128) :
    element tag contents = tag :: UInt8.ofNat contents.length :: contents := by
  rw [element, lengthBytes, if_pos h]
  rfl

end Der
