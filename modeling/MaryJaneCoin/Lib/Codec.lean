import Mathlib.Data.List.Induction
import Mathlib.Data.Vector.Defs
import Mathlib.Tactic.Ring

/-!
# Byte codecs

A writer turns a value into bytes, a reader takes a value off the front of a
byte string.  `Reads put get valid` says that the reader gives back every
valid value and the bytes behind it untouched; readers of composite values
are put together from this one law.
-/

namespace Codec

open List hiding Vector

/-- A byte string. -/
abbrev Bytes := List UInt8

/-- Byte strings are compared byte by byte. -/
instance bytesTransOrd : Std.TransOrd Bytes := List.instTransOrd

instance bytesLawfulEqOrd : Std.LawfulEqOrd Bytes := List.instLawfulEqOrd

/-- A reader: the value at the front and the bytes behind it. -/
abbrev Get (α : Type) := Bytes → Option (α × Bytes)

/-- `get` reads back whatever valid value `put` wrote. -/
def Reads {α : Type} (put : α → Bytes) (get : Get α) (valid : α → Prop) : Prop :=
  ∀ a rest, valid a → get (put a ++ rest) = some (a, rest)

/-- `width` bytes of a number, least significant byte first. -/
def putLE : Nat → Nat → Bytes
  | 0, _ => []
  | width + 1, n => UInt8.ofNat n :: putLE width (n / 256)

/-- Read a number of `width` bytes, least significant byte first. -/
def getLE : Nat → Get Nat
  | 0, bytes => some (0, bytes)
  | _ + 1, [] => none
  | width + 1, byte :: bytes =>
    (getLE width bytes).map fun read => (byte.toNat + 256 * read.1, read.2)

theorem length_putLE (width n : Nat) : (putLE width n).length = width := by
  induction width generalizing n with
  | zero => rfl
  | succ width ih => simp [putLE, ih]

theorem reads_LE (width : Nat) : Reads (putLE width) (getLE width) (· < 256 ^ width) := by
  induction width with
  | zero =>
    intro n rest hlt
    have : n = 0 := by simpa using hlt
    simp [putLE, getLE, this]
  | succ width ih =>
    intro n rest hlt
    have hdiv : n / 256 < 256 ^ width := by
      rw [Nat.pow_succ] at hlt
      omega
    have hbyte : (UInt8.ofNat n).toNat = n % 256 := UInt8.toNat_ofNat'
    rw [putLE, cons_append, getLE, ih _ _ hdiv, Option.map_some, hbyte, Nat.mod_add_div]

/-- A number is determined by its bytes. -/
theorem putLE_inj {width m n : Nat} (hm : m < 256 ^ width) (hn : n < 256 ^ width)
    (heq : putLE width m = putLE width n) : m = n := by
  have hread := reads_LE width m [] hm
  rw [heq, reads_LE width n [] hn] at hread
  exact (Prod.mk.inj (Option.some.inj hread)).1.symm

/-- `width` bytes of a number, most significant byte first. -/
def putBE (width n : Nat) : Bytes := (putLE width n).reverse

/-- The number that a byte string writes, most significant byte first. -/
def ofBE (bytes : Bytes) : Nat := bytes.foldl (fun n byte => 256 * n + byte.toNat) 0

theorem length_putBE (width n : Nat) : (putBE width n).length = width := by
  rw [putBE, length_reverse, length_putLE]

theorem ofBE_concat (bytes : Bytes) (byte : UInt8) :
    ofBE (bytes ++ [byte]) = 256 * ofBE bytes + byte.toNat := by
  rw [ofBE, foldl_append]
  rfl

theorem putBE_succ (width n : Nat) :
    putBE (width + 1) n = putBE width (n / 256) ++ [UInt8.ofNat n] := reverse_cons

theorem ofBE_putBE {width n : Nat} (hlt : n < 256 ^ width) : ofBE (putBE width n) = n := by
  induction width generalizing n with
  | zero =>
    have : n = 0 := by simpa using hlt
    rw [this]
    rfl
  | succ width ih =>
    have hdiv : n / 256 < 256 ^ width := by
      rw [Nat.pow_succ] at hlt
      omega
    have hbyte : (UInt8.ofNat n).toNat = n % 256 := UInt8.toNat_ofNat'
    rw [putBE_succ, ofBE_concat, ih hdiv, hbyte, Nat.div_add_mod]

theorem putBE_ofBE (bytes : Bytes) : putBE bytes.length (ofBE bytes) = bytes := by
  induction bytes using List.reverseRecOn with
  | nil => rfl
  | append_singleton bytes byte ih =>
    have hbyte := byte.toNat_lt
    have hdiv : (256 * ofBE bytes + byte.toNat) / 256 = ofBE bytes := by omega
    have hmod : UInt8.ofNat (256 * ofBE bytes + byte.toNat) = byte := by
      apply UInt8.toNat_inj.mp
      rw [UInt8.toNat_ofNat']
      omega
    rw [length_append, length_singleton, putBE_succ, ofBE_concat, hdiv, ih, hmod]

theorem ofBE_zeros_append (width : Nat) (bytes : Bytes) :
    ofBE (List.replicate width 0 ++ bytes) = ofBE bytes := by
  induction width with
  | zero => rfl
  | succ width ih => exact ih

/-- A number that needs fewer bytes is padded with zeros in front. -/
theorem putBE_add {width n : Nat} (pad : Nat) (hlt : n < 256 ^ width) :
    putBE (pad + width) n = List.replicate pad 0 ++ putBE width n := by
  have hbytes := putBE_ofBE (List.replicate pad 0 ++ putBE width n)
  rwa [ofBE_zeros_append, ofBE_putBE hlt, length_append, length_replicate, length_putBE] at hbytes

theorem ofBE_lt (bytes : Bytes) : ofBE bytes < 256 ^ bytes.length := by
  induction bytes using List.reverseRecOn with
  | nil => exact Nat.one_pos
  | append_singleton bytes byte ih =>
    have hbyte := byte.toNat_lt
    rw [length_append, length_singleton, ofBE_concat, Nat.pow_succ]
    omega

/-- Read a fixed number of bytes. -/
def getVector (n : Nat) : Get (Vector UInt8 n) := fun bytes =>
  if h : n ≤ bytes.length then
    some (⟨(bytes.take n).toArray, by simp [h]⟩, bytes.drop n)
  else none

theorem reads_vector (n : Nat) :
    Reads (fun v : Vector UInt8 n => v.toList) (getVector n) (fun _ => True) := by
  intro v rest _
  have hlen : v.toList.length = n := v.length_toList
  have htake : (v.toList ++ rest).take n = v.toList := by
    rw [take_append_of_le_length hlen.ge, take_of_length_le hlen.le]
  have hdrop : (v.toList ++ rest).drop n = rest := by
    rw [drop_append_of_le_length hlen.ge, drop_of_length_le hlen.le, nil_append]
  rw [getVector, dif_pos (by simp)]
  congr 2
  apply Vector.toArray_inj.mp
  exact (congrArg List.toArray htake).trans Vector.toArray_toList

/-- Read `n` values in a row. -/
def getMany {α : Type} (get : Get α) : Nat → Get (List α)
  | 0, bytes => some ([], bytes)
  | n + 1, bytes =>
    (get bytes).bind fun first =>
      (getMany get n first.2).map fun more => (first.1 :: more.1, more.2)

theorem reads_many {α : Type} {put : α → Bytes} {get : Get α} {valid : α → Prop}
    (hreads : Reads put get valid) (as : List α) (rest : Bytes) (hvalid : ∀ a ∈ as, valid a) :
    getMany get as.length (as.flatMap put ++ rest) = some (as, rest) := by
  induction as with
  | nil => rfl
  | cons a as ih =>
    rw [length_cons, flatMap_cons, append_assoc, getMany,
      hreads a _ (hvalid a mem_cons_self), Option.bind_some,
      ih fun a' ha' => hvalid a' (mem_cons_of_mem _ ha'), Option.map_some]

end Codec
