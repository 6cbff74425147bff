import MaryJaneCoin.Lib.Codec

/-!
# The data streams of a connection

`CDataStream` of `serialize.h`: a buffer of which the front has been read.  The place up to which
it has been read is an `unsigned int`, and space that has been read is used again where something
is put back.
-/

namespace MaryJaneCoin

open Codec List UInt32

structure CDataStream where
  vch : Bytes
  nReadPos : UInt32
  read_le : nReadPos.toNat ≤ vch.length

namespace CDataStream

variable (s : CDataStream)

/-- An empty stream. -/
def clear : CDataStream := ⟨[], 0, Nat.le_refl 0⟩

def size : Nat := s.vch.length - s.nReadPos.toNat

/-- What stands from `begin()` to `end()`. -/
def unread : Bytes := s.vch.drop s.nReadPos.toNat

def write (b : Bytes) : CDataStream where
  vch := s.vch ++ b
  nReadPos := s.nReadPos
  read_le := by
    rw [List.length_append]
    exact Nat.le_add_right_of_le s.read_le

def resize (n : Nat) : CDataStream where
  vch := (s.vch ++ List.replicate (n + s.nReadPos.toNat - s.vch.length) 0).take (n + s.nReadPos.toNat)
  nReadPos := s.nReadPos
  read_le := by
    rw [List.length_take, List.length_append, List.length_replicate]
    omega

/-- `memcpy` over what stands at `pos`. -/
def overwrite (pos : Nat) (b : Bytes) : CDataStream where
  vch := s.vch.take (s.nReadPos.toNat + pos) ++ b ++ s.vch.drop (s.nReadPos.toNat + pos + b.length)
  nReadPos := s.nReadPos
  read_le := by
    have hle := s.read_le
    rw [List.length_append, List.length_append, List.length_take, List.length_drop]
    omega

variable {n : Nat}

/-- What is not past the end, counted from the read position, is a place of the buffer. -/
theorem read_add_le (hn : n ≤ s.size) : s.nReadPos.toNat + n ≤ s.vch.length := by
  have hle := s.read_le
  rw [size] at hn
  omega

/-- `erase(begin(), last)`, where `last` is a place of the buffer. -/
def eraseTo (last : Nat) (hlast : last ≤ s.vch.length) : CDataStream :=
  if last = s.vch.length then clear
  else ⟨s.vch, UInt32.ofNat last, Nat.le_trans (UInt32.toNat_ofNat' ▸ Nat.mod_le _ _) hlast⟩

/-- `insert(begin(), first, last)`: into space that has been read, where it is enough. -/
def insert (b : Bytes) : CDataStream :=
  if hfits : b.length ≤ s.nReadPos.toNat then
    { vch := s.vch.take (s.nReadPos.toNat - b.length) ++ b ++ s.vch.drop s.nReadPos.toNat
      nReadPos := UInt32.ofNat (s.nReadPos.toNat - b.length)
      read_le := by
        have hlt := Nat.lt_of_le_of_lt (Nat.sub_le _ b.length) s.nReadPos.toNat_lt
        have hle := s.read_le
        rw [UInt32.toNat_ofNat_of_lt' hlt, List.length_append, List.length_append, List.length_take]
        omega }
  else
    { vch := s.vch.take s.nReadPos.toNat ++ b ++ s.vch.drop s.nReadPos.toNat
      nReadPos := s.nReadPos
      read_le := by
        have hle := s.read_le
        rw [List.length_append, List.length_append, List.length_take]
        omega }

/-- `ignore`; `none` is the exception. -/
def ignore (nSize : Nat) : Option CDataStream :=
  let nReadPosNext := s.nReadPos + UInt32.ofNat nSize
  if hend : s.vch.length ≤ nReadPosNext.toNat then
    if s.vch.length < nReadPosNext.toNat then none else some clear
  else some ⟨s.vch, nReadPosNext, Nat.le_of_not_le hend⟩

/-- `read`; `none` is the exception. -/
def read (nSize : Nat) : Option (Bytes × CDataStream) :=
  (s.ignore nSize).map fun after => ((s.unread.take nSize), after)

def compact : CDataStream := ⟨s.unread, 0, Nat.zero_le _⟩

variable {s}

theorem length_unread : s.unread.length = s.size := length_drop

@[simp] theorem unread_clear : clear.unread = [] := rfl

@[simp] theorem unread_write (b : Bytes) : (s.write b).unread = s.unread ++ b :=
  drop_append_of_le_length s.read_le

theorem unread_resize (hle : n ≤ s.size) : (s.resize n).unread = s.unread.take n := by
  have hread := s.read_le
  rw [size] at hle
  have hpad : n + s.nReadPos.toNat - s.vch.length = 0 := by omega
  show ((s.vch ++ List.replicate _ 0).take (n + s.nReadPos.toNat)).drop s.nReadPos.toNat = _
  rw [hpad, replicate_zero, append_nil, drop_take, Nat.add_sub_cancel]
  rfl

/-- A larger stream is filled up with zeros. -/
theorem unread_resize_add (n : Nat) : (s.resize (s.size + n)).unread = s.unread ++ List.replicate n 0 := by
  have hread := s.read_le
  have hend : s.size + n + s.nReadPos.toNat = s.vch.length + n := by
    rw [size]
    omega
  have hfull : (s.vch ++ List.replicate n (0 : UInt8)).length = s.vch.length + n := by
    rw [length_append, length_replicate]
  show ((s.vch ++ List.replicate (s.size + n + s.nReadPos.toNat - s.vch.length) 0).take
    (s.size + n + s.nReadPos.toNat)).drop s.nReadPos.toNat = _
  rw [hend, Nat.add_sub_cancel_left, ← hfull, take_length, drop_append_of_le_length hread]
  rfl

theorem unread_overwrite {pos : Nat} {b : Bytes} (hle : pos + b.length ≤ s.size) :
    (s.overwrite pos b).unread = s.unread.take pos ++ b ++ s.unread.drop (pos + b.length) := by
  have hread := s.read_le
  rw [size] at hle
  have hlength : (s.vch.take (s.nReadPos.toNat + pos)).length = s.nReadPos.toNat + pos := by
    rw [length_take]
    omega
  show (s.vch.take (s.nReadPos.toNat + pos) ++ b ++ s.vch.drop
    (s.nReadPos.toNat + pos + b.length)).drop s.nReadPos.toNat = _
  rw [append_assoc, drop_append_of_le_length (by omega), drop_take, Nat.add_sub_cancel_left,
    unread, drop_drop, Nat.add_assoc, append_assoc]

theorem size_le_overwrite (s : CDataStream) (pos : Nat) (b : Bytes) : s.size ≤ (s.overwrite pos b).size := by
  have hread := s.read_le
  show s.vch.length - s.nReadPos.toNat ≤ (s.vch.take (s.nReadPos.toNat + pos) ++ b ++ s.vch.drop
      (s.nReadPos.toNat + pos + b.length)).length - s.nReadPos.toNat
  rw [length_append, length_append, length_take, length_drop]
  omega

/-- What stands at a place is replaced. -/
theorem unread_overwrite_eq {front old behind b : Bytes} (hunread : s.unread = front ++ old ++ behind)
    (hlength : b.length = old.length) : (s.overwrite front.length b).unread = front ++ b ++ behind := by
  have hle : front.length + b.length ≤ s.size := by
    rw [← length_unread, hunread, length_append, length_append, hlength]
    exact Nat.le_add_right _ _
  have hend : front.length + b.length = (front ++ old).length := by rw [length_append, hlength]
  rw [unread_overwrite hle, hunread, hend, drop_left, append_assoc front old, take_left]

/-- **Erasing from the front**, where the place fits an `unsigned int`. -/
theorem unread_eraseTo (hlast : s.nReadPos.toNat + n ≤ s.vch.length)
    (hlt : s.nReadPos.toNat + n < 2 ^ 32) :
        (s.eraseTo (s.nReadPos.toNat + n) hlast).unread = s.unread.drop n := by
  rw [eraseTo]
  split
  · rename_i hend
    show [] = (s.vch.drop s.nReadPos.toNat).drop n
    rw [drop_drop, hend, drop_length]
  · show s.vch.drop (UInt32.ofNat (s.nReadPos.toNat + n)).toNat = _
    rw [toNat_ofNat_of_lt' hlt, unread, drop_drop]

theorem length_vch_eraseTo {last : Nat} (hlast : last ≤ s.vch.length) :
    (s.eraseTo last hlast).vch.length ≤ s.vch.length := by
  rw [eraseTo]
  split
  · exact Nat.zero_le _
  · exact le_rfl

/-- **What is put back stands in front.** -/
@[simp] theorem unread_insert (b : Bytes) : (s.insert b).unread = b ++ s.unread := by
  have hread := s.read_le
  rw [insert]
  split
  · rename_i hfits
    have hlt := Nat.lt_of_le_of_lt (Nat.sub_le _ b.length) s.nReadPos.toNat_lt
    have hlength : (s.vch.take (s.nReadPos.toNat - b.length)).length = s.nReadPos.toNat - b.length := by
      rw [length_take]
      omega
    show (_ ++ b ++ s.vch.drop s.nReadPos.toNat).drop (UInt32.ofNat (s.nReadPos.toNat - b.length)).toNat = _
    rw [toNat_ofNat_of_lt' hlt, append_assoc, drop_left' hlength]
    rfl
  · have hlength : (s.vch.take s.nReadPos.toNat).length = s.nReadPos.toNat := by
      rw [length_take]
      omega
    show (s.vch.take s.nReadPos.toNat ++ b ++ s.vch.drop s.nReadPos.toNat).drop s.nReadPos.toNat = _
    rw [append_assoc, drop_left' hlength]
    rfl

/-- **Taking off the front**, in a buffer that an `unsigned int` measures. -/
theorem ignore_eq (hlt : s.vch.length < 2 ^ 32) (hle : n ≤ s.size) :
    ∃ after, s.ignore n = some after ∧ after.unread = s.unread.drop n ∧ after.vch.length ≤ s.vch.length := by
  have hread := s.read_le
  rw [size] at hle
  have hn : n < 2 ^ 32 := by omega
  have hnext : (s.nReadPos + UInt32.ofNat n).toNat = s.nReadPos.toNat + n := by
    rw [UInt32.toNat_add, toNat_ofNat_of_lt' hn, Nat.mod_eq_of_lt (by omega)]
  simp only [ignore, hnext]
  split
  · rename_i hend
    rw [if_neg (by omega)]
    refine ⟨clear, rfl, ?_, Nat.zero_le _⟩
    have hall : s.vch.length ≤ s.nReadPos.toNat + n := hend
    show [] = (s.vch.drop s.nReadPos.toNat).drop n
    rw [drop_drop, drop_eq_nil_of_le hall]
  · refine ⟨_, rfl, ?_, le_rfl⟩
    show s.vch.drop (s.nReadPos + UInt32.ofNat n).toNat = _
    rw [hnext, unread, drop_drop]

theorem read_eq (hlt : s.vch.length < 2 ^ 32) (hle : n ≤ s.size) :
    ∃ after, s.read n = some (s.unread.take n, after) ∧ after.unread = s.unread.drop n ∧
      after.vch.length ≤ s.vch.length := by
  obtain ⟨after, hignore, hunread, hlength⟩ := ignore_eq hlt hle
  refine ⟨after, ?_, hunread, hlength⟩
  rw [read, hignore]
  rfl

/-- After a read, the end of the buffer can still be kept from a place before. -/
theorem unread_read_eraseTo {n m : Nat} (hlt : s.vch.length < 2 ^ 32) (hn : n < s.size) {b : Bytes}
    {after : CDataStream} (hread : s.read n = some (b, after)) (hpos : 0 < m) (hm : m < s.size) :
    (after.eraseTo (after.vch.length - m) (Nat.sub_le _ _)).unread = s.unread.drop (s.size - m) := by
  have hreadLe := s.read_le
  rw [size] at hm hn
  have hnLt : n < 2 ^ 32 := by omega
  have hnext : (s.nReadPos + UInt32.ofNat n).toNat = s.nReadPos.toNat + n := by
    rw [UInt32.toNat_add, toNat_ofNat_of_lt' hnLt, Nat.mod_eq_of_lt (by omega)]
  have hkept : after.vch = s.vch := by
    rw [read, ignore] at hread
    simp only [hnext] at hread
    rw [dif_neg (by omega)] at hread
    obtain ⟨-, rfl⟩ := Prod.mk.inj (Option.some.inj hread)
    rfl
  have hnot : ¬after.vch.length - m = after.vch.length := by
    rw [hkept]
    omega
  rw [eraseTo, if_neg hnot]
  show after.vch.drop (UInt32.ofNat (after.vch.length - m)).toNat = _
  have hplace : s.vch.length - m < 2 ^ 32 := by omega
  rw [hkept, toNat_ofNat_of_lt' hplace, unread, drop_drop, size]
  congr 1
  omega

end CDataStream

end MaryJaneCoin
