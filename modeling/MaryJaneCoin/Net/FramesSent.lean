import MaryJaneCoin.Net.MessageFraming

/-!
# What is written is frames

Whatever is begun, dropped and aborted, the bytes that have left and the bytes that wait are the
frames of the messages that were ended.
-/

namespace MaryJaneCoin

open List hiding Vector
open Codec CMessageHeader CDataStream Option Int

/-- The messages of a sending side: the one that is being written, and those that were ended. -/
structure Outbox where
  current : Option (Bytes × Bytes)
  sent : List (Bytes × Bytes)

namespace Outbox

/-- Nothing has been written. -/
def empty : Outbox := ⟨none, []⟩

/-- What a step means for the messages; `none` where it is out of place: bytes that belong to no
message, or a socket that takes part of one. -/
def step (box : Outbox) : SendOp → Option Outbox
  | .beginMessage pszCommand => some ⟨some (pszCommand, []), box.sent⟩
  | .append data => box.current.map fun message => ⟨some (message.1, message.2 ++ data), box.sent⟩
  | .abortMessage => some ⟨none, box.sent⟩
  | .endMessage fDrop => some ⟨none, if fDrop then box.sent else box.sent ++ box.current.toList⟩
  | .pushMessage pszCommand data fDrop =>
    some ⟨none, if fDrop then box.sent else box.sent ++ [(pszCommand, data)]⟩
  | .socketSend _ => if box.current.isNone then some box else none

/-- Steps of the messages. -/
def run (ops : List SendOp) (box : Outbox) : Option Outbox := ops.foldlM step box

end Outbox

namespace Wire

variable (wire : Wire)

/-- The header of a message that was ended. -/
def header (message : Bytes × Bytes) : CMessageHeader :=
  { CMessageHeader.ofCommand wire message.1 (UInt32.ofNat message.2.length) with
    nChecksum := wire.checksum message.2 }

def frame (message : Bytes × Bytes) : Bytes := (wire.header message).serialize ++ message.2

def frames (messages : List (Bytes × Bytes)) : Bytes := messages.flatMap wire.frame

variable {wire}

theorem frames_append (messages messages' : List (Bytes × Bytes)) :
    wire.frames (messages ++ messages') = wire.frames messages ++ wire.frames messages' := flatMap_append

theorem frames_singleton (message : Bytes × Bytes) : wire.frames [message] = wire.frame message :=
  flatMap_singleton _ _

end Wire

theorem length_strncpy (pszCommand : Bytes) (n : Nat) : (strncpy pszCommand n).length = n := by
  have hle : ((pszCommand.takeWhile (· != 0)).take n).length ≤ n := by
    rw [length_take]
    exact Nat.min_le_left _ _
  rw [strncpy, length_append, length_replicate, Nat.add_sub_cancel' hle]

theorem length_ofCommand (wire : Wire) (pszCommand : Bytes) (nMessageSize : UInt32) :
    (ofCommand wire pszCommand nMessageSize).serialize.length = nHeaderSize := by
  simp only [serialize, ofCommand, length_append, length_putLE,
    length_strncpy, Vector.length_toList]
  rfl

theorem length_header (wire : Wire) (message : Bytes × Bytes) :
    (wire.header message).serialize.length = nHeaderSize := by
  simp only [serialize, Wire.header, ofCommand, length_append, length_putLE,
    length_strncpy, Vector.length_toList]
  rfl

theorem length_frames_cons (wire : Wire) (message : Bytes × Bytes) (todo : List (Bytes × Bytes)) :
    nHeaderSize ≤ (wire.frames (message :: todo)).length := by
  rw [Wire.frames, flatMap_cons, Wire.frame, length_append, length_append, length_header]
  omega

theorem toInt_ofNat_of_lt {n : Nat} (hlt : n < 2 ^ 31) :
    (Int32.ofNat n).toInt = n ∧ (Int32.ofNat n).toNatClampNeg = n ∧ ¬Int32.ofNat n < 0 := by
  have htoInt : (Int32.ofNat n).toInt = n := Int32.toInt_ofNat_of_lt hlt
  refine ⟨htoInt, ?_, ?_⟩
  · rw [Int32.toNatClampNeg, htoInt, toNat_natCast]
  · rw [Int32.lt_iff_toInt_lt, htoInt]
    exact Int.not_lt.mpr (natCast_nonneg n)

/-- Every int32 that is some place of a buffer is not the sentinel. -/
theorem ofNat_ne_neg_one {n : Nat} (hlt : n < 2 ^ 31) : Int32.ofNat n ≠ -1 := by
  intro heq
  have hpos := (toInt_ofNat_of_lt hlt).2.2
  rw [heq] at hpos
  exact hpos (by decide)

/-- The sending side agrees with its messages. -/
def SendSide.Agrees (wire : Wire) (side : SendSide) (box : Outbox) : Prop :=
  match box.current with
  | none =>
    side.nHeaderStart = -1 ∧ side.nMessageStart = -1 ∧ side.taken ++ side.vSend.unread = wire.frames box.sent
  | some message =>
    ∃ before : Bytes, side.nHeaderStart = Int32.ofNat before.length ∧
      side.nMessageStart = Int32.ofNat (before.length + nHeaderSize) ∧
      side.vSend.unread =
        before ++ (CMessageHeader.ofCommand wire message.1 0).serialize ++ message.2 ∧
      side.taken ++ before = wire.frames box.sent

namespace SendSide

variable {wire : Wire} {side : SendSide} {box : Outbox}

theorem agrees_fresh (wire : Wire) : fresh.Agrees wire Outbox.empty := ⟨rfl, rfl, rfl⟩

theorem agrees_abortMessage (h : side.Agrees wire box) (hsize : side.vSend.size < 2 ^ 31) :
    side.abortMessage.Agrees wire ⟨none, box.sent⟩ ∧ side.abortMessage.vSend.size ≤ side.vSend.size := by
  obtain ⟨current, sent⟩ := box
  cases current with
  | none =>
    have hneg : side.nHeaderStart < 0 := by
      rw [h.1]
      decide
    rw [abortMessage, if_pos hneg]
    exact ⟨h, le_rfl⟩
  | some message =>
    obtain ⟨before, hstart, -, hunread, hsent⟩ := h
    have hle : before.length ≤ side.vSend.size := by
      rw [← length_unread, hunread, append_assoc, length_append]
      exact Nat.le_add_right _ _
    obtain ⟨-, hclamp, hpos⟩ := toInt_ofNat_of_lt (Nat.lt_of_le_of_lt hle hsize)
    rw [abortMessage, hstart, if_neg hpos, hclamp]
    have hback : (side.vSend.resize before.length).unread = before := by
      rw [unread_resize hle, hunread, append_assoc, take_left]
    refine ⟨⟨rfl, rfl, ?_⟩, ?_⟩
    · rw [hback]
      exact hsent
    · rw [← length_unread, hback]
      exact hle

/-- A header is begun behind what waits. -/
theorem agrees_beginMessage (h : side.Agrees wire box) (hsize : side.vSend.size < 2 ^ 31)
    (pszCommand : Bytes) :
    (side.beginMessage wire pszCommand).Agrees wire ⟨some (pszCommand, []), box.sent⟩ := by
  have hclosed : (if side.nHeaderStart ≠ -1 then side.abortMessage
  else side).Agrees wire ⟨none, box.sent⟩ := by
    split
    · exact (agrees_abortMessage h hsize).1
    · rename_i hopen
      rw [not_not] at hopen
      obtain ⟨current, sent⟩ := box
      cases current with
      | none => exact h
      | some message =>
        obtain ⟨before, hstart, -, hunread, -⟩ := h
        have hle : before.length ≤ side.vSend.size := by
          rw [← length_unread, hunread, append_assoc, length_append]
          exact Nat.le_add_right _ _
        exact absurd (hstart.symm.trans hopen) (ofNat_ne_neg_one (Nat.lt_of_le_of_lt hle hsize))
  unfold beginMessage
  generalize (if side.nHeaderStart ≠ -1 then side.abortMessage else side) = closed at hclosed ⊢
  refine ⟨closed.vSend.unread, ?_, ?_, ?_, hclosed.2.2⟩
  · rw [length_unread]
  · simp only [← length_unread, unread_write, length_append, length_ofCommand]
  · rw [unread_write, append_nil]

variable {sent : List (Bytes × Bytes)} {message : Bytes × Bytes}

theorem agrees_append (h : side.Agrees wire ⟨some message, sent⟩) (data : Bytes) :
    (side.append data).Agrees wire ⟨some (message.1, message.2 ++ data), sent⟩ := by
  obtain ⟨before, hstart, hmessage, hunread, hsent⟩ := h
  refine ⟨before, hstart, hmessage, ?_, hsent⟩
  show (side.vSend.write data).unread = _
  rw [unread_write, hunread, append_assoc _ message.2]

theorem unread_endMessage {before : Bytes} {s : CDataStream}
    (hunread : s.unread = before ++ (ofCommand wire message.1 0).serialize ++ message.2)
    (nSize nChecksum : UInt32) :
    (s.overwrite (before.length + MESSAGE_SIZE_OFFSET) (putLE 4 nSize.toNat)).unread.drop
        (before.length + nHeaderSize) = message.2 ∧
      ((s.overwrite (before.length + MESSAGE_SIZE_OFFSET) (putLE 4 nSize.toNat)).overwrite
        (before.length + CHECKSUM_OFFSET) (putLE 4 nChecksum.toNat)).unread = before ++
          ({ ofCommand wire message.1 nSize with nChecksum } : CMessageHeader).serialize ++
            message.2 := by
  have hname := length_strncpy message.1 COMMAND_SIZE
  have hstart : wire.pchMessageStart.toList.length = 4 := Vector.length_toList
  let front := before ++ (wire.pchMessageStart.toList ++ strncpy message.1 COMMAND_SIZE)
  have hfront : front.length = before.length + MESSAGE_SIZE_OFFSET := by
    rw [length_append, length_append, hname, hstart]
    rfl
  have hfirst : s.unread = front ++ putLE 4 0 ++ (putLE 4 0 ++ message.2) := by
    rw [hunread, serialize]
    simp only [ofCommand, front, append_assoc]
    rfl
  have hsized := unread_overwrite_eq (b := putLE 4 nSize.toNat) hfirst
    (by rw [length_putLE, length_putLE])
  rw [hfront] at hsized
  have hsecond : (s.overwrite (before.length + MESSAGE_SIZE_OFFSET) (putLE 4 nSize.toNat)).unread =
      (front ++ putLE 4 nSize.toNat) ++ putLE 4 0 ++ message.2 := by
    rw [hsized, append_assoc _ (putLE 4 0)]
  have hsecondFront : (front ++ putLE 4 nSize.toNat).length = before.length + CHECKSUM_OFFSET := by
    rw [length_append, hfront, length_putLE]
    rfl
  have hboth := unread_overwrite_eq (b := putLE 4 nChecksum.toNat) hsecond
    (by rw [length_putLE, length_putLE])
  rw [hsecondFront] at hboth
  constructor
  · have hheader : (front ++ putLE 4 nSize.toNat ++ putLE 4 0).length = before.length + nHeaderSize := by
      rw [length_append, hsecondFront, length_putLE]
      rfl
    rw [hsecond, ← hheader, drop_left]
  · rw [hboth, serialize]
    simp only [ofCommand, front, append_assoc]

/-- **A message that is ended is a frame.** -/
theorem agrees_endMessage
    (h : side.Agrees wire ⟨some message, sent⟩) (hdata : message.2.length < 2 ^ 32)
    (hsize : side.vSend.size < 2 ^ 31 + message.2.length) :
    ∃ after, side.endMessage wire false = some after ∧ after.Agrees wire ⟨none, sent ++ [message]⟩ := by
  obtain ⟨before, hstart, hmessage, hunread, hsent⟩ := h
  have htotal : before.length + nHeaderSize + message.2.length = side.vSend.size := by
    rw [← length_unread, hunread, length_append, length_append, length_ofCommand]
  have hheader : before.length + nHeaderSize < 2 ^ 31 := by omega
  obtain ⟨hstartInt, hstartNat, hpos⟩ := toInt_ofNat_of_lt (Nat.lt_of_le_of_lt (Nat.le_add_right _ _) hheader)
  obtain ⟨hmessageInt, hmessageNat, -⟩ := toInt_ofNat_of_lt hheader
  have hsizeOf : UInt32.ofInt ((side.vSend.size : Int) - ((before.length + nHeaderSize : Nat) : Int)) =
      UInt32.ofNat message.2.length := by
    have hpayload : (side.vSend.size : Int) - ((before.length + nHeaderSize : Nat) : Int) =
        message.2.length := by
      omega
    have hsmall : (message.2.length : Int) < 2 ^ 32 := by omega
    rw [hpayload, UInt32.ofInt, emod_eq_of_lt (natCast_nonneg _) hsmall, toNat_natCast]
  have hassert : ¬(0 ≤ ((before.length + nHeaderSize : Nat) : Int) - (before.length : Int) ∧
      ((before.length + nHeaderSize : Nat) : Int) - (before.length : Int) < CHECKSUM_OFFSET + 4) := by
    have hlength : ((before.length + nHeaderSize : Nat) : Int) - (before.length : Int) = 24 := by
      rw [nHeaderSize]
      omega
    rw [hlength]
    decide
  simp only [endMessage, hstart, hmessage, hstartInt, hstartNat, hmessageInt, hmessageNat,
    if_neg hpos, hsizeOf, if_neg hassert, Bool.false_eq_true, if_false]
  obtain ⟨hdrop, hfilled⟩ := unread_endMessage hunread (UInt32.ofNat message.2.length)
    (wire.checksum message.2)
  refine ⟨_, rfl, rfl, rfl, ?_⟩
  simp only [hdrop]
  rw [hfilled, Wire.frames_append, ← hsent, Wire.frames_singleton, append_assoc, append_assoc]
  rfl

theorem size_endMessage {after : SendSide} (hend : side.endMessage wire false = some after) :
    side.vSend.size ≤ after.vSend.size := by
  simp only [endMessage, Bool.false_eq_true, if_false] at hend
  split at hend
  · cases hend
    exact le_rfl
  · split at hend
    · cases hend
    · cases hend
      exact Nat.le_trans (size_le_overwrite _ _ _) (size_le_overwrite _ _ _)

/-- An assertion does not fail behind a header. -/
theorem endMessage_isSome {before : Nat} (hstart : side.nHeaderStart = Int32.ofNat before)
    (hmessage : side.nMessageStart = Int32.ofNat (before + nHeaderSize))
    (hlt : before < 2 ^ 31) (fDrop : Bool) :
    ∃ after, side.endMessage wire fDrop = some after := by
  unfold endMessage
  split
  · exact ⟨_, rfl⟩
  · split
    · exact ⟨_, rfl⟩
    · have hassert : ¬(0 ≤ side.nMessageStart.toInt - side.nHeaderStart.toInt ∧
          side.nMessageStart.toInt - side.nHeaderStart.toInt < CHECKSUM_OFFSET + 4) := by
        rw [hstart, hmessage, (toInt_ofNat_of_lt hlt).1]
        by_cases hfits : before + nHeaderSize < 2 ^ 31
        · have hlength : ((before + nHeaderSize : Nat) : Int) - (before : Int) = 24 := by
            rw [nHeaderSize]
            omega
          rw [(toInt_ofNat_of_lt hfits).1, hlength]
          decide
        · -- the place is negative as an `int`
          have hwrapped : (Int32.ofNat (before + nHeaderSize)).toInt =
              ((before + nHeaderSize : Nat) : Int) - 2 ^ 32 := by
            have hword : (Int32.size : Int) = 2 ^ 32 := rfl
            rw [Int32.toInt_ofNat', bmod_def, hword]
            simp only [nHeaderSize] at hfits ⊢
            omega
          have hoffset : (CHECKSUM_OFFSET : Int) + 4 = 24 := rfl
          rw [hwrapped, hoffset]
          simp only [nHeaderSize] at hfits ⊢
          omega
      simp only [if_neg hassert]
      exact ⟨_, rfl⟩

theorem exists_waiting (h : side.Agrees wire box) (hsize : side.vSend.size < 2 ^ 31)
    (pszCommand data : Bytes) :
    ∃ before : Bytes, before.length ≤ side.vSend.size ∧
      ((side.beginMessage wire pszCommand).append data).nHeaderStart = Int32.ofNat before.length ∧
      ((side.beginMessage wire pszCommand).append data).vSend.unread =
        before ++ (ofCommand wire pszCommand 0).serialize ++ data := by
  have hclosed : (if side.nHeaderStart ≠ -1 then side.abortMessage else side).vSend.size ≤
      side.vSend.size := by
    split
    · exact (agrees_abortMessage h hsize).2
    · exact le_rfl
  unfold beginMessage
  generalize (if side.nHeaderStart ≠ -1 then side.abortMessage else side) = closed at hclosed ⊢
  refine ⟨closed.vSend.unread, ?_, ?_, ?_⟩
  · rw [length_unread]
    exact hclosed
  · rw [length_unread]
    rfl
  · show (write _ _).unread = _
    rw [unread_write]
    show (write _ _).unread ++ data = _
    rw [unread_write]

/-- **`PushMessage`** writes a frame, or nothing. -/
theorem agrees_pushMessage (h : side.Agrees wire box) (hsize : side.vSend.size < 2 ^ 31)
    (pszCommand data : Bytes)
    (fDrop : Bool) : ∃ after, side.pushMessage wire pszCommand data fDrop = some after ∧
      ((fDrop = false → data.length < 2 ^ 32 ∧
          ((side.beginMessage wire pszCommand).append data).vSend.size < 2 ^ 31 + data.length) →
        after.Agrees wire ⟨none, if fDrop then box.sent else box.sent ++ [(pszCommand, data)]⟩) := by
  have hwritten := agrees_append (agrees_beginMessage h hsize pszCommand) data
  obtain ⟨before, hstart, hmessage, hunread, hsent⟩ := hwritten
  have hbefore : before.length < 2 ^ 31 := by
    -- the place of the header is the size of what waited before it
    obtain ⟨waited, hle, -, hwaited⟩ := exists_waiting h hsize pszCommand data
    rw [hunread, nil_append] at hwaited
    rw [append_cancel_right (append_cancel_right hwaited)]
    exact Nat.lt_of_le_of_lt hle hsize
  obtain ⟨after, hafter⟩ := endMessage_isSome hstart hmessage hbefore fDrop
  refine ⟨after, hafter, fun hfits => ?_⟩
  cases fDrop with
  | true =>
    have hback : ((side.beginMessage wire pszCommand).append data).abortMessage = after :=
      Option.some.inj hafter
    rw [← hback, abortMessage, hstart, if_neg (toInt_ofNat_of_lt hbefore).2.2,
      (toInt_ofNat_of_lt hbefore).2.1]
    refine ⟨rfl, rfl, ?_⟩
    have hle : before.length ≤ ((side.beginMessage wire pszCommand).append data).vSend.size := by
      rw [← length_unread, hunread, append_assoc, length_append]
      exact Nat.le_add_right _ _
    rw [unread_resize hle, hunread, append_assoc, take_left]
    exact hsent
  | false =>
    obtain ⟨hdata, hmid⟩ := hfits rfl
    obtain ⟨ended, hended, hagrees⟩ := agrees_endMessage ⟨before, hstart, hmessage, hunread, hsent⟩ hdata hmid
    obtain rfl := Option.some.inj (hended.symm.trans hafter)
    exact hagrees

/-- The socket moves bytes, as long as the place that was read fits an `unsigned int`; where it does
not, the stream is left too large. -/
theorem agrees_socketSend (h : side.Agrees wire ⟨none, sent⟩) (nBytes : Nat)
    (hsize : (side.socketSend nBytes).vSend.size < 2 ^ 31) :
        (side.socketSend nBytes).Agrees wire ⟨none, sent⟩ := by
  obtain ⟨hstart, hmessage, hsent⟩ := h
  refine ⟨hstart, hmessage, ?_⟩
  have hle : side.vSend.nReadPos.toNat + min nBytes side.vSend.size ≤ side.vSend.vch.length :=
    side.vSend.read_add_le (Nat.min_le_right _ _)
  have hunread : (side.socketSend nBytes).vSend.unread =
      side.vSend.unread.drop (min nBytes side.vSend.size) := by
    by_cases hlt : side.vSend.nReadPos.toNat + min nBytes side.vSend.size < 2 ^ 32
    · exact unread_eraseTo hle hlt
    · by_cases hend : side.vSend.nReadPos.toNat + min nBytes side.vSend.size = side.vSend.vch.length
      · have herased : (side.socketSend nBytes).vSend = clear := by
          simp only [socketSend, eraseTo, if_pos hend]
        rw [herased, unread_clear, unread, drop_drop, hend, drop_length]
      · have herased : (side.socketSend nBytes).vSend.size = side.vSend.vch.length -
            (UInt32.ofNat (side.vSend.nReadPos.toNat + min nBytes side.vSend.size)).toNat := by
          simp only [socketSend, eraseTo, if_neg hend]
          rfl
        rw [herased, UInt32.toNat_ofNat'] at hsize
        omega
  show (side.taken ++ side.vSend.unread.take (min nBytes side.vSend.size)) ++
    (side.socketSend nBytes).vSend.unread = _
  rw [hunread, append_assoc, take_append_drop]
  exact hsent

/-- **One step of the sending side.** -/
theorem agrees_step (h : side.Agrees wire box) (hsize : side.vSend.size < 2 ^ 31) {op : SendOp}
    {next : Outbox} (hnext : box.step op = some next) :
    ∃ after, side.step wire op = some after ∧ (after.vSend.size < 2 ^ 31 → after.Agrees wire next) := by
  obtain ⟨current, sent⟩ := box
  cases op with
  | beginMessage pszCommand =>
    cases hnext
    exact ⟨_, rfl, fun _ => agrees_beginMessage h hsize pszCommand⟩
  | append data =>
    obtain ⟨message, hcurrent, rfl⟩ := map_eq_some_iff.mp hnext
    simp only at hcurrent
    subst hcurrent
    exact ⟨_, rfl, fun _ => agrees_append h data⟩
  | abortMessage =>
    cases hnext
    exact ⟨_, rfl, fun _ => (agrees_abortMessage h hsize).1⟩
  | endMessage fDrop =>
    cases hnext
    cases fDrop with
    | true => exact ⟨_, rfl, fun _ => (agrees_abortMessage h hsize).1⟩
    | false =>
      cases current with
      | none =>
        have hneg : side.nHeaderStart < 0 := by
          rw [h.1]
          decide
        refine ⟨side, ?_, fun _ => ?_⟩
        · show side.endMessage wire false = some side
          rw [endMessage, if_neg Bool.false_ne_true, if_pos hneg]
        · simp only [Bool.false_eq_true, if_false, toList_none, append_nil]
          exact h
      | some message =>
        have hdata : message.2.length ≤ side.vSend.size := by
          obtain ⟨before, -, -, hunread, -⟩ := h
          rw [← length_unread, hunread, length_append]
          exact Nat.le_add_left _ _
        obtain ⟨after, hafter, hagrees⟩ := agrees_endMessage h (by omega) (by omega)
        exact ⟨after, hafter, fun _ => hagrees⟩
  | pushMessage pszCommand data fDrop =>
    cases hnext
    obtain ⟨after, hafter, hagrees⟩ := agrees_pushMessage h hsize pszCommand data fDrop
    refine ⟨after, hafter, fun hafterSize => hagrees fun hkept => ?_⟩
    subst hkept
    obtain ⟨before, -, -, hunread⟩ := exists_waiting h hsize pszCommand data
    have hkept := size_endMessage hafter
    have hlength := length_unread (s := ((side.beginMessage wire pszCommand).append data).vSend)
    rw [hunread, length_append] at hlength
    exact ⟨by omega, by omega⟩
  | socketSend nBytes =>
    rw [Outbox.step] at hnext
    split at hnext
    · rename_i hclosed
      cases hnext
      simp only [isNone_iff_eq_none] at hclosed
      subst hclosed
      exact ⟨_, rfl, agrees_socketSend h nBytes⟩
    · cases hnext

/-- `vSend` stays below a limit while the steps are taken. -/
def Below (wire : Wire) (limit : Nat) (ops : List SendOp) (side : SendSide) : Prop :=
  ∀ done, done <+: ops → ∀ mid, side.run wire done = some mid → mid.vSend.size < limit

/-- **A run of the sending side.** -/
theorem agrees_run {ops : List SendOp} {last : Outbox} (h : side.Agrees wire box)
    (hbelow : Below wire (2 ^ 31) ops side) (hlast : box.run ops = some last) :
    ∃ after, side.run wire ops = some after ∧ after.Agrees wire last := by
  induction ops generalizing side box with
  | nil =>
    cases hlast
    exact ⟨side, rfl, h⟩
  | cons op ops ih =>
    rw [Outbox.run, List.foldlM_cons] at hlast
    obtain ⟨next, hnext, hrest⟩ := bind_eq_some_iff.mp hlast
    have hsize := hbelow [] nil_prefix side rfl
    obtain ⟨mid, hmid, hagrees⟩ := agrees_step h hsize hnext
    have hrun : ∀ done, side.run wire (op :: done) = mid.run wire done := by
      intro done
      rw [run, List.foldlM_cons, hmid]
      rfl
    have hmidSize : mid.vSend.size < 2 ^ 31 := by
      apply hbelow [op] (prefix_append [op] ops)
      rw [hrun]
      rfl
    obtain ⟨after, hafter, hlastAgrees⟩ := ih (hagrees hmidSize) (fun done hdone last hrunDone =>
      hbelow (op :: done) (cons_prefix_cons.mpr ⟨rfl, hdone⟩) last (by rw [hrun]; exact hrunDone)) hrest
    exact ⟨after, (hrun ops).trans hafter, hlastAgrees⟩

end SendSide

end MaryJaneCoin
