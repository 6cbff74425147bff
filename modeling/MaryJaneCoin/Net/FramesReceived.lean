import Mathlib.Data.List.GetD
import Mathlib.Data.List.TakeWhile
import MaryJaneCoin.Net.FramesSent

/-!
# Frames are passed on

Whatever part of the stream has arrived, the loop of `ProcessMessages` passes on the messages that
are there as a whole, and what it keeps continues the stream.
-/

namespace MaryJaneCoin

open List hiding Vector
open Codec FirstMatch CMessageHeader CDataStream

/-- A message that can be sent: a printable command that fits its field, and a payload of at most
`MAX_MESSAGE_SIZE`. -/
structure ValidMessage (message : Bytes × Bytes) : Prop where
  printable : ∀ b ∈ message.1, 0x20 ≤ b ∧ b ≤ 0x7e
  command_le : message.1.length ≤ COMMAND_SIZE
  size_le : message.2.length ≤ MAX_MESSAGE_SIZE.toNat

namespace ValidMessage

variable {message : Bytes × Bytes}

theorem ne_zero (h : ValidMessage message) : ∀ b ∈ message.1, (b != 0) = true := by
  intro b hmem
  rw [bne_iff_ne]
  intro hzero
  have hlow := (h.printable b hmem).1
  rw [hzero] at hlow
  exact absurd hlow (by decide)

theorem strncpy_eq (h : ValidMessage message) : strncpy message.1 COMMAND_SIZE =
    message.1 ++ List.replicate (COMMAND_SIZE - message.1.length) 0 := by
  have hname : (message.1.takeWhile (· != 0)).take COMMAND_SIZE = message.1 := by
    rw [takeWhile_eq_self_iff.mpr h.ne_zero, take_of_length_le h.command_le]
  rw [strncpy, hname]

theorem validCommand_eq (h : ValidMessage message) :
    validCommand (strncpy message.1 COMMAND_SIZE) = true := by
  have hzeros : ∀ n, validCommand (List.replicate n 0) = true := by
    intro n
    cases n with
    | zero => rfl
    | succ n =>
      rw [replicate_succ, validCommand, if_pos rfl, all_eq_true]
      intro b hmem
      rw [eq_of_mem_replicate hmem]
      rfl
  have hfront : ∀ (command behind : Bytes), (∀ b ∈ command, 0x20 ≤ b ∧ b ≤ 0x7e) →
      validCommand behind = true → validCommand (command ++ behind) = true := by
    intro command behind hprintable hbehind
    induction command with
    | nil => exact hbehind
    | cons b command ih =>
      obtain ⟨hlow, hhigh⟩ := hprintable b mem_cons_self
      have hzero : b ≠ 0 := by
        intro hzero
        rw [hzero] at hlow
        exact absurd hlow (by decide)
      have hrange : ¬(decide (b < 0x20) || decide (b > 0x7e)) = true := by
        rw [Bool.or_eq_true, decide_eq_true_eq, decide_eq_true_eq, not_or]
        exact ⟨UInt8.not_lt.mpr hlow, UInt8.not_lt.mpr hhigh⟩
      rw [cons_append, validCommand, if_neg hzero, if_neg hrange]
      exact ih fun b hmem => hprintable b (mem_cons_of_mem _ hmem)
  rw [h.strncpy_eq]
  exact hfront _ _ h.printable (hzeros _)

theorem getCommand_header (wire : Wire) (h : ValidMessage message) :
    (wire.header message).getCommand = message.1 := by
  show (if (strncpy message.1 COMMAND_SIZE).getD (COMMAND_SIZE - 1) 0 = 0 then
    (strncpy message.1 COMMAND_SIZE).takeWhile (· != 0) else strncpy message.1 COMMAND_SIZE) = message.1
  rw [h.strncpy_eq]
  split
  · rw [takeWhile_append_of_pos h.ne_zero]
    have hzeros : (List.replicate (COMMAND_SIZE - message.1.length) (0 : UInt8)).takeWhile (· != 0) = [] := by
      cases COMMAND_SIZE - message.1.length with
      | zero => rfl
      | succ n => rfl
    rw [hzeros, append_nil]
  · rename_i hlast
    -- the field is full
    have hfull : COMMAND_SIZE - message.1.length = 0 := by
      by_contra hfree
      apply hlast
      rw [getD_append_right _ _ _ _ (by omega), getD_replicate _ (by omega)]
    rw [hfull, replicate_zero, append_nil]

theorem uint32Of_putLE (n : UInt32) : uint32Of (putLE 4 n.toNat) = n := by
  have hread := reads_LE 4 n.toNat [] n.toNat_lt
  rw [append_nil] at hread
  rw [uint32Of, hread]
  exact UInt32.ofNat_toNat

theorem toNat_nMessageSize (wire : Wire) (h : ValidMessage message) :
    (wire.header message).nMessageSize.toNat = message.2.length := by
  have hmax : MAX_MESSAGE_SIZE.toNat < UInt32.size := MAX_MESSAGE_SIZE.toNat_lt
  exact UInt32.toNat_ofNat_of_lt' (Nat.lt_of_le_of_lt h.size_le hmax)

theorem nMessageSize_le (wire : Wire) (h : ValidMessage message) :
    (wire.header message).nMessageSize ≤ MAX_MESSAGE_SIZE := by
  rw [UInt32.le_iff_toNat_le, h.toNat_nMessageSize wire]
  exact h.size_le

theorem isValid_header (wire : Wire) (h : ValidMessage message) :
    (wire.header message).isValid wire = true := by
  have hsize := h.nMessageSize_le wire
  have hcommand : validCommand (wire.header message).pchCommand = true := h.validCommand_eq
  rw [isValid, hcommand, Bool.and_true, Bool.and_eq_true, decide_eq_true_eq]
  exact ⟨beq_self_eq_true _, hsize⟩

end ValidMessage

/-- **A header is read back.** -/
theorem unserialize_eq {s : CDataStream} {hdr : CMessageHeader} {rest : Bytes} (hlt : s.vch.length < 2 ^ 32)
    (hstart : hdr.pchMessageStart.length = 4) (hcommand : hdr.pchCommand.length = COMMAND_SIZE)
    (hunread : s.unread = hdr.serialize ++ rest) :
    ∃ after, unserialize s = some (hdr, after) ∧ after.unread = rest ∧
      after.vch.length ≤ s.vch.length := by
  have hread : ∀ {s : CDataStream} {field rest : Bytes}, s.vch.length < 2 ^ 32 → s.unread = field ++ rest →
      ∃ after, s.read field.length = some (field, after) ∧ after.unread = rest ∧
        after.vch.length ≤ s.vch.length := by
    intro s field rest hlt hunread
    have hle : field.length ≤ s.size := by
      rw [← length_unread, hunread, length_append]
      exact Nat.le_add_right _ _
    obtain ⟨after, hafter, hrest, hlength⟩ := read_eq hlt hle
    rw [hunread, take_left] at hafter
    rw [hunread, drop_left] at hrest
    exact ⟨after, hafter, hrest, hlength⟩
  simp only [serialize, append_assoc] at hunread
  obtain ⟨s₁, h₁, hunread₁, hlt₁⟩ := hread hlt hunread
  obtain ⟨s₂, h₂, hunread₂, hlt₂⟩ := hread (Nat.lt_of_le_of_lt hlt₁ hlt) hunread₁
  obtain ⟨s₃, h₃, hunread₃, hlt₃⟩ := hread (Nat.lt_of_le_of_lt (hlt₂.trans hlt₁) hlt) hunread₂
  obtain ⟨s₄, h₄, hunread₄, hlt₄⟩ := hread (Nat.lt_of_le_of_lt (hlt₃.trans (hlt₂.trans hlt₁)) hlt) hunread₃
  rw [hstart] at h₁
  rw [hcommand] at h₂
  rw [length_putLE] at h₃ h₄
  refine ⟨s₄, ?_, hunread₄, hlt₄.trans (hlt₃.trans (hlt₂.trans hlt₁))⟩
  simp only [unserialize, h₁, h₂, h₃, h₄, Option.bind_some, Option.map_some,
    ValidMessage.uint32Of_putLE]

/-- What is left of the stream: so many bytes of garbage at most, with no start of a header before
the frames that are still to come. -/
def Awaits (wire : Wire) (nGarbage : Nat) (todo : List (Bytes × Bytes)) (stream : Bytes) : Prop :=
  ∃ garbage, garbage.length ≤ nGarbage ∧ stream = garbage ++ wire.frames todo ∧
    NoneBefore wire.pchMessageStart.toList garbage.length stream

namespace Awaits

variable {wire : Wire} {nGarbage : Nat} {todo : List (Bytes × Bytes)} {stream : Bytes}

theorem frames (wire : Wire) (nGarbage : Nat) (todo : List (Bytes × Bytes)) :
    Awaits wire nGarbage todo (wire.frames todo) := by
  refine ⟨[], Nat.zero_le _, rfl, ?_⟩
  intro i hi
  exact absurd hi (Nat.not_lt_zero i)

/-- Without garbage, nothing but frames is left. -/
theorem eq_frames (h : Awaits wire 0 todo stream) : stream = wire.frames todo := by
  obtain ⟨garbage, hle, hstream, -⟩ := h
  rw [hstream, eq_nil_of_length_eq_zero (Nat.le_zero.mp hle), nil_append]

theorem drop {garbage : Bytes} (hgarbage : garbage.length ≤ nGarbage)
    (hstream : stream = garbage ++ wire.frames todo)
    (hnone : NoneBefore wire.pchMessageStart.toList garbage.length stream) {n : Nat}
    (hle : n ≤ garbage.length) : Awaits wire nGarbage todo (stream.drop n) := by
  refine ⟨garbage.drop n, ?_, ?_, ?_⟩
  · rw [length_drop]
    omega
  · rw [hstream, drop_append_of_le_length hle]
  · rw [length_drop]
    exact hnone.drop n

end Awaits

section

variable {wire : Wire} {nGarbage : Nat} {todo : List (Bytes × Bytes)} {arrived future : Bytes}

variable {garbage : Bytes}

/-- Where the first header has begun to arrive, the search finds it; and it finds the end where it
has not. -/
theorem search_arrived (hstream : arrived ++ future = garbage ++ wire.frames todo)
    (hnone : NoneBefore wire.pchMessageStart.toList garbage.length (arrived ++ future)) :
    (arrived.length < garbage.length + 4 ∧ search wire.pchMessageStart.toList arrived = arrived.length) ∨
      (garbage.length + 4 ≤ arrived.length ∧
        search wire.pchMessageStart.toList arrived = garbage.length ∧ todo ≠ []) := by
  have hstart : wire.pchMessageStart.toList.length = 4 := Vector.length_toList
  by_cases hshort : arrived.length < garbage.length + 4
  · refine .inl ⟨hshort, search_eq_length ?_⟩
    intro i hi hpre
    have hlength := hpre.length_le
    rw [hstart, length_drop] at hlength
    exact hnone.of_append i (by omega) hpre
  · right
    have htodo : todo ≠ [] := by
      intro hnil
      have hlength := congrArg List.length hstream
      rw [hnil, length_append, Wire.frames, flatMap_nil, append_nil] at hlength
      omega
    refine ⟨Nat.le_of_not_lt hshort, search_eq (by omega) hnone.of_append ?_, htodo⟩
    obtain ⟨message, rest, rfl⟩ := exists_cons_of_ne_nil htodo
    have hall : wire.pchMessageStart.toList <+: (arrived ++ future).drop garbage.length := by
      rw [hstream, drop_left, Wire.frames, flatMap_cons, Wire.frame, serialize]
      simp only [append_assoc]
      exact prefix_append _ _
    rw [drop_append_of_le_length (by omega)] at hall
    have hfits : wire.pchMessageStart.toList.length ≤ (arrived.drop garbage.length).length := by
      rw [hstart, length_drop]
      omega
    exact prefix_of_prefix_length_le hall (prefix_append _ _) hfits

/-- What a turn of the loop does with a stream of frames. -/
inductive TurnOf (wire : Wire) (nGarbage : Nat) (future : Bytes) (vRecv : CDataStream) :
    List (Bytes × Bytes) → Turn → Prop
  | done {todo : List (Bytes × Bytes)} {after : CDataStream}
      (hawaits : Awaits wire nGarbage todo (after.unread ++ future))
      (hdrained : future = [] → todo = []) : TurnOf wire nGarbage future vRecv todo (.done after)
  | passed {message : Bytes × Bytes} {todo : List (Bytes × Bytes)} {after : CDataStream}
      (hawaits : Awaits wire nGarbage todo (after.unread ++ future))
      (hless : after.unread.length < vRecv.unread.length) (hlength : after.vch.length ≤ vRecv.vch.length) :
      TurnOf wire nGarbage future vRecv (message :: todo) (.passed message.1 message.2 after)

variable {vRecv : CDataStream}

theorem messageTurn_short (hgarbage : garbage.length ≤ nGarbage) (hlt : vRecv.vch.length < 2 ^ 32)
    (hstream : vRecv.unread ++ future = garbage ++ wire.frames todo)
    (hnone : NoneBefore wire.pchMessageStart.toList garbage.length (vRecv.unread ++ future))
    (hshort : vRecv.size < garbage.length + nHeaderSize) :
    ∃ turn, messageTurn wire vRecv = some turn ∧ TurnOf wire nGarbage future vRecv todo turn := by
  have hsize := length_unread (s := vRecv)
  have hdrained : future = [] → todo = [] := by
    intro hnil
    cases todo with
    | nil => rfl
    | cons message todo =>
      have hlength := congrArg List.length hstream
      have hheader := length_frames_cons wire message todo
      rw [hnil, append_nil, length_append] at hlength
      omega
  have hbreak : vRecv.size - search wire.pchMessageStart.toList vRecv.unread < nHeaderSize := by
    rcases search_arrived hstream hnone with ⟨-, hend⟩ | ⟨-, hfound, -⟩
    · rw [hend, hsize, Nat.sub_self]
      decide
    · have hpos : 0 < nHeaderSize := by decide
      rw [hfound]
      omega
  simp only [messageTurn, if_pos hbreak]
  split
  · rename_i hlong
    have hmore : nHeaderSize < vRecv.size := by
      by_contra hle
      have hsmall : vRecv.size < 2 ^ 31 := by
        rw [nHeaderSize] at hle
        omega
      rw [gt_iff_lt, Int32.lt_iff_toInt_lt, (toInt_ofNat_of_lt hsmall).1] at hlong
      have htwentyfour : (24 : Int32).toInt = (nHeaderSize : Int) := rfl
      rw [htwentyfour] at hlong
      exact hle (Int.ofNat_lt.mp hlong)
    -- four bytes are read, and then all but the last bytes are dropped
    have hfour : 4 < vRecv.size := Nat.lt_trans (by decide) hmore
    obtain ⟨after, hafter, -, -⟩ := read_eq hlt (Nat.le_of_lt hfour)
    rw [hafter, Option.map_some]
    refine ⟨_, rfl, .done ?_ hdrained⟩
    have hkept := unread_read_eraseTo hlt hfour hafter (by decide) hmore
    rw [hkept]
    have hdrop : vRecv.unread.drop (vRecv.size - nHeaderSize) ++ future =
        (vRecv.unread ++ future).drop (vRecv.size - nHeaderSize) := by
      rw [drop_append_of_le_length (by omega)]
    rw [hdrop]
    exact Awaits.drop hgarbage hstream hnone (by omega)
  · exact ⟨_, rfl, .done ⟨garbage, hgarbage, hstream, hnone⟩ hdrained⟩

theorem arrived_front {front behind : Bytes} (hstream : arrived ++ future = front ++ behind)
    (hle : front.length ≤ arrived.length) : ∃ rest, arrived = front ++ rest ∧ rest ++ future = behind := by
  have hfront : front <+: arrived ++ future := by
    rw [hstream]
    exact prefix_append _ _
  obtain ⟨rest, rfl⟩ := prefix_of_prefix_length_le hfront (prefix_append _ _) hle
  rw [append_assoc] at hstream
  exact ⟨rest, rfl, append_cancel_left hstream⟩

theorem messageTurn_header (hlt : vRecv.vch.length < 2 ^ 32)
    (hvalid : ∀ message ∈ todo, ValidMessage message)
    (hstream : vRecv.unread ++ future = garbage ++ wire.frames todo)
    (hnone : NoneBefore wire.pchMessageStart.toList garbage.length (vRecv.unread ++ future))
    (hlong : garbage.length + nHeaderSize ≤ vRecv.size) :
    ∃ turn, messageTurn wire vRecv = some turn ∧ TurnOf wire nGarbage future vRecv todo turn := by
  have hsize := length_unread (s := vRecv)
  have hheaderSize : 4 ≤ nHeaderSize := by decide
  obtain ⟨hfound, htodo⟩ : search wire.pchMessageStart.toList vRecv.unread = garbage.length ∧ todo ≠ [] := by
    rcases search_arrived hstream hnone with ⟨hshort, -⟩ | ⟨-, hfound⟩
    · omega
    · exact hfound
  obtain ⟨message, todo, rfl⟩ := exists_cons_of_ne_nil htodo
  have hmessage := hvalid message mem_cons_self
  have hplace : vRecv.nReadPos.toNat + garbage.length ≤ vRecv.vch.length := by
    have hread := vRecv.read_le
    rw [size] at hlong
    omega
  -- the garbage is dropped
  have herased := unread_eraseTo hplace (Nat.lt_of_le_of_lt hplace hlt)
  have herasedLength := length_vch_eraseTo hplace
  generalize hvRecv : vRecv.eraseTo (vRecv.nReadPos.toNat + garbage.length) hplace = erased
    at herased herasedLength
  have hframes : erased.unread ++ future =
      (wire.header message).serialize ++ (message.2 ++ wire.frames todo) := by
    have hdrop : (vRecv.unread ++ future).drop garbage.length = erased.unread ++ future := by
      rw [herased, drop_append_of_le_length (by omega)]
    rw [← hdrop, hstream, drop_left, Wire.frames, flatMap_cons, Wire.frame, append_assoc]
    rfl
  -- the header is read
  obtain ⟨tail, htail, hrest⟩ := arrived_front hframes (by
    rw [length_header, herased, length_drop]
    omega)
  have hstart : (wire.header message).pchMessageStart.length = 4 := Vector.length_toList
  obtain ⟨after, hafter, hunread, hafterLength⟩ := unserialize_eq
    (Nat.lt_of_le_of_lt herasedLength hlt) hstart (length_strncpy _ _) htail
  have hbreak : ¬vRecv.size - garbage.length < nHeaderSize := by omega
  have hsave : erased.unread.take nHeaderSize = (wire.header message).serialize := by
    rw [htail, ← length_header wire message, take_left]
  have hmax : ¬(wire.header message).nMessageSize > MAX_MESSAGE_SIZE :=
    UInt32.not_lt.mpr (hmessage.nMessageSize_le wire)
  have hinvalid : ¬(!(wire.header message).isValid wire) = true := by
    rw [hmessage.isValid_header]
    decide
  simp only [messageTurn, hfound, if_neg hbreak, hvRecv, hafter, Option.bind_some, if_neg hinvalid,
    if_neg hmax, hmessage.toNat_nMessageSize wire, hsave]
  split
  · rename_i hwaits
    refine ⟨_, rfl, .done ?_ ?_⟩
    · rw [unread_insert, hunread, ← htail, hframes, ← append_assoc]
      have hall : (wire.header message).serialize ++ message.2 ++ wire.frames todo =
          wire.frames (message :: todo) := by
        rw [Wire.frames, Wire.frames, flatMap_cons]
        rfl
      rw [hall]
      exact Awaits.frames wire nGarbage _
    · -- all of the payload would be there
      intro hnil
      rw [hnil, append_nil] at hrest
      rw [← length_unread, hunread, hrest, length_append] at hwaits
      omega
  · rename_i hthere
    have hsizeAfter := length_unread (s := after)
    obtain ⟨behind, hbehind, hmore⟩ := arrived_front hrest (by
      rw [← hunread]
      omega)
    have hpayload : after.unread.take message.2.length = message.2 := by rw [hunread, hbehind, take_left]
    have hchecksum : ¬wire.checksum message.2 ≠ (wire.header message).nChecksum := not_not.mpr rfl
    obtain ⟨last, hlast, hlastUnread, hlastLength⟩ := ignore_eq
      (Nat.lt_of_le_of_lt (hafterLength.trans herasedLength) hlt) (Nat.le_of_not_lt hthere)
    rw [hpayload, if_neg hchecksum, hlast, Option.map_some, hmessage.getCommand_header]
    have hleft : last.unread = behind := by rw [hlastUnread, hunread, hbehind, drop_left]
    refine ⟨_, rfl, .passed ?_ ?_ (hlastLength.trans (hafterLength.trans herasedLength))⟩
    · rw [hleft, hmore]
      exact Awaits.frames wire nGarbage todo
    · have hlengths := congrArg List.length htail
      rw [herased, length_drop, length_append, length_header, hbehind, length_append] at hlengths
      rw [hleft]
      omega

/-- **A turn of the loop** of `ProcessMessages` on a stream of frames. -/
theorem messageTurn_eq (hlt : vRecv.vch.length < 2 ^ 32) (hvalid : ∀ message ∈ todo,
    ValidMessage message) (hawaits : Awaits wire nGarbage todo (vRecv.unread ++ future)) :
    ∃ turn, messageTurn wire vRecv = some turn ∧ TurnOf wire nGarbage future vRecv todo turn := by
  obtain ⟨garbage, hgarbage, hstream, hnone⟩ := hawaits
  by_cases hshort : vRecv.size < garbage.length + nHeaderSize
  · exact messageTurn_short hgarbage hlt hstream hnone hshort
  · exact messageTurn_header hlt hvalid hstream hnone (Nat.le_of_not_lt hshort)

/-- What the loop has done: it has passed on some of the messages, and keeps a stream of the others;
where nothing stopped it and all has arrived, it has passed on all. -/
structure Processed (wire : Wire) (nGarbage : Nat) (nSendBufferSize : UInt32) (env : LoopEnv)
    (todo : List (Bytes × Bytes)) (future : Bytes) (messages : List (Bytes × Bytes))
    (after : CDataStream) : Prop where
  split : ∃ left, todo = messages ++ left ∧ Awaits wire nGarbage left (after.unread ++ future) ∧
    ((∀ i, env.vSendSize i < nSendBufferSize.toNat) → future = [] → left = [])
  compact : after.nReadPos = 0

/-- **The loop of `ProcessMessages`** on a stream of frames. -/
theorem messageLoop_eq (nSendBufferSize : UInt32) {env : LoopEnv} (hshutdown : ∀ i,
    env.fShutdown i = false) {fuel : Nat} (nTurn : Nat) (hfuel : vRecv.unread.length < fuel)
    (hlt : vRecv.vch.length < 2 ^ 32) (hvalid : ∀ message ∈ todo, ValidMessage message)
    (hawaits : Awaits wire nGarbage todo (vRecv.unread ++ future)) :
    ∃ messages after, messageLoop wire nSendBufferSize env fuel nTurn vRecv = some (messages,
      after) ∧ Processed wire nGarbage nSendBufferSize env todo future messages after := by
  induction fuel generalizing nTurn vRecv todo with
  | zero => exact absurd hfuel (Nat.not_lt_zero _)
  | succ fuel ih =>
    rw [messageLoop]
    split
    · rename_i hfull
      refine ⟨[], _, rfl, ⟨todo, rfl, hawaits, fun hbelow => ?_⟩, rfl⟩
      exact absurd (hbelow nTurn) (Nat.not_lt.mpr hfull)
    · obtain ⟨turn, hturn, hof⟩ := messageTurn_eq hlt hvalid hawaits
      rw [hturn]
      cases hof with
      | done hawaits hdrained => exact ⟨[], _, rfl, ⟨todo, rfl, hawaits, fun _ => hdrained⟩, rfl⟩
      | @passed message todo after hnext hless hlength =>
        obtain ⟨messages, last, hlast, ⟨left, hleft, hawaits, hdrained⟩, hcompact⟩ :=
          ih (nTurn + 1) (by omega) (Nat.lt_of_le_of_lt hlength hlt)
            (fun message hmem => hvalid message (mem_cons_of_mem _ hmem)) hnext
        simp only [hshutdown, Bool.false_eq_true, if_false, hlast, Option.map_some]
        exact ⟨_, _, rfl, ⟨left, congrArg (message :: ·) hleft, hawaits, hdrained⟩, hcompact⟩

end

end MaryJaneCoin
