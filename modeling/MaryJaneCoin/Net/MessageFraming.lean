import MaryJaneCoin.Lib.FirstMatch
import MaryJaneCoin.Net.DataStream

/-!
# Messages on the wire

A message is written to `vSend` behind a header, whose size and checksum are filled in when the
message ends.  `ProcessMessages` looks for the start of a header in `vRecv` and passes on the
messages that have arrived as a whole.
-/

namespace MaryJaneCoin

open Codec FirstMatch

/-- `MAX_SIZE` of `serialize.h`, as an `unsigned int`. -/
def MAX_MESSAGE_SIZE : UInt32 := 0x02000000

def COMMAND_SIZE : Nat := 12
def MESSAGE_SIZE_OFFSET : Nat := 16
def CHECKSUM_OFFSET : Nat := 20

/-- The size of a `CMessageHeader` in a stream. -/
def nHeaderSize : Nat := 24

/-- What two nodes of a network share: `pchMessageStart`, and the hash of checksums. -/
structure Wire where
  pchMessageStart : Vector UInt8 4
  hash : Bytes → Vector UInt8 32

/-- Four bytes as an `unsigned int`. -/
def uint32Of (bytes : Bytes) : UInt32 := UInt32.ofNat ((getLE 4 bytes).elim 0 Prod.fst)

structure CMessageHeader where
  pchMessageStart : Bytes
  pchCommand : Bytes
  nMessageSize : UInt32
  nChecksum : UInt32

/-- `strncpy`: up to the end of the string, filled up with zeros. -/
def strncpy (pszCommand : Bytes) (n : Nat) : Bytes :=
  let name := (pszCommand.takeWhile (· != 0)).take n
  name ++ List.replicate (n - name.length) 0

namespace CMessageHeader

/-- `CMessageHeader(pszCommand, nMessageSizeIn)`. -/
def ofCommand (wire : Wire) (pszCommand : Bytes) (nMessageSizeIn : UInt32) : CMessageHeader where
  pchMessageStart := wire.pchMessageStart.toList
  pchCommand := strncpy pszCommand COMMAND_SIZE
  nMessageSize := nMessageSizeIn
  nChecksum := 0

def getCommand (hdr : CMessageHeader) : Bytes :=
  if hdr.pchCommand.getD (COMMAND_SIZE - 1) 0 = 0 then hdr.pchCommand.takeWhile (· != 0)
  else hdr.pchCommand

/-- The loop of `IsValid` over the command: printable, and then nothing but zeros. -/
def validCommand : Bytes → Bool
  | [] => true
  | p1 :: rest =>
    if p1 = 0 then rest.all (· == 0) else if p1 < 0x20 || p1 > 0x7e then false else validCommand rest

def isValid (wire : Wire) (hdr : CMessageHeader) : Bool :=
  hdr.pchMessageStart == wire.pchMessageStart.toList && validCommand hdr.pchCommand &&
    hdr.nMessageSize ≤ MAX_MESSAGE_SIZE

/-- The header in a stream. -/
def serialize (hdr : CMessageHeader) : Bytes :=
  hdr.pchMessageStart ++ hdr.pchCommand ++ putLE 4 hdr.nMessageSize.toNat ++ putLE 4 hdr.nChecksum.toNat

/-- `operator>>`; `none` is the exception. -/
def unserialize (s : CDataStream) : Option (CMessageHeader × CDataStream) :=
  (s.read 4).bind fun (pchMessageStart, s) =>
    (s.read COMMAND_SIZE).bind fun (pchCommand, s) =>
      (s.read 4).bind fun (nMessageSize, s) =>
        (s.read 4).map fun (nChecksum, s) =>
          (⟨pchMessageStart, pchCommand, uint32Of nMessageSize, uint32Of nChecksum⟩, s)

end CMessageHeader

/-- The checksum of a message: the first bytes of its hash. -/
def Wire.checksum (wire : Wire) (vMsg : Bytes) : UInt32 := uint32Of ((wire.hash vMsg).toList.take 4)

/-- The sending side of a `CNode`, with what the socket has taken. -/
structure SendSide where
  vSend : CDataStream
  nHeaderStart : Int32
  nMessageStart : Int32
  taken : Bytes

namespace SendSide

variable (wire : Wire) (side : SendSide)

/-- The side of a new node. -/
def fresh : SendSide := ⟨CDataStream.clear, -1, -1, []⟩

def abortMessage : SendSide :=
  if side.nHeaderStart < 0 then side
  else ⟨side.vSend.resize side.nHeaderStart.toNatClampNeg, -1, -1, side.taken⟩

def beginMessage (pszCommand : Bytes) : SendSide :=
  let side := if side.nHeaderStart ≠ -1 then side.abortMessage else side
  let vSend := side.vSend.write (CMessageHeader.ofCommand wire pszCommand 0).serialize
  ⟨vSend, Int32.ofNat side.vSend.size, Int32.ofNat vSend.size, side.taken⟩

/-- `operator<<` on `vSend`. -/
def append (data : Bytes) : SendSide :=
  ⟨side.vSend.write data, side.nHeaderStart, side.nMessageStart, side.taken⟩

/-- `EndMessage`; `fDrop` is the draw of `-dropmessagestest`.  `none` is the failed assertion,
which compares without a sign. -/
def endMessage (fDrop : Bool) : Option SendSide :=
  if fDrop then some side.abortMessage
  else if side.nHeaderStart < 0 then some side
  else
    let nHeaderStart := side.nHeaderStart.toNatClampNeg
    let nSize := UInt32.ofInt (side.vSend.size - side.nMessageStart.toInt)
    let vSend := side.vSend.overwrite (nHeaderStart + MESSAGE_SIZE_OFFSET) (putLE 4 nSize.toNat)
    let nChecksum := wire.checksum (vSend.unread.drop side.nMessageStart.toNatClampNeg)
    let nLength := side.nMessageStart.toInt - side.nHeaderStart.toInt
    if 0 ≤ nLength ∧ nLength < CHECKSUM_OFFSET + 4 then none
    else some ⟨vSend.overwrite (nHeaderStart + CHECKSUM_OFFSET) (putLE 4 nChecksum.toNat), -1, -1, side.taken⟩

def pushMessage (pszCommand data : Bytes) (fDrop : Bool) : Option SendSide :=
  ((side.beginMessage wire pszCommand).append data).endMessage wire fDrop

/-- The socket takes bytes off the front of `vSend`. -/
def socketSend (nBytes : Nat) : SendSide :=
  let nSent := min nBytes side.vSend.size
  ⟨side.vSend.eraseTo (side.vSend.nReadPos.toNat + nSent)
      (side.vSend.read_add_le (Nat.min_le_right _ _)),
    side.nHeaderStart, side.nMessageStart, side.taken ++ side.vSend.unread.take nSent⟩

end SendSide

/-- What happens on the sending side. -/
inductive SendOp where
  | beginMessage (pszCommand : Bytes)
  | append (data : Bytes)
  | abortMessage
  | endMessage (fDrop : Bool)
  | pushMessage (pszCommand data : Bytes) (fDrop : Bool)
  | socketSend (nBytes : Nat)

namespace SendSide

def step (wire : Wire) (side : SendSide) : SendOp → Option SendSide
  | .beginMessage pszCommand => some (side.beginMessage wire pszCommand)
  | .append data => some (side.append data)
  | .abortMessage => some side.abortMessage
  | .endMessage fDrop => side.endMessage wire fDrop
  | .pushMessage pszCommand data fDrop => side.pushMessage wire pszCommand data fDrop
  | .socketSend nBytes => some (side.socketSend nBytes)

def run (wire : Wire) (ops : List SendOp) (side : SendSide) : Option SendSide := ops.foldlM (step wire) side

end SendSide

/-- What a turn of the loop of `ProcessMessages` comes to. -/
inductive Turn where
  | done (vRecv : CDataStream)
  | skipped (vRecv : CDataStream)
  | passed (strCommand vMsg : Bytes) (vRecv : CDataStream)

/-- A turn of the loop; `none` is an exception. -/
def messageTurn (wire : Wire) (vRecv : CDataStream) : Option Turn :=
  let nSkip := search wire.pchMessageStart.toList vRecv.unread
  if vRecv.size - nSkip < nHeaderSize then
    if Int32.ofNat vRecv.size > 24 then
      (vRecv.read 4).map fun (_, vRecv) =>
        .done (vRecv.eraseTo (vRecv.vch.length - nHeaderSize) (Nat.sub_le _ _))
    else some (.done vRecv)
  else
    let vRecv := vRecv.eraseTo (vRecv.nReadPos.toNat + nSkip) (by
      have hle := vRecv.read_le
      have hskip := search_le wire.pchMessageStart.toList vRecv.unread
      rw [CDataStream.length_unread, CDataStream.size] at hskip
      omega)
    let vHeaderSave := vRecv.unread.take nHeaderSize
    (CMessageHeader.unserialize vRecv).bind fun (hdr, vRecv) =>
      let nMessageSize := hdr.nMessageSize.toNat
      if !hdr.isValid wire then some (.skipped vRecv)
      else if hdr.nMessageSize > MAX_MESSAGE_SIZE then some (.skipped vRecv)
      else if nMessageSize > vRecv.size then some (.done (vRecv.insert vHeaderSave))
      else if wire.checksum (vRecv.unread.take nMessageSize) ≠ hdr.nChecksum then some (.skipped vRecv)
      else (vRecv.ignore nMessageSize).map fun after =>
        .passed hdr.getCommand (vRecv.unread.take nMessageSize) after

/-- What `ProcessMessages` finds at each turn of its loop. -/
structure LoopEnv where
  vSendSize : Nat → Nat
  fShutdown : Nat → Bool

/-- The loop of `ProcessMessages`: the messages that it passes to `ProcessMessage`, and what is
left.  Every turn that does not end it takes a header. -/
def messageLoop (wire : Wire) (nSendBufferSize : UInt32) (env : LoopEnv) :
    Nat → Nat → CDataStream → Option (List (Bytes × Bytes) × CDataStream)
  | 0, _, _ => none
  | fuel + 1, nTurn, vRecv =>
    if env.vSendSize nTurn ≥ nSendBufferSize.toNat then some ([], vRecv.compact)
    else
      match messageTurn wire vRecv with
      | none => none
      | some (.done vRecv) => some ([], vRecv.compact)
      | some (.skipped vRecv) => messageLoop wire nSendBufferSize env fuel (nTurn + 1) vRecv
      | some (.passed strCommand vMsg vRecv) =>
        if env.fShutdown nTurn then some ([(strCommand, vMsg)], vRecv)
        else
          (messageLoop wire nSendBufferSize env fuel (nTurn + 1) vRecv).map
            fun (messages, vRecv) => ((strCommand, vMsg) :: messages, vRecv)

def processMessages (wire : Wire) (nSendBufferSize : UInt32) (env : LoopEnv) (vRecv : CDataStream) :
    Option (List (Bytes × Bytes) × CDataStream) :=
  if vRecv.size = 0 then some ([], vRecv)
  else messageLoop wire nSendBufferSize env (vRecv.size + 1) 0 vRecv

/-- The receiving side of a `CNode`, with the messages that were passed to `ProcessMessage`. -/
structure ReceiveSide where
  vRecv : CDataStream
  passed : List (Bytes × Bytes)

/-- What happens on the receiving side. -/
inductive ReceiveOp where
  | recv (chunk : Bytes)
  | processMessages (env : LoopEnv)

/-- The limits of the buffers: `SendBufferSize()` and `ReceiveBufferSize()`. -/
structure BufferLimits where
  nSendBufferSize : UInt32
  nReceiveBufferSize : UInt32

namespace ReceiveSide

/-- The side of a new node. -/
def fresh : ReceiveSide := ⟨CDataStream.clear, []⟩

/-- The socket gives bytes; `none` is the disconnect of the flood control. -/
def recv (limits : BufferLimits) (side : ReceiveSide) (chunk : Bytes) : Option ReceiveSide :=
  let nPos := UInt32.ofNat side.vRecv.size
  if nPos > limits.nReceiveBufferSize then none
  else some ⟨(side.vRecv.resize (nPos.toNat + chunk.length)).overwrite nPos.toNat chunk, side.passed⟩

def step (wire : Wire) (limits : BufferLimits) (side : ReceiveSide) : ReceiveOp → Option ReceiveSide
  | .recv chunk => side.recv limits chunk
  | .processMessages env =>
    (processMessages wire limits.nSendBufferSize env side.vRecv).map
      fun (messages, vRecv) => ⟨vRecv, side.passed ++ messages⟩

/-- Steps of the receiving side. -/
def run (wire : Wire) (limits : BufferLimits) (ops : List ReceiveOp) (side : ReceiveSide) :
    Option ReceiveSide :=
  ops.foldlM (step wire limits) side

end ReceiveSide

end MaryJaneCoin
