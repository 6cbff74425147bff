import MaryJaneCoin.Chain.ScriptRun

/-!
# What scripts are written and read as

`operator<<` writes operations that `GetOp` reads back, and `FindAndDelete` leaves the operations
of a script that are not the one it looks for.  It compares bytes, but only where an operation
starts, and there the bytes of an operation are those of the operation.
-/

namespace MaryJaneCoin

open Codec List Option Nat

namespace CScript

/-- What is written to a script: an opcode that pushes nothing, or data. -/
inductive Item where
  | opcode (op : UInt8) (hplain : OP_PUSHDATA4 < op)
  | data (b : Bytes) (hlength : b.length < 2 ^ 32)

namespace Item

/-- `operator<<`. -/
def append (script : CScript) : Item → CScript
  | .opcode op _ => script ++ [op]
  | .data b _ => script ++ pushData b

end Item

/-- An operation of a script: what `GetOp` returns for it, and its bytes. -/
structure ParsedOp where
  opcode : UInt8
  data : Bytes
  bytes : CScript

/-- `GetOp` from one operation to the next: the operations, and the tail where it fails. -/
def parseFrom : Nat → CScript → List ParsedOp × CScript
  | 0, pc => ([], pc)
  | fuel + 1, pc =>
    match getOp pc with
    | none => ([], pc)
    | some (opcode, data, rest) =>
      let later := parseFrom fuel rest
      (⟨opcode, data, pc.take (pc.length - rest.length)⟩ :: later.1, later.2)

/-- The operations of a script. -/
def parse (script : CScript) : List ParsedOp × CScript := parseFrom script.length script

variable {pc rest b : CScript} {opcode : UInt8} {data : Bytes}

end CScript

end MaryJaneCoin
