import Mathlib.Data.Nat.Digits.Lemmas
import MaryJaneCoin.Mw.Serialize

/-!
# Scripts, as far as block validation reads them

Block validation does not run scripts itself: it counts signature operations,
looks for a few markers in outputs and compares the start of the coinbase
script with the block height.
-/

namespace MaryJaneCoin

open Codec

/-- `CScript`, a vector of bytes. -/
abbrev CScript := Bytes

def OP_PUSHDATA1 : UInt8 := 0x4c
def OP_PUSHDATA2 : UInt8 := 0x4d
def OP_PUSHDATA4 : UInt8 := 0x4e
def OP_1 : UInt8 := 0x51
def OP_16 : UInt8 := 0x60
def OP_RETURN : UInt8 := 0x6a
def OP_EQUAL : UInt8 := 0x87
def OP_HASH160 : UInt8 := 0xa9
def OP_CHECKSIG : UInt8 := 0xac
def OP_CHECKSIGVERIFY : UInt8 := 0xad
def OP_CHECKMULTISIG : UInt8 := 0xae
def OP_CHECKMULTISIGVERIFY : UInt8 := 0xaf
def OP_INVALIDOPCODE : UInt8 := 0xff

namespace CScript

/-- The size of the push that an opcode up to `OP_PUSHDATA4` announces, and
the script behind it. -/
def pushSize (opcode : UInt8) : Get Nat :=
  if opcode < OP_PUSHDATA1 then fun pc => some (opcode.toNat, pc)
  else if opcode = OP_PUSHDATA1 then getLE 1
  else if opcode = OP_PUSHDATA2 then getLE 2
  else getLE 4

/-- `CScript::GetOp2`: the opcode at `pc`, the data it pushes and the script
behind it.  The size is compared with what is left as an `unsigned int`, which
wraps where four gigabytes or more are left. -/
def getOp : CScript → Option (UInt8 × Bytes × CScript)
  | [] => none
  | opcode :: pc =>
    if opcode ≤ OP_PUSHDATA4 then
      (pushSize opcode pc).bind fun size =>
        if size.2.length % 2 ^ 32 < size.1 then none
        else some (opcode, size.2.take size.1, size.2.drop size.1)
    else some (opcode, [], pc)

theorem length_getLE {width : Nat} {bytes rest : Bytes} {n : Nat}
    (h : getLE width bytes = some (n, rest)) : rest.length ≤ bytes.length := by
  induction width generalizing bytes n with
  | zero =>
    unfold getLE at h
    grind
  | succ width ih =>
    cases bytes with
    | nil => cases h
    | cons byte bytes =>
      obtain ⟨read, hread, heq⟩ := Option.map_eq_some_iff.mp h
      have hrest : read.2 = rest := congrArg Prod.snd heq
      have hle := ih (show getLE width bytes = some (read.1, rest) by rw [← hrest]; exact hread)
      grind

theorem length_getOp {pc rest : CScript} {opcode : UInt8} {data : Bytes}
    (h : getOp pc = some (opcode, data, rest)) : rest.length < pc.length := by
  cases pc with
  | nil => cases h
  | cons op pc =>
    simp only [getOp] at h
    split at h
    · obtain ⟨⟨size, behind⟩, hsize, hcut⟩ := Option.bind_eq_some_iff.mp h
      have hle : behind.length ≤ pc.length := by
        unfold pushSize at hsize
        split at hsize
        · grind
        · split at hsize
          · exact length_getLE hsize
          · split at hsize
            · exact length_getLE hsize
            · exact length_getLE hsize
      grind
    · grind

/-- The loop of `CScript::GetSigOpCount(bool)`. -/
def sigOpCountFrom (fAccurate : Bool) (lastOpcode : UInt8) (pc : CScript) : Nat :=
  match hop : getOp pc with
  | none => 0
  | some (opcode, _, rest) =>
    have : rest.length < pc.length := length_getOp hop
    (if opcode = OP_CHECKSIG || opcode = OP_CHECKSIGVERIFY then 1
      else if opcode = OP_CHECKMULTISIG || opcode = OP_CHECKMULTISIGVERIFY then
        if fAccurate && OP_1 ≤ lastOpcode && lastOpcode ≤ OP_16 then
          lastOpcode.toNat - (OP_1.toNat - 1)
        else 20
      else 0) + sigOpCountFrom fAccurate opcode rest
termination_by pc.length

/-- `CScript::GetSigOpCount(bool)`. -/
def getSigOpCount (script : CScript) (fAccurate : Bool) : Nat :=
  sigOpCountFrom fAccurate OP_INVALIDOPCODE script

def isPayToScriptHash (script : CScript) : Bool :=
  script.length == 23 && script[0]? == some OP_HASH160 && script[1]? == some 0x14 &&
    script[22]? == some OP_EQUAL

/-- The last push of a script that only pushes; `none` when it does more. -/
def lastPush (data : Bytes) (pc : CScript) : Option Bytes :=
  if pc.isEmpty then some data
  else
    match hop : getOp pc with
    | none => none
    | some (opcode, pushed, rest) =>
      have : rest.length < pc.length := length_getOp hop
      if opcode > OP_16 then none else lastPush pushed rest
termination_by pc.length

/-- `CScript::GetSigOpCount(const CScript&)`. -/
def getP2SHSigOpCount (script scriptSig : CScript) : Nat :=
  if !isPayToScriptHash script then getSigOpCount script true
  else
    match lastPush [] scriptSig with
    | none => 0
    | some data => getSigOpCount data true

/-- `CBigNum::getvch` of a number that is not negative. -/
def getvch (n : Nat) : Bytes :=
  let digits := (Nat.digits 256 n).map UInt8.ofNat
  if digits.getLast?.any (0x80 ≤ ·) then digits ++ [0] else digits

/-- `operator<<` of a byte vector. -/
def pushData (b : Bytes) : CScript :=
  if b.length < 0x4c then UInt8.ofNat b.length :: b
  else if b.length ≤ 0xff then OP_PUSHDATA1 :: UInt8.ofNat b.length :: b
  else if b.length ≤ 0xffff then OP_PUSHDATA2 :: (putLE 2 b.length ++ b)
  else OP_PUSHDATA4 :: (putLE 4 b.length ++ b)

/-- A push is its data behind at most five bytes. -/
theorem length_pushData_le (a : Bytes) : (pushData a).length ≤ a.length + 5 := by
  unfold pushData
  split
  · simp
  · split
    · simp
    · split
      · simp [length_putLE]
        omega
      · simp [length_putLE]
        omega

theorem length_le_pushData (a : Bytes) : a.length ≤ (pushData a).length := by
  have hcons : ∀ (opcode : UInt8) (size : Bytes), a.length ≤ (opcode :: (size ++ a)).length := by
    intro opcode size
    rw [List.length_cons, List.length_append]
    omega
  unfold pushData
  split
  · exact hcons _ []
  · split
    · exact hcons _ [_]
    · split
      · exact hcons _ _
      · exact hcons _ _

/-- `push_int64` of a number that is not negative. -/
def pushInt64 (n : Nat) : CScript :=
  if 1 ≤ n ∧ n ≤ 16 then [UInt8.ofNat (n + 0x50)] else pushData (getvch n)

def PEGIN_MARKER : Bytes := [0x4d, 0x57, 0x45, 0x42]

/-- `ExtractPegInCommitment`: whether the script is a peg-in marker; the
commitment it carries is not used by block validation. -/
def isPegInMarker (script : CScript) : Bool :=
  if script.length < 2 + 4 + 33 then false
  else
    match getOp script with
    | none => false
    | some (opcode, _, it) =>
      if opcode != OP_RETURN then false
      else
        match getOp it with
        | none => false
        | some (_, vData, _) => vData.length == 4 + 33 && vData.take 4 == PEGIN_MARKER

end CScript

end MaryJaneCoin
