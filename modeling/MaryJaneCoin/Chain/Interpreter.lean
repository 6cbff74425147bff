import MaryJaneCoin.Chain.Script

/-!
# The script interpreter of `script.cpp`

`EvalScript` works on a stack of byte strings.  The transaction that is checked
enters it through `CheckSig` alone, so the interpreter takes that test as an
argument.  Stacks are lists with the top first; the result is `none` where the
script fails.
-/

namespace MaryJaneCoin

open Codec Option
open List hiding Vector

/-- The hash functions that a script can call. -/
structure ScriptHashes where
  ripemd160 : Bytes → Vector UInt8 20
  sha1 : Bytes → Vector UInt8 20
  sha256 : Bytes → Vector UInt8 32

namespace ScriptHashes

variable (hashes : ScriptHashes)

def hash160 (vch : Bytes) : Vector UInt8 20 := hashes.ripemd160 (hashes.sha256 vch).toList

/-- `Hash`. -/
def hash256 (vch : Bytes) : Vector UInt8 32 := hashes.sha256 (hashes.sha256 vch).toList

end ScriptHashes

/-- `CheckSig` for one input: a signature, a public key and the script code. -/
abbrev SigCheck := Bytes → Bytes → CScript → Bool

def OP_1NEGATE : UInt8 := 0x4f
def OP_NOP : UInt8 := 0x61
def OP_IF : UInt8 := 0x63
def OP_NOTIF : UInt8 := 0x64
def OP_ELSE : UInt8 := 0x67
def OP_ENDIF : UInt8 := 0x68
def OP_TOALTSTACK : UInt8 := 0x6b
def OP_FROMALTSTACK : UInt8 := 0x6c
def OP_CODESEPARATOR : UInt8 := 0xab
def OP_NOP1 : UInt8 := 0xb0
def OP_NOP10 : UInt8 := 0xb9

def vchFalse : Bytes := []
def vchTrue : Bytes := [1]
def nMaxNumSize : Nat := 4

/-- A truth value on the stack. -/
def vchBool (fValue : Bool) : Bytes := if fValue then vchTrue else vchFalse

/-- `CBigNum::getvch`: the absolute value least significant byte first, and the
sign in the highest bit. -/
def bigNumVch (n : Int) : Bytes :=
  let magnitude := CScript.getvch n.natAbs
  if n < 0 then magnitude.modifyLast (· ||| 0x80) else magnitude

/-- `CBigNum::setvch`. -/
def bigNumOf (vch : Bytes) : Int :=
  match vch.getLast? with
  | none => 0
  | some top =>
    let magnitude : Nat := Nat.ofDigits 256 ((vch.dropLast ++ [top &&& 0x7f]).map UInt8.toNat)
    if top &&& 0x80 = 0 then magnitude else -magnitude

/-- `CastToBigNum`; `none` is the exception. -/
def castToBigNum (vch : Bytes) : Option Int :=
  if vch.length > nMaxNumSize then none else some (bigNumOf vch)

/-- `CastToBool`: zero and negative zero are false. -/
def castToBool : Bytes → Bool
  | [] => false
  | [b] => b != 0 && b != 0x80
  | b :: vch => b != 0 || castToBool vch

def isCanonicalPubKey (vchPubKey : Bytes) : Bool :=
  33 ≤ vchPubKey.length &&
    match vchPubKey.headD 0 with
    | 0x04 => vchPubKey.length == 65
    | 0x02 => vchPubKey.length == 33
    | 0x03 => vchPubKey.length == 33
    | _ => false

/-- One of the two numbers of a signature: its tag, its length and its bytes. -/
def isCanonicalInteger (vchSig : Bytes) (start nLen : Nat) : Bool :=
  let byte := fun i => vchSig.getD i 0
  byte (start - 2) == 0x02 && nLen != 0 && byte start &&& 0x80 == 0 &&
    !(1 < nLen && byte start == 0x00 && byte (start + 1) &&& 0x80 == 0)

def isCanonicalSignature (vchSig : Bytes) : Bool :=
  let byte := fun i => vchSig.getD i 0
  let nHashType := byte (vchSig.length - 1) &&& 0x7f
  let nLenR := (byte 3).toNat
  let nLenS := (byte (5 + nLenR)).toNat
  9 ≤ vchSig.length && vchSig.length ≤ 73 && 1 ≤ nHashType && nHashType ≤ 3 &&
    byte 0 == 0x30 && (byte 1).toNat == vchSig.length - 3 && 5 + nLenR < vchSig.length &&
    nLenR + nLenS + 7 == vchSig.length && isCanonicalInteger vchSig 4 nLenR &&
    isCanonicalInteger vchSig (6 + nLenR) nLenS && nLenS ≤ 32

/-- The opcodes that are disabled, also where they are not executed. -/
def isDisabled (opcode : UInt8) : Bool :=
  (0x7e ≤ opcode && opcode ≤ 0x81) || (0x83 ≤ opcode && opcode ≤ 0x86) || opcode == 0x8d ||
    opcode == 0x8e || (0x95 ≤ opcode && opcode ≤ 0x99)

/-- The numeric opcodes with one operand, from `OP_1ADD` to `OP_0NOTEQUAL`. -/
def unaryNumber (opcode : UInt8) (bn : Int) : Option Int :=
  match opcode with
  | 0x8b => some (bn + 1)
  | 0x8c => some (bn - 1)
  | 0x8f => some (-bn)
  | 0x90 => some bn.natAbs
  | 0x91 => some (bn == 0).toInt
  | 0x92 => some (bn != 0).toInt
  | _ => none

/-- The numeric opcodes with two operands, from `OP_ADD` to `OP_MAX`. -/
def binaryNumber (opcode : UInt8) (bn1 bn2 : Int) : Option Int :=
  match opcode with
  | 0x93 => some (bn1 + bn2)
  | 0x94 => some (bn1 - bn2)
  | 0x9a => some (bn1 != 0 && bn2 != 0).toInt
  | 0x9b => some (bn1 != 0 || bn2 != 0).toInt
  | 0x9c => some (bn1 == bn2).toInt
  | 0x9d => some (bn1 == bn2).toInt
  | 0x9e => some (bn1 != bn2).toInt
  | 0x9f => some (decide (bn1 < bn2)).toInt
  | 0xa0 => some (decide (bn1 > bn2)).toInt
  | 0xa1 => some (decide (bn1 ≤ bn2)).toInt
  | 0xa2 => some (decide (bn1 ≥ bn2)).toInt
  | 0xa3 => some (min bn1 bn2)
  | 0xa4 => some (max bn1 bn2)
  | _ => none

/-- A `VERIFY` opcode removes the result that its plain form leaves. -/
def verifyTop (fVerify : Bool) : List Bytes → Option (List Bytes)
  | [] => none
  | vch :: stack =>
    if !fVerify then some (vch :: stack) else if castToBool vch then some stack else none

/-- `OP_PICK` and `OP_ROLL`. -/
def pickOrRoll (fRoll : Bool) : List Bytes → Option (List Bytes)
  | top :: below :: stack =>
    (castToBigNum top).bind fun n =>
      let stack := below :: stack
      if n < 0 || stack.length ≤ n then none
      else stack[n.toNat]?.map fun vch =>
        vch :: if fRoll then stack.eraseIdx n.toNat else stack
  | _ => none

/-- The opcodes that read and write the stack only. -/
def stackOp (hashes : ScriptHashes) (opcode : UInt8) (stack : List Bytes) : Option (List Bytes) :=
  match opcode, stack with
  | 0x69, vch :: stack => verifyTop true (vch :: stack)                 -- OP_VERIFY
  | 0x6d, _ :: _ :: stack => some stack                                 -- OP_2DROP
  | 0x6e, a :: b :: stack => some (a :: b :: a :: b :: stack)           -- OP_2DUP
  | 0x6f, a :: b :: c :: stack => some (a :: b :: c :: a :: b :: c :: stack) -- OP_3DUP
  | 0x70, a :: b :: c :: d :: stack => some (c :: d :: a :: b :: c :: d :: stack) -- OP_2OVER
  | 0x71, a :: b :: c :: d :: e :: f :: stack =>                        -- OP_2ROT
      some (e :: f :: a :: b :: c :: d :: stack)
  | 0x72, a :: b :: c :: d :: stack => some (c :: d :: a :: b :: stack) -- OP_2SWAP
  | 0x73, a :: stack => some (if castToBool a then a :: a :: stack else a :: stack) -- OP_IFDUP
  | 0x74, stack => some (bigNumVch stack.length :: stack)               -- OP_DEPTH
  | 0x75, _ :: stack => some stack                                      -- OP_DROP
  | 0x76, a :: stack => some (a :: a :: stack)                          -- OP_DUP
  | 0x77, a :: _ :: stack => some (a :: stack)                          -- OP_NIP
  | 0x78, a :: b :: stack => some (b :: a :: b :: stack)                -- OP_OVER
  | 0x79, stack => pickOrRoll false stack                               -- OP_PICK
  | 0x7a, stack => pickOrRoll true stack                                -- OP_ROLL
  | 0x7b, a :: b :: c :: stack => some (c :: a :: b :: stack)           -- OP_ROT
  | 0x7c, a :: b :: stack => some (b :: a :: stack)                     -- OP_SWAP
  | 0x7d, a :: b :: stack => some (a :: b :: a :: stack)                -- OP_TUCK
  | 0x82, a :: stack => some (bigNumVch a.length :: a :: stack)         -- OP_SIZE
  | 0x87, b :: a :: stack => some (vchBool (a == b) :: stack)           -- OP_EQUAL
  | 0x88, b :: a :: stack => verifyTop true (vchBool (a == b) :: stack) -- OP_EQUALVERIFY
  | 0xa5, c :: b :: a :: stack => do                                    -- OP_WITHIN
      let bn1 ← castToBigNum a
      let bn2 ← castToBigNum b
      let bn3 ← castToBigNum c
      some (vchBool (bn2 ≤ bn1 && bn1 < bn3) :: stack)
  | 0xa6, a :: stack => some ((hashes.ripemd160 a).toList :: stack)     -- OP_RIPEMD160
  | 0xa7, a :: stack => some ((hashes.sha1 a).toList :: stack)          -- OP_SHA1
  | 0xa8, a :: stack => some ((hashes.sha256 a).toList :: stack)        -- OP_SHA256
  | 0xa9, a :: stack => some ((hashes.hash160 a).toList :: stack)       -- OP_HASH160
  | 0xaa, a :: stack => some ((hashes.hash256 a).toList :: stack)       -- OP_HASH256
  | opcode, stack =>
    if opcode = OP_1NEGATE || (OP_1 ≤ opcode && opcode ≤ OP_16) then
      some (bigNumVch ((opcode.toNat : Int) - 0x50) :: stack)
    else if opcode = OP_NOP || (OP_NOP1 ≤ opcode && opcode ≤ OP_NOP10) then some stack
    else if 0x8b ≤ opcode && opcode ≤ 0x92 then
      match stack with
      | a :: stack => do
          let bn ← castToBigNum a
          let result ← unaryNumber opcode bn
          some (bigNumVch result :: stack)
      | _ => none
    else
      match stack with
      | b :: a :: stack => do
          let bn1 ← castToBigNum a
          let bn2 ← castToBigNum b
          let result ← binaryNumber opcode bn1 bn2
          verifyTop (opcode == 0x9d) (bigNumVch result :: stack)      -- OP_NUMEQUALVERIFY
      | _ => none

namespace CScript

/-- The inner loop of `FindAndDelete`: copies that stand at the start. -/
def deleteHere (b : CScript) : Nat → CScript → CScript
  | 0, pc => pc
  | fuel + 1, pc => if b.isPrefixOf pc then deleteHere b fuel (pc.drop b.length) else pc

/-- The outer loop of `FindAndDelete`. -/
def deleteFrom (b : CScript) : Nat → CScript → CScript
  | 0, pc => pc
  | fuel + 1, pc =>
    let pc := deleteHere b pc.length pc
    match getOp pc with
    | none => pc
    | some (_, _, rest) => pc.take (pc.length - rest.length) ++ deleteFrom b fuel rest

/-- `CScript::FindAndDelete`.  Both loops take at least one byte at a time. -/
def findAndDelete (b script : CScript) : CScript :=
  if b.isEmpty then script else deleteFrom b (script.length + 1) script

end CScript

/-- The state of `EvalScript`; `vfExec` has the innermost branch first, and
`codehash` is the script from `pbegincodehash` on. -/
structure EvalState where
  stack : List Bytes
  altstack : List Bytes
  vfExec : List Bool
  nOpCount : Nat
  codehash : CScript

section

variable (hashes : ScriptHashes) (checkSig : SigCheck)

/-- The test of `OP_CHECKSIG`. -/
def checkOneSig (codehash : CScript) (vchSig vchPubKey : Bytes) : Bool :=
  isCanonicalSignature vchSig && isCanonicalPubKey vchPubKey &&
    checkSig vchSig vchPubKey (CScript.findAndDelete (CScript.pushData vchSig) codehash)

/-- The loop of `OP_CHECKMULTISIG` over the signatures and the keys that are
left. -/
def checkSigs (scriptCode : CScript) : List Bytes → List Bytes → Bool
  | [], _ => true
  | _ :: _, [] => false
  | vchSig :: sigs, vchPubKey :: keys =>
    let fOk := isCanonicalSignature vchSig && isCanonicalPubKey vchPubKey &&
      checkSig vchSig vchPubKey scriptCode
    let left := if fOk then sigs else vchSig :: sigs
    if left.length > keys.length then false else checkSigs scriptCode left keys

/-- `OP_CHECKMULTISIG`: the result on the stack, and the operations counted. -/
def checkMultiSig (codehash : CScript) (nOpCount : Nat) : List Bytes → Option (List Bytes × Nat)
  | [] => none
  | top :: stack => do
      let nKeysCount ← castToBigNum top
      if nKeysCount < 0 || nKeysCount > 20 then none
      else
        let nKeys := nKeysCount.toNat
        if nOpCount + nKeys > 201 then none
        else
          match stack.drop nKeys with
          | [] => none
          | count :: below => do
              let nSigsCount ← castToBigNum count
              if nSigsCount < 0 || nSigsCount > nKeysCount then none
              else
                let nSigs := nSigsCount.toNat
                -- one more element is removed than is read
                if below.length < nSigs + 1 then none
                else
                  let sigs := below.take nSigs
                  let scriptCode := sigs.foldl
                    (fun code vchSig => CScript.findAndDelete (CScript.pushData vchSig) code) codehash
                  some (vchBool (checkSigs checkSig scriptCode sigs (stack.take nKeys)) ::
                    below.drop (nSigs + 1), nOpCount + nKeys)

/-- The branches `OP_IF` to `OP_ENDIF`. -/
def branchOp (opcode : UInt8) (fExec : Bool) (st : EvalState) : Option EvalState :=
  if opcode = OP_IF || opcode = OP_NOTIF then
    if fExec then
      match st.stack with
      | [] => none
      | vch :: stack =>
        some { st with stack, vfExec := (castToBool vch != (opcode == OP_NOTIF)) :: st.vfExec }
    else some { st with vfExec := false :: st.vfExec }
  else if opcode = OP_ELSE then
    match st.vfExec with
    | [] => none
    | fValue :: vfExec => some { st with vfExec := (!fValue) :: vfExec }
  else if opcode = OP_ENDIF then
    match st.vfExec with
    | [] => none
    | _ :: vfExec => some { st with vfExec }
  else none

/-- The `switch` of `EvalScript`; `rest` is the script behind the opcode. -/
def execOp (opcode : UInt8) (fExec : Bool) (rest : CScript) (st : EvalState) : Option EvalState :=
  if OP_IF ≤ opcode && opcode ≤ OP_ENDIF then branchOp opcode fExec st
  else if opcode = OP_TOALTSTACK then
    match st.stack with
    | [] => none
    | vch :: stack => some { st with stack, altstack := vch :: st.altstack }
  else if opcode = OP_FROMALTSTACK then
    match st.altstack with
    | [] => none
    | vch :: altstack => some { st with stack := vch :: st.stack, altstack }
  else if opcode = OP_CODESEPARATOR then some { st with codehash := rest }
  else if opcode = OP_CHECKSIG || opcode = OP_CHECKSIGVERIFY then
    match st.stack with
    | vchPubKey :: vchSig :: stack =>
      (verifyTop (opcode == OP_CHECKSIGVERIFY)
        (vchBool (checkOneSig checkSig st.codehash vchSig vchPubKey) :: stack)).map
          fun stack => { st with stack }
    | _ => none
  else if opcode = OP_CHECKMULTISIG || opcode = OP_CHECKMULTISIGVERIFY then
    (checkMultiSig checkSig st.codehash st.nOpCount st.stack).bind fun (stack, nOpCount) =>
      (verifyTop (opcode == OP_CHECKMULTISIGVERIFY) stack).map
        fun stack => { st with stack, nOpCount }
  else (stackOp hashes opcode st.stack).map fun stack => { st with stack }

/-- One round of the loop of `EvalScript`. -/
def evalOp (opcode : UInt8) (vchPushValue : Bytes) (rest : CScript) (st : EvalState) :
    Option EvalState :=
  let fExec := st.vfExec.all id
  let nOpCount := if opcode > OP_16 then st.nOpCount + 1 else st.nOpCount
  if vchPushValue.length > 520 || nOpCount > 201 || isDisabled opcode then none
  else
    let st := { st with nOpCount }
    let after :=
      if fExec && opcode ≤ OP_PUSHDATA4 then some { st with stack := vchPushValue :: st.stack }
      else if fExec || (OP_IF ≤ opcode && opcode ≤ OP_ENDIF) then
        execOp hashes checkSig opcode fExec rest st
      else some st
    after.filter fun st => st.stack.length + st.altstack.length ≤ 1000

/-- The loop of `EvalScript`; every round takes at least one byte. -/
def evalLoop : Nat → CScript → EvalState → Option EvalState
  | _, [], st => some st
  | 0, _ :: _, _ => none
  | fuel + 1, pc, st =>
    match CScript.getOp pc with
    | none => none
    | some (opcode, vchPushValue, rest) =>
      (evalOp hashes checkSig opcode vchPushValue rest st).bind (evalLoop fuel rest)

/-- `EvalScript`: the stack that the script leaves. -/
def evalScript (stack : List Bytes) (script : CScript) : Option (List Bytes) :=
  if script.length > 10000 then none
  else
    (evalLoop hashes checkSig script.length script ⟨stack, [], [], 0, script⟩).bind fun st =>
      if st.vfExec.isEmpty then some st.stack else none

end

namespace CScript

/-- `operator<<` writes what `GetOp` reads, where less than four gigabytes are left. -/
theorem getOp_pushData {b rest : CScript} (hlt : (b ++ rest).length < 2 ^ 32) :
    ∃ opcode ≤ OP_PUSHDATA4, getOp (pushData b ++ rest) = some (opcode, b, rest) := by
  have hshort : b.length ≤ (b ++ rest).length := by simp
  have hread : ∀ (opcode : UInt8) (pc : CScript), opcode ≤ OP_PUSHDATA4 →
      pushSize opcode pc = some (b.length, b ++ rest) →
        getOp (opcode :: pc) = some (opcode, b, rest) := by
    intro opcode pc hop hsize
    have hle : ¬(b ++ rest).length % 2 ^ 32 < b.length := by
      rw [Nat.mod_eq_of_lt hlt]
      exact Nat.not_lt.mpr hshort
    rw [getOp, if_pos hop, hsize]
    simp only [bind_some, if_neg hle, take_left, drop_left]
  unfold pushData
  split
  · rename_i hshort
    have hbyte : (UInt8.ofNat b.length).toNat = b.length :=
      UInt8.toNat_ofNat_of_lt (Nat.lt_trans hshort (by decide))
    have hsmall : UInt8.ofNat b.length < OP_PUSHDATA1 := by
      rw [UInt8.lt_iff_toNat_lt, hbyte]
      exact hshort
    have hle : UInt8.ofNat b.length ≤ OP_PUSHDATA4 := UInt8.le_trans (UInt8.le_of_lt hsmall) (by decide)
    refine ⟨_, hle, hread _ (b ++ rest) hle ?_⟩
    rw [pushSize, if_pos hsmall, hbyte]
  · split
    · rename_i hle
      refine ⟨OP_PUSHDATA1, by decide, hread _ (UInt8.ofNat b.length :: (b ++ rest)) (by decide) ?_⟩
      have hbyte : (UInt8.ofNat b.length).toNat = b.length :=
        UInt8.toNat_ofNat_of_lt (Nat.lt_of_le_of_lt hle (by decide))
      show getLE 1 _ = _
      simp [getLE, hbyte]
    · split
      · rename_i hle
        refine ⟨OP_PUSHDATA2, by decide, ?_⟩
        rw [cons_append, append_assoc]
        exact hread _ _ (by decide) (reads_LE 2 b.length (b ++ rest) (Nat.lt_of_le_of_lt hle (by decide)))
      · refine ⟨OP_PUSHDATA4, by decide, ?_⟩
        rw [cons_append, append_assoc]
        exact hread _ _ (by decide) (reads_LE 4 b.length (b ++ rest) (Nat.lt_of_le_of_lt hshort hlt))

/-- What is pushed and what follows are no longer than the script. -/
theorem length_lt_of_pushData {b rest : CScript} {bound : Nat} (h : (pushData b ++ rest).length < bound) :
    (b ++ rest).length < bound ∧ rest.length < bound := by
  have hpush := length_le_pushData b
  simp only [length_append] at h ⊢
  omega

theorem getOp_data {pc rest : CScript} {opcode : UInt8} {data : Bytes}
    (h : getOp pc = some (opcode, data, rest)) (hdata : data ≠ []) : opcode ≤ OP_PUSHDATA4 := by
  cases pc with
  | nil => cases h
  | cons op pc =>
    rw [getOp] at h
    split at h
    · rename_i hop
      obtain ⟨size, -, hcut⟩ := bind_eq_some_iff.mp h
      split at hcut
      · cases hcut
      · cases hcut
        exact hop
    · cases h
      exact absurd rfl hdata

end CScript

theorem castToBigNum_small {k : Nat} (hk : k ≤ 16) : castToBigNum (bigNumVch k) = some (k : Int) := by
  interval_cases k <;> rfl

section

variable {hashes : ScriptHashes} {check : SigCheck}

/-- The script leads from one state to another. -/
def Leads (hashes : ScriptHashes) (check : SigCheck) (pc : CScript) (st after : EvalState) : Prop :=
  ∃ fuel, evalLoop hashes check fuel pc st = some after

variable {st after : EvalState}

theorem leads_nil (h : Leads hashes check [] st after) : after = st := by
  obtain ⟨fuel, h⟩ := h
  rw [evalLoop] at h
  exact (Option.some.inj h).symm

variable {opcode : UInt8}

variable {data : Bytes}

/-- **One operation of a script that runs through.** -/
theorem leads_op {pc rest : CScript}
    (h : Leads hashes check pc st after) (hop : CScript.getOp pc = some (opcode, data, rest)) :
    ∃ mid, evalOp hashes check opcode data rest st = some mid ∧ Leads hashes check rest mid after := by
  obtain ⟨fuel, h⟩ := h
  cases pc with
  | nil => cases hop
  | cons op pc =>
    cases fuel with
    | zero => cases h
    | succ fuel =>
      simp only [evalLoop, hop] at h
      obtain ⟨mid, hmid, hrest⟩ := bind_eq_some_iff.mp h
      exact ⟨mid, hmid, fuel, hrest⟩

theorem leads_of_evalScript {stack result : List Bytes} {script : CScript}
    (h : evalScript hashes check stack script = some result) :
    script.length ≤ 10000 ∧ ∃ after, Leads hashes check script ⟨stack, [], [], 0, script⟩ after ∧
      after.stack = result := by
  rw [evalScript] at h
  split at h
  · cases h
  · rename_i hlength
    obtain ⟨after, hrun, hresult⟩ := bind_eq_some_iff.mp h
    split at hresult
    · exact ⟨Nat.le_of_not_lt hlength, after, ⟨_, hrun⟩, Option.some.inj hresult⟩
    · cases hresult

variable {rest : CScript}

theorem evalOp_push (hexec : st.vfExec = []) (hop : opcode ≤ OP_PUSHDATA4)
    (h : evalOp hashes check opcode data rest st = some after) :
    after.stack = data :: st.stack ∧ after.vfExec = [] := by
  have hlow : ¬OP_16 < opcode := UInt8.not_lt.mpr (UInt8.le_trans hop (by decide))
  simp only [evalOp, hexec, all_nil, hop, decide_true, Bool.true_and, if_true, gt_iff_lt, if_neg hlow] at h
  split at h
  · cases h
  · obtain ⟨hsome, -⟩ := filter_eq_some_iff.mp h
    cases hsome
    exact ⟨rfl, rfl⟩

/-- Outside of branches, every other opcode that runs through is executed. -/
theorem evalOp_exec (hexec : st.vfExec = []) (hop : OP_PUSHDATA4 < opcode)
    (h : evalOp hashes check opcode data rest st = some after) :
    ∃ nOpCount, execOp hashes check opcode true rest { st with nOpCount } = some after := by
  have hnot : ¬opcode ≤ OP_PUSHDATA4 := UInt8.not_le.mpr hop
  simp only [evalOp, hexec, all_nil, hnot, decide_false, Bool.and_false, Bool.true_or,
    Bool.false_eq_true, if_false, if_true] at h
  generalize (if opcode > OP_16 then st.nOpCount + 1 else st.nOpCount) = nOpCount at h
  split at h
  · cases h
  · obtain ⟨hsome, -⟩ := filter_eq_some_iff.mp h
    refine ⟨nOpCount, ?_⟩
    rw [hexec]
    exact hsome

/-- **A script of pushes that runs through** leaves them on the stack. -/
theorem leads_pushes {pushes : List Bytes}
    (hlt : (pushes.flatMap CScript.pushData ++ rest).length < 2 ^ 32) (hexec : st.vfExec = [])
    (h : Leads hashes check (pushes.flatMap CScript.pushData ++ rest) st after) :
    ∃ mid, mid.stack = pushes.reverse ++ st.stack ∧ mid.vfExec = [] ∧ Leads hashes check rest mid after := by
  induction pushes generalizing st with
  | nil => exact ⟨st, rfl, hexec, h⟩
  | cons b pushes ih =>
    rw [flatMap_cons, append_assoc] at h hlt
    obtain ⟨hfirst, hlater⟩ := CScript.length_lt_of_pushData hlt
    obtain ⟨opcode, hop, hget⟩ := CScript.getOp_pushData hfirst
    obtain ⟨mid, hmid, hrest⟩ := leads_op h hget
    obtain ⟨hstack, hexec'⟩ := evalOp_push hexec hop hmid
    obtain ⟨final, hfinal, hfinalExec, hleads⟩ := ih hlater hexec' hrest
    refine ⟨final, ?_, hfinalExec, hleads⟩
    rw [hfinal, hstack, reverse_cons, append_assoc, singleton_append]

theorem evalScript_pushes {pushes stack : List Bytes}
    (h : evalScript hashes check [] (pushes.flatMap CScript.pushData) = some stack) :
    stack = pushes.reverse := by
  obtain ⟨hlength, after, hleads, hstack⟩ := leads_of_evalScript h
  rw [← append_nil (pushes.flatMap CScript.pushData)] at hleads hlength
  obtain ⟨mid, hmid, -, hrest⟩ := leads_pushes (Nat.lt_of_le_of_lt hlength (by decide)) rfl hleads
  rw [← hstack, leads_nil hrest, hmid, append_nil]

/-- No signature passes when the test accepts none of them. -/
theorem checkSigs_stale {scriptCode : CScript} {sigs keys : List Bytes} (hne : sigs ≠ [])
    (hstale : ∀ vchSig ∈ sigs, ∀ vchPubKey code, check vchSig vchPubKey code = false) :
    checkSigs check scriptCode sigs keys = false := by
  induction keys with
  | nil =>
    cases sigs with
    | nil => exact absurd rfl hne
    | cons vchSig sigs => rfl
  | cons vchPubKey keys ih =>
    cases sigs with
    | nil => exact absurd rfl hne
    | cons vchSig sigs =>
      simp only [checkSigs, hstale vchSig mem_cons_self, Bool.and_false, Bool.false_eq_true, if_false]
      split
      · rfl
      · exact ih

/-- **`OP_CHECKMULTISIG` with signatures that the test does not accept.** -/
theorem checkMultiSig_stale {codehash : CScript} {nOpCount : Nat} {keys sigs below : List Bytes}
    (hkeys : keys.length ≤ 16) (hsigs : sigs.length ≤ 16) (hne : sigs ≠ [])
    (hstale : ∀ vchSig ∈ sigs, ∀ vchPubKey code, check vchSig vchPubKey code = false)
    {result : List Bytes × Nat} (h : checkMultiSig check codehash nOpCount
      (bigNumVch keys.length :: (keys ++ bigNumVch sigs.length :: (sigs ++ below))) = some result) :
    ∃ rest, result.1 = vchFalse :: rest := by
  simp only [checkMultiSig, castToBigNum_small hkeys, bind, bind_some, Int.toNat_natCast,
    drop_left, take_left] at h
  split at h
  · cases h
  · split at h
    · cases h
    · simp only [castToBigNum_small hsigs, bind_some, Int.toNat_natCast, take_left] at h
      split at h
      · cases h
      · split at h
        · cases h
        · rw [checkSigs_stale hne hstale] at h
          cases h
          exact ⟨_, rfl⟩

end

end MaryJaneCoin
