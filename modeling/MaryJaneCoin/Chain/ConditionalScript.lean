import MaryJaneCoin.Chain.MultiSigCheck
import MaryJaneCoin.Lib.NestedCode

/-!
# Conditionals in scripts

`EvalScript` keeps a vector of truth values for the conditionals that it is in.  The
evaluator here splits the script into blocks and runs the branches that are taken only;
what is not taken is read for the limits that hold everywhere.  Both give the same result
for every script and every stack.
-/

namespace MaryJaneCoin

open Codec NestedCode Option Machine

def OP_VERIF : UInt8 := 0x65
def OP_VERNOTIF : UInt8 := 0x66

/-- An operation of a script: the opcode, what it pushes and the script behind it. -/
structure ScriptOp where
  opcode : UInt8
  data : Bytes
  rest : CScript

/-- The operations of a script, one for each byte at most; `none` where one does not parse. -/
def CScript.operationsFrom : Nat → CScript → Option (List ScriptOp)
  | _, [] => some []
  | 0, _ :: _ => none
  | fuel + 1, pc =>
    match CScript.getOp pc with
    | none => none
    | some (opcode, data, rest) => (operationsFrom fuel rest).map fun ops => ⟨opcode, data, rest⟩ :: ops

def CScript.operations (script : CScript) : Option (List ScriptOp) :=
  operationsFrom script.length script

/-- The state of `EvalScript` without `vfExec`. -/
structure TakenState where
  stack : List Bytes
  altstack : List Bytes
  nOpCount : Nat
  codehash : CScript

/-- The state inside of conditionals. -/
def TakenState.inside (st : TakenState) (vfExec : List Bool) : EvalState :=
  ⟨st.stack, st.altstack, vfExec, st.nOpCount, st.codehash⟩

/-- What is left when the conditionals are forgotten. -/
def EvalState.taken (st : EvalState) : TakenState := ⟨st.stack, st.altstack, st.nOpCount, st.codehash⟩

/-- The stacks are within their limit. -/
def TakenState.fits (st : TakenState) : Bool := st.stack.length + st.altstack.length ≤ 1000

def ScriptOp.kind (op : ScriptOp) : Kind :=
  if op.opcode = OP_IF || op.opcode = OP_NOTIF then .opens
  else if op.opcode = OP_ELSE then .toggles
  else if op.opcode = OP_ENDIF then .closes
  else .plain

/-- The limits that hold where nothing is executed too. -/
def passOp (op : ScriptOp) (st : TakenState) : Option TakenState :=
  let nOpCount := if op.opcode > OP_16 then st.nOpCount + 1 else st.nOpCount
  if op.data.length > 520 || nOpCount > 201 || isDisabled op.opcode ||
      op.opcode = OP_VERIF || op.opcode = OP_VERNOTIF then none
  else some { st with nOpCount }

section

variable (hashes : ScriptHashes) (checkSig : SigCheck)

/-- An operation that is taken. -/
def takeOp (op : ScriptOp) (st : TakenState) : Option TakenState :=
  (passOp op st).bind fun st =>
    (if op.opcode ≤ OP_PUSHDATA4 then some { st with stack := op.data :: st.stack }
      else (execOp hashes checkSig op.opcode true op.rest (st.inside [])).map
        EvalState.taken).filter TakenState.fits

/-- The condition of `OP_IF` and `OP_NOTIF`. -/
def takeCondition (op : ScriptOp) (st : TakenState) : Option (Bool × TakenState) :=
  (passOp op st).bind fun st =>
    match st.stack with
    | [] => none
    | vch :: stack =>
      (some (castToBool vch != (op.opcode == OP_NOTIF), { st with stack })).filter fun found =>
        found.2.fits

/-- What the operations of scripts do. -/
def scriptMachine : Machine ScriptOp TakenState where
  kind := ScriptOp.kind
  exec := takeOp hashes checkSig
  test := takeCondition
  pass := passOp

def evalBlocks (stack : List Bytes) (script : CScript) : Option (List Bytes) :=
  if script.length > 10000 then none
  else
    script.operations.bind fun ops =>
      (nest ScriptOp.kind ops).bind fun block =>
        ((scriptMachine hashes checkSig).runBlock block ⟨stack, [], 0, script⟩).map TakenState.stack

/-- `EvalScript` tests the size of the stacks after every operation. -/
def flatMachine : Machine ScriptOp TakenState :=
  { scriptMachine hashes checkSig with pass := fun op st => (passOp op st).filter TakenState.fits }

end

section

variable {hashes : ScriptHashes} {check : SigCheck}

/-- Operations other than conditionals leave `vfExec` alone. -/
theorem execOp_inside {opcode : UInt8} {rest : CScript} (st : TakenState) (vfExec : List Bool)
    (hplain : ¬(decide (OP_IF ≤ opcode) && decide (opcode ≤ OP_ENDIF)) = true) (fExec : Bool) :
    execOp hashes check opcode fExec rest (st.inside vfExec) = (execOp hashes check opcode true rest
      (st.inside [])).map fun after => after.taken.inside vfExec := by
  unfold execOp
  rw [if_neg hplain, if_neg hplain]
  obtain ⟨stack, altstack, nOpCount, codehash⟩ := st
  simp only [TakenState.inside]
  split
  · cases stack with
    | nil => rfl
    | cons _ _ => rfl
  · split
    · cases altstack with
      | nil => rfl
      | cons _ _ => rfl
    · split
      · rfl
      · split
        · split
          · rw [map_map]
            rfl
          · rfl
        · split
          · rw [Option.map_bind]
            congr 1
            funext result
            simp only [Function.comp_def, map_map]
            rfl
          · rw [map_map]
            rfl

/-- What an operation does within the limits that hold everywhere. -/
def actOp (hashes : ScriptHashes) (check : SigCheck) (op : ScriptOp) (vfExec : List Bool)
    (st : TakenState) : Option EvalState :=
  if vfExec.all id && op.opcode ≤ OP_PUSHDATA4 then
    some (TakenState.inside { st with stack := op.data :: st.stack } vfExec)
  else if vfExec.all id || (OP_IF ≤ op.opcode && op.opcode ≤ OP_ENDIF) then
    execOp hashes check op.opcode (vfExec.all id) op.rest (st.inside vfExec)
  else some (st.inside vfExec)

/-- A round of `EvalScript`, with the limits that hold everywhere taken out. -/
theorem evalOp_inside (op : ScriptOp) (vfExec : List Bool) (st : TakenState)
    (hverif : op.opcode ≠ OP_VERIF ∧ op.opcode ≠ OP_VERNOTIF) :
    evalOp hashes check op.opcode op.data op.rest (st.inside vfExec) = ((passOp op st).bind
      (actOp hashes check op vfExec)).filter fun after => after.taken.fits := by
  have hpass : passOp op st =
      if op.data.length > 520 || (if op.opcode > OP_16 then st.nOpCount + 1 else st.nOpCount) >
          201 || isDisabled op.opcode then none
      else some { st with nOpCount := if op.opcode > OP_16 then st.nOpCount + 1 else st.nOpCount } := by
    simp only [passOp, hverif.1, hverif.2, decide_false, Bool.or_false]
  have hround : evalOp hashes check op.opcode op.data op.rest (st.inside vfExec) =
      if op.data.length > 520 || (if op.opcode > OP_16 then st.nOpCount + 1 else st.nOpCount) >
          201 || isDisabled op.opcode then none
      else (actOp hashes check op vfExec
        { st with nOpCount := if op.opcode > OP_16 then st.nOpCount + 1 else st.nOpCount }).filter
          fun after => after.taken.fits := rfl
  rw [hpass, hround]
  generalize (if op.opcode > OP_16 then st.nOpCount + 1 else st.nOpCount) = nOpCount
  split
  · rfl
  · rfl

theorem evalOp_verif (op : ScriptOp) (vfExec : List Bool) (st : TakenState)
    (hverif : op.opcode = OP_VERIF ∨ op.opcode = OP_VERNOTIF) :
    evalOp hashes check op.opcode op.data op.rest (st.inside vfExec) = none := by
  obtain ⟨opcode, data, rest⟩ := op
  simp only at hverif
  have hact : ∀ fExec st, execOp hashes check opcode fExec rest st = none := by
    intro fExec st
    rcases hverif with rfl | rfl
    · rfl
    · rfl
  have hopcode : (OP_IF ≤ opcode ∧ opcode ≤ OP_ENDIF) ∧ ¬opcode ≤ OP_PUSHDATA4 := by
    rcases hverif with rfl | rfl
    · decide
    · decide
  unfold evalOp
  simp only [hact, hopcode, decide_true, decide_false, Bool.and_false, Bool.and_true, Bool.or_true,
    Bool.false_eq_true, if_false, if_true, filter_none, ite_self]

variable {op : ScriptOp} {vfExec : List Bool}

/-- An operation that is beyond the limits is not passed over either. -/
theorem step_of_passOp_none {st : TakenState}
    (h : passOp op st = none) : (flatMachine hashes check).step op vfExec st = none := by
  have htake : takeOp hashes check op st = none := by rw [takeOp, h]; rfl
  have htest : takeCondition op st = none := by rw [takeCondition, h]; rfl
  unfold step
  simp only [flatMachine, scriptMachine, htake, htest, h, filter_none, map_none, ite_self]
  split
  · rfl
  · rfl
  · rfl
  · rfl
  · rfl

/-- Conditionals do not change the size of the stacks. -/
theorem filter_inside (found : Option TakenState) (vfExec : List Bool) :
    ((found.map fun st => st.inside vfExec).filter fun after => after.taken.fits) =
      (found.filter TakenState.fits).map fun st => st.inside vfExec := by
  cases found with
  | none => rfl
  | some st =>
    rw [map_some, filter_some, filter_some]
    show (if st.fits then _ else none) = _
    split
    · rfl
    · rfl

theorem branch_opcode {opcode : UInt8} (h : OP_IF ≤ opcode ∧ opcode ≤ OP_ENDIF)
    (hverif : opcode ≠ OP_VERIF ∧ opcode ≠ OP_VERNOTIF) :
    opcode = OP_IF ∨ opcode = OP_NOTIF ∨ opcode = OP_ELSE ∨ opcode = OP_ENDIF := by
  have hlow : 0x63 ≤ opcode.toNat := UInt8.le_iff_toNat_le.mp h.1
  have hhigh : opcode.toNat ≤ 0x68 := UInt8.le_iff_toNat_le.mp h.2
  have hne : opcode.toNat ≠ 0x65 ∧ opcode.toNat ≠ 0x66 :=
    ⟨fun heq => hverif.1 (UInt8.toNat_inj.mp heq), fun heq => hverif.2 (UInt8.toNat_inj.mp heq)⟩
  have hfour : opcode.toNat = 0x63 ∨ opcode.toNat = 0x64 ∨ opcode.toNat = 0x67 ∨ opcode.toNat = 0x68 := by
    omega
  rcases hfour with heq | heq | heq | heq
  · exact .inl (UInt8.toNat_inj.mp heq)
  · exact .inr (.inl (UInt8.toNat_inj.mp heq))
  · exact .inr (.inr (.inl (UInt8.toNat_inj.mp heq)))
  · exact .inr (.inr (.inr (UInt8.toNat_inj.mp heq)))

variable {st st' : TakenState}

theorem step_opens (h : passOp op st = some st') (hif : op.opcode = OP_IF ∨ op.opcode = OP_NOTIF) :
    (actOp hashes check op vfExec st').filter (fun after => after.taken.fits) =
      ((flatMachine hashes check).step op vfExec st).map fun next => next.2.inside next.1 := by
  have hkind : (flatMachine hashes check).kind op = .opens := by
    show op.kind = _
    rw [ScriptOp.kind, if_pos (by simpa using hif)]
  have hact : actOp hashes check op vfExec st' = branchOp op.opcode (vfExec.all id) (st'.inside vfExec) := by
    have hopcode : (OP_IF ≤ op.opcode ∧ op.opcode ≤ OP_ENDIF) ∧ ¬op.opcode ≤ OP_PUSHDATA4 := by
      rcases hif with hif | hif
      · rw [hif]
        decide
      · rw [hif]
        decide
    simp only [actOp, execOp, hopcode, decide_true, decide_false, Bool.and_false, Bool.and_true,
      Bool.or_true, Bool.false_eq_true, if_false, if_true]
  have hbranch : ∀ fExec st, branchOp op.opcode fExec st =
      if fExec then
        match st.stack with
        | [] => none
        | vch :: stack =>
          some { st with stack, vfExec := (castToBool vch != (op.opcode == OP_NOTIF)) :: st.vfExec }
      else some { st with vfExec := false :: st.vfExec } := by
    intro fExec st
    unfold branchOp
    exact if_pos (by simpa using hif)
  rw [hact, hbranch]
  unfold step
  rw [hkind]
  cases vfExec.all id with
  | false =>
    simp only [Bool.false_eq_true, if_false, flatMachine, h, map_map]
    exact filter_inside (some st') (false :: vfExec)
  | true =>
    simp only [if_true, flatMachine, scriptMachine, takeCondition, h, bind_some]
    obtain ⟨stack, altstack, nOpCount, codehash⟩ := st'
    cases stack with
    | nil => rfl
    | cons vch stack =>
      refine (filter_inside (some ⟨stack, altstack, nOpCount, codehash⟩) _).trans ?_
      simp only [filter_some]
      split
      · rfl
      · rfl

theorem step_branch
    (h : passOp op st = some st') (helse : op.opcode = OP_ELSE ∨ op.opcode = OP_ENDIF) :
    (actOp hashes check op vfExec st').filter (fun after => after.taken.fits) =
      ((flatMachine hashes check).step op vfExec st).map fun next => next.2.inside next.1 := by
  obtain ⟨opcode, data, rest⟩ := op
  have hpass : (flatMachine hashes check).pass ⟨opcode, data, rest⟩ st = (some st').filter TakenState.fits :=
    congrArg (Option.filter TakenState.fits) h
  simp only at helse
  rcases helse with rfl | rfl
  · have hkind : (flatMachine hashes check).kind ⟨OP_ELSE, data, rest⟩ = .toggles := rfl
    cases vfExec with
    | nil => rfl
    | cons innermost outer =>
      unfold step
      simp only [hkind, hpass, map_map, Function.comp_def]
      refine Eq.trans ?_ (filter_inside (some st') ((!innermost) :: outer))
      unfold actOp
      cases (innermost :: outer).all id with
      | true => rfl
      | false => rfl
  · have hkind : (flatMachine hashes check).kind ⟨OP_ENDIF, data, rest⟩ = .closes := rfl
    cases vfExec with
    | nil => rfl
    | cons innermost outer =>
      unfold step
      simp only [hkind, hpass, map_map, Function.comp_def]
      refine Eq.trans ?_ (filter_inside (some st') outer)
      unfold actOp
      cases (innermost :: outer).all id with
      | true => rfl
      | false => rfl

/-- Operations other than conditionals. -/
theorem step_plain
    (h : passOp op st = some st') (hplain : ¬(OP_IF ≤ op.opcode ∧ op.opcode ≤ OP_ENDIF)) :
    (actOp hashes check op vfExec st').filter (fun after => after.taken.fits) =
      ((flatMachine hashes check).step op vfExec st).map fun next => next.2.inside next.1 := by
  have hopcode : (decide (OP_IF ≤ op.opcode) && decide (op.opcode ≤ OP_ENDIF)) = false := by
    rw [← Bool.not_eq_true, Bool.and_eq_true, decide_eq_true_eq, decide_eq_true_eq]
    exact hplain
  have hkind : (flatMachine hashes check).kind op = .plain := by
    show op.kind = _
    have hne : ∀ opcode : UInt8, OP_IF ≤ opcode ∧ opcode ≤ OP_ENDIF → op.opcode ≠ opcode := by
      rintro opcode hbranch rfl
      exact hplain hbranch
    rw [ScriptOp.kind, if_neg (by simpa using ⟨hne OP_IF (by decide), hne OP_NOTIF (by decide)⟩),
      if_neg (hne OP_ELSE (by decide)), if_neg (hne OP_ENDIF (by decide))]
  unfold step actOp
  rw [hkind, hopcode]
  cases vfExec.all id with
  | false =>
    simp only [Bool.false_and, Bool.or_false, Bool.false_eq_true, if_false, flatMachine, h, map_map]
    exact filter_inside (some st') vfExec
  | true =>
    simp only [Bool.true_and, Bool.true_or, if_true, flatMachine, scriptMachine, takeOp, h,
      bind_some, map_map, decide_eq_true_eq]
    split
    · exact filter_inside (some _) vfExec
    · rw [execOp_inside st' vfExec (by simpa using hplain) true]
      cases execOp hashes check op.opcode true op.rest (st'.inside []) with
      | none => rfl
      | some after => exact filter_inside (some after.taken) vfExec

/-- An operation within the limits. -/
theorem step_of_passOp
    (h : passOp op st = some st') (hverif : op.opcode ≠ OP_VERIF ∧ op.opcode ≠ OP_VERNOTIF) :
    (actOp hashes check op vfExec st').filter (fun after => after.taken.fits) =
      ((flatMachine hashes check).step op vfExec st).map fun next => next.2.inside next.1 := by
  by_cases hbranch : OP_IF ≤ op.opcode ∧ op.opcode ≤ OP_ENDIF
  · rcases branch_opcode hbranch hverif with heq | heq | heq | heq
    · exact step_opens h (.inl heq)
    · exact step_opens h (.inr heq)
    · exact step_branch h (.inl heq)
    · exact step_branch h (.inr heq)
  · exact step_plain h hbranch

/-- **A round of `EvalScript`** is an operation of flat code. -/
theorem evalOp_eq_step (op : ScriptOp) (vfExec : List Bool) (st : TakenState) :
    evalOp hashes check op.opcode op.data op.rest (st.inside vfExec) =
      ((flatMachine hashes check).step op vfExec st).map fun next => next.2.inside next.1 := by
  by_cases hverif : op.opcode = OP_VERIF ∨ op.opcode = OP_VERNOTIF
  · have hnone : passOp op st = none := by
      rw [passOp]
      rcases hverif with hverif | hverif
      · simp [hverif]
      · simp [hverif]
    rw [evalOp_verif op vfExec st hverif, step_of_passOp_none hnone]
    rfl
  · rw [evalOp_inside op vfExec st (not_or.mp hverif)]
    cases hpass : passOp op st with
    | none =>
      rw [step_of_passOp_none hpass]
      rfl
    | some st' => exact step_of_passOp hpass (not_or.mp hverif)

/-- **The loop of `EvalScript`** runs the operations as flat code. -/
theorem evalLoop_eq_run (fuel : Nat) (pc : CScript) (vfExec : List Bool) (st : TakenState) :
    evalLoop hashes check fuel pc (st.inside vfExec) = (CScript.operationsFrom fuel pc).bind fun ops =>
        ((flatMachine hashes check).run ops vfExec st).map fun last => last.2.inside last.1 := by
  induction fuel generalizing pc vfExec st with
  | zero =>
    cases pc with
    | nil => rfl
    | cons _ _ => rfl
  | succ fuel ih =>
    cases pc with
    | nil => rfl
    | cons byte pc =>
      simp only [evalLoop, CScript.operationsFrom]
      cases CScript.getOp (byte :: pc) with
      | none => rfl
      | some read =>
        obtain ⟨opcode, data, rest⟩ := read
        have hstep := @evalOp_eq_step hashes check ⟨opcode, data, rest⟩ vfExec st
        simp only [bind_map, Function.comp_def, run] at hstep ⊢
        rw [hstep, bind_map]
        cases (flatMachine hashes check).step ⟨opcode, data, rest⟩ vfExec st with
        | none => exact (bind_fun_none _).symm
        | some next => exact ih rest next.1 next.2

/-- What is executed leaves stacks within their limit. -/
theorem fits_of_takeOp {st after : TakenState} (h : takeOp hashes check op st = some after) :
    after.fits = true := by
  obtain ⟨st', -, hafter⟩ := bind_eq_some_iff.mp h
  exact (filter_eq_some_iff.mp hafter).2

theorem fits_of_takeCondition {st : TakenState} {found : Bool × TakenState}
    (h : takeCondition op st = some found) : found.2.fits = true := by
  obtain ⟨st', -, hafter⟩ := bind_eq_some_iff.mp h
  split at hafter
  · cases hafter
  · exact (filter_eq_some_iff.mp hafter).2

/-- What is passed over leaves the stacks alone. -/
theorem fits_of_passOp {st after : TakenState} (h : passOp op st = some after) :
    after.fits = st.fits := by
  simp only [passOp, ite_none_left_eq_some] at h
  obtain ⟨-, hafter⟩ := h
  cases hafter
  rfl

/-- The size of the stacks need not be tested where nothing is executed. -/
theorem runFlat_flatMachine (ops : List ScriptOp) (st : TakenState) :
    (flatMachine hashes check).runFlat ops [] st = (scriptMachine hashes check).runFlat ops [] st := by
  refine runFlat_pass (fun st => st.fits = true) ?_ ?_ ?_ ?_ ops st
  · exact fun _ _ _ h => fits_of_takeOp h
  · exact fun _ _ _ h => fits_of_takeCondition h
  · exact fun _ _ _ hfits h => (fits_of_passOp h).trans hfits
  · intro op st hfits
    show (passOp op st).filter TakenState.fits = passOp op st
    cases hpass : passOp op st with
    | none => rfl
    | some after => rw [filter_some, if_pos ((fits_of_passOp hpass).trans hfits)]

/-- **`EvalScript` agrees with the evaluator by blocks.** -/
theorem evalScript_eq_evalBlocks (stack : List Bytes) (script : CScript) :
    evalScript hashes check stack script = evalBlocks hashes check stack script := by
  unfold evalScript evalBlocks
  split
  · rfl
  · have hloop := @evalLoop_eq_run hashes check script.length script [] ⟨stack, [], 0, script⟩
    have hflat : ∀ ops, (((flatMachine hashes check).run ops [] ⟨stack, [], 0, script⟩).bind fun last =>
        if last.1.isEmpty then some last.2.stack else none) =
          ((flatMachine hashes check).runFlat ops [] ⟨stack, [], 0, script⟩).map TakenState.stack := by
      intro ops
      rw [runFlat, Option.map_bind]
      congr 1
      funext last
      rw [Function.comp_apply]
      split
      · rfl
      · rfl
    show (evalLoop hashes check script.length script (TakenState.inside ⟨stack, [], 0, script⟩ [])).bind _ = _
    rw [hloop, bind_assoc, CScript.operations]
    congr 1
    funext ops
    rw [bind_map]
    refine (hflat ops).trans ?_
    rw [runFlat_flatMachine, runFlat_eq_runBlock, Option.map_bind]
    rfl

/-- **Conditional execution.**  A script whose operations parse has a result exactly if it is
not too long, its conditionals are balanced and the block that it is runs through. -/
theorem evalScript_conditional {script : CScript} {ops : List ScriptOp} (hops : script.operations = some ops)
    (stack : List Bytes) : evalScript hashes check stack script =
      evalBlocks hashes check stack script ∧ ∀ result, evalScript hashes check stack script =
        some result ↔ script.length ≤ 10000 ∧ ∃ block : Block ScriptOp, ∃ last : TakenState,
          block.Formed ScriptOp.kind ∧ block.flatten = ops ∧
          (scriptMachine hashes check).runBlock block ⟨stack, [], 0, script⟩ = some last ∧
          last.stack = result := by
  refine ⟨evalScript_eq_evalBlocks stack script, fun result => ?_⟩
  rw [evalScript_eq_evalBlocks, evalBlocks, hops]
  split
  · rename_i hlong
    refine iff_of_false (fun h => by cases h) ?_
    rintro ⟨hshort, -⟩
    exact Nat.not_lt.mpr hshort hlong
  · rename_i hshort
    rw [bind_some, bind_eq_some_iff]
    constructor
    · rintro ⟨block, hblock, hrun⟩
      obtain ⟨last, hlast, hresult⟩ := map_eq_some_iff.mp hrun
      obtain ⟨hformed, hflatten⟩ := nest_eq_some.mp hblock
      exact ⟨Nat.le_of_not_lt hshort, block, last, hformed, hflatten, hlast, hresult⟩
    · rintro ⟨-, block, last, hformed, hflatten, hlast, hresult⟩
      exact ⟨block, nest_eq_some.mpr ⟨hformed, hflatten⟩, map_eq_some_iff.mpr ⟨last, hlast, hresult⟩⟩

/-- Hash functions for scripts that do not hash. -/
def zeroHashes : ScriptHashes where
  ripemd160 _ := Vector.replicate 20 0
  sha1 _ := Vector.replicate 20 0
  sha256 _ := Vector.replicate 32 0

/-- `OP_1 OP_IF OP_2 OP_ELSE OP_3 OP_ELSE OP_4 OP_ENDIF`. -/
def twoElses : CScript := [0x51, 0x63, 0x52, 0x67, 0x53, 0x67, 0x54, 0x68]

/-- The first and the third branch are taken. -/
theorem evalScript_conditional_twoElses :
    evalScript zeroHashes (fun _ _ _ => false) [] twoElses = some [[4], [2]] := by
  have hops : twoElses.operations = some ((List.range 8).map fun i =>
      ⟨twoElses.getD i 0, [], twoElses.drop (i + 1)⟩) := rfl
  rw [(evalScript_conditional hops []).1]
  rfl

end

end MaryJaneCoin
