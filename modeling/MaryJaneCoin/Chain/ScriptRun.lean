import MaryJaneCoin.Chain.Signing

/-!
# Scripts that run through

A script is read as its operations, and run operation by operation to the stack that it
leaves.  What `FindAndDelete` looks for is a push, so it changes nothing in a script that
does not push it.
-/

namespace MaryJaneCoin

open Codec List Option

namespace CScript

/-- The operations from one place of a script to another. -/
inductive Reads : CScript → List (UInt8 × Bytes) → CScript → Prop
  | nil (pc : CScript) : Reads pc [] pc
  | cons {pc mid rest : CScript} {opcode : UInt8} {data : Bytes} {ops : List (UInt8 × Bytes)}
      (hop : getOp pc = some (opcode, data, mid)) (hops : Reads mid ops rest) :
      Reads pc ((opcode, data) :: ops) rest

/-- The values that are pushed from one place of a script to another. -/
def Pushes (pc : CScript) (values : List Bytes) (rest : CScript) : Prop :=
  ∃ ops, Reads pc ops rest ∧ ops.map Prod.snd = values ∧ ∀ op ∈ ops, op.1 ≤ OP_PUSHDATA4

variable {pc mid rest script : CScript} {ops ops' : List (UInt8 × Bytes)} {values : List Bytes}

theorem Reads.append (h : Reads pc ops mid) (h' : Reads mid ops' rest) : Reads pc (ops ++ ops') rest := by
  induction h with
  | nil => exact h'
  | cons hop _ ih => exact .cons hop (ih h')

theorem length_getLE_eq {width : Nat} {bytes behind : Bytes} {n : Nat}
    (h : getLE width bytes = some (n, behind)) : bytes.length = behind.length + width := by
  induction width generalizing bytes n with
  | zero =>
    rw [getLE] at h
    obtain ⟨-, rfl⟩ := Prod.mk.inj (Option.some.inj h)
    rfl
  | succ width ih =>
    cases bytes with
    | nil => cases h
    | cons byte bytes =>
      obtain ⟨⟨size, read⟩, hread, heq⟩ := map_eq_some_iff.mp h
      obtain ⟨-, rfl⟩ := Prod.mk.inj heq
      rw [length_cons, ih hread]
      omega

theorem Pushes.nil (pc : CScript) : Pushes pc [] pc := ⟨[], .nil pc, rfl, by simp⟩

/-- **Written pushes are read.** -/
theorem pushes_flatMap {values : List Bytes} {rest : CScript}
    (hlt : (values.flatMap pushData ++ rest).length < 2 ^ 32) :
    Pushes (values.flatMap pushData ++ rest) values rest := by
  induction values with
  | nil => exact Pushes.nil rest
  | cons b values ih =>
    rw [flatMap_cons, append_assoc] at hlt ⊢
    obtain ⟨hfirst, hlater⟩ := length_lt_of_pushData hlt
    obtain ⟨ops, hops, hvalues, hpush⟩ := ih hlater
    obtain ⟨opcode, hle, hop⟩ := getOp_pushData hfirst
    refine ⟨(opcode, b) :: ops, .cons hop hops, congrArg (b :: ·) hvalues, ?_⟩
    intro op hmem
    rcases List.mem_cons.mp hmem with rfl | hmem
    · exact hle
    · exact hpush op hmem

variable {opcode : UInt8}

theorem length_le_getOp {data : Bytes} (h : getOp pc = some (opcode, data, rest)) :
    pc.length ≤ rest.length + data.length + 5 := by
  cases pc with
  | nil => cases h
  | cons op pc =>
    rw [getOp] at h
    split at h
    · obtain ⟨⟨size, behind⟩, hsize, hcut⟩ := bind_eq_some_iff.mp h
      have hbehind : pc.length ≤ behind.length + 4 := by
        rw [pushSize] at hsize
        split at hsize
        · obtain ⟨-, rfl⟩ := Prod.mk.inj (Option.some.inj hsize)
          omega
        · split at hsize
          · have := length_getLE_eq hsize
            omega
          · split at hsize
            · have := length_getLE_eq hsize
              omega
            · have := length_getLE_eq hsize
              omega
      split at hcut
      · cases hcut
      · rename_i hle
        obtain ⟨-, rfl, rfl⟩ := hcut
        have hfits := Nat.le_trans (Nat.le_of_not_lt hle) (Nat.mod_le _ _)
        rw [length_cons, length_drop, length_take, Nat.min_eq_left hfits]
        have hcancel := Nat.sub_add_cancel hfits
        simp only at hcancel ⊢
        omega
    · obtain ⟨-, -, rfl⟩ := h
      rw [length_cons]
      omega

theorem Pushes.length_le {bound : Nat} (h : Pushes pc values rest) (hvalues : ∀ b ∈ values,
    b.length ≤ bound) : pc.length ≤ rest.length + values.length * (bound + 5) := by
  obtain ⟨ops, hreads, rfl, -⟩ := h
  induction hreads with
  | nil => simp
  | @cons _ _ _ _ data _ hop hops ih =>
    have hfirst := length_le_getOp hop
    have hdata : data.length ≤ bound := hvalues _ mem_cons_self
    have hmore := ih fun b hb => hvalues b (mem_cons_of_mem _ hb)
    rw [map_cons, length_cons, Nat.succ_mul]
    omega

theorem deleteHere_of_not_prefix {b : CScript} (h : b.isPrefixOf pc = false) (fuel : Nat) :
    deleteHere b fuel pc = pc := by
  cases fuel with
  | zero => rfl
  | succ fuel => rw [deleteHere, h, if_neg Bool.false_ne_true]

theorem getOp_of_prefix {vch : Bytes} (hlt : pc.length < 2 ^ 32) (h : (pushData vch).isPrefixOf pc = true) :
    ∃ opcode ≤ OP_PUSHDATA4, ∃ rest, getOp pc = some (opcode, vch, rest) := by
  obtain ⟨rest, rfl⟩ := isPrefixOf_iff_prefix.mp h
  obtain ⟨opcode, hle, hop⟩ := getOp_pushData (length_lt_of_pushData hlt).1
  exact ⟨opcode, hle, rest, hop⟩

theorem suffix_of_getLE {width : Nat} {bytes behind : Bytes} {n : Nat}
    (h : getLE width bytes = some (n, behind)) : behind <:+ bytes := by
  induction width generalizing bytes n with
  | zero =>
    rw [getLE] at h
    obtain ⟨-, rfl⟩ := Prod.mk.inj (Option.some.inj h)
    exact suffix_refl _
  | succ width ih =>
    cases bytes with
    | nil => cases h
    | cons byte bytes =>
      obtain ⟨⟨size, read⟩, hread, heq⟩ := map_eq_some_iff.mp h
      obtain ⟨-, rfl⟩ := Prod.mk.inj heq
      exact (ih hread).trans (suffix_cons _ _)

theorem suffix_of_pushSize {size : Nat} {behind : CScript}
    (h : pushSize opcode pc = some (size, behind)) : behind <:+ pc := by
  rw [pushSize] at h
  split at h
  · obtain ⟨-, rfl⟩ := Prod.mk.inj (Option.some.inj h)
    exact suffix_refl _
  · split at h
    · exact suffix_of_getLE h
    · split at h
      · exact suffix_of_getLE h
      · exact suffix_of_getLE h

theorem suffix_of_getOp {data : Bytes} (h : getOp pc = some (opcode, data, rest)) :
    rest <:+ pc := by
  cases pc with
  | nil => cases h
  | cons op pc =>
    rw [getOp] at h
    split at h
    · obtain ⟨⟨size, behind⟩, hsize, hcut⟩ := bind_eq_some_iff.mp h
      have hbehind := suffix_of_pushSize hsize
      split at hcut
      · cases hcut
      · obtain ⟨-, -, rfl⟩ := hcut
        exact (drop_suffix _ _).trans (hbehind.trans (suffix_cons _ _))
    · obtain ⟨-, -, rfl⟩ := h
      exact suffix_cons _ _

/-- **`FindAndDelete` of a push** that is not in the script. -/
theorem findAndDelete_of_reads {vch : Bytes} (hlt : script.length < 2 ^ 32) (h : Reads script ops [])
    (hnot : ∀ op ∈ ops, op.1 ≤ OP_PUSHDATA4 → op.2 ≠ vch) : findAndDelete (pushData vch) script = script := by
  have hloop : ∀ fuel pc ops, pc.length < 2 ^ 32 → Reads pc ops [] →
      (∀ op ∈ ops, op.1 ≤ OP_PUSHDATA4 → op.2 ≠ vch) → deleteFrom (pushData vch) fuel pc = pc := by
    intro fuel
    induction fuel with
    | zero => exact fun _ _ _ _ _ => rfl
    | succ fuel ih =>
      intro pc ops hlt hreads hnot
      have hpre : (pushData vch).isPrefixOf pc = false := by
        rw [← Bool.not_eq_true]
        intro hpre
        obtain ⟨opcode, hle, rest, hop⟩ := getOp_of_prefix hlt hpre
        cases hreads with
        | nil => cases hop
        | cons hop' _ =>
          obtain ⟨rfl, rfl, -⟩ := Option.some.inj (hop.symm.trans hop')
          exact hnot _ mem_cons_self hle rfl
      rw [deleteFrom, deleteHere_of_not_prefix hpre]
      cases hreads with
      | nil => rfl
      | cons hop hops =>
        have hshorter := (length_getOp hop).trans hlt
        have hrest := ih _ _ hshorter hops fun op hmem => hnot op (mem_cons_of_mem _ hmem)
        obtain ⟨front, rfl⟩ := suffix_of_getOp hop
        simp only [hop, hrest]
        rw [length_append, Nat.add_sub_cancel, take_left]
  unfold findAndDelete
  split
  · rfl
  · exact hloop _ _ _ hlt h hnot

end CScript

section

variable {hashes : ScriptHashes} {check : SigCheck} {pc rest : CScript} {st mid after : EvalState}

/-- A round for each byte is enough for the script to lead from one state to another. -/
def Runs (hashes : ScriptHashes) (check : SigCheck) (pc : CScript) (st after : EvalState) : Prop :=
  ∀ fuel, pc.length ≤ fuel → evalLoop hashes check fuel pc st = some after

theorem Runs.nil : Runs hashes check [] st st := by
  intro fuel _
  rw [evalLoop]

variable {opcode : UInt8}

theorem Runs.op {data : Bytes} (hop : CScript.getOp pc = some (opcode, data, rest))
    (heval : evalOp hashes check opcode data rest st = some mid)
    (hrest : Runs hashes check rest mid after) : Runs hashes check pc st after := by
  intro fuel hfuel
  have hlt := CScript.length_getOp hop
  cases fuel with
  | zero => omega
  | succ fuel =>
    cases pc with
    | nil => cases hop
    | cons op pc =>
      simp only [evalLoop, hop, heval, bind_some]
      exact hrest fuel (by omega)

theorem evalScript_of_runs {stack : List Bytes} {script : CScript} (hlength : script.length ≤ 10000)
    (h : Runs hashes check script ⟨stack, [], [], 0, script⟩ after) (hexec : after.vfExec = []) :
    evalScript hashes check stack script = some after.stack := by
  rw [evalScript, if_neg (Nat.not_lt.mpr hlength), h _ le_rfl, bind_some, hexec]
  rfl

/-- The state with other values on the stack. -/
def EvalState.withStack (st : EvalState) (stack : List Bytes) : EvalState := { st with stack }

theorem evalOp_of_push {data : Bytes} (hexec : st.vfExec = []) (hop : opcode ≤ OP_PUSHDATA4)
    (hcount : st.nOpCount ≤ 201) (hdata : data.length ≤ 520)
    (hsize : st.stack.length + st.altstack.length < 1000) :
    evalOp hashes check opcode data rest st = some (st.withStack (data :: st.stack)) := by
  have hlow : ¬opcode > OP_16 := UInt8.not_lt.mpr (UInt8.le_trans hop (by decide))
  have hdisabled : isDisabled opcode = false := by
    have hall : ∀ n < 0x4f, isDisabled (UInt8.ofNat n) = false := by decide
    have hnat : opcode.toNat < 0x4f := Nat.lt_succ_of_le (UInt8.le_iff_toNat_le.mp hop)
    have hopcode := hall _ hnat
    rwa [UInt8.ofNat_toNat] at hopcode
  have hlimits : ¬(decide (data.length > 520) || decide (st.nOpCount > 201) || isDisabled opcode) = true := by
    simp only [hdisabled, Bool.or_false, Bool.or_eq_true, decide_eq_true_eq]
    omega
  simp only [evalOp, if_neg hlow, if_neg hlimits, hexec, all_nil, hop, decide_true, Bool.and_self, if_true]
  rw [filter_some, if_pos]
  · simp only [EvalState.withStack, hexec]
  · simp only [length_cons, decide_eq_true_eq]
    omega

/-- **A script of pushes runs through** within the limits. -/
theorem Runs.pushes {values : List Bytes} (h : CScript.Pushes pc values rest)
    (hexec : st.vfExec = []) (hcount : st.nOpCount ≤ 201) (hdata : ∀ b ∈ values, b.length ≤ 520)
    (hsize : values.length + st.stack.length + st.altstack.length ≤ 1000)
    (hrest : Runs hashes check rest (st.withStack (values.reverse ++ st.stack)) after) :
    Runs hashes check pc st after := by
  obtain ⟨ops, hreads, hvalues, hpush⟩ := h
  induction hreads generalizing values st with
  | nil =>
    subst hvalues
    exact hrest
  | @cons _ _ _ opcode data ops hop hops ih =>
    subst hvalues
    rw [map_cons, length_cons] at hsize
    have hpushed : (st.withStack (data :: st.stack)).vfExec = [] := hexec
    apply Runs.op hop (evalOp_of_push hexec (hpush _ mem_cons_self) hcount (hdata _ mem_cons_self) (by omega))
    refine ih hpushed hcount ?_ ?_ ?_ rfl ?_
    · exact fun b hb => hdata b (mem_cons_of_mem _ hb)
    · simp only [EvalState.withStack, length_cons]
      omega
    · rw [map_cons, reverse_cons, append_assoc] at hrest
      exact hrest
    · exact fun op hmem => hpush op (mem_cons_of_mem _ hmem)

theorem evalScript_of_pushes {values : List Bytes} {script : CScript} (h : CScript.Pushes script values [])
    (hlength : script.length ≤ 10000) (hdata : ∀ b ∈ values, b.length ≤ 520)
    (hsize : values.length ≤ 1000) : evalScript hashes check [] script = some values.reverse := by
  have hruns : Runs hashes check script ⟨[], [], [], 0, script⟩ _ :=
    Runs.pushes h rfl (Nat.zero_le _) hdata (by simpa using hsize) Runs.nil
  rw [evalScript_of_runs hlength hruns rfl]
  simp only [EvalState.withStack, append_nil]

theorem evalOp_of_exec (hexec : st.vfExec = []) (hop : OP_16 < opcode)
    (hcount : st.nOpCount < 201) (hdisabled : isDisabled opcode = false)
    (h : execOp hashes check opcode true rest { st with nOpCount := st.nOpCount + 1 } = some after)
    (hsize : after.stack.length + after.altstack.length ≤ 1000) :
    evalOp hashes check opcode [] rest st = some after := by
  have hnot : ¬opcode ≤ OP_PUSHDATA4 := UInt8.not_le.mpr (UInt8.lt_of_le_of_lt (by decide) hop)
  have hlimits : ¬(decide (([] : Bytes).length > 520) || decide (st.nOpCount + 1 > 201) ||
      isDisabled opcode) = true := by
    simp only [hdisabled, length_nil, Bool.or_false, Bool.or_eq_true, decide_eq_true_eq]
    omega
  rw [hexec] at h
  simp only [evalOp, gt_iff_lt, if_pos hop, if_neg hlimits, hexec, all_nil, hnot, decide_false,
    Bool.and_false, Bool.true_or, Bool.false_eq_true, if_false, if_true, h]
  rw [filter_some, if_pos]
  exact decide_eq_true hsize

/-- A small number is pushed by its opcode. -/
theorem evalOp_of_smallint {k : Nat} (hone : 1 ≤ k) (hk : k ≤ 16) (hexec : st.vfExec = [])
    (hcount : st.nOpCount ≤ 201) (hsize : st.stack.length + st.altstack.length < 1000) :
    evalOp hashes check (UInt8.ofNat (k + 0x50))
      [] rest st = some (st.withStack (bigNumVch k :: st.stack)) := by
  have hfilter : (some (st.withStack (bigNumVch k :: st.stack))).filter
      (fun st => decide (st.stack.length + st.altstack.length ≤ 1000)) =
        some (st.withStack (bigNumVch k :: st.stack)) := by
    rw [filter_some, if_pos]
    have hle : st.stack.length + 1 + st.altstack.length ≤ 1000 := by omega
    exact decide_eq_true hle
  have hlimits : ¬decide (st.nOpCount > 201) = true := by
    simp only [decide_eq_true_eq]
    omega
  obtain ⟨stack, altstack, vfExec, nOpCount, codehash⟩ := st
  subst hexec
  simp only [EvalState.withStack] at hfilter hlimits ⊢
  rw [← hfilter]
  interval_cases k <;>
    simp +decide [evalOp, execOp, stackOp, hlimits]

end

end MaryJaneCoin
