import MaryJaneCoin.Mw.Models

/-!
# Cut-through of `mw/models/tx_body.h`

`ApplyCutThrough` takes out every input and every output whose commitment stands on both sides.
It works with sets: where a commitment stands on one side more often than on the other, the
difference goes with it.
-/

namespace MaryJaneCoin

open Std CMWOutput

namespace CMWTransactionBody

def merge (body other : CMWTransactionBody) : CMWTransactionBody where
  vInputs := body.vInputs ++ other.vInputs
  vOutputs := body.vOutputs ++ other.vOutputs
  vKernels := body.vKernels ++ other.vKernels

/-- One round of the output loop of `ApplyCutThrough`. -/
def cutOutput (inputCommitments : ExtTreeSet Commitment) (acc : ExtTreeSet Commitment × List Commitment)
    (output : CMWOutput) : ExtTreeSet Commitment × List Commitment :=
  if output.commitment ∈ inputCommitments then
    (acc.1.insert output.commitment, acc.2 ++ [output.commitment])
  else acc

/-- `cutSet` and `vCutThrough` of `ApplyCutThrough`. -/
def cutSet (body : CMWTransactionBody) : ExtTreeSet Commitment × List Commitment :=
  body.vOutputs.foldl
    (cutOutput
    (body.vInputs.foldl (fun commitments input => commitments.insert input.commitment) ∅)) (∅, [])

/-- `CMWTransactionBody::ApplyCutThrough`: the body that it leaves, and what it returns. -/
def applyCutThrough (body : CMWTransactionBody) : CMWTransactionBody × List Commitment :=
  if body.cutSet.1.isEmpty then (body, body.cutSet.2)
  else
    ({ body with
        vInputs := body.vInputs.filter fun input => input.commitment ∉ body.cutSet.1
        vOutputs := body.vOutputs.filter fun output => output.commitment ∉ body.cutSet.1 },
      body.cutSet.2)

/-- How often a commitment stands among the inputs. -/
def inputCount (body : CMWTransactionBody) (c : Commitment) : Nat :=
  (body.vInputs.map CMWInput.commitment).count c

/-- How often it stands among the outputs. -/
def outputCount (body : CMWTransactionBody) (c : Commitment) : Nat :=
  (body.vOutputs.map CMWOutput.commitment).count c

/-- The outputs without the inputs, as a formal difference. -/
def formalDifference (body : CMWTransactionBody) (c : Commitment) : Int :=
  body.outputCount c - body.inputCount c

variable {body : CMWTransactionBody} {c : Commitment}

theorem inputCount_pos : 0 < body.inputCount c ↔ c ∈ body.vInputs.map CMWInput.commitment :=
  List.count_pos_iff

theorem outputCount_pos : 0 < body.outputCount c ↔ c ∈ body.vOutputs.map commitment :=
  List.count_pos_iff

/-- The loop over outputs collects those that it finds among the inputs. -/
theorem mem_foldl_cutOutput (inputCommitments : ExtTreeSet Commitment) (outputs : List CMWOutput)
    (acc : ExtTreeSet Commitment × List Commitment) : c ∈ (outputs.foldl (cutOutput inputCommitments) acc).1 ↔
      c ∈ acc.1 ∨ (c ∈ inputCommitments ∧ c ∈ outputs.map commitment) := by
  induction outputs generalizing acc with
  | nil => simp
  | cons output outputs ih =>
    rw [List.foldl_cons, ih, cutOutput, List.map_cons, List.mem_cons]
    by_cases hmem : output.commitment ∈ inputCommitments
    · rw [if_pos hmem, ExtTreeSet.mem_insert, LawfulEqCmp.compare_eq_iff_eq]
      grind
    · rw [if_neg hmem]
      grind

/-- **The set that is cut**: the commitments on both sides. -/
theorem mem_cutSet : c ∈ body.cutSet.1 ↔ 0 < body.inputCount c ∧ 0 < body.outputCount c := by
  rw [cutSet, mem_foldl_cutOutput, FinMap.mem_foldl_insert, inputCount_pos, outputCount_pos]
  simp only [ExtTreeSet.not_mem_empty, false_or]

theorem applyCutThrough_fst : body.applyCutThrough.1 =
    { body with
      vInputs := body.vInputs.filter fun input => input.commitment ∉ body.cutSet.1
      vOutputs := body.vOutputs.filter fun output => output.commitment ∉ body.cutSet.1 } := by
  rw [applyCutThrough]
  split
  · rename_i hempty
    have hnone : ∀ c, c ∉ body.cutSet.1 := by
      intro c hc
      rw [ExtTreeSet.isEmpty_iff.mp hempty] at hc
      exact ExtTreeSet.not_mem_empty hc
    simp only [hnone, not_false_eq_true, decide_true, List.filter_true]
  · rfl

theorem count_cut {α : Type} (key : α → Commitment) (l : List α) (cut : ExtTreeSet Commitment) :
    ((l.filter fun a => key a ∉ cut).map key).count c = if c ∈ cut then 0 else (l.map key).count c := by
  have hmap : (l.filter fun a => key a ∉ cut).map key = (l.map key).filter fun c => c ∉ cut := by
    rw [List.filter_map]
    rfl
  rw [hmap]
  split
  · rename_i hcut
    exact List.count_eq_zero.mpr (by simp [List.mem_filter, hcut])
  · rename_i hcut
    exact List.count_filter (by simp [hcut])

theorem applyCutThrough_inputCount : body.applyCutThrough.1.inputCount c =
    if c ∈ body.cutSet.1 then 0 else body.inputCount c := by
  rw [applyCutThrough_fst]
  exact count_cut _ _ _

theorem applyCutThrough_outputCount : body.applyCutThrough.1.outputCount c =
    if c ∈ body.cutSet.1 then 0 else body.outputCount c := by
  rw [applyCutThrough_fst]
  exact count_cut _ _ _

/-- **What cut-through does to one commitment.** -/
theorem formalDifference_applyCutThrough_iff :
    body.applyCutThrough.1.formalDifference c = body.formalDifference c ↔ (0 < body.inputCount c →
      0 < body.outputCount c → body.inputCount c = body.outputCount c) := by
  rw [formalDifference, formalDifference, applyCutThrough_inputCount, applyCutThrough_outputCount]
  by_cases hcut : c ∈ body.cutSet.1
  · rw [if_pos hcut, if_pos hcut]
    obtain ⟨hin, hout⟩ := mem_cutSet.mp hcut
    constructor
    · intro hsame _ _
      omega
    · intro hequal
      have := hequal hin hout
      omega
  · rw [if_neg hcut, if_neg hcut]
    exact ⟨fun _ hin hout => absurd (mem_cutSet.mpr ⟨hin, hout⟩) hcut, fun _ => rfl⟩

/-- Nothing is left on both sides. -/
theorem applyCutThrough_disjoint :
    ¬(0 < body.applyCutThrough.1.inputCount c ∧ 0 < body.applyCutThrough.1.outputCount c) := by
  rw [applyCutThrough_inputCount, applyCutThrough_outputCount]
  by_cases hcut : c ∈ body.cutSet.1
  · rw [if_pos hcut]
    exact fun h => Nat.lt_irrefl 0 h.1
  · rw [if_neg hcut, if_neg hcut]
    exact fun h => hcut (mem_cutSet.mpr h)

/-- **Cut-through keeps the balance** of exactly the bodies in which every commitment that stands
on both sides stands there equally often. -/
theorem cut_through_balance (body : CMWTransactionBody) :
    (body.applyCutThrough.1.formalDifference = body.formalDifference ∧
        body.applyCutThrough.1.vKernels = body.vKernels ∧
        ∀ c, ¬(c ∈ body.applyCutThrough.1.vInputs.map CMWInput.commitment ∧
          c ∈ body.applyCutThrough.1.vOutputs.map CMWOutput.commitment)) ↔
      ∀ c ∈ body.vInputs.map CMWInput.commitment, c ∈ body.vOutputs.map CMWOutput.commitment →
        (body.vInputs.map CMWInput.commitment).count c =
          (body.vOutputs.map CMWOutput.commitment).count c := by
  have hkernels : body.applyCutThrough.1.vKernels = body.vKernels := by
    rw [applyCutThrough_fst]
  have hdisjoint : ∀ c, ¬(c ∈ body.applyCutThrough.1.vInputs.map CMWInput.commitment ∧
      c ∈ body.applyCutThrough.1.vOutputs.map CMWOutput.commitment) := by
    intro c
    rw [← inputCount_pos, ← outputCount_pos]
    exact applyCutThrough_disjoint
  constructor
  · intro h c hin hout
    exact formalDifference_applyCutThrough_iff.mp (congrFun h.1 c) (inputCount_pos.mpr hin)
      (outputCount_pos.mpr hout)
  · intro h
    refine ⟨funext fun c => formalDifference_applyCutThrough_iff.mpr ?_, hkernels, hdisjoint⟩
    intro hin hout
    exact h c (inputCount_pos.mp hin) (outputCount_pos.mp hout)

/-- A body that spends a commitment, and one that spends and creates it. -/
def spendingBody : CMWTransactionBody := ⟨[sampleInput 5], [], []⟩
def respendingBody : CMWTransactionBody := ⟨[sampleInput 5], [sampleOutput 5], []⟩

/-- **An input too many goes as well.** -/
theorem cut_through_unbalanced :
    (spendingBody.merge respendingBody).formalDifference (sampleCommitment 5) = -1 ∧
      (spendingBody.merge respendingBody).applyCutThrough.1.formalDifference (sampleCommitment 5) = 0 := by
  decide +kernel

end CMWTransactionBody

end MaryJaneCoin
