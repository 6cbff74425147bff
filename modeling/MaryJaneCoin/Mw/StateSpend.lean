import MaryJaneCoin.Mw.StateLoops
import MaryJaneCoin.Mw.ValueBalance

/-!
# Spending Mimblewimble outputs

A node validates a Mimblewimble block against its state and then applies it.
As long as every block creates commitments the state has never seen, the
output map is moved exactly by the block's inputs and outputs, and every
output is spent at most once (`mw_no_double_spend`).

Without that condition it is not so.  Validation looks at the output map
only, spending also at the set of spent commitments, and nothing takes a
commitment out of that set again when it is re-created: `ApplyBlock` ignores
the refused spend, and the output can be spent over and over
(`recreated_output_survives_spend`).
-/

namespace MaryJaneCoin

open CMWInput
open List hiding Vector
open Std FinMap

/-- A block with the arguments under which it is validated and applied. -/
structure MWStep (H : Type) where
  block : CMWBlock H
  nBlockHeight : Int32
  nTransparentPegIn : Int64
  nTransparentPegOut : Int64
  hashBlock : H
  nSupplyDelta : Int64

/-- Commitments the block of a step spends. -/
def MWStep.spends {H : Type} (step : MWStep H) (c : Commitment) : Bool :=
  c ∈ step.block.body.vInputs.map CMWInput.commitment

/-- The output map a block is meant to leave: its inputs taken out, its outputs
put in. -/
def nextOutputs (mapOutputs : ExtTreeMap Commitment CMWOutput) (body : CMWTransactionBody) :
    ExtTreeMap Commitment CMWOutput :=
  body.vOutputs.foldl (fun m out => m.insert out.commitment out)
    ((body.vInputs.map CMWInput.commitment).foldl (fun m c => m.erase c) mapOutputs)

namespace CMWState

section Loops

variable {H : Type} [Ord H]

theorem foldl_applyOutput_fresh (sha : Sha256 H) (outs : List CMWOutput) (state : CMWState H)
    (undo : CMWBlockUndo H) (hnull : ∀ out ∈ outs, out.isNull = false)
    (hnew : ∀ out ∈ outs, out.commitment ∉ state.mapOutputs)
    (hnodup : (outs.map CMWOutput.commitment).Nodup) :
    (outs.foldl (applyOutput sha) (state, undo)).1.mapOutputs =
        outs.foldl (fun m out => m.insert out.commitment out) state.mapOutputs ∧
      (outs.foldl (applyOutput sha) (state, undo)).1.setSpent = state.setSpent := by
  induction outs generalizing state undo with
  | nil => exact ⟨rfl, rfl⟩
  | cons out outs ih =>
    have hone : out.isNull = false := hnull out mem_cons_self
    have htwo : out.commitment ∉ state.mapOutputs := hnew out mem_cons_self
    rw [map_cons, nodup_cons] at hnodup
    simp only [foldl_cons, applyOutput, addOutput, hone, if_neg htwo, Bool.false_eq_true, if_false]
    apply ih
    · exact fun o ho => hnull o (mem_cons_of_mem _ ho)
    · intro o ho hmem
      rw [ExtTreeMap.mem_insert, LawfulEqCmp.compare_eq_iff_eq] at hmem
      rcases hmem with heq | hmem
      · exact hnodup.1 (heq ▸ mem_map_of_mem ho)
      · exact hnew o (mem_cons_of_mem _ ho) hmem
    · exact hnodup.2

theorem foldl_applyInput_unspent (ins : List CMWInput) (state : CMWState H)
    (undo : CMWBlockUndo H) (hknown : ∀ input ∈ ins, input.commitment ∈ state.mapOutputs)
    (hunspent : ∀ input ∈ ins, input.commitment ∉ state.setSpent)
    (hnodup : (ins.map commitment).Nodup) : (ins.foldl applyInput (state, undo)).1.mapOutputs =
        (ins.map commitment).foldl (fun m c => m.erase c) state.mapOutputs ∧
      ∀ c, c ∈ (ins.foldl applyInput (state, undo)).1.setSpent ↔
        c ∈ state.setSpent ∨ c ∈ ins.map commitment := by
  induction ins generalizing state undo with
  | nil => exact ⟨rfl, by simp⟩
  | cons input ins ih =>
    have hone : input.commitment ∈ state.mapOutputs := hknown input mem_cons_self
    have htwo : input.commitment ∉ state.setSpent := hunspent input mem_cons_self
    obtain ⟨out, hout⟩ := (mem_iff_exists _ _).mp hone
    rw [map_cons, nodup_cons] at hnodup
    have hother : ∀ other ∈ ins, input.commitment ≠ other.commitment := by
      intro other hmem heq
      exact hnodup.1 (heq ▸ mem_map_of_mem hmem)
    simp only [foldl_cons, map_cons, applyInput, getOutput, hout, spendOutput,
      if_neg (not_not.mpr hone), if_neg htwo]
    obtain ⟨hmap, hset⟩ := ih
      { state with
        setSpent := state.setSpent.insert input.commitment
        mapOutputs := state.mapOutputs.erase input.commitment }
      { undo with vSpentOutputs := undo.vSpentOutputs ++ [out] }
      (fun other hmem => by
        rw [mem_iff_exists, getElem?_erase_ne _ (hother other hmem), ← mem_iff_exists]
        exact hknown other (mem_cons_of_mem _ hmem))
      (fun other hmem hspent => by
        rw [ExtTreeSet.mem_insert, LawfulEqCmp.compare_eq_iff_eq] at hspent
        exact hspent.elim (hother other hmem)
          (hunspent other (mem_cons_of_mem _ hmem)))
      hnodup.2
    refine ⟨hmap, ?_⟩
    intro c
    rw [hset, ExtTreeSet.mem_insert, LawfulEqCmp.compare_eq_iff_eq, List.mem_cons, eq_comm (a := c)]
    exact ⟨fun h => by tauto, fun h => by tauto⟩

/-- No commitment is unspent and spent at once. -/
def Separated (state : CMWState H) : Prop :=
  ∀ c ∈ state.mapOutputs, c ∉ state.setSpent

theorem separated_empty (sha : Sha256 H) : (empty sha : CMWState H).Separated := by
  intro c hmem
  simp [empty] at hmem

/-- Every output of the block has a proper commitment that is neither unspent
nor spent in the state. -/
def FreshOutputs (state : CMWState H) (block : CMWBlock H) : Prop :=
  ∀ out ∈ block.body.vOutputs, out.isNull = false ∧ out.commitment ∉ state.mapOutputs ∧
    out.commitment ∉ state.setSpent

instance (state : CMWState H) (block : CMWBlock H) : Decidable (state.FreshOutputs block) :=
  inferInstanceAs (Decidable (∀ out ∈ block.body.vOutputs, _))

end Loops

variable {H : Type} [Ord H] [TransOrd H] [DecidableEq H] {crypto : MWCrypto H}

/-- Validate a block against the state, then apply it. -/
def connect (crypto : MWCrypto H) (state : CMWState H) (step : MWStep H) : Option (CMWState H) :=
  if (validateMWBlock crypto step.block state step.nBlockHeight step.nTransparentPegIn
      step.nTransparentPegOut).isValid then
    state.applyBlock crypto.toSha256 step.block step.nBlockHeight step.hashBlock step.nSupplyDelta
  else none

/-- Connect blocks in order. -/
def connectAll (crypto : MWCrypto H) (state : CMWState H) (steps : List (MWStep H)) :
    Option (CMWState H) :=
  steps.foldlM (connect crypto) state

/-- Every block of a run meets `FreshOutputs` in the state it is connected
to. -/
def RunFresh (crypto : MWCrypto H) : CMWState H → List (MWStep H) → Prop
  | _, [] => True
  | state, step :: steps =>
    state.FreshOutputs step.block ∧
      ∀ state', state.connect crypto step = some state' → RunFresh crypto state' steps

variable {step : MWStep H}

/-- **Step lemma.**  What connecting one block with fresh outputs does. -/
theorem connect_spec {state state' : CMWState H} (hsep : state.Separated)
    (hfresh : state.FreshOutputs step.block) (hconnect : state.connect crypto step = some state') :
    state'.mapOutputs = nextOutputs state.mapOutputs step.block.body ∧
      (∀ c, c ∈ state'.setSpent ↔ c ∈ state.setSpent ∨ step.spends c = true) ∧
      (∀ c, step.spends c = true → c ∈ state.mapOutputs) ∧
      (step.block.body.vOutputs.map CMWOutput.commitment).Nodup := by
  simp only [connect] at hconnect
  split at hconnect
  · rename_i hvalid
    obtain ⟨hknown, hins, houts⟩ := validateMWBlock_spec hvalid
    obtain ⟨hmap, hset⟩ := foldl_applyOutput_fresh crypto.toSha256
      step.block.body.vOutputs state (state.newUndo step.nSupplyDelta)
      (fun out ho => (hfresh out ho).1) (fun out ho => (hfresh out ho).2.1) houts
    generalize hmid : step.block.body.vOutputs.foldl (applyOutput crypto.toSha256)
      (state, state.newUndo step.nSupplyDelta) = mid at hmap hset
    have hdisjoint : ∀ out ∈ step.block.body.vOutputs,
        out.commitment ∉ step.block.body.vInputs.map commitment := by
      intro out ho hmem
      obtain ⟨input, hin, heq⟩ := mem_map.mp hmem
      exact (hfresh out ho).2.1 (heq ▸ hknown input hin)
    have hunspent : ∀ input ∈ step.block.body.vInputs, input.commitment ∉ mid.1.setSpent := by
      intro input hin
      rw [hset]
      exact hsep _ (hknown input hin)
    have hknown' : ∀ input ∈ step.block.body.vInputs, input.commitment ∈ mid.1.mapOutputs := by
      intro input hin
      rw [hmap, mem_iff_exists]
      rcases getElem?_foldl_insert CMWOutput.commitment id step.block.body.vOutputs
        state.mapOutputs input.commitment with ⟨_, hlook⟩ | ⟨out, _, _, hlook⟩
      · obtain ⟨old, hold⟩ := (mem_iff_exists _ _).mp (hknown input hin)
        exact ⟨old, hlook.trans hold⟩
      · exact ⟨out, hlook⟩
    obtain ⟨hmap', hset'⟩ := foldl_applyInput_unspent step.block.body.vInputs mid.1 mid.2
      hknown' hunspent hins
    simp only [applyBlock] at hconnect
    split at hconnect
    · cases hconnect
    · have hstate' := Option.some.inj hconnect
      refine ⟨?_, ?_, ?_, houts⟩
      · rw [← hstate']
        simp only [applyBody, hmid]
        rw [hmap', hmap]
        exact foldl_erase_foldl_insert CMWOutput.commitment id _ _ _ hdisjoint
      · intro c
        rw [← hstate']
        simp only [applyBody, hmid]
        rw [hset', hset, MWStep.spends, decide_eq_true_iff]
      · intro c hspends
        obtain ⟨input, hin, rfl⟩ := mem_map.mp (of_decide_eq_true hspends)
        exact hknown input hin
  · cases hconnect

theorem getElem?_nextOutputs {mapOutputs : ExtTreeMap Commitment CMWOutput}
    {body : CMWTransactionBody} {c : Commitment} (hc : c ∉ body.vOutputs.map CMWOutput.commitment) :
    (nextOutputs mapOutputs body)[c]? =
      if c ∈ body.vInputs.map commitment then none else mapOutputs[c]? := by
  obtain ⟨hin, hout⟩ := getElem?_foldl_erase (body.vInputs.map commitment) mapOutputs c
  rcases getElem?_foldl_insert CMWOutput.commitment id body.vOutputs
    ((body.vInputs.map commitment).foldl (fun m c => m.erase c) mapOutputs) c with
    ⟨_, hlook⟩ | ⟨out, ho, heq, _⟩
  · refine hlook.trans ?_
    split
    · rename_i hmem
      exact hin hmem
    · rename_i hmem
      exact hout hmem
  · exact absurd (heq ▸ mem_map_of_mem ho) hc

theorem Separated.connect {state state' : CMWState H} (hsep : state.Separated)
    (hfresh : state.FreshOutputs step.block) (hconnect : state.connect crypto step = some state') :
    state'.Separated := by
  obtain ⟨hmap, hset, hknown, _⟩ := connect_spec hsep hfresh hconnect
  intro c hmem hspent
  rw [hset] at hspent
  by_cases hc : c ∈ step.block.body.vOutputs.map CMWOutput.commitment
  · obtain ⟨out, ho, rfl⟩ := mem_map.mp hc
    rcases hspent with hold | hspends
    · exact (hfresh out ho).2.2 hold
    · exact (hfresh out ho).2.1 (hknown _ hspends)
  · rw [hmap, mem_iff_exists, getElem?_nextOutputs hc] at hmem
    split at hmem
    · simp at hmem
    · rename_i hnot
      rcases hspent with hold | hspends
      · exact hsep c ((mem_iff_exists _ _).mpr hmem) hold
      · exact hnot (of_decide_eq_true hspends)

/-- A run of connected blocks starts with its first block. -/
theorem connectAll_cons {state last : CMWState H} {steps : List (MWStep H)}
    (hrun : connectAll crypto state (step :: steps) = some last) :
    ∃ mid, state.connect crypto step = some mid ∧ connectAll crypto mid steps = some last := by
  simpa [connectAll, Option.bind_eq_some_iff] using hrun

/-- A run of two halves. -/
theorem connectAll_append {state last : CMWState H} {pre post : List (MWStep H)}
    (hrun : connectAll crypto state (pre ++ post) = some last) :
    ∃ mid, connectAll crypto state pre = some mid ∧ connectAll crypto mid post = some last := by
  simpa [connectAll, List.foldlM_append, Option.bind_eq_some_iff] using hrun

/-- **Run lemma for spent commitments.**  They stay spent: no block spends them
again and they never return to the output map. -/
theorem spent_stays_spent (steps : List (MWStep H)) :
    ∀ {state last : CMWState H} {c : Commitment}, state.Separated → RunFresh crypto state steps →
      connectAll crypto state steps = some last → c ∈ state.setSpent →
      steps.countP (MWStep.spends · c) = 0 ∧ last.mapOutputs[c]? = none := by
  induction steps with
  | nil =>
    intro state last c hsep _ hrun hspent
    cases hrun
    exact ⟨rfl, ExtTreeMap.getElem?_eq_none fun hmem => hsep c hmem hspent⟩
  | cons step steps ih =>
    intro state last c hsep hfresh hrun hspent
    obtain ⟨mid, hmid, hrest⟩ := connectAll_cons hrun
    obtain ⟨_, hset, hknown, _⟩ := connect_spec hsep hfresh.1 hmid
    have hnot : ¬ step.spends c = true := fun hspends => hsep c (hknown c hspends) hspent
    obtain ⟨hcount, hlast⟩ := ih (hsep.connect hfresh.1 hmid) (hfresh.2 mid hmid) hrest
      ((hset c).mpr (Or.inl hspent))
    exact ⟨by rw [countP_cons, if_neg hnot, hcount], hlast⟩

/-- **Run lemma for unspent outputs.**  They stay in the map until a block
spends them, which happens at most once. -/
theorem unspent_spent_once (steps : List (MWStep H)) :
    ∀ {state last : CMWState H} {c : Commitment} {out : CMWOutput}, state.Separated →
      RunFresh crypto state steps → connectAll crypto state steps = some last →
      state.mapOutputs[c]? = some out → steps.countP (MWStep.spends · c) ≤ 1 ∧
        last.mapOutputs[c]? = if steps.any (MWStep.spends · c) then none else some out := by
  induction steps with
  | nil =>
    intro state last c out _ _ hrun hout
    cases hrun
    exact ⟨by simp, by simpa using hout⟩
  | cons step steps ih =>
    intro state last c out hsep hfresh hrun hout
    obtain ⟨mid, hmid, hrest⟩ := connectAll_cons hrun
    obtain ⟨hmap, hset, hknown, _⟩ := connect_spec hsep hfresh.1 hmid
    have hsep' := hsep.connect hfresh.1 hmid
    by_cases hspends : step.spends c = true
    · -- spent here: from now on the commitment is in the spent set
      obtain ⟨hcount, hlast⟩ := spent_stays_spent steps hsep' (hfresh.2 mid hmid) hrest
        ((hset c).mpr (Or.inr hspends))
      refine ⟨?_, ?_⟩
      · rw [countP_cons, if_pos hspends, hcount]
      · rw [hlast, any_cons, hspends, Bool.true_or, if_pos rfl]
    · have hc : c ∉ step.block.body.vOutputs.map CMWOutput.commitment := by
        intro hmem
        obtain ⟨o, ho, rfl⟩ := mem_map.mp hmem
        exact (hfresh.1 o ho).2.1 ((mem_iff_exists _ _).mpr ⟨out, hout⟩)
      have hin : c ∉ step.block.body.vInputs.map commitment :=
        fun hmem => hspends (decide_eq_true hmem)
      have hmid' : mid.mapOutputs[c]? = some out := by
        rw [hmap, getElem?_nextOutputs hc, if_neg hin, hout]
      obtain ⟨hcount, hlast⟩ := ih hsep' (hfresh.2 mid hmid) hrest hmid'
      refine ⟨?_, ?_⟩
      · rwa [countP_cons, if_neg hspends]
      · rw [any_cons, Bool.eq_false_iff.mpr hspends, Bool.false_or, hlast]

theorem RunFresh.split (pre : List (MWStep H)) :
    ∀ {state mid : CMWState H} {more : List (MWStep H)}, state.Separated →
      RunFresh crypto state (pre ++ more) → connectAll crypto state pre = some mid →
      mid.Separated ∧ RunFresh crypto mid more := by
  induction pre with
  | nil =>
    intro state mid more hsep hfresh hrun
    cases hrun
    exact ⟨hsep, hfresh⟩
  | cons step pre ih =>
    intro state mid more hsep hfresh hrun
    obtain ⟨next, hnext, hrest⟩ := connectAll_cons hrun
    exact ih (hsep.connect hfresh.1 hnext) (hfresh.2 next hnext) hrest

/-- **No double spend along fresh runs.**  Take any run of validated blocks from
the empty state whose blocks all create fresh outputs, and any block of it.
The block moves the output map by exactly its inputs and outputs; what it
spends is never accepted as an input again; what it creates is in the map
until the one block that may spend it. -/
theorem mw_no_double_spend {pre post : List (MWStep H)} {step : MWStep H} {before after last : CMWState H}
    (hfresh : RunFresh crypto (empty crypto.toSha256) (pre ++ step :: post))
    (hpre : connectAll crypto (empty crypto.toSha256) pre = some before)
    (hstep : before.connect crypto step = some after) (hpost : connectAll crypto after post = some last) :
    after.mapOutputs = nextOutputs before.mapOutputs step.block.body ∧ (∀ input ∈ step.block.body.vInputs,
      ∀ (block : CMWBlock H) (nHeight : Int32) (nPegIn nPegOut : Int64),
        input.commitment ∈ block.body.vInputs.map CMWInput.commitment →
        (validateMWBlock crypto block last nHeight nPegIn nPegOut).isValid = false) ∧
    (∀ out ∈ step.block.body.vOutputs, after.mapOutputs[out.commitment]? = some out ∧
      post.countP (MWStep.spends · out.commitment) ≤ 1 ∧ last.mapOutputs[out.commitment]? =
        if post.any (MWStep.spends · out.commitment) then none else some out) := by
  obtain ⟨hsep, hfresh'⟩ := RunFresh.split pre (separated_empty _) hfresh hpre
  obtain ⟨hmap, hset, _, houts⟩ := connect_spec hsep hfresh'.1 hstep
  have hsep' := hsep.connect hfresh'.1 hstep
  have hrest := hfresh'.2 after hstep
  refine ⟨hmap, ?_, ?_⟩
  · intro input hin block nHeight nPegIn nPegOut hmem
    have hspends : step.spends input.commitment = true := decide_eq_true (mem_map_of_mem hin)
    obtain ⟨_, hgone⟩ := spent_stays_spent post hsep' hrest hpost
      ((hset _).mpr (Or.inr hspends))
    rw [Bool.eq_false_iff]
    intro hvalid
    obtain ⟨other, hother, heq⟩ := mem_map.mp hmem
    have hknown := (validateMWBlock_spec hvalid).1 other hother
    rw [heq, mem_iff_exists, hgone] at hknown
    simp at hknown
  · intro out ho
    have hout : after.mapOutputs[out.commitment]? = some out := by
      rw [hmap]
      exact getElem?_foldl_insert_of_mem CMWOutput.commitment id _ houts ho
    obtain ⟨hcount, hlast⟩ := unspent_spent_once post hsep' hrest hpost hout
    exact ⟨hout, hcount, hlast⟩

/-- A step without a peg. -/
def balancedStep (prev hashBlock : List Nat) (body : CMWTransactionBody) : MWStep (List Nat) where
  block := ⟨prev, body, [], 1, nullBlind⟩
  nBlockHeight := 1
  nTransparentPegIn := 0
  nTransparentPegOut := 0
  hashBlock := hashBlock
  nSupplyDelta := 0

/-- Create an output of value zero, whose blind is that of the kernel. -/
def createStep (prev hashBlock : List Nat) : MWStep (List Nat) :=
  balancedStep prev hashBlock ⟨[], [blindedOutput 1], [feeKernel 0 1]⟩

/-- Spend it. -/
def spendStep (prev hashBlock : List Nat) : MWStep (List Nat) :=
  balancedStep prev hashBlock ⟨[{ sampleInput 7 with commitment := (blindedOutput 1).commitment }],
    [], [feeKernel 0 (samplePrime - 1)]⟩

/-- Create an output, spend it, create it again, and spend it twice. -/
def recreateSteps : List (MWStep (List Nat)) :=
  let create := createStep [] [1]
  let spend := spendStep (create.block.getHash transparent) [2]
  let recreate := createStep (spend.block.getHash transparent) [3]
  let respend := spendStep (recreate.block.getHash transparent) [4]
  let spendAgain := spendStep (respend.block.getHash transparent) [5]
  [create, spend, recreate, respend, spendAgain]

/-- The theorem at a run of two blocks: an output is created and spent. -/
theorem mw_no_double_spend_created : ∃ after last : CMWState (List Nat),
      (empty transparent).connect (proving.withPedersen sampleCurve) (createStep [] [1]) = some after ∧
      after.mapOutputs = nextOutputs (empty transparent).mapOutputs (createStep [] [1]).block.body ∧
      after.mapOutputs[(blindedOutput 1).commitment]? = some (blindedOutput 1) ∧
      last.mapOutputs[(blindedOutput 1).commitment]? = none := by
  have hrun :
      (connectAll (proving.withPedersen sampleCurve) (empty transparent)
        (recreateSteps.take 2)).isSome = true := by
    decide +kernel
  obtain ⟨last, hlast⟩ := Option.isSome_iff_exists.mp hrun
  obtain ⟨after, hafter, hpost⟩ := connectAll_cons hlast
  have hfresh : RunFresh (proving.withPedersen sampleCurve) (empty transparent)
      ([] ++ recreateSteps.take 2) := by
    refine ⟨?_, fun _ _ => ⟨fun out ho => ?_, fun _ _ => trivial⟩⟩
    · decide +kernel
    · cases ho
  obtain ⟨hmap, _, hout⟩ := mw_no_double_spend hfresh rfl hafter hpost
  obtain ⟨hcreated, _, hspent⟩ := hout (blindedOutput 1) mem_cons_self
  refine ⟨after, last, hafter, hmap, hcreated, hspent.trans (if_pos ?_)⟩
  decide +kernel

/-- All five blocks connect, the last two both spend the one output that the
third created, and it is still unspent at the end: the fourth block did not
leave the output map its inputs and outputs call for. -/
theorem recreated_output_survives_spend :
    ∃ before after last : CMWState (List Nat), ∃ respend spendAgain : MWStep (List Nat),
      connectAll (proving.withPedersen sampleCurve) (empty transparent) (recreateSteps.take 3) = some before ∧
      recreateSteps.drop 3 = [respend, spendAgain] ∧
        before.connect (proving.withPedersen sampleCurve) respend = some after ∧
      after.connect (proving.withPedersen sampleCurve) spendAgain = some last ∧
      respend.spends (blindedOutput 1).commitment = true ∧
        spendAgain.spends (blindedOutput 1).commitment = true ∧
      (blindedOutput 1).commitment ∈ last.mapOutputs ∧
      after.mapOutputs ≠ nextOutputs before.mapOutputs respend.block.body := by
  have hrun : (connectAll (proving.withPedersen sampleCurve) (empty transparent) recreateSteps).any
      (hasOutput · (blindedOutput 1).commitment) = true := by decide +kernel
  obtain ⟨last, hlast, hmem⟩ := (Option.any_eq_true _ _).mp hrun
  rw [← take_append_drop 3 recreateSteps] at hlast
  obtain ⟨before, hbefore, hrest⟩ := connectAll_append hlast
  obtain ⟨respend, spendAgain, hdrop⟩ : ∃ a b, recreateSteps.drop 3 = [a, b] := ⟨_, _, rfl⟩
  rw [hdrop] at hrest
  obtain ⟨after, hafter, hrest⟩ := connectAll_cons hrest
  obtain ⟨last', hlast', hnil⟩ := connectAll_cons hrest
  cases hnil
  have hrespend : respend.spends (blindedOutput 1).commitment = true ∧
      respend.block.body.vOutputs = [] := by
    cases hdrop
    exact ⟨by decide +kernel, rfl⟩
  have hagain : spendAgain.spends (blindedOutput 1).commitment = true := by
    cases hdrop
    decide +kernel
  refine ⟨before, after, last, respend, spendAgain, hbefore, hdrop, hafter, hlast', hrespend.1,
    hagain, of_decide_eq_true hmem, ?_⟩
  intro heq
  have hgone : after.mapOutputs[(blindedOutput 1).commitment]? = none := by
    rw [heq, getElem?_nextOutputs (by simp [hrespend.2]), if_pos (of_decide_eq_true hrespend.1)]
  have hknown : (blindedOutput 1).commitment ∈ after.mapOutputs := by
    simp only [connect] at hlast'
    split at hlast'
    · rename_i hvalid
      obtain ⟨input, hin, hc⟩ := mem_map.mp (of_decide_eq_true hagain)
      exact hc ▸ (validateMWBlock_spec hvalid).1 input hin
    · cases hlast'
  rw [mem_iff_exists, hgone] at hknown
  simp at hknown

end CMWState

end MaryJaneCoin
