import MaryJaneCoin.Mw.MmrForest
import MaryJaneCoin.Mw.State

/-!
# What the loops of `ApplyBlock` and `DisconnectBlock` do

One spec lemma for each loop: which outputs were added and which were spent,
what the containers hold afterwards, and that nothing else moved.  All later
results about `CMWState` go through these.
-/

namespace MaryJaneCoin

open Std FinMap List ExtTreeSet CMWOutput

namespace CMWState

variable {H : Type} [Ord H]

/-- Every entry of the output map is filed under its own commitment. -/
def Keyed (mapOutputs : ExtTreeMap Commitment CMWOutput) : Prop :=
  ∀ (c : Commitment) (out : CMWOutput), mapOutputs[c]? = some out → out.commitment = c

variable {m : ExtTreeMap Commitment CMWOutput}

theorem Keyed.insert (hkeyed : Keyed m) (out : CMWOutput) :
    Keyed (m.insert out.commitment out) := by
  intro c o hlook
  by_cases hc : out.commitment = c
  · subst hc
    rw [ExtTreeMap.getElem?_insert_self] at hlook
    rw [← Option.some.inj hlook]
  · rw [getElem?_insert_ne m out hc] at hlook
    exact hkeyed c o hlook

theorem Keyed.erase (hkeyed : Keyed m) (c : Commitment) : Keyed (m.erase c) := by
  intro c' o hlook
  by_cases hc : c = c'
  · subst hc
    rw [ExtTreeMap.getElem?_erase_self] at hlook
    cases hlook
  · rw [getElem?_erase_ne m hc] at hlook
    exact hkeyed c' o hlook

/-- What is known about the output map `after` a loop that added `added` to
`before`. -/
structure Added (before after : ExtTreeMap Commitment CMWOutput) (added : List CMWOutput) :
    Prop where
  fresh : ∀ out ∈ added, out.commitment ∉ before
  stored : ∀ out ∈ added, after[out.commitment]? = some out
  frame : ∀ c, c ∉ added.map CMWOutput.commitment → after[c]? = before[c]?

theorem applyOutput_cases (sha : Sha256 H) (out : CMWOutput) (state : CMWState H) (undo : CMWBlockUndo H) :
    applyOutput sha (state, undo) out = (state, undo) ∨
      out.isNull = false ∧ out.commitment ∉ state.mapOutputs ∧ applyOutput sha (state, undo) out =
        ({ state with
            mapOutputs := state.mapOutputs.insert out.commitment out
            mmr := state.mmr.append sha.mmr (out.getOutputID sha)
            mapMMRIndex := state.mapMMRIndex.insert out.commitment (UInt64.ofNat state.mmr.nLeaves) },
          { undo with vAddedOutputs := undo.vAddedOutputs ++ [out.commitment] }) := by
  rw [applyOutput, addOutput]
  cases hnull : out.isNull with
  | true => exact .inl rfl
  | false =>
    by_cases hknown : out.commitment ∈ state.mapOutputs
    · rw [if_neg Bool.false_ne_true, if_pos hknown]
      exact .inl rfl
    · rw [if_neg Bool.false_ne_true, if_neg hknown]
      exact .inr ⟨rfl, hknown, rfl⟩

/-- **The output loop.**  Some of the outputs are added, none of them over an
existing entry, and the MMR grows accordingly. -/
theorem foldl_applyOutput (sha : Sha256 H) (outs : List CMWOutput)
    (state : CMWState H) (undo : CMWBlockUndo H) :
    ∃ added mapOutputs mapMMRIndex leaves, outs.foldl (applyOutput sha) (state, undo) =
        ({ state with
            mapOutputs := mapOutputs
            mmr := state.mmr.appendAll sha.mmr leaves
            mapMMRIndex := mapMMRIndex },
          { undo with
            vAddedOutputs := undo.vAddedOutputs ++ added.map commitment }) ∧
      Added state.mapOutputs mapOutputs added ∧ (Keyed state.mapOutputs → Keyed mapOutputs) := by
  induction outs generalizing state undo with
  | nil =>
    exact ⟨[], state.mapOutputs, state.mapMMRIndex, [], by simp [CMMR.appendAll],
      ⟨by simp, by simp, fun _ _ => rfl⟩, id⟩
  | cons out outs ih =>
    rw [foldl_cons]
    rcases applyOutput_cases sha out state undo with hskip | ⟨-, hfresh, hstep⟩
    · rw [hskip]
      exact ih state undo
    · rw [hstep]
      obtain ⟨added, mapOutputs, mapMMRIndex, leaves, heq, hadded, hkeyed⟩ := ih
        { state with
          mapOutputs := state.mapOutputs.insert out.commitment out
          mmr := state.mmr.append sha.mmr (out.getOutputID sha)
          mapMMRIndex := state.mapMMRIndex.insert out.commitment (UInt64.ofNat state.mmr.nLeaves) }
        { undo with vAddedOutputs := undo.vAddedOutputs ++ [out.commitment] }
      have hnew : out.commitment ∉ added.map commitment := by
        intro hmem
        obtain ⟨o, ho, hc⟩ := mem_map.mp hmem
        exact hadded.fresh o ho (by rw [hc]; exact ExtTreeMap.mem_insert_self)
      refine ⟨out :: added, mapOutputs, mapMMRIndex, out.getOutputID sha :: leaves, ?_,
        ⟨?_, ?_, ?_⟩, fun h => hkeyed (h.insert out)⟩
      · rw [heq]
        simp [CMMR.appendAll]
      · intro o ho
        rcases List.mem_cons.mp ho with rfl | ho
        · exact hfresh
        · exact fun hmem => hadded.fresh o ho (ExtTreeMap.mem_insert.mpr (Or.inr hmem))
      · intro o ho
        rcases List.mem_cons.mp ho with rfl | ho
        · rw [hadded.frame _ hnew, ExtTreeMap.getElem?_insert_self]
        · exact hadded.stored o ho
      · intro c hc
        rw [map_cons, List.mem_cons, not_or] at hc
        rw [hadded.frame c hc.2, getElem?_insert_ne _ out (Ne.symm hc.1)]

/-- What is known about output map and spent set after a loop that spent
`spent`. -/
structure Spent (before after : ExtTreeMap Commitment CMWOutput)
    (setBefore setAfter : ExtTreeSet Commitment) (spent : List CMWOutput) : Prop where
  known : ∀ out ∈ spent, before[out.commitment]? = some out
  unspent : ∀ out ∈ spent, out.commitment ∉ setBefore
  gone : ∀ out ∈ spent, after[out.commitment]? = none
  frame : ∀ c, c ∉ spent.map CMWOutput.commitment → after[c]? = before[c]?
  marked : ∀ c, c ∈ setAfter ↔ c ∈ setBefore ∨ c ∈ spent.map CMWOutput.commitment

/-- **The input loop.**  Some of the inputs are spent: they leave the map and
enter the spent set. -/
theorem foldl_applyInput (ins : List CMWInput) (state : CMWState H) (undo : CMWBlockUndo H)
    (hkeyed : Keyed state.mapOutputs) :
    ∃ spent mapOutputs setSpent, ins.foldl applyInput (state, undo) =
        ({ state with mapOutputs := mapOutputs, setSpent := setSpent },
          { undo with vSpentOutputs := undo.vSpentOutputs ++ spent }) ∧
      Spent state.mapOutputs mapOutputs state.setSpent setSpent spent ∧ Keyed mapOutputs := by
  induction ins generalizing state undo with
  | nil =>
    exact ⟨[], state.mapOutputs, state.setSpent, by simp,
      ⟨by simp, by simp, by simp, fun _ _ => rfl, by simp⟩, hkeyed⟩
  | cons input ins ih =>
    rw [foldl_cons]
    by_cases hspend : input.commitment ∈ state.mapOutputs ∧ input.commitment ∉ state.setSpent
    · obtain ⟨out, hout⟩ := (mem_iff_exists _ _).mp hspend.1
      have hc : out.commitment = input.commitment := hkeyed _ _ hout
      have hstep : applyInput (state, undo) input = ({ state with
              setSpent := state.setSpent.insert input.commitment
              mapOutputs := state.mapOutputs.erase input.commitment },
            { undo with vSpentOutputs := undo.vSpentOutputs ++ [out] }) := by
        simp only [applyInput, getOutput, spendOutput, hout, if_neg (not_not.mpr hspend.1), if_neg hspend.2]
      rw [hstep]
      obtain ⟨spent, mapOutputs, setSpent, heq, hspent, hkeyed'⟩ := ih
        { state with
          setSpent := state.setSpent.insert input.commitment
          mapOutputs := state.mapOutputs.erase input.commitment }
        { undo with vSpentOutputs := undo.vSpentOutputs ++ [out] } (hkeyed.erase _)
      have hother : ∀ o ∈ spent, input.commitment ≠ o.commitment := by
        intro o ho heq
        have := hspent.known o ho
        rw [← heq, ExtTreeMap.getElem?_erase_self] at this
        cases this
      have hnew : input.commitment ∉ spent.map commitment := by
        intro hmem
        obtain ⟨o, ho, hoc⟩ := mem_map.mp hmem
        exact hother o ho hoc.symm
      refine ⟨out :: spent, mapOutputs, setSpent, ?_, ⟨?_, ?_, ?_, ?_, ?_⟩, hkeyed'⟩
      · rw [heq]
        simp
      · intro o ho
        rcases List.mem_cons.mp ho with rfl | ho
        · rw [hc, hout]
        · have := hspent.known o ho
          rwa [getElem?_erase_ne _ (hother o ho)] at this
      · intro o ho
        rcases List.mem_cons.mp ho with rfl | ho
        · rw [hc]
          exact hspend.2
        · exact fun hmem => hspent.unspent o ho (mem_insert.mpr (Or.inr hmem))
      · intro o ho
        rcases List.mem_cons.mp ho with rfl | ho
        · rw [hc, hspent.frame _ hnew, ExtTreeMap.getElem?_erase_self]
        · exact hspent.gone o ho
      · intro c hnot
        rw [map_cons, List.mem_cons, not_or, hc] at hnot
        rw [hspent.frame c hnot.2, getElem?_erase_ne _ (Ne.symm hnot.1)]
      · intro c
        rw [hspent.marked, mem_insert, map_cons, List.mem_cons, hc,
          LawfulEqCmp.compare_eq_iff_eq, eq_comm (a := c)]
        exact ⟨fun h => by tauto, fun h => by tauto⟩
    · have hskip : applyInput (state, undo) input = (state, undo) := by
        simp only [applyInput, getOutput, spendOutput]
        split
        · rename_i out hout
          have hmem : input.commitment ∈ state.mapOutputs := (mem_iff_exists _ _).mpr ⟨out, hout⟩
          have hsp : input.commitment ∈ state.setSpent := by
            by_contra hnot
            exact hspend ⟨hmem, hnot⟩
          simp [hmem, hsp]
        · rfl
      rw [hskip]
      exact ih state undo hkeyed

/-- **The output loop of `ApplyBlock`, exactly.**  Of the outputs with a commitment
that is not in the map, the first proper one is added. -/
theorem getElem?_applyOutputs (sha : Sha256 H) (outs : List CMWOutput) (state : CMWState H)
    (undo : CMWBlockUndo H) (c : Commitment) : (outs.foldl (applyOutput sha) (state, undo)).1.mapOutputs[c]? =
      (state.mapOutputs[c]?).or (outs.find? fun out => out.commitment = c && !out.isNull) := by
  induction outs generalizing state undo with
  | nil => simp
  | cons out outs ih =>
    rw [foldl_cons]
    by_cases hnull : out.isNull = true
    · have hskip : applyOutput sha (state, undo) out = (state, undo) := by
        simp [applyOutput, addOutput, hnull]
      rw [hskip, ih, find?_cons_of_neg (by simp [hnull])]
    · by_cases hmem : out.commitment ∈ state.mapOutputs
      · have hskip : applyOutput sha (state, undo) out = (state, undo) := by
          simp [applyOutput, addOutput, hmem]
        rw [hskip, ih]
        by_cases hc : out.commitment = c
        · subst hc
          obtain ⟨old, hold⟩ := (mem_iff_exists _ _).mp hmem
          rw [hold, Option.some_or, Option.some_or]
        · rw [find?_cons_of_neg (by simp [hc])]
      · rw [applyOutput, addOutput, if_neg hnull, if_neg hmem, ih]
        by_cases hc : out.commitment = c
        · subst hc
          rw [ExtTreeMap.getElem?_insert_self, find?_cons_of_pos (by simp [hnull]),
            ExtTreeMap.getElem?_eq_none hmem, Option.none_or, Option.some_or]
        · rw [getElem?_insert_ne _ _ hc, find?_cons_of_neg (by simp [hc])]

theorem setSpent_applyOutputs (sha : Sha256 H) (outs : List CMWOutput) (state : CMWState H)
    (undo : CMWBlockUndo H) : (outs.foldl (applyOutput sha) (state, undo)).1.setSpent = state.setSpent := by
  obtain ⟨added, mapOutputs, mapMMRIndex, leaves, hloop, -⟩ := foldl_applyOutput sha outs state undo
  rw [hloop]

/-- **The input loop of `ApplyBlock`, exactly.**  An input takes its output out of
the map unless the commitment is in the set of spent ones already. -/
theorem getElem?_applyInputs (ins : List CMWInput) (state : CMWState H) (undo : CMWBlockUndo H)
    (c : Commitment) : (ins.foldl applyInput (state, undo)).1.mapOutputs[c]? =
      if c ∈ ins.map CMWInput.commitment ∧ c ∉ state.setSpent then none
      else state.mapOutputs[c]? := by
  induction ins generalizing state undo with
  | nil => simp
  | cons input ins ih =>
    rw [foldl_cons, applyInput, getOutput]
    cases hlook : state.mapOutputs[input.commitment]? with
    | none =>
      simp only
      rw [ih]
      by_cases hc : input.commitment = c
      · subst hc
        rw [hlook, ite_self, ite_self]
      · simp [Ne.symm hc]
    | some out =>
      have hmem : input.commitment ∈ state.mapOutputs := (mem_iff_exists _ _).mpr ⟨out, hlook⟩
      by_cases hspent : input.commitment ∈ state.setSpent
      · simp only [spendOutput, if_neg (not_not.mpr hmem), if_pos hspent]
        rw [ih]
        by_cases hc : input.commitment = c
        · subst hc
          simp [hspent]
        · simp [Ne.symm hc]
      · simp only [spendOutput, if_neg (not_not.mpr hmem), if_neg hspent]
        rw [ih]
        by_cases hc : input.commitment = c
        · subst hc
          simp [hspent]
        · rw [getElem?_erase_ne _ hc]
          simp [Ne.symm hc, mem_insert, hc]

/-- The first loop of `DisconnectBlock`, container by container. -/
theorem foldl_unspendOutput (outs : List CMWOutput) (state : CMWState H) :
    outs.foldl unspendOutput state =
      { state with
        setSpent := (outs.map commitment).foldl (fun s c => s.erase c) state.setSpent
        mapOutputs := outs.foldl (fun m out => m.insert out.commitment out) state.mapOutputs } := by
  induction outs generalizing state with
  | nil => rfl
  | cons out outs ih =>
    rw [foldl_cons, ih]
    rfl

/-- The second loop of `DisconnectBlock`, container by container. -/
theorem foldl_removeOutput (cs : List Commitment) (state : CMWState H) :
    cs.foldl removeOutput state =
      { state with
        mapOutputs := cs.foldl (fun m c => m.erase c) state.mapOutputs
        mapMMRIndex := cs.foldl (fun m c => m.erase c) state.mapMMRIndex } := by
  induction cs generalizing state with
  | nil => rfl
  | cons c cs ih =>
    rw [foldl_cons, ih]
    rfl

variable {before after : ExtTreeMap Commitment CMWOutput}

/-- Unspending gives the map and the set back as they were before the input
loop. -/
theorem Spent.undo {setBefore setAfter : ExtTreeSet Commitment} {spent : List CMWOutput}
    (hspent : Spent before after setBefore setAfter spent) :
    spent.foldl (fun m out => m.insert out.commitment out) after = before ∧
      (spent.map commitment).foldl (fun s c => s.erase c) setAfter = setBefore := by
  constructor
  · apply ExtTreeMap.ext_getElem?
    intro c
    rcases getElem?_foldl_insert commitment id spent after c with
      ⟨hnone, hlook⟩ | ⟨out, hout, hc, hlook⟩
    · refine hlook.trans (hspent.frame c ?_)
      intro hmem
      obtain ⟨o, ho, hoc⟩ := mem_map.mp hmem
      exact hnone o ho hoc
    · exact hlook.trans (hc ▸ (hspent.known out hout).symm)
  · apply ext_mem
    intro c
    rw [mem_foldl_erase, hspent.marked]
    constructor
    · rintro ⟨hmem | hmem, hnot⟩
      · exact hmem
      · exact absurd hmem hnot
    · intro hmem
      refine ⟨Or.inl hmem, ?_⟩
      intro hin
      obtain ⟨o, ho, hoc⟩ := mem_map.mp hin
      exact hspent.unspent o ho (hoc ▸ hmem)

theorem Added.undo {added : List CMWOutput} (hadded : Added before after added) :
    (added.map commitment).foldl (fun m c => m.erase c) after = before := by
  apply ExtTreeMap.ext_getElem?
  intro c
  obtain ⟨hin, hout⟩ := getElem?_foldl_erase (added.map commitment) after c
  by_cases hc : c ∈ added.map commitment
  · obtain ⟨o, ho, rfl⟩ := mem_map.mp hc
    rw [hin hc, ExtTreeMap.getElem?_eq_none (hadded.fresh o ho)]
  · rw [hout hc, hadded.frame c hc]

/-- **The eviction loop** cuts the order from the front and forgets exactly the
records it cut; it cuts nothing that lies within the window. -/
theorem evictUndo_spec [TransOrd H] [LawfulEqOrd H] (order : List H)
    (mapBlockUndo : ExtTreeMap H (CMWBlockUndo H)) :
    ∃ gone, order = gone ++ (evictUndo mapBlockUndo order).2 ∧
      (∀ h ∈ gone, (evictUndo mapBlockUndo order).1[h]? = none) ∧
      (∀ h ∉ gone, (evictUndo mapBlockUndo order).1[h]? = mapBlockUndo[h]?) ∧
      (gone = [] ∨ MW_UNDO_WINDOW ≤ (evictUndo mapBlockUndo order).2.length) := by
  induction order generalizing mapBlockUndo with
  | nil => exact ⟨[], by simp [evictUndo]⟩
  | cons oldest rest ih =>
    rw [evictUndo]
    by_cases hlong : (oldest :: rest).length > MW_UNDO_WINDOW
    · rw [if_pos hlong]
      obtain ⟨gone, horder, hgone, hkept, hfull⟩ := ih (mapBlockUndo.erase oldest)
      refine ⟨oldest :: gone, congrArg (oldest :: ·) horder, ?_, ?_, Or.inr ?_⟩
      · intro h hmem
        by_cases hin : h ∈ gone
        · exact hgone h hin
        · have heq : h = oldest := (List.mem_cons.mp hmem).resolve_right hin
          rw [hkept h hin, heq, ExtTreeMap.getElem?_erase_self]
      · intro h hnot
        rw [List.mem_cons, not_or] at hnot
        rw [hkept h hnot.2, getElem?_erase_ne _ (Ne.symm hnot.1)]
      · rcases hfull with hnil | hfull
        · rw [hnil, nil_append] at horder
          rw [← horder]
          rw [length_cons] at hlong
          omega
        · exact hfull
    · rw [if_neg hlong]
      exact ⟨[], by simp⟩

end CMWState

end MaryJaneCoin
