import MaryJaneCoin.Mw.StateLoops

/-!
# Disconnecting undoes applying

`ApplyBlock` leaves an undo record for every block, and `DisconnectBlock`
replays it backwards.  From every reachable state, disconnecting the last
blocks in reverse order restores everything `ComputeStateHash` covers, for
arbitrary blocks and up to the full undo window (`disconnectAll_restores`).

The MMR index is not among what comes back: disconnecting erases the index of
an added commitment, also when the commitment had an older index from an
output that was spent before.
-/

namespace MaryJaneCoin

open List hiding Vector
open Std FinMap ExtTreeMap

/-- The part of the state that `ComputeStateHash` covers. -/
structure MWView (H : Type) where
  mapOutputs : ExtTreeMap Commitment CMWOutput
  setSpent : ExtTreeSet Commitment
  mmr : CMMR H
  vKernelExcesses : List Commitment
  nMWEBSupply : Int64
  nHeight : Int32
  hashLatestMWBlock : H

/-- The arguments of one `ApplyBlock` call. -/
structure ApplyCall (H : Type) where
  mwBlock : CMWBlock H
  nBlockHeight : Int32
  hashBlock : H
  nSupplyDelta : Int64

namespace CMWState

section Apply

variable {H : Type} [Ord H] {sha : Sha256 H}

/-- The covered part of a state. -/
def view (state : CMWState H) : MWView H where
  mapOutputs := state.mapOutputs
  setSpent := state.setSpent
  mmr := state.mmr
  vKernelExcesses := state.vKernelExcesses
  nMWEBSupply := state.nMWEBSupply
  nHeight := state.nHeight
  hashLatestMWBlock := state.hashLatestMWBlock

/-- `ComputeStateHash` is a function of the covered part. -/
theorem computeStateHash_eq {s t : CMWState H} (h : s.view = t.view) :
    s.computeStateHash sha = t.computeStateHash sha := by
  have hm := congrArg MWView.mapOutputs h
  have hp := congrArg MWView.setSpent h
  have hr := congrArg MWView.mmr h
  have hk := congrArg MWView.vKernelExcesses h
  have hs := congrArg MWView.nMWEBSupply h
  have hn := congrArg MWView.nHeight h
  have hl := congrArg MWView.hashLatestMWBlock h
  simp only [view] at hm hp hr hk hs hn hl
  simp only [computeStateHash, hm, hp, hr, hk, hs, hn, hl]

/-- **Both loops of `ApplyBlock`**, with the record they leave. -/
theorem applyBody_spec (sha : Sha256 H) (state : CMWState H) (hkeyed : Keyed state.mapOutputs)
    (body : CMWTransactionBody) (nSupplyDelta : Int64) :
    ∃ added spent mid mapOutputs setSpent mapMMRIndex leaves,
      state.applyBody sha body nSupplyDelta = ({ state with
            mapOutputs := mapOutputs
            setSpent := setSpent
            mmr := state.mmr.appendAll sha.mmr leaves
            mapMMRIndex := mapMMRIndex },
          { state.newUndo nSupplyDelta with
            vAddedOutputs := added.map CMWOutput.commitment
            vSpentOutputs := spent }) ∧
      Added state.mapOutputs mid added ∧
      Spent mid mapOutputs state.setSpent setSpent spent ∧ Keyed mapOutputs := by
  obtain ⟨added, mid, mapMMRIndex, leaves, hout, hadded, hmid⟩ :=
    foldl_applyOutput sha body.vOutputs state (state.newUndo nSupplyDelta)
  obtain ⟨spent, mapOutputs, setSpent, hin, hspent, hkeyed'⟩ :=
    foldl_applyInput body.vInputs
      { state with
        mapOutputs := mid
        mmr := state.mmr.appendAll sha.mmr leaves
        mapMMRIndex := mapMMRIndex }
      { state.newUndo nSupplyDelta with
        vAddedOutputs := (state.newUndo nSupplyDelta).vAddedOutputs ++ added.map CMWOutput.commitment }
      (hmid hkeyed)
  refine ⟨added, spent, mid, mapOutputs, setSpent, mapMMRIndex, leaves, ?_, hadded, hspent, hkeyed'⟩
  rw [applyBody, hout, hin]
  rfl

end Apply

variable {H : Type} [Ord H] [TransOrd H] {sha : Sha256 H}

/-- `ApplyBlock` with its arguments in a record. -/
def apply (sha : Sha256 H) (state : CMWState H) (call : ApplyCall H) : Option (CMWState H) :=
  state.applyBlock sha call.mwBlock call.nBlockHeight call.hashBlock call.nSupplyDelta

/-- Apply blocks in order, stopping at the first refusal. -/
def applyAll (sha : Sha256 H) (state : CMWState H) (calls : List (ApplyCall H)) :
    Option (CMWState H) :=
  calls.foldlM (apply sha) state

/-- Disconnect blocks in order, stopping at the first `false`. -/
def disconnectAll [DecidableEq H] (fNoMWChange : Bool) (state : CMWState H) (hashes : List H) :
    Option (CMWState H) :=
  hashes.foldlM (fun state hashBlock =>
    match state.disconnectBlock hashBlock fNoMWChange with
    | (true, state') => some state'
    | (false, _) => none) state

/-- What holds in every reachable state: the MMR has the length its leaf count
predicts, outputs are filed under their own commitment, and the undo order
lists the recorded blocks once each. -/
structure WF (state : CMWState H) : Prop where
  mmrSize : state.mmr.SizeOk
  keyed : Keyed state.mapOutputs
  order : state.dqUndoOrder.Nodup
  recorded : ∀ h, h ∈ state.mapBlockUndo ↔ h ∈ state.dqUndoOrder

/-- States reached from the empty one by any interleaving of `ApplyBlock` and
`DisconnectBlock`, in particular by disconnecting last in, first out. -/
inductive Reachable [DecidableEq H] (sha : Sha256 H) : CMWState H → Prop
  | empty : Reachable sha (empty sha)
  | apply {state state' : CMWState H} (call : ApplyCall H) : Reachable sha state →
      state.apply sha call = some state' → Reachable sha state'
  | disconnect {state : CMWState H} (hashBlock : H) (fNoMWChange : Bool) : Reachable sha state →
      Reachable sha (state.disconnectBlock hashBlock fNoMWChange).2

theorem wf_empty : (empty sha : CMWState H).WF where
  mmrSize := (CMMR.represents_empty sha.mmr).count
  keyed := by
    intro c out hlook
    simp [empty] at hlook
  order := nodup_nil
  recorded := by simp [empty]

variable {state state' : CMWState H} {call : ApplyCall H}

/-- `ApplyBlock` refuses only a recorded hash; otherwise it returns the result
of the loops with kernels, supply, tip and undo records moved on. -/
theorem apply_cases {next : CMWState H} {undo : CMWBlockUndo H}
    (happly : state.apply sha call = some state')
    (hbody : state.applyBody sha call.mwBlock.body call.nSupplyDelta = (next, undo)) :
    call.hashBlock ∉ state.mapBlockUndo ∧
      state' =
        { next with
          vKernelExcesses :=
            next.vKernelExcesses ++ call.mwBlock.body.vKernels.map CMWKernel.excess
          nMWEBSupply := next.nMWEBSupply + call.nSupplyDelta
          hashLatestMWBlock := call.mwBlock.getHash sha
          nHeight := call.nBlockHeight
          mapBlockUndo := (evictUndo (next.mapBlockUndo.insert call.hashBlock undo)
            (next.dqUndoOrder ++ [call.hashBlock])).1
          dqUndoOrder := (evictUndo (next.mapBlockUndo.insert call.hashBlock undo)
            (next.dqUndoOrder ++ [call.hashBlock])).2 } := by
  simp only [apply, applyBlock, hbody] at happly
  split at happly
  · cases happly
  · rename_i hfresh
    exact ⟨hfresh, (Option.some.inj happly).symm⟩

/-- A run of applied blocks starts with its first block. -/
theorem applyAll_cons {calls : List (ApplyCall H)}
    (happly : applyAll sha state (call :: calls) = some state') :
    ∃ mid, state.apply sha call = some mid ∧ applyAll sha mid calls = some state' := by
  simpa [applyAll, Option.bind_eq_some_iff] using happly

/-- The undo records before and after an `ApplyBlock`. -/
structure UndoStep (state state' : CMWState H) (hashBlock : H) (undo : CMWBlockUndo H) : Prop where
  newest : state'.mapBlockUndo[hashBlock]? = some undo
  kept : ∀ h ∈ state'.dqUndoOrder, h ≠ hashBlock → state'.mapBlockUndo[h]? = state.mapBlockUndo[h]?
  origin : ∀ h ∈ state'.mapBlockUndo, h ∈ state.mapBlockUndo ∨ h = hashBlock
  window : ∀ keep, keep <:+ state.dqUndoOrder → keep.length < MW_UNDO_WINDOW →
    keep ++ [hashBlock] <:+ state'.dqUndoOrder

/-- **Disconnecting inverts applying.**  It is enough that the state agrees with
the applied one on the covered part and still has the block's record. -/
theorem WF.disconnect_apply [DecidableEq H] (hwf : state.WF)
    (happly : state.apply sha call = some state') {t : CMWState H}
    (hview : t.view = state'.view) (hundo : t.mapBlockUndo[call.hashBlock]? =
      some (state.applyBody sha call.mwBlock.body call.nSupplyDelta).2) (fNoMWChange : Bool) :
    ∃ t', t.disconnectBlock call.hashBlock fNoMWChange = (true, t') ∧ t'.view = state.view ∧
      t'.mapBlockUndo = t.mapBlockUndo.erase call.hashBlock := by
  obtain ⟨added, spent, mid, mapOutputs, setSpent, mapMMRIndex, leaves, hbody, hadded, hspent, _⟩ :=
    applyBody_spec sha state hwf.keyed call.mwBlock.body call.nSupplyDelta
  obtain ⟨_, hstate'⟩ := apply_cases happly hbody
  rw [hbody] at hundo
  rw [hstate'] at hview
  have hm := congrArg MWView.mapOutputs hview
  have hp := congrArg MWView.setSpent hview
  have hr := congrArg MWView.mmr hview
  have hk := congrArg MWView.vKernelExcesses hview
  have hs := congrArg MWView.nMWEBSupply hview
  simp only [view] at hm hp hr hk hs
  have hrewind := CMMR.rewind_appendAll sha.mmr hwf.mmrSize leaves
  obtain ⟨hmapUndo, hsetUndo⟩ := hspent.undo
  simp only [disconnectBlock, hundo, foldl_unspendOutput, foldl_removeOutput, newUndo,
    CMMR.getSize, hm, hp, hr, hk, hs, hmapUndo, hsetUndo, hadded.undo, hrewind]
  rw [if_neg (by simp)]
  refine ⟨_, rfl, ?_, rfl⟩
  simp only [view, take_left, Int64.add_sub_cancel]

variable [LawfulEqOrd H]

/-- **Step lemma of `ApplyBlock`**: it keeps the invariant and moves the window
of undo records by one. -/
theorem WF.apply (hwf : state.WF)
    (happly : state.apply sha call = some state') : state'.WF ∧ UndoStep state state' call.hashBlock
      (state.applyBody sha call.mwBlock.body call.nSupplyDelta).2 := by
  obtain ⟨added, spent, mid, mapOutputs, setSpent, mapMMRIndex, leaves, hbody, _, _, hkeyed⟩ :=
    applyBody_spec sha state hwf.keyed call.mwBlock.body call.nSupplyDelta
  obtain ⟨hfresh, hstate'⟩ := apply_cases happly hbody
  rw [hbody]
  generalize { state.newUndo call.nSupplyDelta with
    vAddedOutputs := added.map CMWOutput.commitment
    vSpentOutputs := spent } = undo at hstate' ⊢
  obtain ⟨gone, horder, hgone, hkept, hfull⟩ := evictUndo_spec (state.dqUndoOrder ++ [call.hashBlock])
    (state.mapBlockUndo.insert call.hashBlock undo)
  dsimp only at hstate'
  generalize evictUndo (state.mapBlockUndo.insert call.hashBlock undo)
    (state.dqUndoOrder ++ [call.hashBlock]) = evicted at hstate' horder hgone hkept hfull
  have hmap' : state'.mapBlockUndo = evicted.1 := by rw [hstate']
  have hdq' : state'.dqUndoOrder = evicted.2 := by rw [hstate']
  have hnodup : (state.dqUndoOrder ++ [call.hashBlock]).Nodup := by
    rw [nodup_append]
    refine ⟨hwf.order, by simp, ?_⟩
    intro h hmem h' hmem' heq
    rw [mem_singleton] at hmem'
    subst hmem' heq
    exact hfresh ((hwf.recorded _).mpr hmem)
  have hwindow : ∀ keep, keep <:+ state.dqUndoOrder → keep.length < MW_UNDO_WINDOW →
      keep ++ [call.hashBlock] <:+ evicted.2 := by
    intro keep hkeep hlen
    have hsuffix : keep ++ [call.hashBlock] <:+ state.dqUndoOrder ++ [call.hashBlock] := by
      obtain ⟨front, hfront⟩ := hkeep
      exact ⟨front, by rw [← append_assoc, hfront]⟩
    have hcut : evicted.2 <:+ state.dqUndoOrder ++ [call.hashBlock] := ⟨gone, horder.symm⟩
    rcases hfull with hnil | hfull
    · rw [hnil, nil_append] at horder
      rwa [← horder]
    · refine suffix_of_suffix_length_le hsuffix hcut ?_
      rw [length_append, length_singleton]
      omega
  have hlast : call.hashBlock ∈ evicted.2 := by
    have hsuffix := hwindow [] nil_suffix (by simp [MW_UNDO_WINDOW])
    exact hsuffix.subset (by simp)
  have hdisjoint : ∀ h ∈ evicted.2, h ∉ gone := by
    intro h hmem hin
    rw [horder, nodup_append] at hnodup
    exact hnodup.2.2 h hin h hmem rfl
  have hrecorded : ∀ h, h ∈ evicted.1 ↔ h ∈ evicted.2 := by
    intro h
    rw [mem_iff_exists]
    by_cases hin : h ∈ gone
    · rw [hgone h hin]
      exact ⟨fun hex => by simp at hex, fun hmem => absurd hin (hdisjoint h hmem)⟩
    · have hsplit : h ∈ evicted.2 ↔ h ∈ state.dqUndoOrder ++ [call.hashBlock] := by
        rw [horder, mem_append]
        exact ⟨Or.inr, fun hor => hor.resolve_left hin⟩
      rw [hkept h hin, ← mem_iff_exists, hsplit, mem_insert,
        LawfulEqCmp.compare_eq_iff_eq, hwf.recorded, mem_append, mem_singleton,
        eq_comm (a := call.hashBlock)]
      exact Or.comm
  constructor
  · refine ⟨?_, ?_, ?_, ?_⟩
    · rw [hstate']
      exact (CMMR.appendAll_extends sha.mmr hwf.mmrSize leaves).2.1
    · rw [hstate']
      exact hkeyed
    · rw [hdq']
      rw [horder, nodup_append] at hnodup
      exact hnodup.2.1
    · rw [hmap', hdq']
      exact hrecorded
  · refine ⟨?_, ?_, ?_, ?_⟩
    · rw [hmap', hkept _ (hdisjoint _ hlast), getElem?_insert_self]
    · intro h hmem hne
      rw [hdq'] at hmem
      rw [hmap', hkept h (hdisjoint h hmem), getElem?_insert_ne _ _ (Ne.symm hne)]
    · intro h hmem
      rw [hmap', hrecorded] at hmem
      have : h ∈ state.dqUndoOrder ++ [call.hashBlock] := by
        rw [horder]
        exact mem_append_right _ hmem
      rwa [mem_append, mem_singleton, ← hwf.recorded] at this
    · rw [hdq']
      exact hwindow

/-- `DisconnectBlock` keeps the invariant, whichever block it is given and
whatever it returns. -/
theorem WF.disconnect [DecidableEq H] {state : CMWState H} (hwf : state.WF) (hashBlock : H)
    (fNoMWChange : Bool) : (state.disconnectBlock hashBlock fNoMWChange).2.WF := by
  simp only [disconnectBlock]
  split
  · exact hwf
  · rename_i undo hundo
    have hspent : Keyed (undo.vSpentOutputs.foldl (fun m out => m.insert out.commitment out)
        state.mapOutputs) := by
      generalize undo.vSpentOutputs = outs
      have hkeyed := hwf.keyed
      generalize state.mapOutputs = m at hkeyed
      induction outs generalizing m with
      | nil => exact hkeyed
      | cons out outs ih => exact ih _ (hkeyed.insert out)
    have hboth : Keyed (undo.vAddedOutputs.foldl (fun m c => m.erase c)
        (undo.vSpentOutputs.foldl (fun m out => m.insert out.commitment out)
          state.mapOutputs)) := by
      generalize undo.vAddedOutputs = cs
      generalize undo.vSpentOutputs.foldl _ _ = m at hspent
      induction cs generalizing m with
      | nil => exact hspent
      | cons c cs ih => exact ih _ (hspent.erase c)
    simp only [foldl_unspendOutput, foldl_removeOutput]
    split
    · exact ⟨hwf.mmrSize, hboth, hwf.order, hwf.recorded⟩
    · rename_i mmr hrewind
      split
      · exact ⟨hwf.mmrSize.rewind hrewind, hboth, hwf.order, hwf.recorded⟩
      · refine ⟨hwf.mmrSize.rewind hrewind, hboth, hwf.order.erase hashBlock, ?_⟩
        intro h
        rw [mem_erase, hwf.order.mem_erase_iff, hwf.recorded, ne_eq,
          LawfulEqCmp.compare_eq_iff_eq, eq_comm (a := hashBlock)]

/-- **Run lemma.**  Every reachable state is well formed. -/
theorem Reachable.wf [DecidableEq H] {state : CMWState H} (hreach : Reachable sha state) : state.WF := by
  induction hreach with
  | empty => exact wf_empty
  | apply call _ happly ih => exact (ih.apply happly).1
  | disconnect hashBlock fNoMWChange _ ih => exact ih.disconnect hashBlock fNoMWChange

/-- The records of a list of applied blocks are all still there. -/
def HasRecords (sha : Sha256 H) (t : CMWState H) : CMWState H → List (ApplyCall H) → Prop
  | _, [] => True
  | state, call :: calls =>
    t.mapBlockUndo[call.hashBlock]? =
        some (state.applyBody sha call.mwBlock.body call.nSupplyDelta).2 ∧
      ∀ state', state.apply sha call = some state' → HasRecords sha t state' calls

theorem WF.disconnectAll_applyAll [DecidableEq H] (fNoMWChange : Bool) (calls : List (ApplyCall H)) :
    ∀ {state state' t : CMWState H}, state.WF → applyAll sha state calls = some state' →
      (calls.map ApplyCall.hashBlock).Nodup → t.view = state'.view → HasRecords sha t state calls →
      ∃ t', disconnectAll fNoMWChange t (calls.map ApplyCall.hashBlock).reverse = some t' ∧
        t'.view = state.view ∧
        ∀ h, h ∉ calls.map ApplyCall.hashBlock → t'.mapBlockUndo[h]? = t.mapBlockUndo[h]? := by
  induction calls with
  | nil =>
    intro state state' t _ happly _ hview _
    cases happly
    exact ⟨t, rfl, hview, fun _ _ => rfl⟩
  | cons call calls ih =>
    intro state state' t hwf happly hnodup hview hrecords
    obtain ⟨mid, hmid, hrest⟩ := applyAll_cons happly
    rw [map_cons, nodup_cons] at hnodup
    obtain ⟨t₁, hdisc, hview₁, hframe⟩ := ih (hwf.apply hmid).1 hrest hnodup.2 hview (hrecords.2 mid hmid)
    have hrecord : t₁.mapBlockUndo[call.hashBlock]? = _ := (hframe _ hnodup.1).trans hrecords.1
    obtain ⟨t₂, hlast, hview₂, hmap⟩ := hwf.disconnect_apply hmid hview₁ hrecord fNoMWChange
    refine ⟨t₂, ?_, hview₂, ?_⟩
    · rw [map_cons, reverse_cons, disconnectAll, List.foldlM_append]
      rw [disconnectAll] at hdisc
      simp only [hdisc, Option.bind_eq_bind, Option.bind_some, List.foldlM_cons, hlast,
        foldlM_nil, Option.pure_def]
    · intro h hnot
      rw [map_cons, List.mem_cons, not_or] at hnot
      rw [hmap, getElem?_erase_ne _ (Ne.symm hnot.1), hframe h hnot.2]

theorem WF.record_kept (calls : List (ApplyCall H)) :
    ∀ {state state' : CMWState H} {h : H} {post : List H}, state.WF →
      applyAll sha state calls = some state' → h :: post <:+ state.dqUndoOrder →
      post.length + 1 + calls.length ≤ MW_UNDO_WINDOW → h ∉ calls.map ApplyCall.hashBlock →
      state'.mapBlockUndo[h]? = state.mapBlockUndo[h]? := by
  induction calls with
  | nil =>
    intro state state' h post _ happly _ _ _
    cases happly
    rfl
  | cons call calls ih =>
    intro state state' h post hwf happly hkeep hlen hnot
    obtain ⟨mid, hmid, hrest⟩ := applyAll_cons happly
    obtain ⟨hwf', hstep⟩ := hwf.apply hmid
    rw [map_cons, List.mem_cons, not_or] at hnot
    rw [length_cons] at hlen
    have hkeep' : h :: (post ++ [call.hashBlock]) <:+ mid.dqUndoOrder :=
      hstep.window (h :: post) hkeep (by rw [length_cons]; omega)
    have hlen' : (post ++ [call.hashBlock]).length + 1 + calls.length ≤ MW_UNDO_WINDOW := by
      rw [length_append, length_singleton]
      omega
    rw [ih hwf' hrest hkeep' hlen' hnot.2, hstep.kept h (hkeep'.subset mem_cons_self) hnot.1]

theorem WF.applyAll_records (calls : List (ApplyCall H)) : ∀ {state : CMWState H}, state.WF →
    calls.length ≤ MW_UNDO_WINDOW → (calls.map ApplyCall.hashBlock).Nodup →
      (∀ call ∈ calls, call.hashBlock ∉ state.mapBlockUndo) →
      ∃ state', applyAll sha state calls = some state' ∧ HasRecords sha state' state calls := by
  induction calls with
  | nil => intro state _ _ _ _; exact ⟨state, rfl, trivial⟩
  | cons call calls ih =>
    intro state hwf hlen hnodup hfresh
    rw [map_cons, nodup_cons] at hnodup
    rw [length_cons] at hlen
    obtain ⟨mid, hmid⟩ : ∃ mid, state.apply sha call = some mid := by
      simp only [CMWState.apply, applyBlock, if_neg (hfresh call mem_cons_self)]
      exact ⟨_, rfl⟩
    obtain ⟨hwf', hstep⟩ := hwf.apply hmid
    have hfresh' : ∀ c ∈ calls, c.hashBlock ∉ mid.mapBlockUndo := by
      intro c hc hmem
      rcases hstep.origin _ hmem with hold | hnew
      · exact hfresh c (mem_cons_of_mem _ hc) hold
      · exact hnodup.1 (hnew ▸ mem_map_of_mem hc)
    obtain ⟨state', happly, hrecords⟩ := ih hwf' (by omega) hnodup.2 hfresh'
    refine ⟨state', ?_, ?_, ?_⟩
    · simp only [applyAll, List.foldlM_cons, hmid, Option.bind_eq_bind, Option.bind_some]
      exact happly
    · have hkeep := hstep.window [] nil_suffix (by simp [MW_UNDO_WINDOW])
      rw [hwf'.record_kept calls happly hkeep (by simpa [Nat.add_comm] using hlen) hnodup.1]
      exact hstep.newest
    · intro other hother
      rw [hmid] at hother
      cases hother
      exact hrecords

/-- **Reorg exactness.**  From every reachable state, up to a window of
arbitrary blocks with fresh, distinct hashes is applied, and disconnecting
those hashes in reverse order returns `true` every time and restores
everything that `ComputeStateHash` covers. -/
theorem disconnectAll_restores [DecidableEq H] {state : CMWState H}
    (hreach : Reachable sha state) (calls : List (ApplyCall H))
    (hlen : calls.length ≤ MW_UNDO_WINDOW) (hnodup : (calls.map ApplyCall.hashBlock).Nodup)
    (hfresh : ∀ call ∈ calls, call.hashBlock ∉ state.mapBlockUndo) (fNoMWChange : Bool) :
    ∃ applied restored, applyAll sha state calls = some applied ∧
      disconnectAll fNoMWChange applied (calls.map ApplyCall.hashBlock).reverse = some restored ∧
      restored.mapOutputs = state.mapOutputs ∧ restored.setSpent = state.setSpent ∧
      restored.mmr.vNodes = state.mmr.vNodes ∧ restored.mmr.nLeaves = state.mmr.nLeaves ∧
      restored.vKernelExcesses = state.vKernelExcesses ∧
      restored.nMWEBSupply = state.nMWEBSupply ∧ restored.nHeight = state.nHeight ∧
      restored.hashLatestMWBlock = state.hashLatestMWBlock ∧
      restored.computeStateHash sha = state.computeStateHash sha := by
  have hwf := hreach.wf
  obtain ⟨applied, happly, hrecords⟩ := hwf.applyAll_records calls hlen hnodup hfresh
  obtain ⟨restored, hdisc, hview, _⟩ :=
    hwf.disconnectAll_applyAll fNoMWChange calls happly hnodup rfl hrecords
  have hmmr : restored.mmr = state.mmr := congrArg MWView.mmr hview
  exact ⟨applied, restored, happly, hdisc, congrArg MWView.mapOutputs hview,
    congrArg MWView.setSpent hview, congrArg CMMR.vNodes hmmr, congrArg CMMR.nLeaves hmmr,
    congrArg MWView.vKernelExcesses hview, congrArg MWView.nMWEBSupply hview,
    congrArg MWView.nHeight hview, congrArg MWView.hashLatestMWBlock hview,
    computeStateHash_eq hview⟩

/-- A block that creates two outputs and at once spends one of them, next to an
unknown input. -/
def sampleCall : ApplyCall (List Nat) where
  mwBlock :=
    { hashPrevMWBlock := []
      body := ⟨[sampleInput 5, sampleInput 9], [sampleOutput 4, sampleOutput 5], []⟩
      vCutThrough := []
      nHeight := 1
      offset := Vector.replicate 32 0 }
  nBlockHeight := 1
  hashBlock := [7]
  nSupplyDelta := 10

/-- The theorem at the empty state and that block. -/
theorem disconnectAll_restores_sample :
    ∃ applied restored, applyAll transparent (empty transparent) [sampleCall] = some applied ∧
      disconnectAll false applied [[7]] = some restored ∧
      restored.mapOutputs = (empty transparent).mapOutputs ∧
      restored.mmr.vNodes = (empty transparent).mmr.vNodes ∧
      restored.computeStateHash transparent = (empty transparent).computeStateHash transparent := by
  obtain ⟨applied, restored, happly, hdisc, hmap, _, hnodes, _, _, _, _, _, hhash⟩ :=
    disconnectAll_restores (Reachable.empty : Reachable transparent _) [sampleCall]
      (by simp [MW_UNDO_WINDOW]) (by simp) (by simp [empty]) false
  exact ⟨applied, restored, happly, hdisc, hmap, hnodes, hhash⟩

end CMWState

end MaryJaneCoin
