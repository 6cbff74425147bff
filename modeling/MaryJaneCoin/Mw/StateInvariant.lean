import MaryJaneCoin.Mw.StateReload

/-!
# The representation of the Mimblewimble state

The unspent map, the spent set, the MMR and its index are updated by different
operations.  `Represented` says how they belong together.  Every operation keeps it,
except where a block creates a commitment that is in the spent set, or where a
database is loaded that still has what an earlier save wrote and the last one did
not.
-/

namespace MaryJaneCoin

open Std FinMap List

namespace CMMR

variable {H : Type} (hash : MMRHash H) {mmr : CMMR H}

theorem leafIndexToPos_lt (hok : mmr.SizeOk) {i : Nat} (hi : i < mmr.nLeaves) :
    leafIndexToPos i < mmr.vNodes.length := by
  have hlt := nodePos_strictMono 0 hi
  rwa [nodePos_zero, nodePos_zero_eq_count, ← hok] at hlt

theorem getLeafHash_append_of_lt (hok : mmr.SizeOk) (leaf : H) {i : Nat} (hi : i < mmr.nLeaves) :
    (mmr.append hash leaf).getLeafHash hash i = mmr.getLeafHash hash i := by
  obtain ⟨⟨pushed, hpushed⟩, _⟩ := append_extends hash hok leaf
  have hi' : ¬ i ≥ (mmr.append hash leaf).nLeaves := by
    have hone : (mmr.append hash leaf).nLeaves = mmr.nLeaves + 1 := rfl
    omega
  rw [getLeafHash, getLeafHash, if_neg hi', if_neg (Nat.not_le.mpr hi), hpushed,
    getD_eq_getElem?_getD, getD_eq_getElem?_getD, getElem?_append_left (leafIndexToPos_lt hok hi)]

theorem getLeafHash_append_self (hok : mmr.SizeOk) (leaf : H) :
    (mmr.append hash leaf).getLeafHash hash mmr.nLeaves = hash.hashLeaf leaf := by
  have hpos : leafIndexToPos mmr.nLeaves = mmr.vNodes.length := by
    rw [hok, ← nodePos_zero, nodePos_zero_eq_count]
  have hlen : (mmr.vNodes ++ [hash.hashLeaf leaf]).length = nodePos 0 mmr.nLeaves + 1 := by
    rw [length_append, nodePos_zero, hpos]
    rfl
  obtain ⟨⟨pushed, hpushed⟩, _⟩ := mergeLoop_extends hash (n := mmr.nLeaves) (k := 0) (by simp) hlen
  have hvec : (mmr.append hash leaf).vNodes = mmr.vNodes ++ [hash.hashLeaf leaf] ++ pushed := hpushed
  have hle : ¬ mmr.nLeaves ≥ (mmr.append hash leaf).nLeaves := by
    have hone : (mmr.append hash leaf).nLeaves = mmr.nLeaves + 1 := rfl
    omega
  rw [getLeafHash, if_neg hle, hvec, hpos, getD_eq_getElem?_getD, append_assoc,
    getElem?_append_right le_rfl, Nat.sub_self]
  rfl

end CMMR

namespace CMWState

section

variable {H : Type} [Ord H] (sha : Sha256 H)

/-- The commitment has an index, and the leaf there is that of the output's ID. -/
def IndexesTo (state : CMWState H) (c : Commitment) (out : CMWOutput) : Prop :=
  ∃ nIdx : UInt64, state.mapMMRIndex[c]? = some nIdx ∧ nIdx.toNat < state.mmr.nLeaves ∧
    state.mmr.getLeafHash sha.mmr nIdx.toNat = sha.mmr.hashLeaf (out.getOutputID sha)

/-- **The representation invariant.**  No commitment is unspent and spent, and each
that is either has the leaf of its output: `names` is which output that is, for an
unspent commitment the one in the map. -/
structure Represented (names : Commitment → Option CMWOutput) (state : CMWState H) : Prop where
  disjoint : ∀ c ∈ state.mapOutputs, c ∉ state.setSpent
  named : ∀ (c : Commitment) (out : CMWOutput), state.mapOutputs[c]? = some out → names c = some out
  indexed : ∀ c, c ∈ state.mapOutputs ∨ c ∈ state.setSpent →
    ∃ out, names c = some out ∧ state.IndexesTo sha c out

/-- What a commitment stands for once more outputs are in the map. -/
def renamed (state : CMWState H) (names : Commitment → Option CMWOutput) (c : Commitment) :
    Option CMWOutput :=
  (state.mapOutputs[c]?).or (names c)

variable {sha} {names : Commitment → Option CMWOutput} {state state' : CMWState H}

theorem Represented.congr (hrep : state.Represented sha names)
    (hmap : state'.mapOutputs = state.mapOutputs) (hset : state'.setSpent = state.setSpent)
    (hmmr : state'.mmr = state.mmr) (hindex : ∀ c : Commitment, c ∈ state.mapOutputs ∨ c ∈ state.setSpent →
      state'.mapMMRIndex[c]? = state.mapMMRIndex[c]?) : state'.Represented sha names := by
  refine ⟨?_, ?_, ?_⟩
  · rw [hmap, hset]
    exact hrep.disjoint
  · rw [hmap]
    exact hrep.named
  · rw [hmap, hset]
    intro c hused
    obtain ⟨out, hname, nIdx, hidx, hlt, hleaf⟩ := hrep.indexed c hused
    exact ⟨out, hname, nIdx, by rw [hindex c hused, hidx], by rw [hmmr]; exact hlt, by rw [hmmr]; exact hleaf⟩

/-- **Step lemma of `AddOutput`.** -/
theorem Represented.addOutput (hrep : state.Represented sha names) (hok : state.mmr.SizeOk)
    {out : CMWOutput} (hfresh : out.commitment ∉ state.setSpent)
    (hbound : state.mmr.nLeaves < 2 ^ 64) (hadd : state.addOutput sha out = some state') :
    state'.Represented sha (state'.renamed names) := by
  simp only [CMWState.addOutput] at hadd
  split at hadd
  · cases hadd
  split at hadd
  · cases hadd
  rename_i hnew
  cases hadd
  have hnat : (UInt64.ofNat state.mmr.nLeaves).toNat = state.mmr.nLeaves := UInt64.toNat_ofNat_of_lt' hbound
  refine ⟨?_, ?_, ?_⟩
  · intro c hmem
    rw [ExtTreeMap.mem_insert, LawfulEqCmp.compare_eq_iff_eq] at hmem
    rcases hmem with rfl | hold
    · exact hfresh
    · exact hrep.disjoint c hold
  · intro c o hlook
    simp only [renamed, hlook, Option.some_or]
  · intro c hused
    by_cases hc : out.commitment = c
    · subst hc
      refine ⟨out, by simp [renamed], UInt64.ofNat state.mmr.nLeaves, ?_, ?_, ?_⟩
      · exact ExtTreeMap.getElem?_insert_self
      · rw [hnat]
        exact Nat.lt_succ_self _
      · rw [hnat]
        exact CMMR.getLeafHash_append_self sha.mmr hok _
    · have hold : c ∈ state.mapOutputs ∨ c ∈ state.setSpent := by
        simpa [ExtTreeMap.mem_insert, hc] using hused
      obtain ⟨o, hname, nIdx, hidx, hlt, hleaf⟩ := hrep.indexed c hold
      refine ⟨o, ?_, nIdx, ?_, Nat.lt_succ_of_lt hlt, ?_⟩
      · simp only [renamed, getElem?_insert_ne _ _ hc]
        cases hlook : state.mapOutputs[c]? with
        | none => exact hname
        | some own => rw [Option.some_or, ← hrep.named c own hlook, hname]
      · rw [getElem?_insert_ne _ _ hc, hidx]
      · rw [CMMR.getLeafHash_append_of_lt sha.mmr hok _ hlt, hleaf]

variable {c : Commitment}

/-- **Step lemma of `SpendOutput`.** -/
theorem Represented.spendOutput (hrep : state.Represented sha names)
    (hspend : state.spendOutput c = some state') : state'.Represented sha names := by
  simp only [CMWState.spendOutput] at hspend
  split at hspend
  · cases hspend
  split at hspend
  · cases hspend
  rename_i hmem _
  cases hspend
  refine ⟨?_, ?_, ?_⟩
  · intro c' hmem' hspent
    rw [ExtTreeMap.mem_erase] at hmem'
    rw [ExtTreeSet.mem_insert] at hspent
    rcases hspent with heq | hold
    · exact hmem'.1 heq
    · exact hrep.disjoint c' hmem'.2 hold
  · intro c' out hlook
    by_cases hc : c = c'
    · subst hc
      rw [ExtTreeMap.getElem?_erase_self] at hlook
      cases hlook
    · rw [getElem?_erase_ne _ hc] at hlook
      exact hrep.named c' out hlook
  · intro c' hused
    refine hrep.indexed c' ?_
    rw [ExtTreeMap.mem_erase, ExtTreeSet.mem_insert, LawfulEqCmp.compare_eq_iff_eq] at hused
    rcases hused with ⟨_, hold⟩ | rfl | hold
    · exact Or.inl hold
    · exact Or.inl (not_not.mp hmem)
    · exact Or.inr hold

/-- **The output loop keeps the invariant** when it creates nothing that is spent. -/
theorem Represented.applyOutputs (outs : List CMWOutput) (undo : CMWBlockUndo H)
    (hrep : state.Represented sha names) (hok : state.mmr.SizeOk)
    (hfresh : ∀ out ∈ outs, out.isNull = false → out.commitment ∉ state.setSpent)
    (hbound : state.mmr.nLeaves + outs.length ≤ 2 ^ 64) :
    (outs.foldl (applyOutput sha) (state, undo)).1.Represented sha
      ((outs.foldl (applyOutput sha) (state, undo)).1.renamed names) := by
  induction outs generalizing state undo names with
  | nil =>
    refine ⟨hrep.disjoint, fun c out hlook => ?_, fun c hused => ?_⟩
    · simp only [foldl_nil] at hlook ⊢
      rw [renamed, hlook, Option.some_or]
    · obtain ⟨out, hname, hidx⟩ := hrep.indexed c hused
      refine ⟨out, ?_, hidx⟩
      rw [foldl_nil, renamed]
      cases hlook : state.mapOutputs[c]? with
      | none => exact hname
      | some own => rw [Option.some_or, ← hrep.named c own hlook, hname]
  | cons out outs ih =>
    rw [length_cons] at hbound
    have hrest : ∀ o ∈ outs, o.isNull = false → o.commitment ∉ state.setSpent :=
      fun o ho => hfresh o (mem_cons_of_mem _ ho)
    rw [foldl_cons]
    cases hadd : state.addOutput sha out with
    | none =>
      have hskip : applyOutput sha (state, undo) out = (state, undo) := by
        simp only [applyOutput, hadd]
      rw [hskip]
      exact ih undo hrep hok hrest (by omega)
    | some next =>
      have hstep : applyOutput sha (state, undo) out =
          (next, { undo with vAddedOutputs := undo.vAddedOutputs ++ [out.commitment] }) := by
        simp only [applyOutput, hadd]
      have hproper : out.isNull = false ∧ next.setSpent = state.setSpent ∧
          next.mmr = state.mmr.append sha.mmr (out.getOutputID sha) := by
        simp only [CMWState.addOutput] at hadd
        split at hadd
        · cases hadd
        · rename_i hnull
          split at hadd
          · cases hadd
          · cases hadd
            exact ⟨by simpa using hnull, rfl, rfl⟩
      have hrep' := hrep.addOutput hok (hfresh out mem_cons_self hproper.1) (by omega) hadd
      have hok' : next.mmr.SizeOk := by
        rw [hproper.2.2]
        exact (CMMR.append_extends sha.mmr hok _).2
      have hleaves : next.mmr.nLeaves = state.mmr.nLeaves + 1 := by
        rw [hproper.2.2]
        rfl
      rw [hstep]
      have hloop := ih { undo with vAddedOutputs := undo.vAddedOutputs ++ [out.commitment] }
        hrep' hok' (by rw [hproper.2.1]; exact hrest) (by omega)
      have hnames : ∀ mid : CMWState H, (∀ c, mid.mapOutputs[c]? =
          (next.mapOutputs[c]?).or (outs.find? fun o => o.commitment = c && !o.isNull)) →
          mid.renamed (next.renamed names) = mid.renamed names := by
        intro mid hmid
        funext c
        simp only [renamed, hmid c]
        cases next.mapOutputs[c]? with
        | none => rfl
        | some own => simp
      rwa [hnames _ (getElem?_applyOutputs sha outs next _)] at hloop

/-- **The input loop keeps the invariant.** -/
theorem Represented.applyInputs (ins : List CMWInput) (undo : CMWBlockUndo H)
    (hrep : state.Represented sha names) : (ins.foldl applyInput (state, undo)).1.Represented sha names := by
  induction ins generalizing state undo with
  | nil => exact hrep
  | cons input ins ih =>
    rw [foldl_cons, applyInput]
    cases hlook : state.getOutput input.commitment with
    | none => exact ih undo hrep
    | some out =>
      cases hspend : state.spendOutput input.commitment with
      | none => exact ih undo hrep
      | some next => exact ih _ (hrep.spendOutput hspend)

/-- Nothing that the block creates is spent already. -/
def FreshBlock (state : CMWState H) (body : CMWTransactionBody) : Prop :=
  ∀ out ∈ body.vOutputs, out.isNull = false → out.commitment ∉ state.setSpent

/-- What the commitments stand for after a block. -/
def namesAfter (sha : Sha256 H) (state : CMWState H) (body : CMWTransactionBody)
    (names : Commitment → Option CMWOutput) : Commitment → Option CMWOutput :=
  (body.vOutputs.foldl (applyOutput sha) (state, state.newUndo 0)).1.renamed names

theorem applyOutputs_undo (outs : List CMWOutput) (undo undo' : CMWBlockUndo H) : (outs.foldl
    (applyOutput sha) (state, undo)).1 = (outs.foldl (applyOutput sha) (state, undo')).1 := by
  induction outs generalizing state undo undo' with
  | nil => rfl
  | cons out outs ih =>
    rw [foldl_cons, foldl_cons, applyOutput, applyOutput]
    cases state.addOutput sha out with
    | none => exact ih undo undo'
    | some next => exact ih _ _

theorem Represented.applyBody (hrep : state.Represented sha names) (hok : state.mmr.SizeOk)
    {body : CMWTransactionBody} (hfresh : state.FreshBlock body)
    (hbound : state.mmr.nLeaves + body.vOutputs.length ≤ 2 ^ 64) (nSupplyDelta : Int64) :
    (state.applyBody sha body nSupplyDelta).1.Represented sha (state.namesAfter sha body names) := by
  have hloop := hrep.applyOutputs body.vOutputs (state.newUndo nSupplyDelta) hok hfresh hbound
  rw [CMWState.applyBody, namesAfter, applyOutputs_undo body.vOutputs (state.newUndo 0)
    (state.newUndo nSupplyDelta)]
  exact hloop.applyInputs body.vInputs _

/-- **The output loop and the index.**  Recorded as added are proper outputs of the
block that were not in the map, and no other index changes. -/
theorem applyOutputs_index (sha : Sha256 H) (outs : List CMWOutput) (state : CMWState H)
    (undo : CMWBlockUndo H) (c : Commitment) : (c ∈ undo.vAddedOutputs →
        c ∈ (outs.foldl (applyOutput sha) (state, undo)).2.vAddedOutputs) ∧
      (c ∈ (outs.foldl (applyOutput sha) (state, undo)).2.vAddedOutputs → c ∈ undo.vAddedOutputs ∨
          c ∉ state.mapOutputs ∧ ∃ out ∈ outs, out.commitment = c ∧ out.isNull = false) ∧
      (c ∉ (outs.foldl (applyOutput sha) (state, undo)).2.vAddedOutputs → (outs.foldl
        (applyOutput sha) (state, undo)).1.mapMMRIndex[c]? = state.mapMMRIndex[c]?) := by
  induction outs generalizing state undo with
  | nil => exact ⟨id, Or.inl, fun _ => rfl⟩
  | cons out outs ih =>
    rw [foldl_cons]
    rcases CMWState.applyOutput_cases sha out state undo with hskip | ⟨hproper, hfresh, hstep⟩
    · rw [hskip]
      obtain ⟨hkept, horigin, hframe⟩ := ih state undo
      refine ⟨hkept, fun hmem => (horigin hmem).imp_right ?_, hframe⟩
      rintro ⟨hnew, o, ho, hown⟩
      exact ⟨hnew, o, mem_cons_of_mem _ ho, hown⟩
    · rw [hstep]
      obtain ⟨hkept, horigin, hframe⟩ := ih
        { state with
          mapOutputs := state.mapOutputs.insert out.commitment out
          mmr := state.mmr.append sha.mmr (out.getOutputID sha)
          mapMMRIndex := state.mapMMRIndex.insert out.commitment (UInt64.ofNat state.mmr.nLeaves) }
        { undo with vAddedOutputs := undo.vAddedOutputs ++ [out.commitment] }
      refine ⟨fun hmem => hkept (mem_append_left _ hmem), fun hmem => ?_, fun hnot => ?_⟩
      · rcases horigin hmem with hold | ⟨hnew, o, ho, hown⟩
        · rcases mem_append.mp hold with hold | hself
          · exact Or.inl hold
          · rw [mem_singleton] at hself
            subst hself
            exact Or.inr ⟨hfresh, out, mem_cons_self, rfl, hproper⟩
        · rw [ExtTreeMap.mem_insert, not_or] at hnew
          exact Or.inr ⟨hnew.2, o, mem_cons_of_mem _ ho, hown⟩
      · have hne : out.commitment ≠ c := by
          rintro rfl
          exact hnot (hkept (mem_append_right _ (mem_singleton_self _)))
        rw [hframe hnot, getElem?_insert_ne _ _ hne]

theorem applyInputs_index (ins : List CMWInput) (state : CMWState H) (undo : CMWBlockUndo H) :
    (ins.foldl applyInput (state, undo)).1.mapMMRIndex = state.mapMMRIndex ∧
      (ins.foldl applyInput (state, undo)).1.mmr = state.mmr ∧
      (ins.foldl applyInput (state, undo)).2.vAddedOutputs = undo.vAddedOutputs := by
  induction ins generalizing state undo with
  | nil => exact ⟨rfl, rfl, rfl⟩
  | cons input ins ih =>
    rw [foldl_cons, applyInput]
    cases state.getOutput input.commitment with
    | none => exact ih state undo
    | some out =>
      cases hspend : state.spendOutput input.commitment with
      | none => exact ih state undo
      | some next =>
        have hindex : next.mapMMRIndex = state.mapMMRIndex ∧ next.mmr = state.mmr := by
          simp only [CMWState.spendOutput] at hspend
          split at hspend
          · cases hspend
          · split at hspend
            · cases hspend
            · cases hspend
              exact ⟨rfl, rfl⟩
        obtain ⟨hmap, hmmr, hadded⟩ := ih next
          { undo with vSpentOutputs := undo.vSpentOutputs ++ [out] }
        exact ⟨hmap.trans hindex.1, hmmr.trans hindex.2, hadded⟩

theorem FreshBlock.applyBody_index (sha : Sha256 H) {body : CMWTransactionBody}
    (hfresh : state.FreshBlock body) (nSupplyDelta : Int64) (hused : c ∈ state.mapOutputs ∨
    c ∈ state.setSpent) : c ∉ (state.applyBody sha body nSupplyDelta).2.vAddedOutputs ∧
      (state.applyBody sha body nSupplyDelta).1.mapMMRIndex[c]? = state.mapMMRIndex[c]? := by
  obtain ⟨-, horigin, hframe⟩ := applyOutputs_index sha body.vOutputs state
    (state.newUndo nSupplyDelta) c
  rw [CMWState.applyBody]
  obtain ⟨hindex, -, hadded⟩ := applyInputs_index body.vInputs
    (body.vOutputs.foldl (applyOutput sha) (state, state.newUndo nSupplyDelta)).1
    (body.vOutputs.foldl (applyOutput sha) (state, state.newUndo nSupplyDelta)).2
  have hnot : c ∉ (body.vOutputs.foldl (applyOutput sha)
      (state, state.newUndo nSupplyDelta)).2.vAddedOutputs := by
    intro hmem
    rcases horigin hmem with hnone | ⟨hnew, out, hout, rfl, hnull⟩
    · simp [newUndo] at hnone
    · exact hused.elim hnew (hfresh out hout hnull)
  rw [hindex, hadded]
  exact ⟨hnot, hframe hnot⟩

/-- Nothing that is unspent or spent is forgotten by a block. -/
theorem applyBody_used (hkeyed : Keyed state.mapOutputs) (body : CMWTransactionBody)
    (nSupplyDelta : Int64) (hused : c ∈ state.mapOutputs ∨ c ∈ state.setSpent) :
    c ∈ (state.applyBody sha body nSupplyDelta).1.mapOutputs ∨
      c ∈ (state.applyBody sha body nSupplyDelta).1.setSpent := by
  obtain ⟨added, spent, mid, mapOutputs, setSpent, mapMMRIndex, leaves, hbody, hadded, hspent, _⟩ :=
    applyBody_spec sha state hkeyed body nSupplyDelta
  rw [hbody]
  show c ∈ mapOutputs ∨ c ∈ setSpent
  rw [hspent.marked]
  by_cases hgone : c ∈ spent.map CMWOutput.commitment
  · exact Or.inr (Or.inr hgone)
  · rcases hused with hmem | hmem
    · refine Or.inl ?_
      obtain ⟨out, hout⟩ := (mem_iff_exists _ _).mp hmem
      have hnew : c ∉ added.map CMWOutput.commitment := by
        intro hin
        obtain ⟨o, ho, rfl⟩ := mem_map.mp hin
        exact hadded.fresh o ho hmem
      rw [mem_iff_exists, hspent.frame c hgone, hadded.frame c hnew]
      exact ⟨out, hout⟩
    · exact Or.inr (Or.inl hmem)

theorem disconnectBlock_index [TransOrd H] [DecidableEq H] {hashBlock : H}
    {undo : CMWBlockUndo H} (hundo : state.mapBlockUndo[hashBlock]? = some undo)
    (fNoMWChange : Bool) (hnot : c ∉ undo.vAddedOutputs) :
    (state.disconnectBlock hashBlock fNoMWChange).2.mapMMRIndex[c]? = state.mapMMRIndex[c]? := by
  have hkept := (getElem?_foldl_erase undo.vAddedOutputs state.mapMMRIndex c).2 hnot
  simp only [disconnectBlock, hundo, foldl_unspendOutput, foldl_removeOutput]
  split
  · exact hkept
  · split
    · exact hkept
    · exact hkept

end

section

variable {sha : Sha256 uint256} {state mid last : CMWState uint256}

theorem SameSaved.trans (h : SameSaved state mid) (h' : SameSaved mid last) :
    SameSaved state last where
  mapOutputs := h.mapOutputs.trans h'.mapOutputs
  setSpent := h.setSpent.trans h'.setSpent
  mmr := h.mmr.trans h'.mmr
  mapMMRIndex c hused := by
    rw [h.mapMMRIndex c (by rwa [h'.mapOutputs, h'.setSpent]), h'.mapMMRIndex c hused]
  vKernelExcesses := h.vKernelExcesses.trans h'.vKernelExcesses
  hashLatestMWBlock := h.hashLatestMWBlock.trans h'.hashLatestMWBlock
  nHeight := h.nHeight.trans h'.nHeight
  nMWEBSupply := h.nMWEBSupply.trans h'.nMWEBSupply

theorem SameSaved.view_eq (h : SameSaved state last) : state.view = last.view := by
  simp only [view, h.mapOutputs, h.setSpent, h.mmr, h.vKernelExcesses, h.hashLatestMWBlock,
    h.nHeight, h.nMWEBSupply]

/-- **Disconnecting a fresh block** leads back to the state before it, with its
indexes, when the record found is the block's own. -/
theorem SameSaved.disconnect {before : CMWState uint256} {call : ApplyCall uint256}
    (hsame : SameSaved state mid) (hwf : before.WF) (happly : before.apply sha call = some mid)
    (hfresh : before.FreshBlock call.mwBlock.body) (hundo : state.mapBlockUndo[call.hashBlock]? =
      some (before.applyBody sha call.mwBlock.body call.nSupplyDelta).2) (fNoMWChange : Bool) :
    (state.disconnectBlock call.hashBlock fNoMWChange).1 = true ∧
      SameSaved (state.disconnectBlock call.hashBlock fNoMWChange).2 before := by
  obtain ⟨undone, hdisc, hview, _⟩ := hwf.disconnect_apply happly hsame.view_eq hundo fNoMWChange
  have hmid := (apply_cases happly (Prod.eta _).symm).2
  refine ⟨by rw [hdisc], ?_⟩
  have hindex : ∀ c, c ∈ before.mapOutputs ∨ c ∈ before.setSpent →
      undone.mapMMRIndex[c]? = before.mapMMRIndex[c]? := by
    intro c hused
    obtain ⟨hnot, hkept⟩ := hfresh.applyBody_index sha call.nSupplyDelta hused
    have hafter : c ∈ mid.mapOutputs ∨ c ∈ mid.setSpent := by
      rw [hmid]
      exact applyBody_used hwf.keyed _ _ hused
    have hframe := disconnectBlock_index hundo fNoMWChange hnot
    rw [hdisc] at hframe
    rw [hframe, hsame.mapMMRIndex c hafter, ← hkept, hmid]
  rw [hdisc]
  exact
    { mapOutputs := congrArg MWView.mapOutputs hview
      setSpent := congrArg MWView.setSpent hview
      mmr := congrArg MWView.mmr hview
      mapMMRIndex := hindex
      vKernelExcesses := congrArg MWView.vKernelExcesses hview
      hashLatestMWBlock := congrArg MWView.hashLatestMWBlock hview
      nHeight := congrArg MWView.nHeight hview
      nMWEBSupply := congrArg MWView.nMWEBSupply hview }

variable {names : Commitment → Option CMWOutput}

theorem SameSaved.represented (h : SameSaved state last)
    (hrep : last.Represented sha names) : state.Represented sha names :=
  hrep.congr h.mapOutputs h.setSpent h.mmr h.mapMMRIndex

/-- Part of a state that keeps the invariant keeps it. -/
theorem Remnant.represented (h : Remnant last state)
    (hrep : last.Represented sha names) : state.Represented sha names := by
  have hout : ∀ c ∈ state.mapOutputs, c ∈ last.mapOutputs := by
    intro c hmem
    obtain ⟨out, hlook⟩ := (mem_iff_exists _ _).mp hmem
    exact (mem_iff_exists _ _).mpr ⟨out, h.outputs c out hlook⟩
  refine ⟨?_, fun c out hlook => hrep.named c out (h.outputs c out hlook), ?_⟩
  · intro c hmem hspent
    exact hrep.disjoint c (hout c hmem) (h.spent c hspent)
  · intro c hused
    obtain ⟨out, hname, nIdx, hidx, hlt, hleaf⟩ := hrep.indexed c (hused.imp (hout c) (h.spent c))
    refine ⟨out, hname, nIdx, h.index c nIdx hused hidx, ?_⟩
    rcases h.mmr with hmmr | ⟨_, hnone, hnoneSpent⟩
    · rw [hmmr]
      exact ⟨hlt, hleaf⟩
    · rw [hnone, hnoneSpent] at hused
      simp at hused

/-- The sizes after a block fit in 64 bits. -/
structure Sized (state : CMWState uint256) (body : CMWTransactionBody) : Prop where
  leaves : 2 * (state.mmr.nLeaves + body.vOutputs.length) < 2 ^ 64
  kernels : state.vKernelExcesses.length + body.vKernels.length < 2 ^ 64
  proofs : ∀ out ∈ body.vOutputs, out.rangeProof.length < 2 ^ 64

theorem applyOutputs_nLeaves (sha : Sha256 uint256) (outs : List CMWOutput)
    (state : CMWState uint256) (undo : CMWBlockUndo uint256) : (outs.foldl (applyOutput sha)
    (state, undo)).1.mmr.nLeaves ≤ state.mmr.nLeaves + outs.length := by
  induction outs generalizing state undo with
  | nil => exact le_rfl
  | cons out outs ih =>
    rw [foldl_cons, length_cons, applyOutput]
    cases hadd : state.addOutput sha out with
    | none => exact Nat.le_trans (ih state undo) (by omega)
    | some next =>
      have hone : next.mmr.nLeaves = state.mmr.nLeaves + 1 := by
        simp only [CMWState.addOutput] at hadd
        split at hadd
        · cases hadd
        · split at hadd
          · cases hadd
          · cases hadd
            rfl
      exact Nat.le_trans (ih next _) (by omega)

theorem applyBody_output {body : CMWTransactionBody} {nSupplyDelta : Int64} {c : Commitment} {out : CMWOutput}
    (hlook : (state.applyBody sha body nSupplyDelta).1.mapOutputs[c]? = some out) :
    state.mapOutputs[c]? = some out ∨ out ∈ body.vOutputs := by
  rw [CMWState.applyBody] at hlook
  have houts := getElem?_applyOutputs sha body.vOutputs state (state.newUndo nSupplyDelta) c
  generalize body.vOutputs.foldl (applyOutput sha) (state, state.newUndo nSupplyDelta) = loop
    at hlook houts
  obtain ⟨mid, undo⟩ := loop
  rw [getElem?_applyInputs] at hlook
  split at hlook
  · cases hlook
  · rw [houts] at hlook
    cases hold : state.mapOutputs[c]? with
    | none =>
      rw [hold, Option.none_or] at hlook
      exact Or.inr (mem_of_find?_eq_some hlook)
    | some own =>
      rw [hold, Option.some_or] at hlook
      exact Or.inl hlook

theorem Sized.representable {call : ApplyCall uint256} (hsized : state.Sized call.mwBlock.body)
    (hrep : state.Representable) (hwf : state.WF) (happly : state.apply sha call = some mid) :
    mid.Representable := by
  have hok := (hwf.apply happly).1.mmrSize
  have hmid := (apply_cases happly (Prod.eta _).symm).2
  have hleaves : mid.mmr.nLeaves ≤ state.mmr.nLeaves + call.mwBlock.body.vOutputs.length := by
    rw [hmid]
    show (state.applyBody sha call.mwBlock.body call.nSupplyDelta).1.mmr.nLeaves ≤ _
    rw [CMWState.applyBody, (applyInputs_index call.mwBlock.body.vInputs _ _).2.1]
    exact applyOutputs_nLeaves sha _ _ _
  have hbound := hsized.leaves
  have hnodes : mid.mmr.vNodes.length ≤ 2 * mid.mmr.nLeaves := by
    rw [hok, nodeCountForLeaves]
    exact Nat.sub_le _ _
  refine ⟨by omega, by omega, ?_, ?_⟩
  · obtain ⟨_, _, _, _, _, _, _, hbody, _⟩ :=
      applyBody_spec sha state hwf.keyed call.mwBlock.body call.nSupplyDelta
    rw [hmid, hbody]
    simpa using hsized.kernels
  · intro c out hlook
    rw [hmid] at hlook
    rcases applyBody_output hlook with hold | hnew
    · exact hrep.proofs c out hold
    · exact hsized.proofs out hnew

theorem SameSaved.representable (h : SameSaved state last) (hrep : last.Representable) :
    state.Representable := by
  refine ⟨?_, ?_, ?_, ?_⟩
  · rw [h.mmr]
    exact hrep.nodes
  · rw [h.mmr]
    exact hrep.leaves
  · rw [h.vKernelExcesses]
    exact hrep.kernels
  · rw [h.mapOutputs]
    exact hrep.proofs

theorem Remnant.representable (h : Remnant last state) (hrep : last.Representable) : state.Representable := by
  refine ⟨?_, ?_, ?_, fun c out hlook => hrep.proofs c out (h.outputs c out hlook)⟩
  · rcases h.mmr with hmmr | ⟨hmmr, _⟩
    · rw [hmmr]
      exact hrep.nodes
    · simp [hmmr, CMMR.empty]
  · rcases h.mmr with hmmr | ⟨hmmr, _⟩
    · rw [hmmr]
      exact hrep.leaves
    · simp [hmmr, CMMR.empty]
  · rcases h.kernels with hkernels | hkernels
    · rw [hkernels]
      exact hrep.kernels
    · simp [hkernels]

/-- A well-formed object stays so when it takes over part of a well-formed state. -/
theorem Remnant.wf (h : Remnant last state) (hlast : last.WF) {object : CMWState uint256}
    (hobject : object.WF) (hundo : state.mapBlockUndo = object.mapBlockUndo ∧
      state.dqUndoOrder = object.dqUndoOrder) : state.WF where
  mmrSize := by
    rcases h.mmr with hmmr | ⟨hmmr, _⟩
    · rw [hmmr]
      exact hlast.mmrSize
    · rw [hmmr]
      simp [CMMR.SizeOk, CMMR.empty, nodeCountForLeaves]
  keyed c out hlook := hlast.keyed c out (h.outputs c out hlook)
  order := by
    rw [hundo.2]
    exact hobject.order
  recorded := by
    rw [hundo.1, hundo.2]
    exact hobject.recorded

end

end CMWState

end MaryJaneCoin
