import MaryJaneCoin.Mw.StateFile
import MaryJaneCoin.Mw.StatePersist

/-!
# What a failed load leaves

`LoadFromDB` clears the object as soon as the database is open and reads into it
from there on, so what a failing load leaves does not depend on what the object
held.  The undo records alone are left as they were, also when the load goes
through.

A record belongs to the loaded state when a run of `ApplyBlock` leads from the
block it is about to that state.  Such a run only ever appends to the range, so
a file whose range has leaves but no nodes shows every other record to be
foreign.
-/

namespace MaryJaneCoin

open List hiding Vector
open Std Codec Option

namespace CMMR

variable {H : Type} {hash : MMRHash H}

/-- Nothing was appended, or the range has grown since. -/
def Grown (before after : CMMR H) : Prop :=
  after = before ∨ before.vNodes.length < after.vNodes.length

theorem Grown.trans {a b c : CMMR H} (hab : Grown a b) (hbc : Grown b c) : Grown a c := by
  obtain rfl | hab := hab
  · exact hbc
  · obtain rfl | hbc := hbc
    · exact Or.inr hab
    · exact Or.inr (hab.trans hbc)

theorem length_le_mergeLoop (height idx : Nat) (vNodes : List H) :
    vNodes.length ≤ (mergeLoop hash height idx vNodes).length := by
  induction height, idx, vNodes using mergeLoop.induct hash with
  | case1 height idx vNodes hodd rightIdx leftIdx parent ih =>
    rw [mergeLoop, if_pos hodd]
    refine Nat.le_trans ?_ ih
    simp
  | case2 height idx vNodes heven => rw [mergeLoop, if_neg heven]

theorem grown_append (mmr : CMMR H) (leaf : H) : Grown mmr (mmr.append hash leaf) := by
  refine Or.inr (Nat.lt_of_lt_of_le ?_ (length_le_mergeLoop 0 mmr.nLeaves _))
  simp

end CMMR

/-- What a file can hold of a state. -/
structure StoredState where
  mapOutputs : ExtTreeMap Commitment CMWOutput
  setSpent : ExtTreeSet Commitment
  mmr : CMMR uint256
  mapMMRIndex : ExtTreeMap Commitment UInt64
  vKernelExcesses : List Commitment
  hashLatestMWBlock : uint256
  nHeight : Int32
  nMWEBSupply : Int64

namespace CMWState

/-- The part of a state that a file can hold. -/
def stored (state : CMWState uint256) : StoredState where
  mapOutputs := state.mapOutputs
  setSpent := state.setSpent
  mmr := state.mmr
  mapMMRIndex := state.mapMMRIndex
  vKernelExcesses := state.vKernelExcesses
  hashLatestMWBlock := state.hashLatestMWBlock
  nHeight := state.nHeight
  nMWEBSupply := state.nMWEBSupply

/-- `ApplyBlock` made this record on the way to a state with this part stored. -/
def MadeOnTheWay (sha : Sha256 uint256) (held : StoredState) (hashBlock : uint256)
    (undo : CMWBlockUndo uint256) : Prop :=
  ∃ (before applied later : CMWState uint256) (call : ApplyCall uint256)
      (calls : List (ApplyCall uint256)),
    before.apply sha call = some applied ∧ call.hashBlock = hashBlock ∧
      applied.mapBlockUndo[hashBlock]? = some undo ∧
      applied.applyAll sha calls = some later ∧ later.stored = held

variable {sha : Sha256 uint256}

/-- The loops of `ApplyBlock` only append to the range, and leave the number of
leaves in the record. -/
theorem applyBody_mmr (sha : Sha256 uint256) (state : CMWState uint256)
    (body : CMWTransactionBody) (nSupplyDelta : Int64) :
    state.mmr.Grown (state.applyBody sha body nSupplyDelta).1.mmr ∧
      (state.applyBody sha body nSupplyDelta).2.nMMRLeavesBefore = state.mmr.nLeaves := by
  have houtputs : ∀ (outs : List CMWOutput) (acc : CMWState uint256 × CMWBlockUndo uint256),
      acc.1.mmr.Grown (outs.foldl (applyOutput sha) acc).1.mmr ∧
        (outs.foldl (applyOutput sha) acc).2.nMMRLeavesBefore = acc.2.nMMRLeavesBefore := by
    intro outs
    induction outs with
    | nil => intro acc; exact ⟨Or.inl rfl, rfl⟩
    | cons out outs ih =>
      intro acc
      rw [foldl_cons, (ih _).2]
      have hstep : acc.1.mmr.Grown (applyOutput sha acc out).1.mmr ∧
          (applyOutput sha acc out).2.nMMRLeavesBefore = acc.2.nMMRLeavesBefore := by
        unfold applyOutput addOutput
        split_ifs
        · exact ⟨Or.inl rfl, rfl⟩
        · exact ⟨Or.inl rfl, rfl⟩
        · exact ⟨CMMR.grown_append _ _, rfl⟩
      exact ⟨hstep.1.trans (ih _).1, hstep.2⟩
  have hinputs : ∀ (ins : List CMWInput) (acc : CMWState uint256 × CMWBlockUndo uint256),
      (ins.foldl applyInput acc).1.mmr = acc.1.mmr ∧
        (ins.foldl applyInput acc).2.nMMRLeavesBefore = acc.2.nMMRLeavesBefore := by
    intro ins
    induction ins with
    | nil => intro acc; exact ⟨rfl, rfl⟩
    | cons input ins ih =>
      intro acc
      rw [foldl_cons, (ih _).1, (ih _).2]
      unfold applyInput spendOutput
      grind
  unfold applyBody
  rw [(hinputs _ _).1, (hinputs _ _).2]
  exact houtputs _ _

/-- A block appends to the range, and its record knows how many leaves there were. -/
theorem apply_mmr {before applied : CMWState uint256} {call : ApplyCall uint256}
    (happly : before.apply sha call = some applied) :
    before.mmr.Grown applied.mmr ∧
      ∀ undo, applied.mapBlockUndo[call.hashBlock]? = some undo →
        undo.nMMRLeavesBefore = before.mmr.nLeaves := by
  obtain ⟨-, rfl⟩ := apply_cases happly (Prod.eta _).symm
  obtain ⟨hgrown, hcount⟩ := applyBody_mmr sha before call.mwBlock.body call.nSupplyDelta
  refine ⟨hgrown, ?_⟩
  intro undo hundo
  simp only at hundo
  generalize (before.applyBody sha call.mwBlock.body call.nSupplyDelta).1.dqUndoOrder ++
    [call.hashBlock] = order at hundo
  obtain ⟨gone, -, hgone, hkept, -⟩ := evictUndo_spec order
    ((before.applyBody sha call.mwBlock.body call.nSupplyDelta).1.mapBlockUndo.insert
      call.hashBlock (before.applyBody sha call.mwBlock.body call.nSupplyDelta).2)
  by_cases hin : call.hashBlock ∈ gone
  · rw [hgone _ hin] at hundo
    cases hundo
  · rw [hkept _ hin, ExtTreeMap.getElem?_insert_self] at hundo
    rw [← Option.some.inj hundo]
    exact hcount

theorem applyAll_mmr {state later : CMWState uint256} {calls : List (ApplyCall uint256)}
    (happly : state.applyAll sha calls = some later) : state.mmr.Grown later.mmr := by
  refine OptionLoop.foldlM_invariant
    (fun s : CMWState uint256 => state.mmr.Grown s.mmr) ?_ happly (Or.inl rfl)
  intro call _ s s' hgrown hstep
  exact hgrown.trans (apply_mmr hstep).1

/-- A range without nodes was never appended to. -/
theorem MadeOnTheWay.leaves {held : StoredState} {hashBlock : uint256}
    {undo : CMWBlockUndo uint256} (h : MadeOnTheWay sha held hashBlock undo)
    (hnodes : held.mmr.vNodes = []) : undo.nMMRLeavesBefore = held.mmr.nLeaves := by
  obtain ⟨before, applied, later, call, calls, happly, rfl, hundo, hlater, rfl⟩ := h
  obtain ⟨hgrown, hcount⟩ := apply_mmr happly
  obtain heq | hlt := hgrown.trans (applyAll_mmr hlater)
  · rw [hcount undo hundo, stored, heq]
  · have hempty : later.mmr.vNodes = [] := hnodes
    rw [hempty] at hlt
    cases hlt

/-- A database that nothing was saved to. -/
def emptyFile : DBPath := .opened (healthy ∅)

/-- A database with a range of one leaf and no nodes. -/
def oneLeafFile : DBPath :=
  .opened (healthy ((∅ : MWStateDB).insert [DB_KEY_MMR] (putCMMR ⟨[], 1⟩)))

theorem loadFromPath_emptyFile (reserves : Nat → Bool) (state : CMWState uint256) :
    (loadFromPath reserves emptyFile state).1 = .returned true := rfl

theorem loadFromPath_oneLeafFile (reserves : Nat → Bool) (state : CMWState uint256) :
    (loadFromPath reserves oneLeafFile state).1 = .returned true := rfl

/-- Whatever a record says, the loaded range of one of the two files is none that
`ApplyBlock` could have made on the way from it. -/
theorem exists_foreign (sha : Sha256 uint256) (reserves : Nat → Bool) (state : CMWState uint256)
    (hashBlock : uint256) (undo : CMWBlockUndo uint256) :
    ∃ strPath, (loadFromPath reserves strPath state).1 = .returned true ∧
      (loadFromPath reserves strPath state).2.mapBlockUndo = state.mapBlockUndo ∧
      ¬ MadeOnTheWay sha (loadFromPath reserves strPath state).2.stored hashBlock undo := by
  by_cases hzero : undo.nMMRLeavesBefore = 0
  · refine ⟨oneLeafFile, loadFromPath_oneLeafFile reserves state, rfl, ?_⟩
    intro hmade
    have hleaves : undo.nMMRLeavesBefore = 1 := hmade.leaves rfl
    rw [hzero] at hleaves
    cases hleaves
  · refine ⟨emptyFile, loadFromPath_emptyFile reserves state, rfl, ?_⟩
    intro hmade
    exact hzero (hmade.leaves rfl)

/-- **When a load is all or nothing.**  A failing load at a path leaves every
object as it was exactly if it never gets to a database there.  No load leaves a
foreign record in an object exactly if the object had none. -/
theorem load_leaves_intact_iff (sha : Sha256 uint256) :
    (∀ (reserves : Nat → Bool) (strPath : DBPath),
      (∀ state, (loadFromPath reserves strPath state).1 = .returned false →
          (loadFromPath reserves strPath state).2 = state) ↔
        strPath = .missing ∨ strPath = .unopenable ∨
          ∀ state, (loadFromPath reserves strPath state).1 ≠ .returned false) ∧
    ∀ state : CMWState uint256, (∀ (reserves : Nat → Bool) (strPath : DBPath),
        (loadFromPath reserves strPath state).1 = .returned true →
          ∀ hashBlock undo, state.mapBlockUndo[hashBlock]? = some undo →
            (loadFromPath reserves strPath state).2.mapBlockUndo[hashBlock]? = some undo →
            MadeOnTheWay sha (loadFromPath reserves strPath state).2.stored hashBlock undo) ↔
        ∀ hashBlock : uint256, state.mapBlockUndo[hashBlock]? = none := by
  constructor
  · intro reserves strPath
    cases strPath with
    | missing => exact ⟨fun _ => Or.inl rfl, fun _ _ _ => rfl⟩
    | unopenable => exact ⟨fun _ => Or.inr (Or.inl rfl), fun _ _ _ => rfl⟩
    | opened db =>
      constructor
      · intro hintact
        refine Or.inr (Or.inr ?_)
        intro state hfails
        -- the height is cleared before anything is read, so both objects end as one
        have hother : loadFromPath reserves (.opened db)
            { state with nHeight := state.nHeight + 1 } = loadFromPath reserves (.opened db) state :=
          rfl
        have hraised := hintact { state with nHeight := state.nHeight + 1 } (by rw [hother, hfails])
        rw [hother, hintact state hfails] at hraised
        have hheight : state.nHeight = state.nHeight + 1 := congrArg nHeight hraised
        grind
      · intro h state hfails
        obtain h | h | h := h
        · cases h
        · cases h
        · exact absurd hfails (h state)
  · intro state
    constructor
    · intro hnone hashBlock
      cases hundo : state.mapBlockUndo[hashBlock]? with
      | none => rfl
      | some undo =>
        obtain ⟨strPath, hloads, hkept, hforeign⟩ :=
          exists_foreign sha (fun _ => true) state hashBlock undo
        have hstays : (loadFromPath (fun _ => true) strPath state).2.mapBlockUndo[hashBlock]? =
            some undo := by
          rw [hkept, hundo]
        exact absurd (hnone _ strPath hloads hashBlock undo hundo hstays) hforeign
    · intro hnone reserves strPath _ hashBlock undo hundo
      rw [hnone hashBlock] at hundo
      cases hundo

/-- A database of a later version. -/
def laterVersionFile : DBPath :=
  .opened (healthy ((∅ : MWStateDB).insert [DB_KEY_VERSION] (putInt32 2)))

/-- The state after two blocks with hashes 7 and 8, the first with an output. -/
def twoBlockSample : CMWState uint256 :=
  (applyAll countingSha (empty countingSha)
    [⟨⟨0, ⟨[], [sampleOutput 4], []⟩, [], 1, Vector.replicate 32 0⟩, 1, 7, 0⟩,
      ⟨⟨0, ⟨[], [], []⟩, [], 2, Vector.replicate 32 0⟩, 2, 8, 0⟩]).getD (empty countingSha)

/-- **A load that fails clears the state**, and one that goes through keeps the
record of a block that the loaded state knows nothing of. -/
theorem load_clears_state :
    ((loadFromPath (fun _ => true) laterVersionFile twoBlockSample).1 = .returned false ∧
      twoBlockSample.nHeight = 2 ∧
      (loadFromPath (fun _ => true) laterVersionFile twoBlockSample).2.nHeight = 0) ∧
    (loadFromPath (fun _ => true) emptyFile twoBlockSample).1 = .returned true ∧
      ∃ undo, twoBlockSample.mapBlockUndo[(8 : uint256)]? = some undo ∧
        (loadFromPath (fun _ => true) emptyFile twoBlockSample).2.mapBlockUndo[(8 : uint256)]? =
          some undo ∧
        ¬ MadeOnTheWay countingSha (loadFromPath (fun _ => true) emptyFile twoBlockSample).2.stored
          8 undo := by
  refine ⟨by decide +kernel, by decide +kernel, ?_⟩
  have hrecord : (twoBlockSample.mapBlockUndo[(8 : uint256)]?).any
      (fun undo => undo.nMMRLeavesBefore == 1) = true := by decide +kernel
  obtain ⟨undo, hundo, hcount⟩ := (Option.any_eq_true _ _).mp hrecord
  refine ⟨undo, hundo, hundo, ?_⟩
  intro hmade
  have hleaves : undo.nMMRLeavesBefore = 0 := hmade.leaves rfl
  rw [beq_iff_eq.mp hcount] at hleaves
  cases hleaves

end CMWState

end MaryJaneCoin
