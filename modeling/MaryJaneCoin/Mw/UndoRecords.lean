import MaryJaneCoin.Mw.StateLoops
import MaryJaneCoin.Mw.Validation

/-!
# The marks that applying and unwinding leave

What one `ApplyBlock` or `DisconnectBlock` does to the undo records and to the
latest block hash, in any state.  Unwinding consumes the record of its block,
applying moves the latest hash on to one that contains the previous one.
-/

namespace MaryJaneCoin

open Std List

/-- No digest is, over any number of hashes, contained in its own preimage:
digests can be ranked so that hashing leads upwards. -/
def Sha256.Acyclic {H : Type} (sha : Sha256 H) : Prop :=
  ∃ rank : H → Nat, ∀ (data : Preimage H) (h : H), .digest h ∈ data → rank h < rank (sha.sha256 data)

theorem transparent_acyclic : transparent.Acyclic := by
  refine ⟨List.length, ?_⟩
  intro data h hmem
  show h.length < (data.flatMap _).length + 1
  induction data with
  | nil => cases hmem
  | cons atom data ih =>
    rw [flatMap_cons, length_append]
    rcases List.mem_cons.mp hmem with rfl | hmem
    · simp only [length_cons]
      omega
    · have := ih hmem
      omega

namespace CMWState

variable {H : Type} [Ord H] {sha : Sha256 H}

variable [TransOrd H] {state state' : CMWState H} {hashBlock : H}

variable [DecidableEq H] {fNoMWChange : Bool}

/-- **`DisconnectBlock`** that returns `true` consumes the record, if there is
one. -/
theorem disconnectBlock_true (h : state.disconnectBlock hashBlock fNoMWChange = (true, state')) :
    (hashBlock ∉ state.mapBlockUndo ∧ state' = state) ∨ (hashBlock ∈ state.mapBlockUndo ∧
      state'.mapBlockUndo = state.mapBlockUndo.erase hashBlock) := by
  unfold disconnectBlock at h
  cases hlook : state.mapBlockUndo[hashBlock]? with
  | none =>
    simp only [hlook, Prod.mk.injEq] at h
    refine Or.inl ⟨?_, h.2.symm⟩
    intro hmem
    obtain ⟨record, hrecord⟩ := (FinMap.mem_iff_exists _ _).mp hmem
    rw [hlook] at hrecord
    cases hrecord
  | some undo =>
    refine Or.inr ⟨(FinMap.mem_iff_exists _ _).mpr ⟨undo, hlook⟩, ?_⟩
    simp only [hlook, foldl_unspendOutput, foldl_removeOutput] at h
    split at h
    · cases h
    · split at h
      · cases h
      · cases h
        rfl

/-- A failing `DisconnectBlock` consumes nothing. -/
theorem disconnectBlock_false (h : state.disconnectBlock hashBlock fNoMWChange = (false, state')) :
    state'.mapBlockUndo = state.mapBlockUndo := by
  unfold disconnectBlock at h
  cases hlook : state.mapBlockUndo[hashBlock]? with
  | none =>
    simp only [hlook, Prod.mk.injEq] at h
    rw [h.2]
  | some undo =>
    simp only [hlook, foldl_unspendOutput, foldl_removeOutput] at h
    split at h
    · cases h
      rfl
    · split at h
      · cases h
        rfl
      · cases h

end CMWState

end MaryJaneCoin
