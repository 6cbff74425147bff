import MaryJaneCoin.Lib.KeyOrder
import MaryJaneCoin.Lib.OptionLoop
import MaryJaneCoin.Mw.ValueBalance

/-!
# The order of a body

`CMWTransactionBody::Sort` puts inputs and outputs in the order of their commitments and kernels
in that of their hashes.  Where these differ, the order tells nothing: it is one and the same for
every arrangement, and neither the totals nor the commitment sum see it.
-/

namespace MaryJaneCoin

open Std KeyOrder

theorem noDescent_iff {α : Type} {lt : α → α → Bool} {l : List α} :
    noDescent lt l = true ↔ l.IsChain fun a b => lt b a = false := by
  induction l with
  | nil => exact ⟨fun _ => .nil, fun _ => rfl⟩
  | cons a l ih =>
    cases l with
    | nil => exact ⟨fun _ => .singleton a, fun _ => rfl⟩
    | cons b l =>
      rw [noDescent, Bool.and_eq_true, ih, List.isChain_cons_cons, Bool.not_eq_true']

namespace CMWTransactionBody

variable {H : Type} (sha : Sha256 H)

/-- `CMWTransactionBody::Sort`; `std::sort` leaves the order of equal elements
open. -/
def sort [Ord H] (body : CMWTransactionBody) : CMWTransactionBody where
  vInputs := body.vInputs.insertionSort fun a b => compare b.commitment a.commitment ≠ .lt
  vOutputs := body.vOutputs.insertionSort fun a b => compare b.commitment a.commitment ≠ .lt
  vKernels := body.vKernels.insertionSort fun a b =>
    compare (b.getSignatureMessage sha) (a.getSignatureMessage sha) ≠ .lt

theorem sort_eq [Ord H] (body : CMWTransactionBody) : body.sort sha =
      { vInputs := sortOn CMWInput.commitment body.vInputs
        vOutputs := sortOn CMWOutput.commitment body.vOutputs
        vKernels := sortOn (CMWKernel.getSignatureMessage sha) body.vKernels } := rfl

/-- No two inputs, outputs or kernels compare equal. -/
structure Distinct (body : CMWTransactionBody) : Prop where
  vInputs : (body.vInputs.map CMWInput.commitment).Nodup
  vOutputs : (body.vOutputs.map CMWOutput.commitment).Nodup
  vKernels : (body.vKernels.map (CMWKernel.getSignatureMessage sha)).Nodup

/-- The components of one body, in another order. -/
structure Rearranges (body' body : CMWTransactionBody) : Prop where
  vInputs : body'.vInputs.Perm body.vInputs
  vOutputs : body'.vOutputs.Perm body.vOutputs
  vKernels : body'.vKernels.Perm body.vKernels

theorem sort_rearranges [Ord H] (body : CMWTransactionBody) : (body.sort sha).Rearranges body where
  vInputs := sortOn_perm _ _
  vOutputs := sortOn_perm _ _
  vKernels := sortOn_perm _ _

variable {sha} {body body' : CMWTransactionBody}

/-- **`Sort`** forgets the arrangement. -/
theorem sort_eq_of_rearranges [Ord H] [TransOrd H] [LawfulEqOrd H] (hdistinct : body.Distinct sha)
    (h : body'.Rearranges body) : body'.sort sha = body.sort sha := by
  rw [sort_eq, sort_eq, sortOn_eq_of_perm hdistinct.vInputs h.vInputs,
    sortOn_eq_of_perm hdistinct.vOutputs h.vOutputs,
    sortOn_eq_of_perm hdistinct.vKernels h.vKernels]

/-- **The order check** accepts what `Sort` leaves as it is. -/
theorem isCanonicallyOrdered_iff [Ord H] [TransOrd H] :
    body.isCanonicallyOrdered sha = true ↔ body.sort sha = body := by
  have hsorted : body.sort sha = body ↔ sortOn CMWInput.commitment body.vInputs = body.vInputs ∧
      sortOn CMWOutput.commitment body.vOutputs = body.vOutputs ∧
      sortOn (CMWKernel.getSignatureMessage sha) body.vKernels = body.vKernels := by
    constructor
    · intro h
      exact ⟨congrArg CMWTransactionBody.vInputs h, congrArg CMWTransactionBody.vOutputs h,
        congrArg CMWTransactionBody.vKernels h⟩
    · intro h
      rw [sort_eq, h.1, h.2.1, h.2.2]
  rw [hsorted, sortOn_eq_self_iff, sortOn_eq_self_iff, sortOn_eq_self_iff,
    isCanonicallyOrdered, Bool.and_eq_true, Bool.and_eq_true, noDescent_iff, noDescent_iff,
    noDescent_iff, and_assoc]
  simp only [beq_eq_false_iff_ne]
  rfl

theorem Rearranges.getTotalFee (h : body'.Rearranges body) : body'.getTotalFee = body.getTotalFee := by
  rw [getTotalFee_eq, getTotalFee_eq, WrappedSum.wrapped_perm h.vKernels]

theorem Rearranges.getTotalPegIn (h : body'.Rearranges body) : body'.getTotalPegIn = body.getTotalPegIn := by
  rw [getTotalPegIn_eq, getTotalPegIn_eq]
  exact WrappedSum.wrapped_perm (h.vKernels.filter _)

theorem Rearranges.getTotalPegOut (h : body'.Rearranges body) :
    body'.getTotalPegOut = body.getTotalPegOut := by
  rw [getTotalPegOut_eq, getTotalPegOut_eq]
  exact WrappedSum.wrapped_perm (h.vKernels.filter _)

end CMWTransactionBody

variable {H P : Type} [AddCommGroup P] [DecidableEq P] {crypto : MWCrypto H} {curve : Secp256k1 P}
  {body body' : CMWTransactionBody}

/-- **The sum check** does not see the order of its commitments. -/
theorem PedersenContext.verifyCommitmentSum_perm {vPositive vPositive' vNegative vNegative' : List Commitment}
    (hpos : vPositive'.Perm vPositive) (hneg : vNegative'.Perm vNegative) :
    verifyCommitmentSum curve vPositive' vNegative' = verifyCommitmentSum curve vPositive vNegative := by
  have hsum : ((vPositive'.filterMap (parseCanonical curve)) ++
      (vNegative'.filterMap (parseCanonical curve)).map fun key => -key).sum =
      ((vPositive.filterMap (parseCanonical curve)) ++
        (vNegative.filterMap (parseCanonical curve)).map fun key => -key).sum :=
    ((hpos.filterMap _).append ((hneg.filterMap _).map _)).sum_eq
  rw [verifyCommitmentSum, verifyCommitmentSum, hpos.isEmpty_eq, hneg.isEmpty_eq, OptionLoop.mapM_eq,
    OptionLoop.mapM_eq, OptionLoop.mapM_eq, OptionLoop.mapM_eq, hpos.all_eq, hneg.all_eq]
  cases vPositive.all fun c => (parseCanonical curve c).isSome with
  | false => rfl
  | true =>
    cases vNegative.all fun c => (parseCanonical curve c).isSome with
    | false => rfl
    | true =>
      simp only [if_true, Secp256k1.ecPubkeyCombine, hsum]

theorem verifyCommitmentSum_rearranges (h : body'.Rearranges body) (offset : BlindingFactor) :
    verifyCommitmentSum (crypto.withPedersen curve) body' offset =
      verifyCommitmentSum (crypto.withPedersen curve) body offset := by
  rw [verifyCommitmentSum, verifyCommitmentSum, h.getTotalFee, h.getTotalPegIn, h.getTotalPegOut]
  apply PedersenContext.verifyCommitmentSum_perm
  · exact (h.vOutputs.map _).append_right _
  · exact ((((h.vInputs.map _).append (h.vKernels.map _)).append_right _).append_right _).append_right _

/-- **Canonical order.**  A body whose commitments and kernel hashes differ has one order, which
`Sort` finds and `IsCanonicallyOrdered` recognises, and which changes no total and no verdict. -/
theorem canonical_order [Ord H] [TransOrd H] [LawfulEqOrd H] (crypto : MWCrypto H) (curve : Secp256k1 P)
    (hdistinct : body.Distinct crypto.toSha256) : (∀ body' : CMWTransactionBody,
      body'.Rearranges body → body'.sort crypto.toSha256 = body.sort crypto.toSha256) ∧
    (body.isCanonicallyOrdered crypto.toSha256 = true ↔ body.sort crypto.toSha256 = body) ∧
    (body.sort crypto.toSha256).getTotalFee = body.getTotalFee ∧
    (body.sort crypto.toSha256).getTotalPegIn = body.getTotalPegIn ∧
    (body.sort crypto.toSha256).getTotalPegOut = body.getTotalPegOut ∧
    ∀ offset, verifyCommitmentSum (crypto.withPedersen curve) (body.sort crypto.toSha256) offset =
      verifyCommitmentSum (crypto.withPedersen curve) body offset := by
  have hsorted := CMWTransactionBody.sort_rearranges crypto.toSha256 body
  exact ⟨fun body' h => CMWTransactionBody.sort_eq_of_rearranges hdistinct h,
    CMWTransactionBody.isCanonicallyOrdered_iff, hsorted.getTotalFee, hsorted.getTotalPegIn,
    hsorted.getTotalPegOut, verifyCommitmentSum_rearranges hsorted⟩

/-- Two outputs and two kernels, against their order. -/
def unorderedBody : CMWTransactionBody where
  vInputs := []
  vOutputs := [sampleOutput 5, sampleOutput 3]
  vKernels := [feeKernel 2 4, feeKernel 1 4]

theorem canonical_order_unordered : unorderedBody.Distinct transparent ∧
      (CMWTransactionBody.mk [] [sampleOutput 3, sampleOutput 5] [feeKernel 1 4,
        feeKernel 2 4]).sort transparent =
        unorderedBody.sort transparent ∧ unorderedBody.sort transparent ≠ unorderedBody := by
  have hdistinct : unorderedBody.Distinct transparent :=
    ⟨by decide +kernel, by decide +kernel, by decide +kernel⟩
  obtain ⟨hsame, horder, -⟩ := canonical_order accepting sampleCurve hdistinct
  refine ⟨hdistinct, hsame _ ⟨?_, ?_, ?_⟩, fun h => ?_⟩
  · exact .nil
  · exact .swap _ _ _
  · exact .swap _ _ _
  · have hordered := horder.mpr h
    exact absurd hordered (by decide +kernel)

end MaryJaneCoin
