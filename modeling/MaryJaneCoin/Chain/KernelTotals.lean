import MaryJaneCoin.Chain.Transaction
import MaryJaneCoin.Mw.ValueBalance

/-!
# The kernel totals of `mw/models/tx_body.h`

`GetTotalFee`, `GetTotalPegIn` and `GetTotalPegOut` add up any number of kernels
in 64 bits, and the range check of a block sees the result only.
`ValidateMWBlock` looks at the amounts of each kernel before; `CheckTransaction`
looks at the sign of the fees and at nothing else.
-/

namespace MaryJaneCoin

open Std WrappedSum

namespace CMWTransactionBody

variable (body : CMWTransactionBody)

/-- Every amount that is pegged in or out is positive. -/
def PegsPositive : Prop :=
  ∀ kernel ∈ body.vKernels, kernel.isPegIn ∨ kernel.isPegOut → 0 < kernel.nPegAmount

instance : Decidable body.PegsPositive :=
  inferInstanceAs (Decidable (∀ kernel ∈ body.vKernels, _))

/-- The totals are the sums over the kernels, and what they count is positive. -/
structure TotalsExact : Prop where
  fee : body.getTotalFee.toInt = WrappedSum.exact CMWKernel.nFee body.vKernels
  pegIn : body.getTotalPegIn.toInt = WrappedSum.exact CMWKernel.nPegAmount body.pegIns
  pegOut : body.getTotalPegOut.toInt = WrappedSum.exact CMWKernel.nPegAmount body.pegOuts
  positive : body.PegsPositive

/-- The sums over the kernels fit into 64 bits. -/
def AmountsFit : Prop :=
  WrappedSum.exact CMWKernel.nFee body.vKernels < 2 ^ 63 ∧
    WrappedSum.exact CMWKernel.nPegAmount body.pegIns < 2 ^ 63 ∧
    WrappedSum.exact CMWKernel.nPegAmount body.pegOuts < 2 ^ 63

instance : Decidable body.AmountsFit := inferInstanceAs (Decidable (_ ∧ _ ∧ _))

variable {body}

theorem PegsPositive.pegIns_nonneg (h : body.PegsPositive) :
    0 ≤ WrappedSum.exact CMWKernel.nPegAmount body.pegIns := by
  apply exact_nonneg
  intro kernel hkernel
  obtain ⟨hmem, hpegIn⟩ := List.mem_filter.mp hkernel
  exact Int64.le_iff_toInt_le.mp (Int64.le_of_lt (h kernel hmem (Or.inl hpegIn)))

theorem PegsPositive.pegOuts_nonneg (h : body.PegsPositive) :
    0 ≤ WrappedSum.exact CMWKernel.nPegAmount body.pegOuts := by
  apply exact_nonneg
  intro kernel hkernel
  obtain ⟨hmem, hpegOut⟩ := List.mem_filter.mp hkernel
  exact Int64.le_iff_toInt_le.mp (Int64.le_of_lt (h kernel hmem (Or.inr hpegOut)))

theorem totalsExact_iff (hfees : ∀ kernel ∈ body.vKernels, 0 ≤ kernel.nFee) :
    body.TotalsExact ↔ body.PegsPositive ∧ body.AmountsFit := by
  have hfee : 0 ≤ WrappedSum.exact CMWKernel.nFee body.vKernels := by
    apply exact_nonneg
    intro kernel hkernel
    exact Int64.le_iff_toInt_le.mp (hfees kernel hkernel)
  constructor
  · intro h
    refine ⟨h.positive, ?_, ?_, ?_⟩
    · exact (toInt_wrapped_iff_fits hfee).mp h.fee
    · apply (toInt_wrapped_iff_fits h.positive.pegIns_nonneg).mp
      rw [← getTotalPegIn_eq, h.pegIn]
    · apply (toInt_wrapped_iff_fits h.positive.pegOuts_nonneg).mp
      rw [← getTotalPegOut_eq, h.pegOut]
  · intro h
    obtain ⟨hpositive, hfeeFits, hpegInFits, hpegOutFits⟩ := h
    refine ⟨?_, ?_, ?_, hpositive⟩
    · exact (toInt_wrapped_iff_fits hfee).mpr hfeeFits
    · rw [getTotalPegIn_eq]
      exact (toInt_wrapped_iff_fits hpositive.pegIns_nonneg).mpr hpegInFits
    · rw [getTotalPegOut_eq]
      exact (toInt_wrapped_iff_fits hpositive.pegOuts_nonneg).mpr hpegOutFits

end CMWTransactionBody

theorem checkKernels_eq_none {kernels : List CMWKernel} :
    ∀ {i}, checkKernels i kernels = none → ∀ kernel ∈ kernels,
      moneyRange kernel.nFee ∧ (kernel.isPegIn ∨ kernel.isPegOut → 0 < kernel.nPegAmount) := by
  induction kernels with
  | nil =>
    intro i _ kernel hkernel
    cases hkernel
  | cons first kernels ih =>
    intro i hnone kernel hkernel
    rw [checkKernels] at hnone
    split at hnone
    · cases hnone
    split at hnone
    · cases hnone
    split at hnone
    · cases hnone
    rename_i hfee hpeg
    rcases List.mem_cons.mp hkernel with rfl | hkernel
    · refine ⟨by simpa using hfee, ?_⟩
      intro hfeature
      by_contra hnonpos
      have hle : kernel.nPegAmount ≤ 0 := Int64.not_lt.mp hnonpos
      apply hpeg
      simp [hle, hfeature]
    · exact ih hnone kernel hkernel

variable {H : Type} [DecidableEq H] {crypto : MWCrypto H}

theorem validateMWBlock_kernels [Ord H] {block : CMWBlock H} {state : CMWState H}
    {nBlockHeight : Int32} {nTransparentPegIn nTransparentPegOut : Int64}
    (hvalid : (validateMWBlock crypto block state nBlockHeight nTransparentPegIn
      nTransparentPegOut).isValid = true) :
    (∀ kernel ∈ block.body.vKernels, 0 ≤ kernel.nFee) ∧ block.body.PegsPositive := by
  have hkernels : checkKernels 0 block.body.vKernels = none :=
    eq_none_of_isValid hvalid (by simp [validationChecks])
  constructor
  · intro kernel hkernel
    have hrange := (checkKernels_eq_none hkernels kernel hkernel).1
    rw [moneyRange, Bool.and_eq_true, decide_eq_true_iff] at hrange
    exact hrange.1
  · intro kernel hkernel
    exact (checkKernels_eq_none hkernels kernel hkernel).2

theorem CTransaction.checkTransaction_fees {tx : CTransaction H}
    (hcheck : tx.checkTransaction crypto = true) (hmweb : tx.hasMWEB = true) :
    ∀ kernel ∈ tx.mwTx.body.vKernels, 0 ≤ kernel.nFee := by
  simp only [CTransaction.checkTransaction, hmweb, Bool.and_eq_true, Bool.not_true,
    Bool.false_or, List.all_eq_true, decide_eq_true_eq] at hcheck
  exact hcheck.2.2

/-- **When the kernel totals are exact.**  In an accepted block, when the sums of
fees and of amounts fit into 64 bits; in an accepted transaction, when the
amounts are positive as well. -/
theorem kernel_totals_exact_iff [Ord H] (crypto : MWCrypto H) :
    (∀ (block : CMWBlock H) (state : CMWState H) (nBlockHeight : Int32)
        (nTransparentPegIn nTransparentPegOut : Int64),
      (validateMWBlock crypto block state nBlockHeight nTransparentPegIn nTransparentPegOut).isValid = true →
      (block.body.TotalsExact ↔ block.body.AmountsFit)) ∧
    ∀ tx : CTransaction H, tx.checkTransaction crypto = true → tx.hasMWEB = true →
      (tx.mwTx.body.TotalsExact ↔ tx.mwTx.body.PegsPositive ∧ tx.mwTx.body.AmountsFit) := by
  constructor
  · intro block state nBlockHeight nTransparentPegIn nTransparentPegOut hvalid
    obtain ⟨hfees, hpositive⟩ := validateMWBlock_kernels hvalid
    rw [CMWTransactionBody.totalsExact_iff hfees]
    exact and_iff_right hpositive
  · intro tx hcheck hmweb
    exact CMWTransactionBody.totalsExact_iff (CTransaction.checkTransaction_fees hcheck hmweb)

/-- A transaction with a Mimblewimble part of these kernels. -/
def kernelTx (vKernels : List CMWKernel) : CTransaction (List Nat) :=
  { sampleTx 5 [⟨⟨[7], 0⟩, [], 0⟩] [⟨1, []⟩] with
    nVersion := CT_TX_VERSION
    mwTx := ⟨⟨[], [], vKernels⟩, nullBlind⟩ }

theorem kernel_totals_exact_balanced : balancedBlock.body.TotalsExact ∧
      (kernelTx [feeKernel 0 1, feeKernel 0 (samplePrime - 1)]).mwTx.body.TotalsExact := by
  obtain ⟨hblocks, htxs⟩ := kernel_totals_exact_iff (proving.withPedersen sampleCurve)
  constructor
  · exact (hblocks balancedBlock fundedState 1 0 0 (by decide +kernel)).mpr (by decide +kernel)
  · exact (htxs _ (by decide +kernel) (by decide +kernel)).mpr (by decide +kernel)

/-- A kernel with a fee of `2 ^ 62` that pegs in a negative amount. -/
def negativePegKernel (blind : Nat) : CMWKernel :=
  { feeKernel 4611686018427387904 blind with
    nFeatures := KERNEL_PEGIN
    nPegAmount := -5 }

/-- Four of them, under blinds that add up to zero. -/
def negativePegTx : CTransaction (List Nat) :=
  kernelTx [negativePegKernel 1, negativePegKernel 1, negativePegKernel 1,
    negativePegKernel (samplePrime - 3)]

/-- **Fees of `2 ^ 64`** count as nothing in a block and in a transaction, and a
transaction pegs in less than nothing. -/
theorem kernel_totals_wrap : ((validateMWBlock (proving.withPedersen sampleCurve) overflowBlock
        (CMWState.empty transparent) 1 0 0).isValid = true ∧ overflowBlock.body.getTotalFee = 0 ∧
      WrappedSum.exact CMWKernel.nFee overflowBlock.body.vKernels = 2 ^ 64) ∧
    negativePegTx.checkTransaction (proving.withPedersen sampleCurve) = true ∧
      negativePegTx.hasMWEB = true ∧ negativePegTx.mwTx.body.getTotalFee = 0 ∧
      WrappedSum.exact CMWKernel.nFee negativePegTx.mwTx.body.vKernels = 2 ^ 64 ∧
      negativePegTx.mwTx.body.getTotalPegIn = -20 ∧ ∀ kernel ∈ negativePegTx.mwTx.body.vKernels,
        kernel.isPegIn = true ∧ ¬ 0 < kernel.nPegAmount := by
  decide +kernel

end MaryJaneCoin
