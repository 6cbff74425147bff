import MaryJaneCoin.Lib.WrappedSum
import MaryJaneCoin.Mw.ProofVerify

/-!
# What the commitment sum conserves

`VerifyCommitmentSum` of `mw/validation.cpp` commits to the public amounts of a
body under the zero blind.  Such a commitment is null and no sum with it
verifies, so a body that balances has totals of zero.  The totals wrap around
at 64 bits: what they leave out is a multiple of `2 ^ 64`.
-/

namespace MaryJaneCoin

open List hiding Vector
open Std Opening PedersenContext

/-- The commitments of `mw/crypto/pedersen.cpp` in place of the parameters. -/
def MWCrypto.withPedersen {H P : Type} [AddCommGroup P] [DecidableEq P] (crypto : MWCrypto H)
    (curve : Secp256k1 P) : MWCrypto H :=
  { crypto with
    commit := PedersenContext.commit curve
    commitBlind := PedersenContext.commitBlind curve
    verifySum := PedersenContext.verifyCommitmentSum curve }

namespace CMWTransactionBody

variable (body : CMWTransactionBody)

def pegIns : List CMWKernel := body.vKernels.filter CMWKernel.isPegIn
def pegOuts : List CMWKernel := body.vKernels.filter CMWKernel.isPegOut

theorem getTotalFee_eq : body.getTotalFee = WrappedSum.wrapped CMWKernel.nFee body.vKernels := rfl

theorem getTotalPegIn_eq : body.getTotalPegIn = WrappedSum.wrapped CMWKernel.nPegAmount body.pegIns :=
  foldl_filter.symm

theorem getTotalPegOut_eq : body.getTotalPegOut = WrappedSum.wrapped CMWKernel.nPegAmount body.pegOuts :=
  foldl_filter.symm

/-- The values of outputs and inputs differ by what the exact public amounts
say, modulo the order. -/
def Conserves (order : Nat) (value : Commitment → Int) : Prop :=
  (body.vOutputs.map fun output => value output.commitment).sum +
      WrappedSum.exact CMWKernel.nFee body.vKernels +
      WrappedSum.exact CMWKernel.nPegAmount body.pegOuts ≡
    (body.vInputs.map fun input => value input.commitment).sum +
      WrappedSum.exact CMWKernel.nPegAmount body.pegIns [ZMOD order]

instance (order : Nat) (value : Commitment → Int) : Decidable (body.Conserves order value) :=
  inferInstanceAs (Decidable (Int.ModEq _ _ _))

/-- How often a total in 64 bits wraps around. -/
def wraps (f : CMWKernel → Int64) (kernels : List CMWKernel) : Int :=
  WrappedSum.exact f kernels / 2 ^ 64

end CMWTransactionBody

variable {H P : Type} [AddCommGroup P] [DecidableEq P] {crypto : MWCrypto H} {curve : Secp256k1 P}
  {body : CMWTransactionBody} {offset : BlindingFactor}

theorem nullCommitment_mem_publicCommit {nAmount : Int64} (hpos : 0 < nAmount) :
    nullCommitment ∈ publicCommit (crypto.withPedersen curve) nAmount := by
  rw [publicCommit, if_pos hpos]
  have hnull : PedersenContext.commit curve nAmount nullBlind = nullCommitment :=
    commit_nullBlind nAmount
  exact mem_singleton.mpr hnull.symm

/-- **What a verified sum says**: no total is positive, every commitment encodes
a point, and the outputs are the inputs, the excesses and the offset. -/
theorem verifyCommitmentSum_spec (h : verifyCommitmentSum (crypto.withPedersen curve) body offset = true) :
    ¬ 0 < body.getTotalFee ∧ ¬ 0 < body.getTotalPegIn ∧ ¬ 0 < body.getTotalPegOut ∧
      ∃ Q : P, Opens curve.H curve.G Q 0 ∧
        (body.vOutputs.map fun output => point curve output.commitment).sum =
          (body.vInputs.map fun input => point curve input.commitment).sum +
            (body.vKernels.map fun kernel => point curve kernel.excess).sum + Q := by
  obtain ⟨hparse, hsum⟩ := verifyCommitmentSum_true h
  have hnull : ¬ (curve.parse nullCommitment).isSome := by
    rw [Secp256k1.parse_nullCommitment]
    exact Bool.false_ne_true
  have hfee : ¬ 0 < body.getTotalFee := fun hpos =>
    hnull (hparse _ (by simp [nullCommitment_mem_publicCommit hpos]))
  have hpegIn : ¬ 0 < body.getTotalPegIn := fun hpos =>
    hnull (hparse _ (by simp [nullCommitment_mem_publicCommit hpos]))
  have hpegOut : ¬ 0 < body.getTotalPegOut := fun hpos =>
    hnull (hparse _ (by simp [nullCommitment_mem_publicCommit hpos]))
  refine ⟨hfee, hpegIn, hpegOut, ?_⟩
  simp only [publicCommit, if_neg hfee, if_neg hpegIn, if_neg hpegOut, append_nil,
    map_append, sum_append, map_map] at hsum
  refine ⟨_, ?_, hsum⟩
  by_cases hoffset : allZero offset
  · rw [if_pos hoffset]
    exact opens_zero _ _
  · rw [if_neg hoffset, map_singleton, sum_singleton]
    have hsome := hparse (PedersenContext.commitBlind curve offset) (by
      simp [MWCrypto.withPedersen, hoffset])
    obtain ⟨Q, hQ⟩ := Option.isSome_iff_exists.mp hsome
    refine ⟨scalar offset, ?_⟩
    have hzero : scalar (valueScalar 0) = 0 := by decide
    have hpoint : point curve (PedersenContext.commitBlind curve offset) = Q := by
      rw [point, hQ, Option.getD_some]
    refine hpoint.trans ?_
    rw [parse_commit hQ, committed, hzero, zero_nsmul, zero_zsmul, natCast_zsmul]

variable [Ord H] [DecidableEq H] {block : CMWBlock H} {state : CMWState H} {nBlockHeight : Int32}
  {nTransparentPegIn nTransparentPegOut : Int64}

omit [AddCommGroup P] [DecidableEq P] in
theorem validateMWBlock_sum (hvalid : (validateMWBlock crypto block state nBlockHeight nTransparentPegIn
      nTransparentPegOut).isValid = true) :
    moneyRange block.body.getTotalFee ∧ moneyRange block.body.getTotalPegIn ∧
      moneyRange block.body.getTotalPegOut ∧ verifyCommitmentSum crypto block.body block.offset = true := by
  have hrange : require (moneyRange block.body.getTotalFee && moneyRange block.body.getTotalPegIn &&
      moneyRange block.body.getTotalPegOut) .MW_ERR_INFLATION
      "aggregate fee/peg amount out of range" = none :=
    eq_none_of_isValid hvalid (by simp [validationChecks])
  have hsum : require (verifyCommitmentSum crypto block.body block.offset) .MW_ERR_COMMITMENT_SUM
      "commitment sum does not balance" = none :=
    eq_none_of_isValid hvalid (by simp [validationChecks])
  rw [require] at hrange hsum
  split at hrange
  · rename_i hranges
    split at hsum
    · rename_i hverified
      rw [Bool.and_eq_true, Bool.and_eq_true] at hranges
      exact ⟨hranges.1.1, hranges.1.2, hranges.2, hverified⟩
    · cases hsum
  · cases hrange

omit [AddCommGroup P] [DecidableEq P] [Ord H] [DecidableEq H] in
theorem eq_zero_of_moneyRange {nAmount : Int64} (hrange : moneyRange nAmount)
    (hpos : ¬ 0 < nAmount) : nAmount = 0 := by
  rw [moneyRange, Bool.and_eq_true, decide_eq_true_iff] at hrange
  exact Int64.le_antisymm (Int64.not_lt.mp hpos) hrange.1

section Balance

variable (hind : Independent curve.H curve.G curve.order) (value : Commitment → Int)
  (hvalid : (validateMWBlock (crypto.withPedersen curve) block state nBlockHeight nTransparentPegIn
    nTransparentPegOut).isValid = true) (houts : ∀ output ∈ block.body.vOutputs,
    Opens curve.H curve.G (point curve output.commitment) (value output.commitment))
  (hins : ∀ input ∈ block.body.vInputs,
    Opens curve.H curve.G (point curve input.commitment) (value input.commitment))
  (hkernels : ∀ kernel ∈ block.body.vKernels, Opens curve.H curve.G (point curve kernel.excess) 0)
include hind hvalid houts hins hkernels

/-- **An accepted block** has totals of zero, and its outputs are worth its
inputs. -/
theorem validateMWBlock_balance :
    block.body.getTotalFee = 0 ∧ block.body.getTotalPegIn = 0 ∧ block.body.getTotalPegOut = 0 ∧
      (block.body.vOutputs.map fun output => value output.commitment).sum ≡
        (block.body.vInputs.map fun input => value input.commitment).sum [ZMOD curve.order] := by
  obtain ⟨hfeeRange, hpegInRange, hpegOutRange, hverified⟩ := validateMWBlock_sum hvalid
  obtain ⟨hfee, hpegIn, hpegOut, Q, hQ, hsum⟩ := verifyCommitmentSum_spec hverified
  refine ⟨eq_zero_of_moneyRange hfeeRange hfee, eq_zero_of_moneyRange hpegInRange hpegIn,
    eq_zero_of_moneyRange hpegOutRange hpegOut, ?_⟩
  have hexcess : Opens curve.H curve.G
      (block.body.vKernels.map fun kernel => point curve kernel.excess).sum
      (block.body.vKernels.map fun _ => (0 : Int)).sum := opens_sum hkernels
  have hright := ((opens_sum hins).add hexcess).add hQ
  rw [← hsum, map_const', sum_replicate, smul_zero, add_zero, add_zero] at hright
  exact hind.modEq (opens_sum houts) hright

/-- **Value conservation.**  An accepted block conserves value exactly when its
totals of fees and of amounts pegged out wrap around as often as its total of
amounts pegged in. -/
theorem value_conservation :
    block.body.Conserves curve.order value ↔ CMWTransactionBody.wraps CMWKernel.nFee block.body.vKernels +
          CMWTransactionBody.wraps CMWKernel.nPegAmount block.body.pegOuts ≡
        CMWTransactionBody.wraps CMWKernel.nPegAmount block.body.pegIns [ZMOD curve.order] := by
  obtain ⟨hfee, hpegIn, hpegOut, hvalues⟩ := validateMWBlock_balance hind value hvalid houts hins hkernels
  rw [CMWTransactionBody.getTotalFee_eq] at hfee
  rw [CMWTransactionBody.getTotalPegIn_eq] at hpegIn
  rw [CMWTransactionBody.getTotalPegOut_eq] at hpegOut
  rw [CMWTransactionBody.Conserves, WrappedSum.exact_of_wrapped_eq_zero hfee,
    WrappedSum.exact_of_wrapped_eq_zero hpegIn, WrappedSum.exact_of_wrapped_eq_zero hpegOut]
  simp only [CMWTransactionBody.wraps]
  generalize WrappedSum.exact CMWKernel.nFee block.body.vKernels / 2 ^ 64 = fees
  generalize WrappedSum.exact CMWKernel.nPegAmount block.body.pegOuts / 2 ^ 64 = pegOuts
  generalize WrappedSum.exact CMWKernel.nPegAmount block.body.pegIns / 2 ^ 64 = pegIns
  -- the order is an odd prime, so a power of two can be cancelled
  have hcoprime : Int.gcd curve.order (2 ^ 64) = 1 := by
    have hodd : Nat.Coprime curve.order 2 := by
      rw [Nat.coprime_primes curve.order_prime Nat.prime_two]
      have := curve.two_pow_lt
      omega
    exact Nat.Coprime.pow_right 64 hodd
  have hscaled : (2 : Int) ^ 64 * fees + 2 ^ 64 * pegOuts = 2 ^ 64 * (fees + pegOuts) :=
    (Int.mul_add _ _ _).symm
  rw [Int.add_assoc, hscaled]
  constructor
  · intro h
    have hpublic := hvalues.add_left_cancel h
    have hdvd : (curve.order : Int) ∣ 2 ^ 64 * (pegIns - (fees + pegOuts)) := by
      rw [Int.mul_sub]
      exact hpublic.dvd
    exact Int.modEq_iff_dvd.mpr (Int.dvd_of_dvd_mul_right_of_gcd_one hdvd hcoprime)
  · intro h
    exact hvalues.add (h.mul_left _)

end Balance

/-- Transparent hashing and the range proofs of `BulletproofVerifier`; signatures pass. -/
def proving : MWCrypto (List Nat) := { accepting with verifyRangeProof := verify unitCrypto }

/-- An output of zero under this blind; the proof is that of the blind 1. -/
def blindedOutput (blind : Nat) : CMWOutput :=
  { sampleOutput 7 with
    commitment := PedersenContext.commit sampleCurve 0 (scalarBytes blind), rangeProof := unitProof 0 }

/-- A kernel that pays a fee under this blind. -/
def feeKernel (nFee : Int64) (blind : Nat) : CMWKernel where
  nFeatures := KERNEL_PLAIN
  nFee := nFee
  nPegAmount := 0
  nLockHeight := 0
  excess := PedersenContext.commitBlind sampleCurve (scalarBytes blind)
  signature := Vector.replicate 64 1
  pegoutScript := []

/-- The state with one output. -/
def fundedState : CMWState (List Nat) :=
  { CMWState.empty transparent with
    mapOutputs := (∅ : ExtTreeMap Commitment CMWOutput).insert (blindedOutput 3).commitment
      (blindedOutput 3) }

/-- A block that spends it without a fee. -/
def balancedBlock : CMWBlock (List Nat) where
  hashPrevMWBlock := transparent.zero
  body :=
    { vInputs := [{ sampleInput 7 with commitment := (blindedOutput 3).commitment }]
      vOutputs := [blindedOutput 1]
      vKernels := [feeKernel 0 (samplePrime - 2)] }
  vCutThrough := []
  nHeight := 1
  offset := nullBlind

theorem value_conservation_balanced :
    (validateMWBlock (proving.withPedersen sampleCurve) balancedBlock fundedState 1 0 0).isValid =
        true ∧ balancedBlock.body.Conserves sampleCurve.order fun _ => 0 := by
  have hvalid : (validateMWBlock (proving.withPedersen sampleCurve) balancedBlock fundedState 1 0
      0).isValid = true := by decide +kernel
  refine ⟨hvalid, (value_conservation sampleCurve_independent _ hvalid ?_ ?_ ?_).mpr ?_⟩
  · intro output houtput
    rw [mem_singleton.mp houtput]
    exact ⟨1, by decide +kernel⟩
  · intro input hinput
    rw [mem_singleton.mp hinput]
    exact ⟨3, by decide +kernel⟩
  · intro kernel hkernel
    rw [mem_singleton.mp hkernel]
    exact ⟨-2, by decide +kernel⟩
  · decide +kernel

/-- Kernels whose fees add up to `2 ^ 64`, under blinds that add up to zero. -/
def overflowBlock : CMWBlock (List Nat) where
  hashPrevMWBlock := transparent.zero
  body :=
    { vInputs := [], vOutputs := []
      vKernels := feeKernel 46744073709551616 (samplePrime - 184) ::
        List.replicate 184 (feeKernel MAX_MONEY 1) }
  vCutThrough := []
  nHeight := 1
  offset := nullBlind

/-- **Fees of `2 ^ 64` are accepted** from a block that spends nothing. -/
theorem overflowing_fees_accepted :
    (validateMWBlock (proving.withPedersen sampleCurve) overflowBlock (CMWState.empty transparent) 1
        0 0).isValid = true ∧ (∀ kernel ∈ overflowBlock.body.vKernels,
        Opens sampleCurve.H sampleCurve.G (point sampleCurve kernel.excess) 0) ∧
      ¬ overflowBlock.body.Conserves sampleCurve.order fun _ => 0 := by
  refine ⟨by decide +kernel, ?_, by decide +kernel⟩
  intro kernel hkernel
  rcases List.mem_cons.mp hkernel with rfl | hkernel
  · exact ⟨-184, by decide +kernel⟩
  · rw [(mem_replicate.mp hkernel).2]
    exact ⟨1, by decide +kernel⟩

end MaryJaneCoin
