import Mathlib.Algebra.BigOperators.Fin
import MaryJaneCoin.Chain.Supply
import MaryJaneCoin.Lib.Matching
import MaryJaneCoin.Lib.WrappedSum

/-!
# Pegs in `mw/peg.cpp`

What is moved between the transparent side of the chain and the other one.
-/

/-!
## Accounting of peg-ins in `mw/peg.cpp`

`IsPegInTransaction` reports what all outputs but the marker are worth.  Change is one of them, so
what is credited on the other side may still be spent on this one.
-/

namespace MaryJaneCoin

open List hiding Vector
open Codec Option

def getPegInMarkerScript (commitment : Commitment) : CScript :=
  OP_RETURN :: CScript.pushData (CScript.PEGIN_MARKER ++ commitment.toList)

/-- An output that nobody can spend. -/
def CTxOut.isReturn (txout : CTxOut) : Bool := txout.scriptPubKey.head? == some OP_RETURN

theorem sumValues_filter_add (p : CTxOut → Bool) (vout : List CTxOut) :
    sumValues (vout.filter p) + sumValues (vout.filter fun txout => !p txout) = sumValues vout := by
  induction vout with
  | nil => rfl
  | cons txout vout ih =>
    have hcons : ∀ rest, sumValues (txout :: rest) = txout.nValue.toInt + sumValues rest :=
      fun rest => sum_cons
    cases hp : p txout with
    | true =>
      rw [filter_cons_of_pos hp, filter_cons_of_neg (by simp [hp]), hcons, hcons]
      omega
    | false =>
      rw [filter_cons_of_neg (by simp [hp]), filter_cons_of_pos (by simp [hp]), hcons, hcons]
      omega

theorem sumValues_nonneg {vout : List CTxOut} (h : ∀ txout ∈ vout, 0 ≤ txout.nValue.toInt) :
    0 ≤ sumValues vout := WrappedSum.exact_nonneg h

theorem le_sumValues {vout : List CTxOut} {txout : CTxOut} (hmem : txout ∈ vout)
    (h : ∀ other ∈ vout, 0 ≤ other.nValue.toInt) : txout.nValue.toInt ≤ sumValues vout := by
  obtain ⟨pre, post, rfl⟩ := append_of_mem hmem
  have hpre := sumValues_nonneg fun other hother => h other (mem_append_left _ hother)
  have hpost := sumValues_nonneg fun other hother =>
    h other (mem_append_right _ (mem_cons_of_mem _ hother))
  have hsum : sumValues (pre ++ txout :: post) = sumValues pre + (txout.nValue.toInt + sumValues post) := by
    rw [sumValues, map_append, sum_append, map_cons, sum_cons]
    rfl
  omega

namespace CTransaction

variable {H : Type} {tx : CTransaction H}

/-- The output that `IsPegInTransaction` takes for the marker. -/
def pegInMarker (tx : CTransaction H) : Option CTxOut :=
  tx.vout.find? fun txout => CScript.isPegInMarker txout.scriptPubKey

/-- What the transaction takes out of circulation. -/
def returned (tx : CTransaction H) : Int := sumValues (tx.vout.filter CTxOut.isReturn)

/-- What can still be spent of it. -/
def kept (tx : CTransaction H) : Int := sumValues (tx.vout.filter fun txout => !txout.isReturn)

/-- The amount that is reported is covered by what is taken out. -/
def PegInCovered (tx : CTransaction H) : Prop :=
  ∀ nAmount, tx.pegInAmount = some nAmount → nAmount.toInt ≤ tx.returned

/-- What can still be spent is not worth more than the marker. -/
def MarkerCovers (tx : CTransaction H) : Prop :=
  ∀ marker, tx.pegInMarker = some marker → tx.getValueOut.isSome → tx.kept ≤ marker.nValue.toInt

/-- **`IsPegInTransaction`**: the amount, exactly. -/
theorem pegInAmount_spec {nAmount : Int64} (h : tx.pegInAmount = some nAmount) :
    ∃ marker, tx.pegInMarker = some marker ∧ tx.getValueOut.isSome ∧ 0 ≤ nAmount.toInt ∧
      nAmount.toInt = tx.returned + tx.kept - marker.nValue.toInt := by
  obtain ⟨marker, hmarker, h⟩ := bind_eq_some_iff.mp h
  obtain ⟨nValueOut, hvalue, rfl⟩ := map_eq_some_iff.mp h
  obtain ⟨hrange, hsum, hnonneg⟩ := getValueOut_spec hvalue
  have hmem := mem_of_find?_eq_some hmarker
  have hlow := hnonneg marker hmem
  have hle := le_sumValues hmem hnonneg
  have hsplit : tx.returned + tx.kept = sumValues tx.vout := sumValues_filter_add CTxOut.isReturn tx.vout
  have hbounds := moneyRange_iff.mp hrange
  have hexact : (nValueOut - marker.nValue).toInt = nValueOut.toInt - marker.nValue.toInt := by
    unfold maxMoney at hbounds
    rw [Int64.toInt_sub]
    exact Int.bmod_eq_of_le (by omega) (by omega)
  exact ⟨marker, hmarker, by rw [hvalue]; rfl, by omega, by omega⟩

theorem pegInAmount_isSome {marker : CTxOut} (hmarker : tx.pegInMarker = some marker)
    (hvalue : tx.getValueOut.isSome) : ∃ nAmount, tx.pegInAmount = some nAmount := by
  obtain ⟨nValueOut, hvalue⟩ := isSome_iff_exists.mp hvalue
  refine ⟨nValueOut - marker.nValue, ?_⟩
  rw [pegInAmount, show tx.vout.find? _ = some marker from hmarker, hvalue]
  rfl

/-- **A peg-in is covered** exactly if the marker is worth all that can still be spent. -/
theorem pegInCovered_iff : tx.PegInCovered ↔ tx.MarkerCovers := by
  constructor
  · intro h marker hmarker hvalue
    obtain ⟨nAmount, hamount⟩ := pegInAmount_isSome hmarker hvalue
    obtain ⟨other, hother, -, -, hexact⟩ := pegInAmount_spec hamount
    rw [hmarker, Option.some.injEq] at hother
    subst hother
    have := h nAmount hamount
    omega
  · intro h nAmount hamount
    obtain ⟨marker, hmarker, hvalue, -, hexact⟩ := pegInAmount_spec hamount
    have := h marker hmarker hvalue
    omega

end CTransaction

/-- `nTransparentPegIn` of `ConnectBlock`. -/
def transparentPegIn {H : Type} (vtx : List (CTransaction H)) : Int64 :=
  vtx.foldl (fun nPegIn tx => nPegIn + tx.pegInAmount.getD 0) 0

/-- What the peg-ins of a block take out of circulation. -/
def returnedTotal {H : Type} (vtx : List (CTransaction H)) : Int :=
  ((vtx.filter fun tx => tx.pegInAmount.isSome).map CTransaction.returned).sum

theorem transparentPegIn_le {H : Type} {vtx : List (CTransaction H)}
    (h : ∀ tx ∈ vtx, tx.PegInCovered) : (transparentPegIn vtx).toInt ≤ returnedTotal vtx := by
  have hexact : 0 ≤ WrappedSum.exact (fun tx : CTransaction H => tx.pegInAmount.getD 0) vtx ∧
      WrappedSum.exact (fun tx : CTransaction H => tx.pegInAmount.getD 0) vtx ≤ returnedTotal vtx := by
    induction vtx with
    | nil => exact ⟨Int.le_refl 0, Int.le_refl 0⟩
    | cons tx vtx ih =>
      obtain ⟨hlow, hhigh⟩ := ih fun other hother => h other (mem_cons_of_mem _ hother)
      rw [WrappedSum.exact_cons]
      rw [returnedTotal] at hhigh ⊢
      cases hamount : tx.pegInAmount with
      | none =>
        rw [filter_cons_of_neg (by simp [hamount]), getD_none, Int64.toInt_zero]
        omega
      | some nAmount =>
        obtain ⟨marker, -, -, hpos, -⟩ := CTransaction.pegInAmount_spec hamount
        have hcovered := h tx mem_cons_self nAmount hamount
        rw [filter_cons_of_pos (by simp [hamount]), map_cons, sum_cons, getD_some]
        omega
  have hwrapped : (transparentPegIn vtx).toInt =
      (WrappedSum.exact (fun tx : CTransaction H => tx.pegInAmount.getD 0) vtx).bmod (2 ^ 64) :=
    WrappedSum.toInt_wrapped _ _
  have hbmod : (WrappedSum.exact (fun tx : CTransaction H => tx.pegInAmount.getD 0) vtx).bmod (2 ^ 64) ≤
      WrappedSum.exact (fun tx : CTransaction H => tx.pegInAmount.getD 0) vtx := by
    have hnonneg := hexact.1
    rw [Int.bmod_def]
    split <;> omega
  omega

/-- **Peg-in accounting.**  The amount of a peg-in is covered by what it takes out of circulation
exactly if its marker is worth all that can still be spent of it; where that holds of all peg-ins of
a block, it credits nothing that can still be spent. -/
theorem peg_in_accounting {H : Type} : (∀ tx : CTransaction H, tx.PegInCovered ↔ tx.MarkerCovers) ∧
      ∀ vtx : List (CTransaction H), (∀ tx ∈ vtx, tx.MarkerCovers) →
        (transparentPegIn vtx).toInt ≤ returnedTotal vtx :=
  ⟨fun _ => CTransaction.pegInCovered_iff, fun _ h => transparentPegIn_le fun tx htx =>
    CTransaction.pegInCovered_iff.mpr (h tx htx)⟩

/-- A peg-in with a marker of no value and change. -/
def changePegIn : CTransaction (List Nat) :=
  samplePayment 1 ⟨[1], 0⟩ [⟨0, getPegInMarkerScript (sampleCommitment 5)⟩, ⟨50, [0x51]⟩]

/-- **The change is credited**, and stays spendable. -/
theorem peg_in_credits_change :
    changePegIn.pegInAmount = some 50 ∧ changePegIn.returned = 0 ∧ changePegIn.kept = 50 := by
  decide +kernel

/-!
## Matching of peg-outs in `mw/peg.cpp`

`ValidatePegOuts` looks for a transparent output for every PEGOUT kernel, and takes the first one
each time.  Kernels that ask for the same payment share it.
-/

open Bool

def validatePegOuts (vKernels : List CMWKernel) (vTransparentOutputs : List CTxOut) : Bool :=
  vKernels.all fun kernel => !kernel.isPegOut ||
    vTransparentOutputs.any fun txout =>
      txout.scriptPubKey == kernel.pegoutScript && txout.nValue == kernel.nPegAmount

/-- A payment: what is paid, and to whom. -/
structure Payment where
  script : CScript
  amount : Int64
deriving DecidableEq

/-- The payment that a PEGOUT kernel asks for. -/
def CMWKernel.payment (kernel : CMWKernel) : Payment := ⟨kernel.pegoutScript, kernel.nPegAmount⟩

/-- The payment that an output makes. -/
def CTxOut.payment (txout : CTxOut) : Payment := ⟨txout.scriptPubKey, txout.nValue⟩

def pegOutKernels (vKernels : List CMWKernel) : List CMWKernel := vKernels.filter CMWKernel.isPegOut

/-- Every PEGOUT kernel has an output of its own, and together these pay what the kernels
ask for. -/
def PegOutsMatched (vKernels : List CMWKernel) (vTransparentOutputs : List CTxOut) : Prop :=
  ∃ assign : Fin (pegOutKernels vKernels).length → Fin vTransparentOutputs.length,
    Function.Injective assign ∧
    (∀ i, vTransparentOutputs[assign i].payment = (pegOutKernels vKernels)[i].payment) ∧
    ∑ i : Fin (pegOutKernels vKernels).length, (pegOutKernels vKernels)[i].nPegAmount.toInt ≤
      ∑ i, vTransparentOutputs[assign i].nValue.toInt

variable {vKernels : List CMWKernel} {vTransparentOutputs : List CTxOut}

theorem payment_eq_iff {kernel : CMWKernel} {txout : CTxOut} : txout.payment = kernel.payment ↔
      (txout.scriptPubKey == kernel.pegoutScript && txout.nValue == kernel.nPegAmount) = true := by
  rw [CTxOut.payment, CMWKernel.payment, Payment.mk.injEq, and_eq_true, beq_iff_eq, beq_iff_eq]

/-- **What `ValidatePegOuts` checks**: every PEGOUT kernel finds an output. -/
theorem validatePegOuts_iff : validatePegOuts vKernels vTransparentOutputs = true ↔
    ∀ kernel ∈ vKernels, kernel.isPegOut → ∃ txout ∈ vTransparentOutputs, txout.payment = kernel.payment := by
  simp only [validatePegOuts, List.all_eq_true, or_eq_true, not_eq_true', List.any_eq_true,
    payment_eq_iff, eq_false_iff, ne_eq, ← imp_iff_not_or]

/-- An assignment pays what is asked for, so only the numbers count. -/
theorem pegOutsMatched_iff : PegOutsMatched vKernels vTransparentOutputs ↔
    ∀ payment, ((pegOutKernels vKernels).map CMWKernel.payment).count payment ≤
      (vTransparentOutputs.map CTxOut.payment).count payment := by
  rw [← Matching.exists_injective_places_iff]
  constructor
  · intro ⟨assign, hinj, hpays, _⟩
    exact ⟨assign, hinj, hpays⟩
  · intro ⟨assign, hinj, hpays⟩
    refine ⟨assign, hinj, hpays, le_of_eq (Finset.sum_congr rfl fun i _ => ?_)⟩
    have hamount : vTransparentOutputs[assign i].nValue = (pegOutKernels vKernels)[i].nPegAmount :=
      congrArg Payment.amount (hpays i)
    rw [hamount]

/-- **Peg-outs are matched one to one** by a check that succeeds, exactly if no payment is asked for
more often than it is made, or the check does not succeed as some payment is not made at all. -/
theorem peg_outs_matched_iff (vKernels : List CMWKernel) (vTransparentOutputs : List CTxOut) :
    (validatePegOuts vKernels vTransparentOutputs = true → PegOutsMatched vKernels vTransparentOutputs) ↔
      (∃ kernel ∈ vKernels, kernel.isPegOut ∧ ∀ txout ∈ vTransparentOutputs,
      txout.payment ≠ kernel.payment) ∨ ∀ kernel ∈ vKernels, kernel.isPegOut →
        ((pegOutKernels vKernels).map CMWKernel.payment).count kernel.payment ≤
          (vTransparentOutputs.map CTxOut.payment).count kernel.payment := by
  have hcounts : PegOutsMatched vKernels vTransparentOutputs ↔
      ∀ kernel ∈ vKernels, kernel.isPegOut →
        ((pegOutKernels vKernels).map CMWKernel.payment).count kernel.payment ≤
          (vTransparentOutputs.map CTxOut.payment).count kernel.payment := by
    rw [pegOutsMatched_iff]
    constructor
    · exact fun h kernel _ _ => h kernel.payment
    · intro h payment
      by_cases hmem : payment ∈ (pegOutKernels vKernels).map CMWKernel.payment
      · obtain ⟨kernel, hkernel, rfl⟩ := mem_map.mp hmem
        obtain ⟨hkernel, hpegOut⟩ := mem_filter.mp hkernel
        exact h kernel hkernel hpegOut
      · rw [count_eq_zero.mpr hmem]
        exact Nat.zero_le _
  rw [hcounts, validatePegOuts_iff]
  constructor
  · intro h
    by_cases hall : ∀ kernel ∈ vKernels, kernel.isPegOut →
        ∃ txout ∈ vTransparentOutputs, txout.payment = kernel.payment
    · exact Or.inr (h hall)
    · push Not at hall
      exact Or.inl hall
  · intro h hall
    cases h with
    | inl hmissing =>
      obtain ⟨kernel, hkernel, hpegOut, hnone⟩ := hmissing
      obtain ⟨txout, htxout, hpays⟩ := hall kernel hkernel hpegOut
      exact absurd hpays (hnone txout htxout)
    | inr hcount => exact hcount

/-- A kernel that pegs 5 out. -/
def samplePegOut : CMWKernel where
  nFeatures := KERNEL_PEGOUT
  nFee := 0
  nPegAmount := 5
  nLockHeight := 0
  excess := sampleCommitment 2
  signature := Vector.replicate 64 1
  pegoutScript := [0x51]

/-- **One output for two kernels.** -/
theorem peg_outs_shared : validatePegOuts [samplePegOut, samplePegOut] [⟨5, [0x51]⟩] = true ∧
      ¬PegOutsMatched [samplePegOut, samplePegOut] [⟨5, [0x51]⟩] := by
  refine ⟨by decide, fun hmatched => ?_⟩
  have htwice := pegOutsMatched_iff.mp hmatched samplePegOut.payment
  exact absurd htwice (by decide)

end MaryJaneCoin
