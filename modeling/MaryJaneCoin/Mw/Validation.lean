import MaryJaneCoin.Mw.State

/-!
# Block validation of `mw/validation.cpp`

`ValidateMWBlock` checks a Mimblewimble block against a state.  The curve
operations (range proofs, Schnorr signatures, Pedersen commitments) are
parameters; every check around them is the source's, in its order, with its
error code, message and indices.
-/

namespace MaryJaneCoin

open Std

inductive MWValidationError where
  | MW_OK
  | MW_ERR_INVALID_RANGEPROOF
  | MW_ERR_INVALID_SIGNATURE
  | MW_ERR_COMMITMENT_SUM
  | MW_ERR_DOUBLE_SPEND
  | MW_ERR_OUTPUT_NOT_FOUND
  | MW_ERR_INVALID_CUTTHROUGH
  | MW_ERR_PEG_MISMATCH
  | MW_ERR_INVALID_FEE
  | MW_ERR_INVALID_KERNEL
  | MW_ERR_HEIGHT_LOCKED
  | MW_ERR_PREV_BLOCK_MISMATCH
  | MW_ERR_INFLATION
  | MW_ERR_DUPLICATE_OUTPUT
  | MW_ERR_EMPTY_BLOCK
  | MW_ERR_NONCANONICAL_ORDER
deriving DecidableEq

/-- `CMWValidationResult`; an index of `-1` is not set. -/
structure CMWValidationResult where
  error : MWValidationError := .MW_OK
  strMessage : String := ""
  nKernelIndex : Int := -1
  nOutputIndex : Int := -1
  nInputIndex : Int := -1
deriving DecidableEq

def CMWValidationResult.isValid (result : CMWValidationResult) : Bool := result.error == .MW_OK

/-- The curve operations, and hashing. -/
structure MWCrypto (H : Type) extends Sha256 H where
  /-- `SchnorrVerifier::VerifyExcess`. -/
  verifyExcess : Commitment → H → Signature → Bool
  /-- `BulletproofVerifier::Verify`. -/
  verifyRangeProof : Commitment → Codec.Bytes → Bool
  /-- `PedersenContext::Commit`. -/
  commit : Int64 → BlindingFactor → Commitment
  /-- `PedersenContext::CommitBlind`. -/
  commitBlind : BlindingFactor → Commitment
  /-- `PedersenContext::VerifyCommitmentSum`. -/
  verifySum : List Commitment → List Commitment → Bool
  /-- `secp256k1_schnorrsig_verify` under a parsed x-only key. -/
  verifySchnorr : Codec.Bytes → H → Signature → Bool

variable {H : Type} (crypto : MWCrypto H)

def CMWInput.verifySignature (input : CMWInput) (txHash : H) : Bool :=
  crypto.verifySchnorr (input.outputPubKey.toList.drop 1)
    (crypto.sha256 (feed input.commitment.toList ++ [.digest txHash])) input.signature

def verifyKernelSignatures (body : CMWTransactionBody) : Bool :=
  body.vKernels.all fun kernel => !allZero kernel.excess &&
    crypto.verifyExcess kernel.excess (kernel.getSignatureMessage crypto.toSha256) kernel.signature

/-- `VerifyRangeProofs`; `BatchVerify` verifies one by one. -/
def verifyRangeProofs (body : CMWTransactionBody) : Bool :=
  (body.vOutputs.all fun output => !output.rangeProof.isEmpty) &&
    body.vOutputs.all fun output => crypto.verifyRangeProof output.commitment output.rangeProof

/-- A commitment to a public amount, present when the amount is positive. -/
def publicCommit (nAmount : Int64) : List Commitment :=
  if 0 < nAmount then [crypto.commit nAmount (Vector.replicate 32 0)] else []

def verifyCommitmentSum (body : CMWTransactionBody) (offset : BlindingFactor) : Bool :=
  crypto.verifySum
    (body.vOutputs.map CMWOutput.commitment ++ publicCommit crypto body.getTotalPegOut)
    (body.vInputs.map CMWInput.commitment ++ body.vKernels.map CMWKernel.excess ++
      (if allZero offset then [] else [crypto.commitBlind offset]) ++
      publicCommit crypto body.getTotalFee ++ publicCommit crypto body.getTotalPegIn)

/-- First kernel loop of `ValidateMWBlock`, from index `i` on. -/
def checkKernels (i : Nat) : List CMWKernel → Option CMWValidationResult
  | [] => none
  | k :: rest =>
    if k.isCoinbase then
      some { error := .MW_ERR_INVALID_KERNEL, nKernelIndex := i
             strMessage := "coinbase kernel not permitted (no emission rules defined)" }
    else if !moneyRange k.nFee then
      some { error := .MW_ERR_INVALID_FEE, nKernelIndex := i
             strMessage := "fee out of range" }
    else if (k.isPegIn || k.isPegOut) && (k.nPegAmount ≤ 0 || !moneyRange k.nPegAmount) then
      some { error := .MW_ERR_INVALID_KERNEL, nKernelIndex := i
             strMessage := "peg kernel amount out of range" }
    else checkKernels (i + 1) rest

/-- Second kernel loop of `ValidateMWBlock`. -/
def checkLockHeights (nBlockHeight : Int32) (i : Nat) : List CMWKernel → Option CMWValidationResult
  | [] => none
  | k :: rest =>
    if k.isHeightLocked && k.nLockHeight > nBlockHeight then
      some { error := .MW_ERR_HEIGHT_LOCKED, nKernelIndex := i
             strMessage := "kernel locked until height " ++ toString k.nLockHeight.toInt ++
               ", current height " ++ toString nBlockHeight.toInt }
    else checkLockHeights nBlockHeight (i + 1) rest

/-- Input lookup loop of `ValidateMWBlock`. -/
def checkInputsExist [Ord H] (state : CMWState H) (i : Nat) :
    List CMWInput → Option CMWValidationResult
  | [] => none
  | input :: rest =>
    if !state.hasOutput input.commitment then
      some { error := .MW_ERR_OUTPUT_NOT_FOUND, nInputIndex := i
             strMessage := "input references non-existent output" }
    else checkInputsExist state (i + 1) rest

/-- Duplicate loops of `ValidateMWBlock`: `report` is what the first repeated
commitment gives. -/
def checkDuplicates (report : Nat → CMWValidationResult) (seen : ExtTreeSet Commitment) (i : Nat) :
    List Commitment → Option CMWValidationResult
  | [] => none
  | c :: rest =>
    if c ∈ seen then some (report i) else checkDuplicates report (seen.insert c) (i + 1) rest

/-- Input signature loop of `ValidateMWBlock`. -/
def checkInputSignatures (txHash : H) (i : Nat) : List CMWInput → Option CMWValidationResult
  | [] => none
  | input :: rest =>
    if !input.verifySignature crypto txHash then
      some { error := .MW_ERR_INVALID_SIGNATURE, nInputIndex := i
             strMessage := "input signature verification failed" }
    else checkInputSignatures txHash (i + 1) rest

/-- A check without an index. -/
def require (ok : Bool) (error : MWValidationError) (strMessage : String) :
    Option CMWValidationResult :=
  if ok then none else some { error := error, strMessage := strMessage }

/-- The checks of `ValidateMWBlock` in order, each with what it reports. -/
def validationChecks [Ord H] [DecidableEq H] (block : CMWBlock H) (state : CMWState H)
    (nBlockHeight : Int32) (nTransparentPegIn nTransparentPegOut : Int64) :
    List (Option CMWValidationResult) :=
  [ require (block.hashPrevMWBlock == state.hashLatestMWBlock) .MW_ERR_PREV_BLOCK_MISMATCH
      "previous MW block hash mismatch",
    require (block.body.isCanonicallyOrdered crypto.toSha256) .MW_ERR_NONCANONICAL_ORDER
      "MWEB block components not in canonical (sorted) order",
    checkKernels 0 block.body.vKernels,
    require (moneyRange block.body.getTotalFee && moneyRange block.body.getTotalPegIn &&
        moneyRange block.body.getTotalPegOut) .MW_ERR_INFLATION
      "aggregate fee/peg amount out of range",
    require (verifyRangeProofs crypto block.body) .MW_ERR_INVALID_RANGEPROOF
      "one or more range proofs failed",
    require (verifyKernelSignatures crypto block.body) .MW_ERR_INVALID_SIGNATURE
      "one or more kernel signatures failed",
    require (verifyCommitmentSum crypto block.body block.offset) .MW_ERR_COMMITMENT_SUM
      "commitment sum does not balance",
    checkInputsExist state 0 block.body.vInputs, checkDuplicates (fun i =>
        { error := .MW_ERR_DOUBLE_SPEND, nInputIndex := i
          strMessage := "duplicate input commitment in block" })
      ∅ 0 (block.body.vInputs.map CMWInput.commitment),
    checkDuplicates (fun i =>
        { error := .MW_ERR_DUPLICATE_OUTPUT, nOutputIndex := i
          strMessage := "duplicate output commitment in block" })
      ∅ 0 (block.body.vOutputs.map CMWOutput.commitment),
    checkLockHeights nBlockHeight 0 block.body.vKernels,
    require (block.body.getTotalPegIn == nTransparentPegIn) .MW_ERR_PEG_MISMATCH
      ("peg-in mismatch: MW=" ++ toString block.body.getTotalPegIn.toInt ++ " transparent=" ++
        toString nTransparentPegIn.toInt),
    require (block.body.getTotalPegOut == nTransparentPegOut) .MW_ERR_PEG_MISMATCH
      ("peg-out mismatch: MW=" ++ toString block.body.getTotalPegOut.toInt ++ " transparent=" ++
        toString nTransparentPegOut.toInt),
    checkInputSignatures crypto (block.body.getHash crypto.toSha256) 0 block.body.vInputs ]

/-- `ValidateMWBlock`: the report of the first check that has one. -/
def validateMWBlock [Ord H] [DecidableEq H] (block : CMWBlock H) (state : CMWState H)
    (nBlockHeight : Int32) (nTransparentPegIn nTransparentPegOut : Int64) : CMWValidationResult :=
  ((validationChecks crypto block state nBlockHeight nTransparentPegIn
    nTransparentPegOut).findSome? id).getD {}

variable {crypto}

theorem checkInputsExist_eq_none [Ord H] {state : CMWState H} {ins : List CMWInput} : ∀ {i},
    checkInputsExist state i ins = none → ∀ input ∈ ins, input.commitment ∈ state.mapOutputs := by
  induction ins with
  | nil => simp
  | cons input ins ih =>
    intro i hnone other hmem
    by_cases hhas : input.commitment ∈ state.mapOutputs
    · simp only [checkInputsExist, CMWState.hasOutput, hhas, decide_true, Bool.not_true,
        Bool.false_eq_true, if_false] at hnone
      rcases List.mem_cons.mp hmem with rfl | hmem
      · exact hhas
      · exact ih hnone other hmem
    · simp [checkInputsExist, CMWState.hasOutput, hhas] at hnone

variable {report : Nat → CMWValidationResult}

theorem checkDuplicates_eq_none {cs : List Commitment} :
    ∀ {seen i}, checkDuplicates report seen i cs = none → cs.Nodup ∧ ∀ c ∈ cs, c ∉ seen := by
  induction cs with
  | nil => simp
  | cons c cs ih =>
    intro seen i hnone
    simp only [checkDuplicates] at hnone
    split at hnone
    · cases hnone
    · rename_i hnew
      obtain ⟨hnodup, hseen⟩ := ih hnone
      have hout : c ∉ cs := fun hmem => hseen c hmem (by simp)
      refine ⟨List.nodup_cons.mpr ⟨hout, hnodup⟩, ?_⟩
      intro c' hmem
      rcases List.mem_cons.mp hmem with rfl | hmem
      · exact hnew
      · exact fun hs => hseen c' hmem (ExtTreeSet.mem_insert.mpr (Or.inr hs))

theorem checkInputSignatures_eq_none {txHash : H} {inputs : List CMWInput} :
    ∀ {i}, checkInputSignatures crypto txHash i inputs = none →
      ∀ input ∈ inputs, input.verifySignature crypto txHash = true := by
  induction inputs with
  | nil => simp
  | cons first inputs ih =>
    intro i hnone input hinput
    cases hverify : first.verifySignature crypto txHash with
    | true =>
      rw [checkInputSignatures, hverify] at hnone
      rcases List.mem_cons.mp hinput with rfl | hinput
      · exact hverify
      · exact ih hnone input hinput
    | false =>
      rw [checkInputSignatures, hverify] at hnone
      cases hnone

/-- A check that reports nothing but errors. -/
def ReportsErrors (check : Option CMWValidationResult) : Prop :=
  ∀ result, check = some result → result.error ≠ .MW_OK

theorem reportsErrors_require (ok : Bool) {error : MWValidationError} (strMessage : String)
    (herror : error ≠ .MW_OK) : ReportsErrors (require ok error strMessage) := by
  intro result hsome
  simp only [require] at hsome
  split at hsome
  · cases hsome
  · rw [← Option.some.inj hsome]
    exact herror

theorem reportsErrors_kernels (ks : List CMWKernel) : ∀ i, ReportsErrors (checkKernels i ks) := by
  induction ks with
  | nil => intro i result hsome; cases hsome
  | cons k ks ih =>
    intro i result hsome
    simp only [checkKernels] at hsome
    split at hsome
    · rw [← Option.some.inj hsome]
      exact MWValidationError.noConfusion
    · split at hsome
      · rw [← Option.some.inj hsome]
        exact MWValidationError.noConfusion
      · split at hsome
        · rw [← Option.some.inj hsome]
          exact MWValidationError.noConfusion
        · exact ih _ result hsome

theorem reportsErrors_lockHeights (nBlockHeight : Int32) (ks : List CMWKernel) :
    ∀ i, ReportsErrors (checkLockHeights nBlockHeight i ks) := by
  induction ks with
  | nil => intro i result hsome; cases hsome
  | cons k ks ih =>
    intro i result hsome
    simp only [checkLockHeights] at hsome
    split at hsome
    · rw [← Option.some.inj hsome]
      exact MWValidationError.noConfusion
    · exact ih _ result hsome

theorem reportsErrors_inputsExist [Ord H] (state : CMWState H) (ins : List CMWInput) :
    ∀ i, ReportsErrors (checkInputsExist state i ins) := by
  induction ins with
  | nil => intro i result hsome; cases hsome
  | cons input ins ih =>
    intro i result hsome
    cases hhas : state.hasOutput input.commitment with
    | true =>
      rw [checkInputsExist, hhas] at hsome
      exact ih _ result hsome
    | false =>
      rw [checkInputsExist, hhas] at hsome
      rw [← Option.some.inj hsome]
      exact MWValidationError.noConfusion

theorem reportsErrors_duplicates (hreport : ∀ i, (report i).error ≠ .MW_OK) (cs : List Commitment) :
    ∀ seen i, ReportsErrors (checkDuplicates report seen i cs) := by
  induction cs with
  | nil => intro seen i result hsome; cases hsome
  | cons c cs ih =>
    intro seen i result hsome
    simp only [checkDuplicates] at hsome
    split at hsome
    · rw [← Option.some.inj hsome]
      exact hreport i
    · exact ih _ _ result hsome

theorem reportsErrors_inputSignatures (txHash : H) (ins : List CMWInput) :
    ∀ i, ReportsErrors (checkInputSignatures crypto txHash i ins) := by
  induction ins with
  | nil => intro i result hsome; cases hsome
  | cons input ins ih =>
    intro i result hsome
    simp only [checkInputSignatures] at hsome
    split at hsome
    · rw [← Option.some.inj hsome]
      exact MWValidationError.noConfusion
    · exact ih _ result hsome

section Block

variable [Ord H] [DecidableEq H] {block : CMWBlock H} {state : CMWState H} {nBlockHeight : Int32}
  {nTransparentPegIn nTransparentPegOut : Int64}

variable {check : Option CMWValidationResult}

theorem reportsErrors_of_mem
    (hmem : check ∈ validationChecks crypto block state nBlockHeight nTransparentPegIn
      nTransparentPegOut) : ReportsErrors check := by
  simp only [validationChecks, List.mem_cons, List.not_mem_nil, or_false] at hmem
  rcases hmem with rfl | rfl | rfl | rfl | rfl | rfl | rfl | rfl | rfl | rfl | rfl | rfl | rfl | rfl
  · exact reportsErrors_require _ _ (by decide)
  · exact reportsErrors_require _ _ (by decide)
  · exact reportsErrors_kernels _ _
  · exact reportsErrors_require _ _ (by decide)
  · exact reportsErrors_require _ _ (by decide)
  · exact reportsErrors_require _ _ (by decide)
  · exact reportsErrors_require _ _ (by decide)
  · exact reportsErrors_inputsExist _ _ _
  · exact reportsErrors_duplicates (fun _ => MWValidationError.noConfusion) _ _ _
  · exact reportsErrors_duplicates (fun _ => MWValidationError.noConfusion) _ _ _
  · exact reportsErrors_lockHeights _ _ _
  · exact reportsErrors_require _ _ (by decide)
  · exact reportsErrors_require _ _ (by decide)
  · exact reportsErrors_inputSignatures _ _ _

section

variable (hvalid : (validateMWBlock crypto block state nBlockHeight nTransparentPegIn
  nTransparentPegOut).isValid = true)
include hvalid

theorem eq_none_of_isValid (hmem : check ∈ validationChecks crypto block state nBlockHeight
      nTransparentPegIn nTransparentPegOut) : check = none := by
  rw [validateMWBlock] at hvalid
  cases hfind : (validationChecks crypto block state nBlockHeight nTransparentPegIn
      nTransparentPegOut).findSome? id with
  | none => exact List.findSome?_eq_none_iff.mp hfind check hmem
  | some result =>
    obtain ⟨check', hmem', hsome⟩ := List.exists_of_findSome?_eq_some hfind
    rw [hfind, Option.getD_some, CMWValidationResult.isValid, beq_iff_eq] at hvalid
    exact absurd hvalid (reportsErrors_of_mem hmem' result hsome)

/-- **What validation guarantees about inputs and outputs**: every input is in
the output map, and neither inputs nor outputs repeat a commitment. -/
theorem validateMWBlock_spec :
    (∀ input ∈ block.body.vInputs, input.commitment ∈ state.mapOutputs) ∧
      (block.body.vInputs.map CMWInput.commitment).Nodup ∧
      (block.body.vOutputs.map CMWOutput.commitment).Nodup := by
  have hexist : checkInputsExist state 0 block.body.vInputs = none :=
    eq_none_of_isValid hvalid (by simp [validationChecks])
  have hins : checkDuplicates
      (fun i => { error := .MW_ERR_DOUBLE_SPEND, nInputIndex := i
                  strMessage := "duplicate input commitment in block" })
      ∅ 0 (block.body.vInputs.map CMWInput.commitment) = none :=
    eq_none_of_isValid hvalid (by simp [validationChecks])
  have houts : checkDuplicates
      (fun i => { error := .MW_ERR_DUPLICATE_OUTPUT, nOutputIndex := i
                  strMessage := "duplicate output commitment in block" })
      ∅ 0 (block.body.vOutputs.map CMWOutput.commitment) = none :=
    eq_none_of_isValid hvalid (by simp [validationChecks])
  exact ⟨checkInputsExist_eq_none hexist, (checkDuplicates_eq_none hins).1, (checkDuplicates_eq_none houts).1⟩

end

end Block

/-- Transparent hashing with curve checks that accept: the blocks below stand
for properly signed and balanced ones. -/
def accepting : MWCrypto (List Nat) where
  toSha256 := transparent
  verifyExcess _ _ _ := true
  verifyRangeProof _ _ := true
  commit _ _ := sampleCommitment 8
  commitBlind _ := sampleCommitment 8
  verifySum _ _ := true
  verifySchnorr _ _ _ := true

end MaryJaneCoin
