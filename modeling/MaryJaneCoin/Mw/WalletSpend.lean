import MaryJaneCoin.Mw.Wallet

/-!
# What the wallet makes and what validation accepts

The wallet and the validator were written apart.  The fee of a transaction and
the amount of a peg-in are public, and the validator commits to a public amount
under the zero blind: no transaction of the wallet balances.  The wallet signs
the hash of the body, and an input verifies its signature over another message:
no input of the wallet is authorised.
-/

namespace MaryJaneCoin

open List hiding Vector
open Codec Std CMWTransactionBody

variable {H P : Type} [AddCommGroup P] [DecidableEq P] {crypto : CurveCrypto H P}
  {wallet wallet' : CMWWallet} {pDestScanKey pDestSpendKey : PubKey} {nAmount : Int64}
  {rand : MWRandomness H} {tx : CMWTransaction}

/-- The input that spends an output, before it is signed. -/
def spendInput (owned : CMWOwnedOutput) : CMWInput where
  commitment := owned.output.commitment
  outputPubKey := owned.output.receiverPubKey
  signature := nullSignature

/-- The inputs of a body, signed one after the other. -/
def signInputs (crypto : CurveCrypto H P) (txHash : H) (vSelected : List CMWOwnedOutput)
    (inputs : List CMWInput) : List CMWInput :=
  vSelected.foldl (fun inputs owned =>
    signInput owned.output.commitment (schnorrSign crypto owned.spendKey txHash) inputs) inputs

/-- **What a successful call made.** -/
theorem createMWTransaction_some [Ord H]
    (h : wallet.createMWTransaction crypto pDestScanKey pDestSpendKey nAmount rand =
      some (some (tx, wallet'))) :
    0 < nAmount ∧ ∃ vSelected nValueSelected destOutput changeOutputs adjustedExcess,
      wallet.selectMWOutputs (nAmount + MIN_TX_FEE) = some (vSelected, nValueSelected) ∧
      makeOutput crypto rand.dest pDestScanKey pDestSpendKey nAmount
        (PedersenContext.generateBlindingFactor crypto.curve rand.dest.blind) = some destOutput ∧
      let body := sort crypto.toSha256
        { vInputs := vSelected.map spendInput, vOutputs := destOutput :: changeOutputs
          vKernels := [CMWWallet.makeKernel crypto MIN_TX_FEE adjustedExcess] }
      tx.body = { body with
        vInputs := signInputs crypto (body.getHash crypto.toSha256) vSelected body.vInputs } := by
  unfold CMWWallet.createMWTransaction at h
  split at h
  · cases h
  · rename_i hpos
    refine ⟨Int64.not_le.mp hpos, ?_⟩
    simp only at h
    split at h
    · cases h
    · rename_i vSelected nValueSelected hselect
      obtain ⟨destOutput, hdest, h⟩ := Option.bind_eq_some_iff.mp h
      obtain ⟨changeOutputs, _, h⟩ := Option.map_eq_some_iff.mp h
      have hresult := Option.some.inj h
      exact ⟨vSelected, nValueSelected, destOutput, changeOutputs, _, hselect, hdest,
        congrArg CMWTransaction.body (Prod.mk.inj hresult).1.symm⟩

theorem getTotalFee_singleton {body : CMWTransactionBody} {kernel : CMWKernel}
    (h : body.vKernels = [kernel]) : body.getTotalFee = kernel.nFee := by
  rw [getTotalFee, h, foldl_cons, foldl_nil, Int64.zero_add]

theorem getTotalPegIn_singleton {body : CMWTransactionBody} {kernel : CMWKernel}
    (h : body.vKernels = [kernel]) (hpeg : kernel.isPegIn) : body.getTotalPegIn = kernel.nPegAmount := by
  rw [getTotalPegIn, h, foldl_cons, foldl_nil, if_pos hpeg, Int64.zero_add]

/-- **What a successful peg-in made.** -/
theorem createPegIn_success {pWallet : Bool} {draws : PegInDraws H} {result : CPegInResult}
    (h : createPegIn crypto pWallet nAmount draws = some result) (hsuccess : result.fSuccess = true) :
    0 < nAmount ∧ result.kernel = makePegInKernel crypto nAmount
      (PedersenContext.generateBlindingFactor crypto.curve draws.blind) := by
  have hfailed : ∀ {failed : CPegInResult}, failed.fSuccess = false → some failed ≠ some result := by
    intro failed hfailed heq
    rw [← Option.some.inj heq, hfailed] at hsuccess
    cases hsuccess
  unfold createPegIn at h
  simp only at h
  split at h
  · exact absurd h (hfailed rfl)
  · split at h
    · exact absurd h (hfailed rfl)
    · rename_i hpos
      refine ⟨Int64.not_le.mp hpos, ?_⟩
      -- the eight early returns up to the range proof
      iterate 8
        split at h
        · exact absurd h (hfailed rfl)
      obtain ⟨rangeProof, _, h⟩ := Option.map_eq_some_iff.mp h
      replace h := congrArg some h
      split at h
      · exact absurd h (hfailed rfl)
      · split at h
        · exact absurd h (hfailed rfl)
        · cases h
          rfl

/-- **No transaction of the wallet balances.**  Whatever the wallet, the amount
and the randomness, the sum of a transaction does not verify, and neither does
that of a peg-in. -/
theorem wallet_never_balances [Ord H] (crypto : CurveCrypto H P) :
    (∀ (wallet wallet' : CMWWallet) (pDestScanKey pDestSpendKey : PubKey) (nAmount : Int64)
      (rand : MWRandomness H) (tx : CMWTransaction),
      wallet.createMWTransaction crypto pDestScanKey pDestSpendKey nAmount rand = some (some (tx, wallet')) →
      verifyCommitmentSum (crypto.toMWCrypto.withPedersen crypto.curve) tx.body tx.offset = false) ∧
    ∀ (pWallet : Bool) (nAmount : Int64) (draws : PegInDraws H) (result : CPegInResult),
      createPegIn crypto pWallet nAmount draws = some result → result.fSuccess = true →
      verifyCommitmentSum (crypto.toMWCrypto.withPedersen crypto.curve)
        { vInputs := [], vOutputs := [result.mwOutput], vKernels := [result.kernel] }
        nullBlind = false := by
  constructor
  · intro wallet wallet' pDestScanKey pDestSpendKey nAmount rand tx h
    obtain ⟨_, vSelected, nValueSelected, destOutput, changeOutputs, adjustedExcess, _, _, hbody⟩ :=
      createMWTransaction_some h
    have hkernels : tx.body.vKernels = [CMWWallet.makeKernel crypto MIN_TX_FEE adjustedExcess] := by
      rw [hbody]
      rfl
    apply Bool.eq_false_iff.mpr
    intro hverified
    have hnot := (verifyCommitmentSum_spec hverified).1
    rw [getTotalFee_singleton hkernels] at hnot
    exact hnot (show 0 < MIN_TX_FEE by decide)
  · intro pWallet nAmount draws result h hsuccess
    obtain ⟨hpos, hkernel⟩ := createPegIn_success h hsuccess
    apply Bool.eq_false_iff.mpr
    intro hverified
    have hnot := (verifyCommitmentSum_spec hverified).2.1
    rw [getTotalPegIn_singleton rfl (by rw [hkernel]; rfl), hkernel] at hnot
    exact hnot hpos

/-- A wallet that owns 10 coins sends one of them. -/
def spendRun : Option (Option (CMWTransaction × CMWWallet)) :=
  (sampleWallet 5 7 [ownedOutput (10 * COIN)]).createMWTransaction sampleCrypto (samplePubKey 41)
    (samplePubKey 43) COIN (sampleRandomness 17)

/-- No blind is degenerate: with the fee on the side of the outputs, the points
of the transaction balance. -/
def honest (tx : CMWTransaction) : Bool :=
  ((tx.body.vOutputs.map fun output => PedersenContext.point sampleCurve output.commitment).sum +
      sampleCurve.mul 42000000 sampleCurve.H ==
    (tx.body.vInputs.map fun input => PedersenContext.point sampleCurve input.commitment).sum +
      (tx.body.vKernels.map fun kernel => PedersenContext.point sampleCurve kernel.excess).sum +
      sampleCurve.mul (scalar tx.offset) sampleCurve.G) &&
    tx.body.vOutputs.all (fun output => (sampleCurve.parse output.commitment).isSome) &&
    tx.body.vKernels.all fun kernel => (sampleCurve.parse kernel.excess).isSome

theorem spendRun_some : ∃ tx wallet', spendRun = some (some (tx, wallet')) ∧ honest tx = true := by
  have hrun : (spendRun.any fun result => result.any fun made => honest made.1) = true := by
    decide +kernel
  rw [Option.any_eq_true] at hrun
  obtain ⟨result, hresult, hrun⟩ := hrun
  rw [Option.any_eq_true] at hrun
  obtain ⟨made, rfl, hhonest⟩ := hrun
  exact ⟨made.1, made.2, hresult, hhonest⟩

/-- A peg-in of one coin. -/
def pegInRun : Option CPegInResult :=
  createPegIn sampleCrypto true COIN
    { blind := fun _ => some (scalarBytes 17), senderSecret := some (scalarBytes 3)
      receiverSecret := some (scalarBytes 13), nonce := some (scalarBytes 29) }

theorem pegInRun_some : ∃ result, pegInRun = some result ∧ result.fSuccess = true := by
  have hrun : (pegInRun.any CPegInResult.fSuccess) = true := by decide +kernel
  rwa [Option.any_eq_true] at hrun

theorem wallet_never_balances_sample :
    (∃ tx wallet', spendRun = some (some (tx, wallet')) ∧ verifyCommitmentSum
        (sampleCrypto.toMWCrypto.withPedersen sampleCurve) tx.body tx.offset = false) ∧
      ∃ result, pegInRun = some result ∧ verifyCommitmentSum
        (sampleCrypto.toMWCrypto.withPedersen sampleCurve)
        { vInputs := [], vOutputs := [result.mwOutput], vKernels := [result.kernel] }
        nullBlind = false := by
  obtain ⟨tx, wallet', hspend, _⟩ := spendRun_some
  obtain ⟨result, hpegIn, hsuccess⟩ := pegInRun_some
  obtain ⟨hspends, hpegIns⟩ := wallet_never_balances sampleCrypto
  exact ⟨⟨tx, wallet', hspend, hspends _ _ _ _ _ _ _ hspend⟩, result, hpegIn, hpegIns _ _ _ _ hpegIn hsuccess⟩

/-- **An honest transaction does not balance**: it would if the fee were on the
side of the outputs, and the sum does not verify. -/
theorem honest_transaction_unbalanced :
    ∃ tx wallet', spendRun = some (some (tx, wallet')) ∧ honest tx = true ∧
      verifyCommitmentSum (sampleCrypto.toMWCrypto.withPedersen sampleCurve) tx.body tx.offset = false := by
  obtain ⟨tx, wallet', hspend, hhonest⟩ := spendRun_some
  refine ⟨tx, wallet', hspend, hhonest, ?_⟩
  have hfails : (spendRun.all fun result => result.all fun made => !verifyCommitmentSum
      (sampleCrypto.toMWCrypto.withPedersen sampleCurve) made.1.body made.1.offset) = true := by
    decide +kernel
  rw [hspend] at hfails
  simpa using hfails

/-- A Schnorr signature verifies for the key and the message it was made with,
and for nothing else. -/
structure SchnorrExact (crypto : CurveCrypto H P) : Prop where
  verify_sign : ∀ secretKey message signature, crypto.curve.ecSeckeyVerify secretKey →
    crypto.schnorrsigSign32 secretKey message = some signature → ∀ key message',
      crypto.verifySchnorr key message' signature = true ↔ key = (crypto.curve.serialize
          (crypto.curve.mul (scalar secretKey) crypto.curve.G)).toList.drop 1 ∧ message' = message
  verify_null : ∀ key message, crypto.verifySchnorr key message nullSignature = false

omit [DecidableEq P] in
/-- A signature of the wallet verifies for no other message. -/
theorem SchnorrExact.verify_other (hschnorr : SchnorrExact crypto) (secretKey : SecretKey)
    {message message' : H} (hne : message' ≠ message) (key : Bytes) :
    crypto.verifySchnorr key message' (schnorrSign crypto secretKey message) = false := by
  rw [schnorrSign]
  split
  · rename_i hvalid
    cases hsign : crypto.schnorrsigSign32 secretKey message with
    | none => exact hschnorr.verify_null key message'
    | some signature =>
      apply Bool.eq_false_iff.mpr
      intro hverify
      exact hne ((hschnorr.verify_sign _ _ _ hvalid hsign key message').mp hverify).2
  · exact hschnorr.verify_null key message'

omit [DecidableEq P] in
theorem mem_signInput {commitment : Commitment} {signature : Signature} {inputs : List CMWInput}
    {input : CMWInput} (h : input ∈ signInput commitment signature inputs) :
    input ∈ inputs ∨ input.signature = signature := by
  induction inputs with
  | nil => cases h
  | cons first inputs ih =>
    rw [signInput] at h
    split at h
    · rcases List.mem_cons.mp h with rfl | h
      · exact Or.inr rfl
      · exact Or.inl (mem_cons_of_mem _ h)
    · rcases List.mem_cons.mp h with rfl | h
      · exact Or.inl mem_cons_self
      · rcases ih h with h | h
        · exact Or.inl (mem_cons_of_mem _ h)
        · exact Or.inr h

theorem length_signInput (commitment : Commitment) (signature : Signature)
    (inputs : List CMWInput) : (signInput commitment signature inputs).length = inputs.length := by
  induction inputs with
  | nil => rfl
  | cons first inputs ih =>
    rw [signInput]
    split
    · rfl
    · rw [length_cons, ih, length_cons]

omit [DecidableEq P] in
/-- **The signing loop**: every input keeps its signature or has one of the
wallet over the hash of the body. -/
theorem mem_signInputs {txHash : H} {vSelected : List CMWOwnedOutput} {inputs : List CMWInput}
    {input : CMWInput} (h : input ∈ signInputs crypto txHash vSelected inputs) :
    input ∈ inputs ∨ ∃ secretKey, input.signature = schnorrSign crypto secretKey txHash := by
  unfold signInputs at h
  induction vSelected generalizing inputs with
  | nil => exact Or.inl h
  | cons owned vSelected ih =>
    rcases ih h with h | h
    · rcases mem_signInput h with h | h
      · exact Or.inl h
      · exact Or.inr ⟨owned.spendKey, h⟩
    · exact Or.inr h

omit [DecidableEq P] in
theorem length_signInputs (txHash : H) (vSelected : List CMWOwnedOutput) (inputs : List CMWInput) :
    (signInputs crypto txHash vSelected inputs).length = inputs.length := by
  unfold signInputs
  induction vSelected generalizing inputs with
  | nil => rfl
  | cons owned vSelected ih => rw [foldl_cons, ih, length_signInput]

/-- A selection is not empty. -/
theorem selectLoop_ne_nil {nTargetValue nValueOut : Int64} {vUnspent : List CMWOwnedOutput}
    {selected : List CMWOwnedOutput × Int64}
    (h : CMWWallet.selectLoop nTargetValue nValueOut vUnspent = some selected) : selected.1 ≠ [] := by
  cases vUnspent with
  | nil => cases h
  | cons owned vUnspent =>
    rw [CMWWallet.selectLoop] at h
    split at h
    · cases h
      exact cons_ne_nil _ _
    · obtain ⟨rest, _, rfl⟩ := Option.map_eq_some_iff.mp h
      exact cons_ne_nil _ _

/-- **No input of the wallet is authorised.**  The wallet signs the hash of the
body; an input verifies over a hash of its commitment and that hash.  A block
with the body of a transaction is never accepted. -/
theorem wallet_inputs_unauthorised [Ord H] [DecidableEq H] (hschnorr : SchnorrExact crypto)
    (hfix : ∀ (commitment : Commitment) (h : H), crypto.sha256 (feed commitment.toList ++ [.digest h]) ≠ h)
    (h : wallet.createMWTransaction crypto pDestScanKey pDestSpendKey nAmount rand =
      some (some (tx, wallet'))) : tx.body.vInputs ≠ [] ∧ (∀ input ∈ tx.body.vInputs,
        input.verifySignature crypto.toMWCrypto (tx.body.getHash crypto.toSha256) = false) ∧
      ∀ (block : CMWBlock H) (state : CMWState H) (nBlockHeight : Int32)
        (nTransparentPegIn nTransparentPegOut : Int64), block.body = tx.body →
        (validateMWBlock crypto.toMWCrypto block state nBlockHeight nTransparentPegIn
          nTransparentPegOut).isValid = false := by
  obtain ⟨_, vSelected, nValueSelected, destOutput, changeOutputs, adjustedExcess, hselect, _, hbody⟩ :=
    createMWTransaction_some h
  have hne : tx.body.vInputs ≠ [] := by
    intro hempty
    have hlength := congrArg List.length hempty
    rw [hbody] at hlength
    simp only [length_signInputs, sort, length_insertionSort, length_map,
      length_nil, length_eq_zero_iff] at hlength
    exact selectLoop_ne_nil hselect hlength
  -- signatures do not enter the hash
  have hhash : tx.body.getHash crypto.toSha256 = CMWTransactionBody.getHash crypto.toSha256
      (sort crypto.toSha256
        { vInputs := vSelected.map spendInput, vOutputs := destOutput :: changeOutputs
          vKernels := [CMWWallet.makeKernel crypto MIN_TX_FEE adjustedExcess] }) := by
    rw [hbody, CMWTransactionBody.getHash, length_signInputs]
    rfl
  have hinputs : ∀ input ∈ tx.body.vInputs,
      input.verifySignature crypto.toMWCrypto (tx.body.getHash crypto.toSha256) = false := by
    intro input hinput
    rw [hbody] at hinput
    rw [hhash]
    rcases mem_signInputs hinput with hunsigned | ⟨secretKey, hsigned⟩
    · have hspend := (mem_insertionSort _).mp hunsigned
      obtain ⟨owned, _, rfl⟩ := mem_map.mp hspend
      exact hschnorr.verify_null _ _
    · rw [CMWInput.verifySignature, hsigned]
      exact hschnorr.verify_other secretKey (hfix _ _) _
  refine ⟨hne, hinputs, ?_⟩
  intro block state nBlockHeight nTransparentPegIn nTransparentPegOut hblock
  apply Bool.eq_false_iff.mpr
  intro hvalid
  have hcheck : checkInputSignatures crypto.toMWCrypto (block.body.getHash crypto.toSha256) 0
      block.body.vInputs = none := eq_none_of_isValid hvalid (by simp [validationChecks])
  rw [hblock] at hcheck
  obtain ⟨input, hinput⟩ := exists_mem_of_ne_nil _ hne
  have hverified := checkInputSignatures_eq_none hcheck input hinput
  rw [hinputs input hinput] at hverified
  cases hverified

theorem sampleCrypto_exact : SchnorrExact sampleCrypto where
  verify_sign := by
    intro secretKey message signature hvalid hsign key message'
    cases hsign
    have hlist : (secretKey ++ message : Signature).toList = secretKey.toList ++ message.toList :=
      Vector.toList_append ..
    have htake : (secretKey ++ message : Signature).toList.take 32 = secretKey.toList := by
      rw [hlist, take_left' secretKey.length_toList]
    have hdrop : (secretKey ++ message : Signature).toList.drop 32 = message.toList := by
      rw [hlist, drop_left' secretKey.length_toList]
    simp only [sampleCrypto, htake, hdrop, Bool.and_eq_true, beq_iff_eq, decide_eq_true_iff]
    constructor
    · intro h
      exact ⟨h.1.2, (Vector.toList_inj.mp h.2).symm⟩
    · intro h
      exact ⟨⟨Secp256k1.ecSeckeyVerify_iff.mp hvalid, h.1⟩, congrArg Vector.toList h.2.symm⟩
  verify_null := by
    intro key message
    have hsecret : ofBE (nullSignature.toList.take 32) = 0 := by decide
    simp [sampleCrypto, hsecret]

/-- The checksum has no fixed point of the shape that inputs hash. -/
theorem checksum_ne (commitment : Commitment) (h : SampleDigest) :
    checksum (feed commitment.toList ++ [.digest h]) ≠ h := by
  intro heq
  have hlast : checksum (feed commitment.toList ++ [.digest h]) =
      scalarBytes (scalar h % 2 ^ 32 + 1) := by
    rw [checksum, getLast?_concat]
  have hlt : scalar h % 2 ^ 32 < 2 ^ 32 := Nat.mod_lt _ (by decide)
  have hscalar := congrArg scalar (hlast.symm.trans heq)
  rw [scalar_scalarBytes (Nat.lt_of_le_of_lt hlt (by decide))] at hscalar
  omega

theorem wallet_inputs_unauthorised_sample :
    ∃ tx wallet', spendRun = some (some (tx, wallet')) ∧ tx.body.vInputs ≠ [] ∧
      ∀ input ∈ tx.body.vInputs, input.verifySignature sampleCrypto.toMWCrypto
        (tx.body.getHash sampleCrypto.toSha256) = false := by
  obtain ⟨tx, wallet', hspend, _⟩ := spendRun_some
  obtain ⟨hne, hinputs, _⟩ := wallet_inputs_unauthorised sampleCrypto_exact checksum_ne hspend
  exact ⟨tx, wallet', hspend, hne, hinputs⟩

/-- **A signed input is not authorised.**  Its key is that of the signature, and
the signature verifies over the hash of the body. -/
theorem signed_input_unauthorised :
    ∃ tx wallet' input, spendRun = some (some (tx, wallet')) ∧ input ∈ tx.body.vInputs ∧
      sampleCrypto.verifySchnorr (input.outputPubKey.toList.drop 1)
        (tx.body.getHash sampleCrypto.toSha256) input.signature = true ∧
      input.verifySignature sampleCrypto.toMWCrypto (tx.body.getHash sampleCrypto.toSha256) = false := by
  have hrun : (spendRun.any fun result => result.any fun made => made.1.body.vInputs.any fun input =>
      sampleCrypto.verifySchnorr (input.outputPubKey.toList.drop 1)
        (made.1.body.getHash sampleCrypto.toSha256) input.signature &&
      !input.verifySignature sampleCrypto.toMWCrypto (made.1.body.getHash sampleCrypto.toSha256)) =
      true := by decide +kernel
  rw [Option.any_eq_true] at hrun
  obtain ⟨result, hresult, hrun⟩ := hrun
  rw [Option.any_eq_true] at hrun
  obtain ⟨made, rfl, hrun⟩ := hrun
  rw [any_eq_true] at hrun
  obtain ⟨input, hinput, hrun⟩ := hrun
  rw [Bool.and_eq_true, Bool.not_eq_true'] at hrun
  exact ⟨made.1, made.2, input, hresult, hinput, hrun.1, hrun.2⟩

end MaryJaneCoin
