import MaryJaneCoin.Chain.Identity
import MaryJaneCoin.Mw.Wallet

/-!
# What the signature of an input authorises

`ValidateMWBlock` verifies each input under the key that the input itself
carries; the key that the state holds for the spent output is not looked at.
The signed message covers the commitment of the input, and of the body what
`GetHash` covers: three counts and what the kernels sign.
-/

namespace MaryJaneCoin

open List hiding Vector
open Codec Std Function

variable {H : Type} {sha : Sha256 H}

variable {width m n : Nat}

/-- The bytes of a number determine it as far as they go. -/
theorem mod_eq_of_putLE_eq (heq : putLE width m = putLE width n) :
    m % 256 ^ width = n % 256 ^ width := by
  induction width generalizing m n with
  | zero => rw [Nat.pow_zero, Nat.mod_one, Nat.mod_one]
  | succ width ih =>
    obtain ⟨hbyte, hrest⟩ := List.cons.inj heq
    have hlow : m % 256 = n % 256 := by
      have hnat := congrArg UInt8.toNat hbyte
      rwa [UInt8.toNat_ofNat', UInt8.toNat_ofNat'] at hnat
    rw [Nat.pow_succ, Nat.mul_comm, Nat.mod_mul, Nat.mod_mul, hlow, ih hrest]

theorem feed_injective : Injective (feed (H := H)) := map_injective_iff.mpr byte_injective

variable {rest rest' : Preimage H}

theorem feed_append_inj {bytes bytes' : Bytes}
    (hlength : bytes.length = bytes'.length) (heq : feed bytes ++ rest = feed bytes' ++ rest') :
    bytes = bytes' ∧ rest = rest' := by
  obtain ⟨hbytes, hrest⟩ := append_inj heq (by simpa [feed] using hlength)
  exact ⟨feed_injective hbytes, hrest⟩

theorem feedBE_append_inj (hm : m < 256 ^ width)
    (hn : n < 256 ^ width) (heq : feedBE width m ++ rest = feedBE width n ++ rest') :
    m = n ∧ rest = rest' := by
  have hlength : ((putLE width m).reverse).length = ((putLE width n).reverse).length := by
    rw [length_reverse, length_reverse, length_putLE, length_putLE]
  obtain ⟨hbytes, hrest⟩ := feed_append_inj hlength heq
  exact ⟨putLE_inj hm hn (reverse_injective hbytes), hrest⟩

/-- A number that is there under a condition. -/
theorem feedIf_append_inj {present : Bool} (hm : m < 256 ^ width) (hn : n < 256 ^ width)
    (heq : (if present then feedBE width m else []) ++ rest =
      (if present then feedBE width n else []) ++ rest') : (present = true → m = n) ∧ rest = rest' := by
  cases present with
  | true =>
    obtain ⟨hnat, hrest⟩ := feedBE_append_inj hm hn heq
    exact ⟨fun _ => hnat, hrest⟩
  | false => exact ⟨fun habsent => (Bool.false_ne_true habsent).elim, heq⟩

/-- What a kernel carries apart from its signature: the fields that its features
give a meaning to. -/
def CMWKernel.terms (kernel : CMWKernel) : CMWKernel :=
  { kernel with
    nPegAmount := if kernel.isPegIn || kernel.isPegOut then kernel.nPegAmount else 0
    nLockHeight := if kernel.isHeightLocked then kernel.nLockHeight else 0
    pegoutScript := if kernel.isPegOut then kernel.pegoutScript else []
    signature := nullSignature }

theorem toUInt64_toNat_inj {a b : Int64} (h : a.toUInt64.toNat = b.toUInt64.toNat) : a = b := by
  have hbits := UInt64.toNat_inj.mp h
  cases a
  cases b
  exact congrArg Int64.ofUInt64 hbits

theorem toUInt32_toNat_inj {a b : Int32} (h : a.toUInt32.toNat = b.toUInt32.toNat) : a = b := by
  have hbits := UInt32.toNat_inj.mp h
  cases a
  cases b
  exact congrArg Int32.ofUInt32 hbits

/-- **A kernel's message determines its terms.** -/
theorem CMWKernel.terms_of_getSignatureMessage_eq (hinj : Injective sha.sha256) {a b : CMWKernel}
    (h : a.getSignatureMessage sha = b.getSignatureMessage sha) : a.terms = b.terms := by
  have heq := Sha256.sha256d_injective hinj h
  simp only [append_assoc] at heq
  obtain ⟨hfirst, heq⟩ := feed_append_inj
    (show [a.nFeatures].length = [b.nFeatures].length from rfl) heq
  have hfeatures : a.nFeatures = b.nFeatures := (List.cons.inj hfirst).1
  have hpegIn : b.isPegIn = a.isPegIn := by rw [isPegIn, isPegIn, hfeatures]
  have hpegOut : b.isPegOut = a.isPegOut := by rw [isPegOut, isPegOut, hfeatures]
  have hlocked : b.isHeightLocked = a.isHeightLocked := by
    rw [isHeightLocked, isHeightLocked, hfeatures]
  rw [hpegIn, hpegOut, hlocked] at heq
  obtain ⟨hfee, heq⟩ := feedBE_append_inj a.nFee.toUInt64.toNat_lt b.nFee.toUInt64.toNat_lt heq
  obtain ⟨hpeg, heq⟩ := feedIf_append_inj a.nPegAmount.toUInt64.toNat_lt b.nPegAmount.toUInt64.toNat_lt heq
  obtain ⟨hlock, heq⟩ := feedIf_append_inj a.nLockHeight.toUInt32.toNat_lt b.nLockHeight.toUInt32.toNat_lt heq
  obtain ⟨hexcess, hscript⟩ := feed_append_inj
    (a.excess.length_toList.trans b.excess.length_toList.symm) heq
  unfold terms
  rw [hpegIn, hpegOut, hlocked, ← hfeatures, toUInt64_toNat_inj hfee, Vector.toList_inj.mp hexcess]
  congr 1
  · split
    · rename_i hpresent
      exact toUInt64_toNat_inj (hpeg hpresent)
    · rfl
  · split
    · rename_i hpresent
      exact toUInt32_toNat_inj (hlock hpresent)
    · rfl
  · split
    · rename_i hpresent
      rw [if_pos hpresent, if_pos hpresent] at hscript
      exact feed_injective hscript
    · rfl

/-- The message that an input signs. -/
def inputMessage (sha : Sha256 H) (commitment : Commitment) (body : CMWTransactionBody) : H :=
  sha.sha256 (feed commitment.toList ++ [.digest (body.getHash sha)])

theorem feedLE_append_mod (heq : feedLE width m ++ rest = feedLE width n ++ rest') :
    m % 256 ^ width = n % 256 ^ width ∧ rest = rest' := by
  obtain ⟨hbytes, hrest⟩ := feed_append_inj (by rw [length_putLE, length_putLE]) heq
  exact ⟨mod_eq_of_putLE_eq hbytes, hrest⟩

/-- **What the message of an input determines**: its commitment, the numbers of
inputs and outputs in 32 bits, and the terms of the kernels. -/
theorem eq_of_inputMessage_eq (hinj : Injective sha.sha256)
    {commitment commitment' : Commitment} {body body' : CMWTransactionBody}
    (h : inputMessage sha commitment' body' = inputMessage sha commitment body) :
    commitment' = commitment ∧ body'.vInputs.length % 2 ^ 32 = body.vInputs.length % 2 ^ 32 ∧
      body'.vOutputs.length % 2 ^ 32 = body.vOutputs.length % 2 ^ 32 ∧
      body'.vKernels.map CMWKernel.terms = body.vKernels.map CMWKernel.terms := by
  obtain ⟨hcommitment, htail⟩ := feed_append_inj
    (commitment'.length_toList.trans commitment.length_toList.symm) (hinj h)
  simp only [List.cons.injEq, Atom.digest.injEq, and_true] at htail
  have hbody := hinj htail
  simp only [List.cons.injEq, Atom.digest.injEq, and_true] at hbody
  have heq := Sha256.sha256d_injective hinj hbody
  simp only [append_assoc] at heq
  obtain ⟨hinputs, heq⟩ := feedLE_append_mod heq
  obtain ⟨houtputs, heq⟩ := feedLE_append_mod heq
  obtain ⟨_, heq⟩ := feedLE_append_mod heq
  refine ⟨Vector.toList_inj.mp hcommitment, hinputs, houtputs, ?_⟩
  generalize body'.vKernels = kernels' at heq
  generalize body.vKernels = kernels at heq
  induction kernels' generalizing kernels with
  | nil =>
    cases kernels with
    | nil => rfl
    | cons kernel kernels => cases heq
  | cons kernel' kernels' ih =>
    cases kernels with
    | nil => cases heq
    | cons kernel kernels =>
      obtain ⟨hfirst, hrest⟩ := List.cons.inj heq
      rw [map_cons, map_cons, ih kernels hrest,
        CMWKernel.terms_of_getSignatureMessage_eq hinj (Atom.digest.inj hfirst)]

variable [Ord H] [DecidableEq H] {crypto : MWCrypto H} {block : CMWBlock H} {state : CMWState H}
  {nBlockHeight : Int32} {nTransparentPegIn nTransparentPegOut : Int64}

/-- **What an accepted input is authorised by**: it spends an output of the
state, and its signature verifies under the key it carries itself, over a
message that determines its commitment, the numbers of inputs and outputs in 32
bits, and the terms of the kernels. -/
theorem input_authorisation (hinj : Function.Injective crypto.sha256)
    (hvalid : (validateMWBlock crypto block state nBlockHeight nTransparentPegIn
      nTransparentPegOut).isValid = true) :
    ∀ input ∈ block.body.vInputs, ∃ output, state.mapOutputs[input.commitment]? = some output ∧
      crypto.verifySchnorr (input.outputPubKey.toList.drop 1)
        (inputMessage crypto.toSha256 input.commitment block.body) input.signature = true ∧
      ∀ (commitment : Commitment) (body : CMWTransactionBody), inputMessage crypto.toSha256 commitment body =
          inputMessage crypto.toSha256 input.commitment block.body → commitment = input.commitment ∧
        body.vInputs.length % 2 ^ 32 = block.body.vInputs.length % 2 ^ 32 ∧
          body.vOutputs.length % 2 ^ 32 = block.body.vOutputs.length % 2 ^ 32 ∧
          body.vKernels.map CMWKernel.terms = block.body.vKernels.map CMWKernel.terms := by
  intro input hinput
  have hsignatures : checkInputSignatures crypto (block.body.getHash crypto.toSha256) 0
      block.body.vInputs = none := eq_none_of_isValid hvalid (by simp [validationChecks])
  obtain ⟨output, houtput⟩ := (FinMap.mem_iff_exists _ _).mp ((validateMWBlock_spec hvalid).1 input hinput)
  exact ⟨output, houtput, checkInputSignatures_eq_none hsignatures input hinput,
    fun commitment body heq => eq_of_inputMessage_eq hinj heq⟩

theorem input_authorisation_balanced :
    ∃ input ∈ balancedBlock.body.vInputs, ∃ output, fundedState.mapOutputs[input.commitment]? = some output ∧
      proving.verifySchnorr (input.outputPubKey.toList.drop 1)
        (inputMessage transparent input.commitment balancedBlock.body) input.signature = true := by
  have hvalid : (validateMWBlock (proving.withPedersen sampleCurve) balancedBlock fundedState 1 0
      0).isValid = true := by decide +kernel
  obtain ⟨output, houtput, hverify, _⟩ :=
    input_authorisation Node.transparent_injective hvalid _ mem_cons_self
  exact ⟨_, mem_cons_self, output, houtput, hverify⟩

/-- The output of the state belongs to the secret key 13. -/
def ownedState : CMWState SampleDigest :=
  { CMWState.empty sampleCrypto.toSha256 with
    mapOutputs := (∅ : ExtTreeMap Commitment CMWOutput).insert (blindedOutput 3).commitment
      { blindedOutput 3 with receiverPubKey := samplePubKey 13 } }

/-- A body that spends it under the key 99. -/
def theftBody (signature : Signature) (blind : Nat) : CMWTransactionBody where
  vInputs := [{ commitment := (blindedOutput 3).commitment, outputPubKey := samplePubKey 99, signature }]
  vOutputs := [blindedOutput blind]
  vKernels := [feeKernel 0 (samplePrime - 2)]

/-- The block with this body, signed with that key. -/
def theftBlock : CMWBlock SampleDigest where
  hashPrevMWBlock := sampleCrypto.zero
  body := theftBody (schnorrSign sampleCrypto (scalarBytes 99)
    (inputMessage sampleCrypto.toSha256 (blindedOutput 3).commitment (theftBody nullSignature 1))) 1
  vCutThrough := []
  nHeight := 1
  offset := nullBlind

/-- **An output is spent without its owner's key.**  The block is accepted, and
the signature does not verify under the key of the spent output.  The same
message is that of a body with another output. -/
theorem output_spent_with_other_key :
    (validateMWBlock { sampleCrypto.toMWCrypto with verifyRangeProof := verify unitCrypto } theftBlock ownedState 1
        0 0).isValid = true ∧ (∃ input ∈ theftBlock.body.vInputs, ∃ output,
      ownedState.mapOutputs[input.commitment]? = some output ∧
        sampleCrypto.verifySchnorr (output.receiverPubKey.toList.drop 1)
          (inputMessage sampleCrypto.toSha256 input.commitment theftBlock.body) input.signature =
      false) ∧ inputMessage transparent (blindedOutput 3).commitment (theftBody nullSignature 5) =
        inputMessage transparent (blindedOutput 3).commitment theftBlock.body ∧
      (theftBody nullSignature 5).vOutputs.map CMWOutput.commitment ≠
        theftBlock.body.vOutputs.map CMWOutput.commitment := by
  refine ⟨by decide +kernel, ?_, by decide +kernel, by decide +kernel⟩
  refine ⟨_, mem_cons_self, { blindedOutput 3 with receiverPubKey := samplePubKey 13 },
    ExtTreeMap.getElem?_insert_self, ?_⟩
  decide +kernel

end MaryJaneCoin
