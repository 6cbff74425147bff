import MaryJaneCoin.Chain.Transaction
import MaryJaneCoin.Mw.BodyOrder
import MaryJaneCoin.Mw.Bulletproof

/-!
# The Mimblewimble wallet of `mw/mw_wallet.cpp`, and `mw/peg.cpp`

What OpenSSL computes on the curve, the outputs a wallet owns, how it selects
them, makes and signs a transaction and scans a block.  Everything random is an
argument, and so is what an uninitialised buffer holds.

A call returns an option: `none` is a run without a meaning, which only `Prove`
can cause.
-/

namespace MaryJaneCoin

open Codec Std PedersenContext

abbrev SecretKey := Vector UInt8 32

def OUTPUT_STANDARD : UInt8 := 0x00

structure CMWOwnedOutput where
  output : CMWOutput
  blindingFactor : BlindingFactor
  spendKey : SecretKey
  nValue : Int64
  nBlockHeight : Int32
  fSpent : Bool
deriving DecidableEq

/-- `CMWWallet`, without the wallet file behind it. -/
structure CMWWallet where
  scanPrivKey : SecretKey
  scanPubKey : PubKey
  spendPrivKey : SecretKey
  spendPubKey : PubKey
  mapOwnedOutputs : ExtTreeMap Commitment CMWOwnedOutput

/-- What is drawn for one output, and what its two key buffers hold before they
are written. -/
structure OutputDraws (H : Type) where
  blind : Nat → Option BlindingFactor
  ephemeralSecret : SecretKey
  proofNonce : H
  ephemeralPubKey : PubKey
  oneTimePubKey : PubKey

/-- What is drawn for a transaction. -/
structure MWRandomness (H : Type) where
  dest : OutputDraws H
  change : OutputDraws H
  offset : Nat → Option BlindingFactor

variable {H P : Type} [AddCommGroup P] [DecidableEq P] (crypto : CurveCrypto H P)

/-- `EC_POINT_point2oct` into a buffer of 33 bytes, and whether it wrote all of
them: infinity is one zero byte. -/
def writePoint (Q : P) (buffer : PubKey) : Bool × PubKey :=
  if Q = 0 then (false, buffer.set 0 0 (Nat.succ_pos 32)) else (true, crypto.curve.serialize Q)

def computeECDHSharedSecret (privKey : SecretKey) (pPubKey33 : PubKey) : Option H :=
  (crypto.curve.parse pPubKey33).bind fun peerPoint =>
    let sharedPoint := crypto.curve.mul (scalar privKey) peerPoint
    if sharedPoint = 0 then none
    else some (crypto.sha256 (feed (crypto.curve.serialize sharedPoint).toList))

def derivePublicKey (privKey : SecretKey) (buffer : PubKey) : Bool × PubKey :=
  writePoint crypto (crypto.curve.mul (scalar privKey) crypto.curve.G) buffer

def addScalarToPublicKey (pPubKey33 : PubKey) (secret : H) (buffer : PubKey) : Bool × PubKey :=
  match crypto.curve.parse pPubKey33 with
  | none => (false, buffer)
  | some basePoint =>
    writePoint crypto
      (basePoint + crypto.curve.mul (scalar (crypto.digestBytes secret)) crypto.curve.G) buffer

def addScalars (a : SecretKey) (b : H) : SecretKey :=
  scalarBytes ((scalar a + scalar (crypto.digestBytes b)) % crypto.curve.order)

/-- `SchnorrSigner::Sign`. -/
def schnorrSign (secretKey : SecretKey) (message : H) : Signature :=
  if crypto.curve.ecSeckeyVerify secretKey then
    (crypto.schnorrsigSign32 secretKey message).getD nullSignature
  else nullSignature

/-- An output to these keys, as `CreateMWTransaction` makes it; what the calls
return is not looked at. -/
def makeOutput (draws : OutputDraws H) (pScanKey pSpendKey : PubKey) (nValue : Int64)
    (blind : BlindingFactor) : Option CMWOutput :=
  let sharedSecret := (computeECDHSharedSecret crypto draws.ephemeralSecret pScanKey).getD crypto.zero
  (prove crypto nValue blind draws.proofNonce []).map fun rangeProof =>
    { commitment := PedersenContext.commit crypto.curve nValue blind
      senderPubKey := (derivePublicKey crypto draws.ephemeralSecret draws.ephemeralPubKey).2
      receiverPubKey := (addScalarToPublicKey crypto pSpendKey sharedSecret draws.oneTimePubKey).2
      rangeProof
      nFeatures := OUTPUT_STANDARD }

/-- The inner signing loop of `CreateMWTransaction`: the first input with the
commitment gets the signature. -/
def signInput (commitment : Commitment) (signature : Signature) : List CMWInput → List CMWInput
  | [] => []
  | input :: rest =>
    if input.commitment = commitment then { input with signature } :: rest
    else input :: signInput commitment signature rest

namespace CMWWallet

variable (wallet : CMWWallet)

def hasKeys : Bool := !allZero wallet.scanPrivKey && !allZero wallet.spendPrivKey

def deriveSpendKey (pSenderPubKey : PubKey) : Option SecretKey :=
  (computeECDHSharedSecret crypto wallet.scanPrivKey pSenderPubKey).map fun sharedSecret =>
    addScalars crypto wallet.spendPrivKey sharedSecret

def markOutputSpent (commitment : Commitment) : CMWWallet :=
  match wallet.mapOwnedOutputs[commitment]? with
  | none => wallet
  | some owned =>
    { wallet with
      mapOwnedOutputs := wallet.mapOwnedOutputs.insert commitment { owned with fSpent := true } }

def addOwnedOutput (owned : CMWOwnedOutput) : CMWWallet :=
  { wallet with mapOwnedOutputs := wallet.mapOwnedOutputs.insert owned.output.commitment owned }

/-- The last loop of `SelectMWOutputs`. -/
def selectLoop (nTargetValue : Int64) : Int64 → List CMWOwnedOutput →
    Option (List CMWOwnedOutput × Int64)
  | _, [] => none
  | nValueOut, owned :: rest =>
    if nTargetValue ≤ nValueOut + owned.nValue then some ([owned], nValueOut + owned.nValue)
    else
      (selectLoop nTargetValue (nValueOut + owned.nValue) rest).map fun selected =>
        (owned :: selected.1, selected.2)

/-- `CMWWallet::SelectMWOutputs`: the largest outputs first, and equal ones as they come, where
`std::sort` leaves their order open. -/
def selectMWOutputs (nTargetValue : Int64) : Option (List CMWOwnedOutput × Int64) :=
  let vUnspent := (wallet.mapOwnedOutputs.toList.map Prod.snd).filter fun owned => !owned.fSpent
  selectLoop nTargetValue 0 (vUnspent.insertionSort fun a b => b.nValue ≤ a.nValue)

/-- The kernel of `CreateMWTransaction`. -/
def makeKernel (nFee : Int64) (adjustedExcess : BlindingFactor) : CMWKernel :=
  let kernel : CMWKernel :=
    { nFeatures := KERNEL_PLAIN, nFee, nPegAmount := 0, nLockHeight := 0
      excess := PedersenContext.commitBlind crypto.curve adjustedExcess
      signature := nullSignature, pegoutScript := [] }
  { kernel with
    signature := schnorrSign crypto adjustedExcess (kernel.getSignatureMessage crypto.toSha256) }

/-- `CMWWallet::CreateMWTransaction`: the transaction and the wallet behind it,
or `none` for `false`. -/
def createMWTransaction [Ord H] (pDestScanKey pDestSpendKey : PubKey) (nAmount : Int64)
    (rand : MWRandomness H) : Option (Option (CMWTransaction × CMWWallet)) :=
  if nAmount ≤ 0 then some none
  else
    let nFee := MIN_TX_FEE
    match wallet.selectMWOutputs (nAmount + nFee) with
    | none => some none
    | some (vSelected, nValueSelected) =>
      let nChange := nValueSelected - nAmount - nFee
      let vInputs := vSelected.map fun owned =>
        { commitment := owned.output.commitment, outputPubKey := owned.output.receiverPubKey
          signature := nullSignature }
      let destBlind := generateBlindingFactor crypto.curve rand.dest.blind
      let changeBlind := generateBlindingFactor crypto.curve rand.change.blind
      (makeOutput crypto rand.dest pDestScanKey pDestSpendKey nAmount destBlind).bind fun destOutput =>
      (if 0 < nChange then
        (makeOutput crypto rand.change wallet.scanPubKey wallet.spendPubKey nChange changeBlind).map
          fun changeOutput => [changeOutput]
      else some []).map fun changeOutputs =>
      let excessBlind := blindSum crypto.curve
        (destBlind :: if 0 < nChange then [changeBlind] else [])
        (vSelected.map CMWOwnedOutput.blindingFactor)
      let offset := generateBlindingFactor crypto.curve rand.offset
      let adjustedExcess := blindSum crypto.curve [excessBlind] [offset]
      let body := CMWTransactionBody.sort crypto.toSha256
        { vInputs, vOutputs := destOutput :: changeOutputs
          vKernels := [makeKernel crypto nFee adjustedExcess] }
      let txHash := body.getHash crypto.toSha256
      let signedInputs := vSelected.foldl (fun inputs owned =>
        signInput owned.output.commitment (schnorrSign crypto owned.spendKey txHash) inputs)
        body.vInputs
      let marked := vSelected.foldl (fun wallet owned =>
        wallet.markOutputSpent owned.output.commitment) wallet
      let changed := changeOutputs.foldl (fun marked output => marked.addOwnedOutput
        { output, blindingFactor := changeBlind
          spendKey := (marked.deriveSpendKey crypto output.senderPubKey).getD (Vector.replicate 32 0)
          nValue := nChange, nBlockHeight := 0, fSpent := false }) marked
      some ({ body := { body with vInputs := signedInputs }, offset }, changed)

/-- The nonce that `ScanForOutputs` tries first. -/
def scanNonce (sharedSecret : H) : H := crypto.sha256 (.digest sharedSecret :: feedString "nonce")

/-- What `ScanForOutputs` finds out about an output: what it owns if the output
is its own and the proof can be rewound. -/
def recoverOutput (nHeight : Int32) (output : CMWOutput) : Option CMWOwnedOutput :=
  (computeECDHSharedSecret crypto wallet.scanPrivKey output.senderPubKey).bind fun sharedSecret =>
  let expected :=
    addScalarToPublicKey crypto wallet.spendPubKey sharedSecret (Vector.replicate 33 0)
  if expected.1 && expected.2 == output.receiverPubKey then
    (wallet.deriveSpendKey crypto output.senderPubKey).bind fun oneTimeSpendKey =>
    ((recoverMessage crypto output.commitment output.rangeProof
        (scanNonce crypto sharedSecret)).or
      (recoverMessage crypto output.commitment output.rangeProof sharedSecret)).map fun recovered =>
        { output, blindingFactor := recovered.2.1, spendKey := oneTimeSpendKey
          nValue := recovered.1, nBlockHeight := nHeight, fSpent := false }
  else none

/-- The first loop of `ScanForOutputs`, over one output. -/
def scanOutput (nHeight : Int32) (scanned : Nat × CMWWallet) (output : CMWOutput) : Nat × CMWWallet :=
  if output.commitment ∈ scanned.2.mapOwnedOutputs then scanned
  else
    match scanned.2.recoverOutput crypto nHeight output with
    | none => scanned
    | some owned => (scanned.1 + 1,
        { scanned.2 with
          mapOwnedOutputs := scanned.2.mapOwnedOutputs.insert output.commitment owned })

/-- `CMWWallet::ScanForOutputs`: the number of outputs found, and the wallet. -/
def scanForOutputs (block : CMWBlock H) : Nat × CMWWallet :=
  if !wallet.hasKeys then (0, wallet)
  else
    let scanned := block.body.vOutputs.foldl (scanOutput crypto block.nHeight) (0, wallet)
    (scanned.1, block.body.vInputs.foldl (fun wallet input =>
      wallet.markOutputSpent input.commitment) scanned.2)

end CMWWallet

/-- `CPegInResult`, without the transparent transaction, which `CreatePegIn`
leaves empty. -/
structure CPegInResult where
  fSuccess : Bool := false
  strError : String := ""
  mwOutput : CMWOutput := ⟨nullCommitment, Vector.replicate 33 0, Vector.replicate 33 0, [],
    OUTPUT_STANDARD⟩
  kernel : CMWKernel := ⟨KERNEL_PLAIN, 0, 0, 0, nullCommitment, nullSignature, []⟩
  outputBlind : BlindingFactor := nullBlind

/-- What `CreatePegIn` draws; a failure of the generator is `none`. -/
structure PegInDraws (H : Type) where
  blind : Nat → Option BlindingFactor
  senderSecret : Option SecretKey
  receiverSecret : Option SecretKey
  nonce : Option H

def getPublicKey (secretKey : SecretKey) : Option PubKey :=
  (crypto.curve.ecPubkeyCreate secretKey).map crypto.curve.serialize

/-- The peg-in kernel of `CreatePegIn`. -/
def makePegInKernel (nAmount : Int64) (excessBlind : BlindingFactor) : CMWKernel :=
  let kernel : CMWKernel :=
    { nFeatures := KERNEL_PEGIN, nFee := 0, nPegAmount := nAmount, nLockHeight := 0
      excess := PedersenContext.commitBlind crypto.curve excessBlind
      signature := nullSignature, pegoutScript := [] }
  { kernel with
    signature := schnorrSign crypto excessBlind (kernel.getSignatureMessage crypto.toSha256) }

/-- `CreatePegIn`; the wallet is only compared with null. -/
def createPegIn (pWallet : Bool) (nAmount : Int64) (draws : PegInDraws H) : Option CPegInResult :=
  let outputBlind := generateBlindingFactor crypto.curve draws.blind
  let commitment := PedersenContext.commit crypto.curve nAmount outputBlind
  if !pWallet then some { strError := "wallet is null" }
  else if nAmount ≤ 0 then some { strError := "amount must be positive" }
  else if MAX_MONEY < nAmount then some { strError := "amount exceeds maximum" }
  else if allZero outputBlind then some { strError := "failed to generate blinding factor" }
  else if allZero commitment then some { strError := "failed to create commitment" }
  else
    match draws.senderSecret with
    | none => some { strError := "RNG failure generating sender key" }
    | some senderSecret =>
    match getPublicKey crypto senderSecret with
    | none => some { strError := "failed to generate sender key" }
    | some senderPubKey =>
    match draws.receiverSecret with
    | none => some { strError := "RNG failure generating receiver key" }
    | some receiverSecret =>
    match getPublicKey crypto receiverSecret with
    | none => some { strError := "failed to generate receiver key" }
    | some receiverPubKey =>
    match draws.nonce with
    | none => some { strError := "RNG failure generating range-proof nonce" }
    | some nonce =>
    (prove crypto nAmount outputBlind nonce []).map fun rangeProof =>
      if rangeProof.isEmpty then { strError := "failed to create range proof" }
      else
        let mwOutput : CMWOutput :=
          ⟨commitment, senderPubKey, receiverPubKey, rangeProof, OUTPUT_STANDARD⟩
        let kernel := makePegInKernel crypto nAmount outputBlind
        if allZero kernel.signature then { strError := "failed to sign kernel", mwOutput, kernel }
        else { fSuccess := true, mwOutput, kernel, outputBlind }

/-- The digests of concrete runs. -/
abbrev SampleDigest := Vector UInt8 32

instance sampleDigestTransOrd : Std.TransOrd SampleDigest := Vector.instTransOrd

/-- A hash of small numbers: the last digest plus one, or a checksum. -/
def checksum (data : Preimage SampleDigest) : SampleDigest :=
  match data.getLast? with
  | some (.digest h) => scalarBytes (scalar h % 2 ^ 32 + 1)
  | _ => scalarBytes (data.foldl (fun n atom => match atom with
      | .byte b => (257 * n + b.toNat) % 2 ^ 32
      | .digest h => (257 * n + scalar h) % 2 ^ 32) 0 + 1)

/-- Signatures that consist of the secret key and the message. -/
def sampleCrypto : CurveCrypto SampleDigest SamplePoint where
  sha256 := checksum
  zero := Vector.replicate 32 0
  verifyExcess _ _ _ := true
  verifyRangeProof _ _ := true
  commit := PedersenContext.commit sampleCurve
  commitBlind := PedersenContext.commitBlind sampleCurve
  verifySum := PedersenContext.verifyCommitmentSum sampleCurve
  verifySchnorr key message signature :=
    let secret := ofBE (signature.toList.take 32)
    decide (0 < secret ∧ secret < sampleCurve.order) &&
      key == (sampleCurve.serialize (sampleCurve.mul secret sampleCurve.G)).toList.drop 1 &&
      signature.toList.drop 32 == message.toList
  curve := sampleCurve
  digestBytes h := h
  schnorrsigSign32 secretKey message := some (secretKey ++ message)

/-- The public key of a secret. -/
def samplePubKey (secret : Nat) : PubKey :=
  sampleCurve.serialize (sampleCurve.mul secret sampleCurve.G)

/-- An output of this value that belongs to the secret key 13. -/
def ownedOutput (nValue : Int64) : CMWOwnedOutput where
  output :=
    { commitment := PedersenContext.commit sampleCurve nValue (scalarBytes 11)
      senderPubKey := samplePubKey 3, receiverPubKey := samplePubKey 13
      rangeProof := [1], nFeatures := OUTPUT_STANDARD }
  blindingFactor := scalarBytes 11
  spendKey := scalarBytes 13
  nValue
  nBlockHeight := 1
  fSpent := false

/-- A wallet with these private keys and these outputs. -/
def sampleWallet (scan spend : Nat) (owned : List CMWOwnedOutput) : CMWWallet where
  scanPrivKey := scalarBytes scan
  scanPubKey := samplePubKey scan
  spendPrivKey := scalarBytes spend
  spendPubKey := samplePubKey spend
  mapOwnedOutputs := owned.foldl (fun mapOwnedOutputs owned =>
    mapOwnedOutputs.insert owned.output.commitment owned) ∅

/-- Draws that succeed at once. -/
def sampleDraws (blind ephemeralSecret : Nat) : OutputDraws SampleDigest where
  blind _ := some (scalarBytes blind)
  ephemeralSecret := scalarBytes ephemeralSecret
  proofNonce := scalarBytes 29
  ephemeralPubKey := Vector.replicate 33 0
  oneTimePubKey := Vector.replicate 33 0

def sampleRandomness (destBlind : Nat) : MWRandomness SampleDigest where
  dest := sampleDraws destBlind 19
  change := sampleDraws 23 31
  offset _ := some (scalarBytes 37)

end MaryJaneCoin
