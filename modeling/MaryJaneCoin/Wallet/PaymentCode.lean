import MaryJaneCoin.Wallet.CurveKey

/-!
# Payment codes

The channel of `bip47.cpp`.  Sender and receiver share a secret, from which every address
of the channel comes, and which blinds the payment code of the sender in
the notification. -/

namespace MaryJaneCoin

open Codec
open List hiding Vector

def BIP47_VERSION : UInt8 := 1
def PAYMENT_CODE_SIZE : Nat := 80

structure CPaymentCode where
  nVersion : UInt8
  nFeatures : UInt8
  scanPubKey : CPubKey
  spendPubKey : CPubKey
deriving DecidableEq

/-- The hash functions of OpenSSL that a channel calls. -/
structure ChannelHashes extends ScriptHashes where
  sha512 : Bytes → Vector UInt8 64

namespace CPaymentCode

def isValid (code : CPaymentCode) : Bool :=
  code.nVersion == BIP47_VERSION && (code.scanPubKey.isValid && code.scanPubKey.isCompressed) &&
    (code.spendPubKey.isValid && code.spendPubKey.isCompressed)

/-- `CPaymentCode::Encode`, into a vector that is made `PAYMENT_CODE_SIZE` bytes long. -/
def encode (code : CPaymentCode) (vchPayload : Bytes) : Option Bytes :=
  if !code.isValid then none
  else if code.scanPubKey.length ≠ 33 ∨ code.spendPubKey.length ≠ 33 then none
  else
    let resized := (vchPayload ++ List.replicate PAYMENT_CODE_SIZE 0).take PAYMENT_CODE_SIZE
    some (code.nVersion :: code.nFeatures :: (code.scanPubKey ++ (code.spendPubKey ++ resized.drop 68)))

def decode (vchPayload : Bytes) : Option CPaymentCode :=
  if vchPayload.length ≠ PAYMENT_CODE_SIZE then none
  else
    let code : CPaymentCode :=
      { nVersion := vchPayload.getD 0 0
        nFeatures := vchPayload.getD 1 0
        scanPubKey := (vchPayload.drop 2).take 33
        spendPubKey := (vchPayload.drop 35).take 33 }
    if code.nVersion ≠ BIP47_VERSION then none else if code.isValid then some code else none

end CPaymentCode

namespace Key

section

variable {P : Type} [AddCommGroup P] (curve : Secp256k1Octets P) (hashes : ChannelHashes)

def computeBIP47AddressTweak (sharedSecret : Vector UInt8 32) (nIndex : UInt32) : Vector UInt8 32 :=
  hashes.sha256 (sharedSecret.toList ++ putLE 4 nIndex.toNat)

/-- `DeriveChildPubKey`: the key and its ID. -/
def deriveChildPubKey (spendPubKey : CPubKey) (tweak : Vector UInt8 32) : Option (CPubKey × CKeyID) :=
  (tweakPubKey curve spendPubKey tweak).map fun child => (child, hashes.hash160 child)

def deriveChildPrivKey (spendSecret : CKey P) (tweak : Vector UInt8 32) (childKeyOut : CKey P) :
    Option (CKey P) :=
  tweakSecret curve spendSecret tweak childKeyOut

def deriveReceiveAddress (code : CPaymentCode) (sharedSecret : Vector UInt8 32) (nIndex : UInt32) :
    Option (CPubKey × CKeyID) :=
  if !code.isValid then none
  else
    deriveChildPubKey curve hashes code.spendPubKey
      (computeBIP47AddressTweak hashes sharedSecret nIndex)

def deriveSpendKey (spendSecret : CKey P) (sharedSecret : Vector UInt8 32) (nIndex : UInt32)
    (destKeyOut : CKey P) : Option (CKey P) :=
  deriveChildPrivKey curve spendSecret (computeBIP47AddressTweak hashes sharedSecret nIndex)
    destKeyOut

variable [DecidableEq P]

def computeBIP47SharedSecret (privkey : CKey P) (pubkey : CPubKey) : Option (Vector UInt8 32) :=
  computeStealthSharedSecret curve hashes.sha256 privkey pubkey

def computeBlindingSecret (senderScanPriv : CKey P) (receiverScanPub : CPubKey) :
    Option (Vector UInt8 32) :=
  computeBIP47SharedSecret curve hashes senderScanPriv receiverScanPub

end

section

variable (hashes : ChannelHashes)

def generateBlindingMask (blindingSecret : Vector UInt8 32) : Bytes :=
  let vchSha512 := hashes.sha512 blindingSecret.toList
  vchSha512.toList ++ (hashes.sha256 vchSha512.toList).toList.take 16

def blindPaymentCode (vchPayload : Bytes) (blindingSecret : Vector UInt8 32) : Option Bytes :=
  if vchPayload.length ≠ PAYMENT_CODE_SIZE then none
  else some (List.zipWith (· ^^^ ·) vchPayload (generateBlindingMask hashes blindingSecret))

def unblindPaymentCode (vchBlinded : Bytes) (blindingSecret : Vector UInt8 32) : Option Bytes :=
  blindPaymentCode hashes vchBlinded blindingSecret

def buildNotificationScript (vchBlindedPayload : Bytes) : CScript :=
  if vchBlindedPayload.length = PAYMENT_CODE_SIZE then
    OP_RETURN :: CScript.pushData vchBlindedPayload
  else []

def extractNotificationPayload (script : CScript) : Option Bytes :=
  (CScript.getOp script).bind fun (opcode, _, pc) =>
    if opcode ≠ OP_RETURN then none
    else
      (CScript.getOp pc).bind fun (_, vchData, pc) =>
        if vchData.length ≠ PAYMENT_CODE_SIZE then none
        else if !pc.isEmpty then none
        else some vchData

end

variable {vchPayload payload : Bytes}

theorem length_encode {code : CPaymentCode}
    (h : code.encode vchPayload = some payload) : payload.length = PAYMENT_CODE_SIZE := by
  rw [CPaymentCode.encode] at h
  split at h
  · cases h
  · split at h
    · cases h
    · next hlength =>
        cases h
        have htail : ((vchPayload ++ List.replicate PAYMENT_CODE_SIZE 0).take
            PAYMENT_CODE_SIZE).length = PAYMENT_CODE_SIZE := by
          rw [length_take, length_append, length_replicate]
          omega
        simp only [length_cons, length_append, length_drop, htail]
        unfold PAYMENT_CODE_SIZE
        omega

/-- **A payment code is decoded again**, whatever the vector held that it was encoded into. -/
theorem decode_encode {code : CPaymentCode}
    (h : code.encode vchPayload = some payload) : CPaymentCode.decode payload = some code := by
  have hsize := length_encode h
  rw [CPaymentCode.encode] at h
  split at h
  · cases h
  · next hvalid =>
      split at h
      · cases h
      · next hlength =>
          obtain ⟨hscan, hspend⟩ : code.scanPubKey.length = 33 ∧ code.spendPubKey.length = 33 := by
            omega
          rw [CPaymentCode.decode, if_neg (fun hne => hne hsize)]
          cases h
          have hvalid : code.isValid = true := by simpa using hvalid
          have hversion : code.nVersion = BIP47_VERSION := by
            simp only [CPaymentCode.isValid, Bool.and_eq_true, beq_iff_eq] at hvalid
            exact hvalid.1.1
          simp only [getD_cons_zero, getD_cons_succ, drop_succ_cons, drop_zero,
            take_left' hscan, drop_left' hscan, take_left' hspend, hversion, ne_eq,
            not_true_eq_false, if_false]
          rw [← hversion, if_pos hvalid]

theorem length_generateBlindingMask (hashes : ChannelHashes) (secret : Vector UInt8 32) :
    (generateBlindingMask hashes secret).length = PAYMENT_CODE_SIZE := by
  simp [generateBlindingMask, PAYMENT_CODE_SIZE]

theorem zipWith_xor_cancel (payload mask : Bytes) (hlength : payload.length ≤ mask.length) :
    List.zipWith (· ^^^ ·) (List.zipWith (· ^^^ ·) payload mask) mask = payload := by
  induction payload generalizing mask with
  | nil => simp
  | cons byte payload ih =>
    cases mask with
    | nil => cases hlength
    | cons maskByte mask =>
      rw [zipWith_cons_cons, zipWith_cons_cons, ih mask (Nat.le_of_succ_le_succ hlength),
        UInt8.xor_assoc, UInt8.xor_self, UInt8.xor_zero]

/-- **Unblinding undoes blinding.** -/
theorem unblind_blind {hashes : ChannelHashes} {secret : Vector UInt8 32} {payload blinded : Bytes}
    (h : blindPaymentCode hashes payload secret = some blinded) : blinded.length =
      PAYMENT_CODE_SIZE ∧ unblindPaymentCode hashes blinded secret = some payload := by
  rw [blindPaymentCode] at h
  split at h
  · cases h
  · next hlength =>
      cases h
      have hmask := length_generateBlindingMask hashes secret
      have hpayload : payload.length = PAYMENT_CODE_SIZE := by simpa using hlength
      have hblinded : (List.zipWith (· ^^^ ·) payload (generateBlindingMask hashes secret)).length =
          PAYMENT_CODE_SIZE := by rw [length_zipWith, hmask, hpayload, Nat.min_self]
      refine ⟨hblinded, ?_⟩
      rw [unblindPaymentCode, blindPaymentCode, if_neg (fun hne => hne hblinded),
        zipWith_xor_cancel _ _ (hpayload.trans hmask.symm).le]

/-- **The notification carries the blinded payload.** -/
theorem extract_build {blinded : Bytes} (h : blinded.length = PAYMENT_CODE_SIZE) :
    extractNotificationPayload (buildNotificationScript blinded) = some blinded := by
  have hfirst : CScript.getOp (OP_RETURN :: CScript.pushData blinded) =
      some (OP_RETURN, [], CScript.pushData blinded) := rfl
  have hlt : (blinded ++ []).length < 2 ^ 32 := by
    rw [append_nil, h]
    decide
  obtain ⟨opcode, -, hpush⟩ := CScript.getOp_pushData hlt
  rw [append_nil] at hpush
  rw [extractNotificationPayload, buildNotificationScript, if_pos h, hfirst]
  simp [hpush, h]

section

variable {P : Type} [AddCommGroup P] [DecidableEq P] {curve : Secp256k1Octets P}

/-- The keys behind a payment code. -/
structure CodeKeys (curve : Secp256k1Octets P) (code : CPaymentCode) where
  scan : CKey P
  spend : CKey P
  scanSecret : Nat
  spendSecret : Nat
  scanPair : IsPair curve scan scanSecret
  spendPair : IsPair curve spend spendSecret
  scanPubKey : scan.getPubKey curve = some code.scanPubKey
  spendPubKey : spend.getPubKey curve = some code.spendPubKey
  valid : code.isValid = true

namespace CodeKeys

variable {S R : CPaymentCode}

omit [DecidableEq P] in
theorem points (keys : CodeKeys curve S) :
    (keys.scanSecret • curve.G ≠ 0 ∧ S.scanPubKey = curve.point2oct 2 (keys.scanSecret • curve.G)) ∧
      keys.spendSecret • curve.G ≠ 0 ∧ S.spendPubKey = curve.point2oct 2 (keys.spendSecret • curve.G) := by
  have hvalid := keys.valid
  simp only [CPaymentCode.isValid, Bool.and_eq_true] at hvalid
  obtain ⟨⟨-, hscan⟩, hspend⟩ := hvalid
  exact ⟨keys.scanPair.getPubKey keys.scanPubKey hscan.1 hscan.2,
    keys.spendPair.getPubKey keys.spendPubKey hspend.1 hspend.2⟩

theorem sharedSecret_eq (hashes : ChannelHashes) (sender : CodeKeys curve S) (receiver : CodeKeys curve R) :
    computeBIP47SharedSecret curve hashes sender.scan R.scanPubKey =
      computeBIP47SharedSecret curve hashes receiver.scan S.scanPubKey := by
  obtain ⟨⟨hS, hSpub⟩, -⟩ := sender.points
  obtain ⟨⟨hR, hRpub⟩, -⟩ := receiver.points
  rw [hSpub, hRpub]
  exact sharedSecret_comm sender.scanPair receiver.scanPair hS hR

end CodeKeys

/-- **Agreement of the channel.**  What the sender derives for an index the receiver can spend:
the secrets are the same, and the key that the receiver derives has the destination of the
sender as its public key.  The notification of the sender is extracted, unblinded with the
secret of the receiver and decoded to the payment code of the sender. -/
theorem channel_agreement (hashes : ChannelHashes) {S R : CPaymentCode}
    (sender : CodeKeys curve S) (receiver : CodeKeys curve R) :
    (∀ (nIndex : UInt32) (destKeyOut : CKey P) (secret : Vector UInt8 32) (dest : CPubKey × CKeyID),
      computeBIP47SharedSecret curve hashes sender.scan R.scanPubKey = some secret →
      deriveReceiveAddress curve hashes R secret nIndex = some dest →
      ∃ secret' destKey, computeBIP47SharedSecret curve hashes receiver.scan S.scanPubKey =
        some secret' ∧ deriveSpendKey curve hashes receiver.spend secret' nIndex destKeyOut =
        some destKey ∧ destKey.getPubKey curve = some dest.1 ∧ dest.2 = hashes.hash160 dest.1) ∧
    (∀ (vchPayload payload blinded : Bytes) (secret : Vector UInt8 32), S.encode vchPayload = some payload →
      computeBlindingSecret curve hashes sender.scan R.scanPubKey = some secret →
      blindPaymentCode hashes payload secret = some blinded → ∃ secret' extracted unblinded,
        computeBlindingSecret curve hashes receiver.scan S.scanPubKey = some secret' ∧
        extractNotificationPayload (buildNotificationScript blinded) = some extracted ∧
        unblindPaymentCode hashes extracted secret' = some unblinded ∧
        CPaymentCode.decode unblinded = some S) := by
  have hshared := sender.sharedSecret_eq hashes receiver
  refine ⟨fun nIndex destKeyOut secret dest hsecret hdest => ?_,
    fun vchPayload payload blinded secret hencode hsecret hblind => ?_⟩
  · obtain ⟨-, hspend, hspendPub⟩ := receiver.points
    rw [deriveReceiveAddress, receiver.valid, Bool.not_true, if_neg Bool.false_ne_true,
      deriveChildPubKey, hspendPub] at hdest
    obtain ⟨child, hchild, rfl⟩ := Option.map_eq_some_iff.mp hdest
    obtain ⟨bn, hkey, -, -, rfl⟩ := tweakSecret_some receiver.spendPair hspend hchild destKeyOut
    exact ⟨secret, CKey.ofSecret curve bn true, hshared ▸ hsecret, hkey, getPubKey_ofSecret bn, rfl⟩
  · obtain ⟨hlength, hunblind⟩ := unblind_blind hblind
    exact ⟨secret, blinded, payload, hshared.symm.trans hsecret, extract_build hlength, hunblind,
      decode_encode hencode⟩

end

/-- The payment code of two secrets on the sample curve. -/
def sampleCode (scanSecret spendSecret : Nat) : CPaymentCode where
  nVersion := BIP47_VERSION
  nFeatures := 0
  scanPubKey := sampleOctets.point2oct 2 (scanSecret • sampleOctets.G)
  spendPubKey := sampleOctets.point2oct 2 (spendSecret • sampleOctets.G)

/-- The keys behind it. -/
def sampleCodeKeys (scanSecret spendSecret : Nat) (hscan : scanSecret < 256 ^ 32)
    (hspend : spendSecret < 256 ^ 32) (hvalid : (sampleCode scanSecret spendSecret).isValid = true) :
    CodeKeys sampleOctets (sampleCode scanSecret spendSecret) where
  scan := CKey.ofSecret sampleOctets scanSecret true
  spend := CKey.ofSecret sampleOctets spendSecret true
  scanSecret := scanSecret
  spendSecret := spendSecret
  scanPair := isPair_ofSecret hscan true
  spendPair := isPair_ofSecret hspend true
  scanPubKey := getPubKey_ofSecret scanSecret
  spendPubKey := getPubKey_ofSecret spendSecret
  valid := hvalid

def sampleChannelHashes : ChannelHashes where
  toScriptHashes := sampleHashes
  sha512 data := Vector.ofFn fun i => data.getD i 0

theorem channel_agreement_sample : ∃ secret dest secret' destKey,
      computeBIP47SharedSecret sampleOctets sampleChannelHashes (CKey.ofSecret sampleOctets 3 true)
        (sampleCode 7 9).scanPubKey = some secret ∧
      deriveReceiveAddress sampleOctets sampleChannelHashes (sampleCode 7 9) secret 1 = some dest ∧
      computeBIP47SharedSecret sampleOctets sampleChannelHashes (CKey.ofSecret sampleOctets 7 true)
        (sampleCode 3 5).scanPubKey = some secret' ∧
      deriveSpendKey sampleOctets sampleChannelHashes (CKey.ofSecret sampleOctets 9 true) secret' 1
        CKey.new = some destKey ∧ destKey.getPubKey sampleOctets = some dest.1 := by
  have hderives : ((computeBIP47SharedSecret sampleOctets sampleChannelHashes
      (CKey.ofSecret sampleOctets 3 true) (sampleCode 7 9).scanPubKey).bind fun secret =>
        deriveReceiveAddress sampleOctets sampleChannelHashes (sampleCode 7 9) secret 1).isSome =
      true := by
    decide +kernel
  obtain ⟨dest, hboth⟩ := Option.isSome_iff_exists.mp hderives
  obtain ⟨secret, hsecret, hdest⟩ := Option.bind_eq_some_iff.mp hboth
  obtain ⟨secret', destKey, hsecret', hkey, hpub, -⟩ := (channel_agreement sampleChannelHashes
    (sampleCodeKeys 3 5 (by decide) (by decide) (by decide +kernel))
    (sampleCodeKeys 7 9 (by decide) (by decide) (by decide +kernel))).1 1 CKey.new secret dest
      hsecret hdest
  exact ⟨secret, dest, secret', destKey, hsecret, hdest, hsecret', hkey, hpub⟩

end Key

end MaryJaneCoin
