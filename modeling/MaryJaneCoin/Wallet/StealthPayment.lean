import MaryJaneCoin.Wallet.CurveKey

/-!
# Stealth payments

`stealth.cpp` over the keys of the curve.  The sender moves the spend key of the address by a
hash of the secret that an ephemeral key shares with the scan key; the receiver finds the
moved key from the ephemeral one, and moves the secret as far.
-/

namespace MaryJaneCoin

open Option

def CStealthAddress.isValid (address : CStealthAddress) : Bool :=
  (address.scanPubKey.isValid && address.scanPubKey.isCompressed) &&
    (address.spendPubKey.isValid && address.spendPubKey.isCompressed)

structure CStealthPayment where
  ephemeralPubKey : CPubKey
  destKeyID : CKeyID
  destPubKey : CPubKey
deriving DecidableEq

def MAX_EPHEMERAL_RETRIES : Nat := 8

namespace Key

section

variable {P : Type} [AddCommGroup P] (curve : Secp256k1Octets P) (hashes : ScriptHashes)

/-- `CKey::MakeNewKey(true)`, which draws a secret. -/
def makeNewKey (drawn : SecretKey curve) : CKey P := CKey.ofSecret curve drawn.bn true

def deriveStealthDestination (spendPubKey : CPubKey) (sharedSecret : Vector UInt8 32) :
    Option (CPubKey × CKeyID) :=
  (tweakPubKey curve spendPubKey (hashes.sha256 sharedSecret.toList)).map fun destPubKey =>
    (destPubKey, hashes.hash160 destPubKey)

def deriveStealthSpendKey (spendSecret : CKey P) (sharedSecret : Vector UInt8 32)
    (destKeyOut : CKey P) : Option (CKey P) :=
  tweakSecret curve spendSecret (hashes.sha256 sharedSecret.toList) destKeyOut

variable [DecidableEq P]

/-- `PrepareStealthPayment`: the keys that it draws, and those that its `EphemeralKeyGuard`
takes for used. -/
def prepareStealthPayment (wouldReuse : CPubKey → Bool) (drawn : Nat → SecretKey curve)
    (address : CStealthAddress) : Option CStealthPayment :=
  if !address.isValid then none
  else
    ((List.range MAX_EPHEMERAL_RETRIES).findSome? fun attempt =>
      ((makeNewKey curve (drawn attempt)).getPubKey curve).bind fun ephemeralPubKey =>
        if wouldReuse ephemeralPubKey then none
        else some (makeNewKey curve (drawn attempt), ephemeralPubKey)).bind fun ephemeral =>
      (computeStealthSharedSecret curve hashes.sha256 ephemeral.1 address.scanPubKey).bind
        fun sharedSecret =>
          (deriveStealthDestination curve hashes address.spendPubKey sharedSecret).map fun dest =>
            { ephemeralPubKey := ephemeral.2, destKeyID := dest.2, destPubKey := dest.1 }

def detectStealthPayment (scanSecret : CKey P) (ephemeralPubKey spendPubKey : CPubKey)
    (destKeyOut : CKey P) : Option (CKey P) :=
  if !ephemeralPubKey.isValid || !spendPubKey.isValid then none
  else
    (computeStealthSharedSecret curve hashes.sha256 scanSecret ephemeralPubKey).bind
      fun sharedSecret =>
        (deriveStealthDestination curve hashes spendPubKey sharedSecret).bind fun dest =>
          if (destKeyOut.setPubKey curve dest.1).1 then some (destKeyOut.setPubKey curve dest.1).2
          else none

end

section

variable {P : Type} [AddCommGroup P] {curve : Secp256k1Octets P} {hashes : ScriptHashes}
  {address : CStealthAddress} {payment : CStealthPayment} {a b : Nat}

/-- The secret keys behind a stealth address. -/
structure AddressKeys (curve : Secp256k1Octets P) (address : CStealthAddress) where
  scan : CKey P
  spend : CKey P
  scanSecret : Nat
  spendSecret : Nat
  scanPair : IsPair curve scan scanSecret
  spendPair : IsPair curve spend spendSecret
  scanPubKey : scan.getPubKey curve = some address.scanPubKey
  spendPubKey : spend.getPubKey curve = some address.spendPubKey

theorem getPubKey_setPubKey {Q : P} (hQ : Q ≠ 0) (keyOut : CKey P) :
    (keyOut.setPubKey curve (curve.point2oct 2 Q)).1 = true ∧ (keyOut.setPubKey curve
      (curve.point2oct 2 Q)).2.getPubKey curve = some (curve.point2oct 2 Q) := by
  rw [CKey.setPubKey, oct2point_point2oct hQ, length_point2oct curve hQ]
  exact ⟨rfl, rfl⟩

variable [DecidableEq P]

/-- **What the receiver makes of a payment.**  From the ephemeral key alone it finds the
destination, and a secret whose public key is the destination. -/
theorem stealth_agreement (keys : AddressKeys curve address) {wouldReuse : CPubKey → Bool}
    {drawn : Nat → SecretKey curve}
    (hpay : prepareStealthPayment curve hashes wouldReuse drawn address = some payment) :
    payment.ephemeralPubKey.isValid ∧ payment.ephemeralPubKey.isCompressed ∧
      payment.destKeyID = hashes.hash160 payment.destPubKey ∧ (∀ destKeyOut, ∃ destKey,
        detectStealthPayment curve hashes keys.scan payment.ephemeralPubKey address.spendPubKey
            destKeyOut = some destKey ∧ destKey.getPubKey curve = some payment.destPubKey) ∧ ∃ sharedSecret,
        computeStealthSharedSecret curve hashes.sha256 keys.scan payment.ephemeralPubKey =
          some sharedSecret ∧ ∀ destKeyOut, ∃ destKey,
            deriveStealthSpendKey curve hashes keys.spend sharedSecret destKeyOut = some destKey ∧
              destKey.getPubKey curve = some payment.destPubKey := by
  rw [prepareStealthPayment] at hpay
  split at hpay
  · cases hpay
  next hvalid =>
    obtain ⟨ephemeral, hephemeral, hpay⟩ := bind_eq_some_iff.mp hpay
    obtain ⟨sharedSecret, hshared, hpay⟩ := bind_eq_some_iff.mp hpay
    obtain ⟨dest, hdest, rfl⟩ := map_eq_some_iff.mp hpay
    obtain ⟨destPubKey, hchild, rfl⟩ := map_eq_some_iff.mp hdest
    obtain ⟨attempt, -, hattempt⟩ := List.exists_of_findSome?_eq_some hephemeral
    have hdrawn : (makeNewKey curve (drawn attempt), curve.point2oct 2
        ((drawn attempt).bn • curve.G)) = ephemeral := by
      rw [makeNewKey, getPubKey_ofSecret, bind_some] at hattempt
      split at hattempt
      · cases hattempt
      · exact Option.some.inj hattempt
    subst hdrawn
    have hvalid : address.isValid = true := by simpa using hvalid
    simp only [CStealthAddress.isValid, Bool.and_eq_true] at hvalid
    obtain ⟨hscan, hscanPub⟩ := keys.scanPair.getPubKey keys.scanPubKey hvalid.1.1 hvalid.1.2
    obtain ⟨hspend, hspendPub⟩ := keys.spendPair.getPubKey keys.spendPubKey hvalid.2.1 hvalid.2.2
    have hnonzero := (drawn attempt).nsmul_ne_zero
    have hpair : IsPair curve (makeNewKey curve (drawn attempt)) (drawn attempt).bn :=
      isPair_ofSecret ((drawn attempt).lt_order.trans curve.order_lt) true
    -- both sides have one secret
    have hreceived : computeStealthSharedSecret curve hashes.sha256 keys.scan
        (curve.point2oct 2 ((drawn attempt).bn • curve.G)) = some sharedSecret := by
      rw [sharedSecret_comm keys.scanPair hpair hscan hnonzero, ← hscanPub]
      exact hshared
    have hlength := length_point2oct curve hnonzero
    have hok : (CPubKey.isValid (curve.point2oct 2 ((drawn attempt).bn • curve.G))) = true := by
      simp [CPubKey.isValid, hlength]
    rw [hspendPub] at hchild
    obtain ⟨bn, -, -, hbn, hdestPub⟩ := tweakSecret_some keys.spendPair hspend hchild (CKey.new : CKey P)
    refine ⟨hok, by simp [CPubKey.isCompressed, hlength], rfl, fun destKeyOut => ?_,
      sharedSecret, hreceived, fun destKeyOut => ?_⟩
    · obtain ⟨hset, hget⟩ := getPubKey_setPubKey hbn destKeyOut
      refine ⟨(destKeyOut.setPubKey curve destPubKey).2, ?_, by rw [hdestPub]; exact hget⟩
      rw [detectStealthPayment, hok, hvalid.2.1, hreceived, bind_some,
        deriveStealthDestination, hspendPub, hchild]
      simp [hdestPub, hset]
    · obtain ⟨bn', hkey, -, -, hdestPub'⟩ := tweakSecret_some keys.spendPair hspend hchild destKeyOut
      exact ⟨CKey.ofSecret curve bn' true, hkey, by rw [getPubKey_ofSecret, ← hdestPub']⟩

end

end Key

end MaryJaneCoin
