import MaryJaneCoin.Mw.Pedersen
import MaryJaneCoin.Wallet.InvolvingMe
import MaryJaneCoin.Wallet.Solver

/-!
# Keys on the curve

`CKey` over OpenSSL's `EC_KEY`, and the two ways in which a key is moved by a scalar: its
public key by a multiple of the base point, its secret modulo the order.  A call that
throws is `none`.
-/

namespace MaryJaneCoin

open Codec CPubKey

/-- The curve with OpenSSL's encodings of a point: a form is 2 for compressed and 4 for
uncompressed points. -/
structure Secp256k1Octets (P : Type) [AddCommGroup P] extends Secp256k1 P where
  /-- `EC_POINT_point2oct`. -/
  point2oct : UInt8 → P → Bytes
  /-- `EC_POINT_oct2point`. -/
  oct2point : Bytes → Option P
  point2oct_zero : ∀ form, point2oct form 0 = [0]
  point2oct_compressed : ∀ Q ≠ 0, point2oct 2 Q = (serialize Q).toList
  point2oct_uncompressed : ∀ Q ≠ 0, (point2oct 4 Q).length = 65 ∧ (point2oct 4 Q).head? = some 4
  oct2point_compressed : ∀ data : Vector UInt8 33, oct2point data.toList = parse data
  oct2point_uncompressed : ∀ Q ≠ 0, oct2point (point2oct 4 Q) = some Q

namespace Key

/-- `EC_KEY`: the private and the public key, and the form that the public key is written in. -/
structure EcKey (P : Type) where
  privKey : Option Nat
  pubKey : Option P
  convForm : UInt8
deriving DecidableEq

structure CKey (P : Type) where
  pkey : EcKey P
  fSet : Bool
  fCompressedPubKey : Bool
deriving DecidableEq

namespace CKey

variable {P : Type}

/-- The key that `Reset` leaves, and the constructor. -/
def new : CKey P := ⟨⟨none, none, 4⟩, false, false⟩

def setCompressedPubKey (key : CKey P) : CKey P :=
  { key with pkey := { key.pkey with convForm := 2 }, fCompressedPubKey := true }

/-- `CKey::GetSecret`: the secret and whether the public key is compressed. -/
def getSecret (key : CKey P) : Option (Bytes × Bool) :=
  key.pkey.privKey.map fun bn => (putBE 32 bn, key.fCompressedPubKey)

variable [AddCommGroup P] (curve : Secp256k1Octets P)

def setSecret (key : CKey P) (vchSecret : Bytes) (fCompressed : Bool) : Option (CKey P) :=
  if vchSecret.length ≠ 32 then none
  else
    let bn := ofBE vchSecret
    let made : CKey P :=
      { pkey := ⟨some bn, some (curve.mul bn curve.G), 4⟩
        fSet := true
        fCompressedPubKey := key.fCompressedPubKey }
    some (if fCompressed || key.fCompressedPubKey then made.setCompressedPubKey else made)

/-- `CKey::SetPubKey`.  OpenSSL keeps the form in which it read the point. -/
def setPubKey (key : CKey P) (vchPubKey : CPubKey) : Bool × CKey P :=
  match curve.oct2point vchPubKey with
  | none => (false, new)
  | some Q =>
    let made : CKey P :=
      { key with
        pkey := { key.pkey with pubKey := some Q, convForm := vchPubKey.headD 0 &&& 0xfe }
        fSet := true }
    (true, if vchPubKey.length = 33 then made.setCompressedPubKey else made)

def getPubKey (key : CKey P) : Option CPubKey := key.pkey.pubKey.map (curve.point2oct key.pkey.convForm)

/-- The key with a secret, whose public key is compressed or not. -/
def ofSecret (bn : Nat) (fCompressed : Bool) : CKey P where
  pkey := ⟨some bn, some (bn • curve.G), if fCompressed then 2 else 4⟩
  fSet := true
  fCompressedPubKey := fCompressed

end CKey

section

variable {P : Type} [AddCommGroup P] [DecidableEq P] (curve : Secp256k1Octets P)

/-- The first coordinate of a point in 32 bytes, which infinity does not have. -/
def affineX (Q : P) : Option Bytes := if Q = 0 then none else some ((curve.serialize Q).toList.drop 1)

def computeStealthSharedSecret (sha256 : Bytes → Vector UInt8 32) (privkey : CKey P)
    (pubkey : CPubKey) : Option (Vector UInt8 32) :=
  if !pubkey.isValid || !pubkey.isCompressed then none
  else
    privkey.getSecret.bind fun vchSecret =>
      (curve.oct2point pubkey).bind fun pPeerPoint =>
        (affineX curve (curve.mul (ofBE vchSecret.1) pPeerPoint)).map sha256

omit [DecidableEq P] in
/-- A public key moved by a scalar, in compressed form. -/
def tweakPubKey (spendPubKey : CPubKey) (tweak : Vector UInt8 32) : Option CPubKey :=
  if !spendPubKey.isValid || !spendPubKey.isCompressed then none
  else
    (curve.oct2point spendPubKey).bind fun pSpendPoint =>
      let vchChild := curve.point2oct 2 (pSpendPoint + curve.mul (scalar tweak) curve.G)
      if vchChild.length = 33 then some vchChild else none

omit [DecidableEq P] in
/-- A secret moved by a scalar, in the key that is to take it. -/
def tweakSecret (spendSecret : CKey P) (tweak : Vector UInt8 32) (keyOut : CKey P) :
    Option (CKey P) :=
  spendSecret.getSecret.bind fun vchSpendSecret =>
    keyOut.setSecret curve (putBE 32 ((ofBE vchSpendSecret.1 + scalar tweak) % curve.order)) true

end

section

variable {P : Type} [AddCommGroup P] {curve : Secp256k1Octets P} {a b : Nat} {key keyOut : CKey P}
  {Q : P} {tweak : Vector UInt8 32}

theorem mul_order (n : Nat) (Q : P) : (n % curve.order) • Q = n • Q := by
  conv_rhs => rw [← Nat.div_add_mod n curve.order, add_nsmul, mul_nsmul, curve.order_nsmul,
    smul_zero, zero_add]

/-- A compressed point is read again. -/
theorem oct2point_point2oct (hQ : Q ≠ 0) : curve.oct2point (curve.point2oct 2 Q) = some Q := by
  rw [curve.point2oct_compressed Q hQ, curve.oct2point_compressed, curve.parse_serialize Q hQ]

theorem length_point2oct (curve : Secp256k1Octets P) (hQ : Q ≠ 0) : (curve.point2oct 2 Q).length = 33 := by
  rw [curve.point2oct_compressed Q hQ, Vector.length_toList]

theorem ne_zero_of_length (h : (curve.point2oct 2 Q).length = 33) : Q ≠ 0 := by
  intro hzero
  rw [hzero, curve.point2oct_zero] at h
  cases h

/-- The multiples of the base point below the order. -/
theorem nsmul_G_ne_zero (hpos : 0 < a) (hlt : a < curve.order) : a • curve.G ≠ 0 := by
  intro hzero
  have hdvd : curve.order ∣ a := Secp256k1.dvd_of_nsmul_eq_zero curve.G_ne_zero hzero
  exact absurd (Nat.le_of_dvd hpos hdvd) (Nat.not_le.mpr hlt)

theorem length_form (curve : Secp256k1Octets P) (hQ : Q ≠ 0) (fCompressed : Bool) :
    (curve.point2oct (if fCompressed then 2 else 4) Q).length = if fCompressed then 33 else 65 := by
  cases fCompressed
  · exact (curve.point2oct_uncompressed Q hQ).1
  · exact length_point2oct curve hQ

theorem oct2point_form (curve : Secp256k1Octets P) (hQ : Q ≠ 0) (fCompressed : Bool) :
    curve.oct2point (curve.point2oct (if fCompressed then 2 else 4) Q) = some Q := by
  cases fCompressed
  · exact curve.oct2point_uncompressed Q hQ
  · exact oct2point_point2oct hQ

theorem eq_of_form_eq {Q' : P} {fCompressed : Bool} (hQ : Q ≠ 0)
    (h : curve.point2oct (if fCompressed then 2 else 4) Q' =
      curve.point2oct (if fCompressed then 2 else 4) Q) : Q' = Q := by
  have hQ' : Q' ≠ 0 := by
    intro hzero
    have hlength := length_form curve hQ fCompressed
    rw [← h, hzero, curve.point2oct_zero] at hlength
    cases fCompressed <;> cases hlength
  have hread := oct2point_form curve hQ' fCompressed
  rw [h, oct2point_form curve hQ] at hread
  exact (Option.some.inj hread).symm

/-- What `SetPubKey` leaves of the flag, and that it reads the point. -/
theorem setPubKey_form (hQ : Q ≠ 0) (fCompressed : Bool) (keyOut : CKey P) :
    (keyOut.setPubKey curve (curve.point2oct (if fCompressed then 2 else 4) Q)).1 = true ∧
      (keyOut.setPubKey curve (curve.point2oct (if fCompressed then 2 else 4) Q)).2.fCompressedPubKey =
        (fCompressed || keyOut.fCompressedPubKey) := by
  rw [CKey.setPubKey, oct2point_form curve hQ, length_form curve hQ]
  cases fCompressed
  · exact ⟨rfl, rfl⟩
  · exact ⟨rfl, rfl⟩

/-- The keys that the wallet makes: a secret below `2 ^ 256` and its public key. -/
structure IsPair (curve : Secp256k1Octets P) (key : CKey P) (bn : Nat) : Prop where
  privKey : key.pkey.privKey = some bn
  lt : bn < 256 ^ 32
  pubKey : key.pkey.pubKey = some (bn • curve.G)
  form : key.pkey.convForm = 2 ∨ key.pkey.convForm = 4

theorem IsPair.getSecret (h : IsPair curve key a) :
    key.getSecret = some (putBE 32 a, key.fCompressedPubKey) := by
  rw [CKey.getSecret, h.privKey]
  rfl

theorem IsPair.getPubKey (h : IsPair curve key a) {vchPubKey : CPubKey}
    (hpub : key.getPubKey curve = some vchPubKey) (hvalid : vchPubKey.isValid)
    (hcompressed : vchPubKey.isCompressed) :
    a • curve.G ≠ 0 ∧ vchPubKey = curve.point2oct 2 (a • curve.G) := by
  rw [CKey.getPubKey, h.pubKey] at hpub
  have hlength : vchPubKey.length = 33 := by
    simpa [isCompressed] using hcompressed
  cases hpub
  have hne : a • curve.G ≠ 0 := by
    intro hzero
    rw [hzero, curve.point2oct_zero] at hlength
    cases hlength
  refine ⟨hne, ?_⟩
  rcases h.form with hform | hform
  · rw [hform]
  · rw [hform, (curve.point2oct_uncompressed _ hne).1] at hlength
    cases hlength

/-- `SetSecret` keeps the flag of the key that it fills. -/
theorem setSecret_eq {vchSecret : Bytes} (hlength : vchSecret.length = 32) (keyOut : CKey P)
    (fCompressed : Bool) : keyOut.setSecret curve vchSecret fCompressed =
      some (CKey.ofSecret curve (ofBE vchSecret) (fCompressed || keyOut.fCompressedPubKey)) := by
  rw [CKey.setSecret, if_neg (fun h => h hlength)]
  simp only [curve.mul_eq]
  cases hflag : (fCompressed || keyOut.fCompressedPubKey)
  · rw [(Bool.or_eq_false_iff.mp hflag).2]
    rfl
  · rfl

theorem setSecret_compressed (ha : a < 256 ^ 32) (keyOut : CKey P) :
    keyOut.setSecret curve (putBE 32 a) true = some (CKey.ofSecret curve a true) := by
  rw [setSecret_eq (by simp [putBE, length_putLE]), ofBE_putBE ha, Bool.true_or]

theorem isPair_ofSecret (ha : a < 256 ^ 32) (fCompressed : Bool) :
    IsPair curve (CKey.ofSecret curve a fCompressed) a := by
  refine ⟨rfl, ha, rfl, ?_⟩
  cases fCompressed
  · exact .inr rfl
  · exact .inl rfl

variable [DecidableEq P] {sha256 : Bytes → Vector UInt8 32}

theorem computeStealthSharedSecret_eq (h : IsPair curve key a) (hQ : Q ≠ 0) :
    computeStealthSharedSecret curve sha256 key (curve.point2oct 2 Q) =
      (affineX curve (a • Q)).map sha256 := by
  have hlength := length_point2oct curve hQ
  have hvalid : (isValid (curve.point2oct 2 Q)) = true := by
    simp [isValid, hlength]
  have hcompressed : (isCompressed (curve.point2oct 2 Q)) = true := by
    simp [isCompressed, hlength]
  rw [computeStealthSharedSecret, hvalid, hcompressed, h.getSecret, oct2point_point2oct hQ]
  simp [ofBE_putBE h.lt, curve.mul_eq]

/-- **Two pairs share one secret**, whichever side computes it. -/
theorem sharedSecret_comm {key' : CKey P} (h : IsPair curve key a) (h' : IsPair curve key' b)
    (ha : a • curve.G ≠ 0) (hb : b • curve.G ≠ 0) :
    computeStealthSharedSecret curve sha256 key (curve.point2oct 2 (b • curve.G)) =
      computeStealthSharedSecret curve sha256 key' (curve.point2oct 2 (a • curve.G)) := by
  rw [computeStealthSharedSecret_eq h hb, computeStealthSharedSecret_eq h' ha, ← mul_nsmul,
    ← mul_nsmul, Nat.mul_comm]

theorem tweakPubKey_eq (hQ : Q ≠ 0) :
    tweakPubKey curve (curve.point2oct 2 Q) tweak = if Q + scalar tweak • curve.G = 0 then none
      else some (curve.point2oct 2 (Q + scalar tweak • curve.G)) := by
  have hlength := length_point2oct curve hQ
  rw [tweakPubKey, isValid, isCompressed, hlength, oct2point_point2oct hQ]
  simp only [curve.mul_eq, Option.bind_some, beq_self_eq_true, Bool.true_or, Bool.not_true,
    Bool.or_self, Bool.false_eq_true, if_false]
  by_cases hzero : Q + scalar tweak • curve.G = 0
  · rw [if_pos hzero, if_neg fun h => ne_zero_of_length h hzero]
  · rw [if_neg hzero, if_pos (length_point2oct curve hzero)]

/-- **The moved secret has the moved public key.** -/
theorem tweakSecret_some (h : IsPair curve key a) (ha : a • curve.G ≠ 0) {vchChild : CPubKey}
    (hchild : tweakPubKey curve (curve.point2oct 2 (a • curve.G)) tweak = some vchChild) (keyOut : CKey P) :
    ∃ bn, tweakSecret curve key tweak keyOut = some (CKey.ofSecret curve bn true) ∧
      bn < curve.order ∧ bn • curve.G ≠ 0 ∧ vchChild = curve.point2oct 2 (bn • curve.G) := by
  rw [tweakPubKey_eq ha] at hchild
  have hpoint : ((a + scalar tweak) % curve.order) • curve.G =
      a • curve.G + scalar tweak • curve.G := by rw [mul_order, add_nsmul]
  have hlt : (a + scalar tweak) % curve.order < curve.order := Nat.mod_lt _ curve.order_prime.pos
  refine ⟨(a + scalar tweak) % curve.order, ?_, hlt, ?_⟩
  · rw [tweakSecret, h.getSecret]
    show keyOut.setSecret curve (putBE 32 ((ofBE (putBE 32 a) + scalar tweak) % curve.order)) true = _
    rw [ofBE_putBE h.lt, setSecret_compressed (hlt.trans curve.order_lt)]
  · rw [hpoint]
    split at hchild
    · cases hchild
    · next hne => exact ⟨hne, (Option.some.inj hchild).symm⟩

omit [DecidableEq P] in
theorem getPubKey_ofSecret (bn : Nat) :
    (CKey.ofSecret curve bn true).getPubKey curve = some (curve.point2oct 2 (bn • curve.G)) := rfl

end

/-- A secret below the order, and whether its public key is compressed. -/
structure SecretKey {P : Type} [AddCommGroup P] (curve : Secp256k1Octets P) where
  bn : Nat
  fCompressed : Bool
  pos : 0 < bn
  lt_order : bn < curve.order

namespace SecretKey

variable {P : Type} [AddCommGroup P] {curve : Secp256k1Octets P} (key : SecretKey curve)

def toCKey : CKey P := CKey.ofSecret curve key.bn key.fCompressed

def pubKey : CPubKey := curve.point2oct (if key.fCompressed then 2 else 4) (key.bn • curve.G)

theorem nsmul_ne_zero : key.bn • curve.G ≠ 0 := nsmul_G_ne_zero key.pos key.lt_order

end SecretKey

/-- The point whose opening stands behind the first byte. -/
def sampleDecodeOctets (data : Bytes) : SamplePoint :=
  (ofBE ((data.drop 1).take 16), ofBE ((data.drop 17).take 16))

def sampleUncompressed (Q : SamplePoint) : Bytes :=
  4 :: (putBE 16 Q.1.val ++ (putBE 16 Q.2.val ++ List.replicate 32 0))

theorem length_sampleUncompressed (Q : SamplePoint) : (sampleUncompressed Q).length = 65 := by
  simp [sampleUncompressed, putBE, length_putLE]

theorem sampleDecodeOctets_uncompressed (Q : SamplePoint) :
    sampleDecodeOctets (sampleUncompressed Q) = Q := by
  have hlength : ∀ n, (putBE 16 n).length = 16 := fun n => by simp [putBE, length_putLE]
  simp only [sampleDecodeOctets, sampleUncompressed, List.drop_succ_cons, List.drop_zero,
    List.take_left' (hlength _), List.drop_left' (hlength _), ofBE_putBE (val_lt_width _),
    ZMod.natCast_zmod_val]

/-- The sample curve with both encodings of its points. -/
def sampleOctets : Secp256k1Octets SamplePoint where
  toSecp256k1 := sampleCurve
  point2oct form Q :=
    if Q = 0 then [0]
    else if form = 4 then sampleUncompressed Q else (sampleCurve.serialize Q).toList
  oct2point data :=
    if h : data.length = 33 then sampleCurve.parse ⟨data.toArray, h⟩
    else if data.length = 65 ∧ data.head? = some 4 then some (sampleDecodeOctets data)
    else none
  point2oct_zero form := if_pos rfl
  point2oct_compressed Q hQ := by rw [if_neg hQ, if_neg (by decide)]
  point2oct_uncompressed Q hQ := by
    rw [if_neg hQ, if_pos rfl]
    exact ⟨length_sampleUncompressed Q, rfl⟩
  oct2point_compressed data := by
    rw [dif_pos (by simp)]
    rfl
  oct2point_uncompressed Q hQ := by
    have hlength := length_sampleUncompressed Q
    rw [if_neg hQ, if_pos rfl, dif_neg (by rw [hlength]; decide), if_pos ⟨hlength, rfl⟩,
      sampleDecodeOctets_uncompressed]

/-- Hashes that keep the start of their input. -/
def sampleHashes : ScriptHashes where
  ripemd160 data := Vector.ofFn fun i => data.getD i 0
  sha1 data := Vector.ofFn fun i => data.getD i 0
  sha256 data := Vector.ofFn fun i => data.getD i 0

end Key

end MaryJaneCoin
