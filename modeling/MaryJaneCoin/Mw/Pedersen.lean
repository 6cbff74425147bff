import Mathlib.NumberTheory.LucasPrimality
import MaryJaneCoin.Lib.Opening
import MaryJaneCoin.Mw.Models

/-!
# Pedersen commitments of `mw/crypto/pedersen.cpp`

The curve is a parameter: its group, the encoding of its points, and the laws
of both.  What the source calls of libsecp256k1 is defined over it, with every
way in which a call can fail; the class `PedersenContext` is then translated
call by call.

A scalar of zero is not a secret key and the point at infinity has no
encoding.  Both decide what the checks built on top can ever accept.
-/

namespace MaryJaneCoin

open Codec
open List hiding Vector

def GENERATOR_H : Vector UInt8 33 :=
  #v[0x02, 0x50, 0x92, 0x9b, 0x74, 0xc1, 0xa0, 0x49, 0x54, 0xb7, 0x8b, 0x4b,
     0x60, 0x35, 0xe9, 0x7a, 0x5e, 0x07, 0x8a, 0x5a, 0x0f, 0x28, 0xec, 0x96,
     0xd5, 0x47, 0xbf, 0xee, 0x9a, 0xce, 0x80, 0x3a, 0xc0]

/-- The curve: a group of prime exponent, multiplication by a scalar, and the
compressed encoding of points. -/
structure Secp256k1 (P : Type) [AddCommGroup P] where
  order : Nat
  G : P
  /-- The point that `GENERATOR_H` encodes. -/
  H : P
  mul : Nat → P → P
  /-- `secp256k1_ec_pubkey_parse` of 33 bytes. -/
  parse : Vector UInt8 33 → Option P
  /-- `secp256k1_ec_pubkey_serialize` in compressed form. -/
  serialize : P → Vector UInt8 33
  order_prime : order.Prime
  two_pow_lt : 2 ^ 64 < order
  order_lt : order < 256 ^ 32
  order_nsmul : ∀ Q : P, order • Q = 0
  mul_eq : ∀ k (Q : P), mul k Q = k • Q
  G_ne_zero : G ≠ 0
  parse_serialize : ∀ Q ≠ 0, parse (serialize Q) = some Q
  serialize_of_parse : ∀ data Q, parse data = some Q → serialize Q = data ∧ Q ≠ 0
  parse_head : ∀ data Q, parse data = some Q → data[0] = 2 ∨ data[0] = 3
  parse_generatorH : parse GENERATOR_H = some H

/-- A scalar, as libsecp256k1 reads 32 bytes. -/
def scalar (data : Vector UInt8 32) : Nat := ofBE data.toList

def scalarBytes (n : Nat) : Vector UInt8 32 :=
  ⟨(putBE 32 n).toArray, by simp [putBE, length_putLE]⟩

theorem scalar_scalarBytes {n : Nat} (h : n < 256 ^ 32) : scalar (scalarBytes n) = n := ofBE_putBE h

theorem scalar_injective : Function.Injective scalar := by
  intro a b heq
  have ha := putBE_ofBE a.toList
  have hb := putBE_ofBE b.toList
  rw [a.length_toList] at ha
  rw [b.length_toList] at hb
  apply Vector.toList_inj.mp
  rw [← ha, ← hb]
  exact congrArg (putBE 32) heq

/-- The byte arrays that a default constructor leaves. -/
def nullCommitment : Commitment := Vector.replicate 33 0
def nullBlind : BlindingFactor := Vector.replicate 32 0
def nullSignature : Signature := Vector.replicate 64 0

theorem scalar_nullBlind : scalar nullBlind = 0 := by decide

namespace Secp256k1

variable {P : Type} [AddCommGroup P] (curve : Secp256k1 P)

/-- `secp256k1_ec_seckey_verify`. -/
def ecSeckeyVerify (seckey : Vector UInt8 32) : Bool :=
  scalar seckey != 0 && decide (scalar seckey < curve.order)

/-- `secp256k1_ec_pubkey_create`. -/
def ecPubkeyCreate (seckey : Vector UInt8 32) : Option P :=
  if curve.ecSeckeyVerify seckey then some (curve.mul (scalar seckey) curve.G) else none

/-- `secp256k1_ec_pubkey_tweak_mul`. -/
def ecPubkeyTweakMul (pubkey : P) (tweak : Vector UInt8 32) : Option P :=
  if curve.ecSeckeyVerify tweak then some (curve.mul (scalar tweak) pubkey) else none

/-- `secp256k1_ec_pubkey_combine`, which fails on the point at infinity. -/
def ecPubkeyCombine [DecidableEq P] (pubkeys : List P) : Option P :=
  if pubkeys.sum = 0 then none else some pubkeys.sum

/-- `secp256k1_ec_seckey_tweak_add`. -/
def ecSeckeyTweakAdd (seckey tweak : Vector UInt8 32) : Option (Vector UInt8 32) :=
  let sum := (scalar seckey + scalar tweak) % curve.order
  if curve.ecSeckeyVerify seckey && decide (scalar tweak < curve.order) && sum != 0 then
    some (scalarBytes sum)
  else none

/-- `secp256k1_ec_seckey_negate`. -/
def ecSeckeyNegate (seckey : Vector UInt8 32) : Option (Vector UInt8 32) :=
  if curve.ecSeckeyVerify seckey then some (scalarBytes (curve.order - scalar seckey)) else none

variable {curve}

variable {seckey : Vector UInt8 32}

theorem ecSeckeyVerify_iff :
    curve.ecSeckeyVerify seckey ↔ 0 < scalar seckey ∧ scalar seckey < curve.order := by
  rw [ecSeckeyVerify, Bool.and_eq_true, bne_iff_ne, decide_eq_true_iff, Nat.pos_iff_ne_zero]

theorem ecPubkeyCreate_nullBlind : curve.ecPubkeyCreate nullBlind = none := by
  rw [ecPubkeyCreate, if_neg]
  rw [ecSeckeyVerify_iff, scalar_nullBlind]
  exact fun h => absurd h.1 (Nat.lt_irrefl 0)

theorem parse_nullCommitment : curve.parse nullCommitment = none := by
  cases hparse : curve.parse nullCommitment with
  | none => rfl
  | some Q =>
    have hhead : nullCommitment[0] = 0 := by decide
    have htag := curve.parse_head _ _ hparse
    rw [hhead] at htag
    exact absurd htag (by decide)

/-- A multiple of a point other than infinity vanishes only at multiples of the
order. -/
theorem dvd_of_nsmul_eq_zero {Q : P} (hQ : Q ≠ 0) {k : Nat} (hk : k • Q = 0) : curve.order ∣ k := by
  have hprime : Fact curve.order.Prime := ⟨curve.order_prime⟩
  rw [← addOrderOf_eq_prime (curve.order_nsmul Q) hQ]
  exact addOrderOf_dvd_iff_nsmul_eq_zero.mpr hk

/-- Different secret keys have different public keys. -/
theorem nsmul_G_injOn : Set.InjOn (fun k : Nat => k • curve.G) (Set.Iio curve.order) := by
  have hprime : Fact curve.order.Prime := ⟨curve.order_prime⟩
  have hinj := nsmul_injOn_Iio_addOrderOf (x := curve.G)
  rwa [addOrderOf_eq_prime (curve.order_nsmul _) curve.G_ne_zero] at hinj

/-- Multiples of the generator are multiples modulo the order. -/
theorem nsmul_G_eq_iff {m n : Nat} : m • curve.G = n • curve.G ↔ m ≡ n [MOD curve.order] := by
  have hprime : Fact curve.order.Prime := ⟨curve.order_prime⟩
  rw [nsmul_eq_nsmul_iff_modEq, addOrderOf_eq_prime (curve.order_nsmul _) curve.G_ne_zero]

/-- One vanishes exactly at multiples of the order. -/
theorem nsmul_G_eq_zero_iff {k : Nat} : k • curve.G = 0 ↔ curve.order ∣ k := by
  rw [← zero_nsmul curve.G, nsmul_G_eq_iff, Nat.modEq_zero_iff_dvd]

theorem not_dvd_of_ecSeckeyVerify
    (h : curve.ecSeckeyVerify seckey = true) : ¬ curve.order ∣ scalar seckey := by
  obtain ⟨hpos, hlt⟩ := ecSeckeyVerify_iff.mp h
  exact fun hdvd => Nat.not_lt.mpr (Nat.le_of_dvd hpos hdvd) hlt

/-- The public key of a secret key is not infinity. -/
theorem nsmul_G_ne_zero (h : curve.ecSeckeyVerify seckey = true) : scalar seckey • curve.G ≠ 0 := by
  rw [ne_eq, nsmul_G_eq_zero_iff]
  exact not_dvd_of_ecSeckeyVerify h

/-- Encodings tell points apart. -/
theorem serialize_inj {Q R : P} (hQ : Q ≠ 0) (hR : R ≠ 0) :
    curve.serialize Q = curve.serialize R ↔ Q = R := by
  constructor
  · intro h
    have hparse := curve.parse_serialize Q hQ
    rw [h, curve.parse_serialize R hR] at hparse
    exact (Option.some.inj hparse).symm
  · intro h
    rw [h]

end Secp256k1

namespace PedersenContext

variable {P : Type} [AddCommGroup P] [DecidableEq P] (curve : Secp256k1 P)

/-- The loop of `Commit` that writes the value; a negative one is written as
zero. -/
def valueScalar (nValue : Int64) : Vector UInt8 32 :=
  scalarBytes (if 0 ≤ nValue then nValue.toUInt64.toNat else 0)

def commit (nValue : Int64) (blind : BlindingFactor) : Commitment :=
  match curve.ecPubkeyCreate blind with
  | none => nullCommitment
  | some rG =>
    match curve.parse GENERATOR_H with
    | none => nullCommitment
    | some H =>
      if allZero (valueScalar nValue) then curve.serialize rG
      else
        match curve.ecPubkeyTweakMul H (valueScalar nValue) with
        | none => nullCommitment
        | some vH =>
          match Secp256k1.ecPubkeyCombine [rG, vH] with
          | none => nullCommitment
          | some combined => curve.serialize combined

def commitBlind (blind : BlindingFactor) : Commitment := commit curve 0 blind

def isCanonicalCommitment (p33 : Commitment) : Bool :=
  !allZero p33 && (curve.parse p33).any fun pt => curve.serialize pt == p33

/-- What the loops of `VerifyCommitmentSum` make of one commitment. -/
def parseCanonical (p33 : Commitment) : Option P :=
  if isCanonicalCommitment curve p33 then curve.parse p33 else none

/-- `PedersenContext::VerifyCommitmentSum`: a combination that fails is the
point at infinity, which is what a balanced sum gives. -/
def verifyCommitmentSum (vPositive vNegative : List Commitment) : Bool :=
  if vPositive.isEmpty && vNegative.isEmpty then true
  else
    match vPositive.mapM (parseCanonical curve), vNegative.mapM (parseCanonical curve) with
    | some posKeys, some negKeys =>
      (Secp256k1.ecPubkeyCombine (posKeys ++ negKeys.map fun key => -key)).isNone
    | _, _ => false

/-- One step of the second loop of `BlindSum`. -/
def subtractBlind (sum blind : BlindingFactor) : Option BlindingFactor :=
  (curve.ecSeckeyNegate blind).bind fun negated => curve.ecSeckeyTweakAdd sum negated

/-- `PedersenContext::BlindSum`; a step that fails gives the null factor. -/
def blindSum (vPositive vNegative : List BlindingFactor) : BlindingFactor :=
  match vPositive, vNegative with
  | [], [] => nullBlind
  | [], first :: rest =>
    ((curve.ecSeckeyNegate first).bind fun sum =>
      rest.foldlM (subtractBlind curve) sum).getD nullBlind
  | first :: rest, _ =>
    ((rest.foldlM curve.ecSeckeyTweakAdd first).bind fun sum =>
      vNegative.foldlM (subtractBlind curve) sum).getD nullBlind

/-- `PedersenContext::GenerateBlindingFactor`: up to 100 draws, of which a
failed one is `none`. -/
def generateBlindingFactor (draws : Nat → Option BlindingFactor) : BlindingFactor :=
  ((List.range 100).findSome? fun attempts =>
    (draws attempts).filter curve.ecSeckeyVerify).getD nullBlind

variable {curve}

variable {nValue : Int64}

theorem scalar_valueScalar_of_nonneg (h : 0 ≤ nValue) :
    scalar (valueScalar nValue) = nValue.toUInt64.toNat := by
  rw [valueScalar, if_pos h]
  exact scalar_scalarBytes (Nat.lt_trans nValue.toUInt64.toNat_lt (by decide))

theorem toInt_eq_scalar_valueScalar (h : 0 ≤ nValue) :
    nValue.toInt = scalar (valueScalar nValue) := by
  rw [scalar_valueScalar_of_nonneg h]
  have hnonneg : 0 ≤ nValue.toInt := by simpa using Int64.le_iff_toInt_le.mp h
  have hlt := nValue.toUInt64.toNat_lt
  have hcond : nValue.toInt = if 2 * nValue.toUInt64.toNat < 2 ^ 64 then
      (nValue.toUInt64.toNat : Int) else nValue.toUInt64.toNat - 2 ^ 64 :=
    BitVec.toInt_eq_toNat_cond nValue.toBitVec
  split at hcond
  · exact hcond
  · omega

theorem scalar_valueScalar_lt (nValue : Int64) : scalar (valueScalar nValue) < 2 ^ 64 := by
  by_cases h : 0 ≤ nValue
  · rw [scalar_valueScalar_of_nonneg h]
    exact nValue.toUInt64.toNat_lt
  · rw [valueScalar, if_neg h, scalar_scalarBytes (by decide)]
    decide

theorem allZero_iff_scalar {data : Vector UInt8 32} : allZero data ↔ scalar data = 0 := by
  constructor
  · intro h
    have hnull : data = nullBlind := by
      apply Vector.toList_inj.mp
      rw [allZero, all_eq_true] at h
      rw [nullBlind, Vector.toList_replicate]
      refine eq_replicate_iff.mpr ⟨data.length_toList, ?_⟩
      intro byte hbyte
      simpa using h byte hbyte
    rw [hnull, scalar_nullBlind]
  · intro h
    have hnull : data = nullBlind := scalar_injective (h.trans scalar_nullBlind.symm)
    rw [hnull]
    decide

/-- The point behind a commitment. -/
def committed (curve : Secp256k1 P) (nValue : Int64) (blind : BlindingFactor) : P :=
  scalar (valueScalar nValue) • curve.H + scalar blind • curve.G

/-- **`Commit`**: the encoding of the point, or null if the blind is no secret
key or the point is infinity. -/
theorem commit_eq (nValue : Int64) (blind : BlindingFactor) : commit curve nValue blind =
      if curve.ecSeckeyVerify blind ∧ committed curve nValue blind ≠ 0 then
        curve.serialize (committed curve nValue blind)
      else nullCommitment := by
  rw [commit, Secp256k1.ecPubkeyCreate]
  by_cases hblind : curve.ecSeckeyVerify blind
  · simp only [if_pos hblind, curve.parse_generatorH, curve.mul_eq]
    by_cases hzero : scalar (valueScalar nValue) = 0
    · have hpoint : committed curve nValue blind = scalar blind • curve.G := by
        rw [committed, hzero, zero_nsmul, zero_add]
      have hne : scalar blind • curve.G ≠ 0 := Secp256k1.nsmul_G_ne_zero hblind
      rw [if_pos (allZero_iff_scalar.mpr hzero), hpoint, if_pos ⟨hblind, hne⟩]
    · have hvalue : curve.ecSeckeyVerify (valueScalar nValue) :=
        Secp256k1.ecSeckeyVerify_iff.mpr ⟨Nat.pos_of_ne_zero hzero,
          Nat.lt_trans (scalar_valueScalar_lt nValue) curve.two_pow_lt⟩
      have hsum : [scalar blind • curve.G, scalar (valueScalar nValue) • curve.H].sum =
          committed curve nValue blind := by
        rw [committed, sum_cons, sum_singleton, add_comm]
      rw [if_neg (fun h => hzero (allZero_iff_scalar.mp h)), Secp256k1.ecPubkeyTweakMul,
        if_pos hvalue, curve.mul_eq]
      simp only [Secp256k1.ecPubkeyCombine, hsum]
      by_cases hinfinity : committed curve nValue blind = 0
      · rw [if_pos hinfinity, if_neg fun h => h.2 hinfinity]
      · rw [if_neg hinfinity, if_pos ⟨hblind, hinfinity⟩]
  · rw [if_neg hblind, if_neg fun h => hblind h.1]

/-- **A commitment under the zero blind is null**, whatever the value. -/
theorem commit_nullBlind (nValue : Int64) : commit curve nValue nullBlind = nullCommitment := by
  rw [commit, Secp256k1.ecPubkeyCreate_nullBlind]

theorem commit_eq_of_ne_null {blind : BlindingFactor}
    (h : allZero (commit curve nValue blind) = false) :
    curve.ecSeckeyVerify blind ∧ committed curve nValue blind ≠ 0 ∧
      commit curve nValue blind = curve.serialize (committed curve nValue blind) := by
  rw [commit_eq] at h ⊢
  split at h
  · rename_i hvalid
    rw [if_pos hvalid]
    exact ⟨hvalid.1, hvalid.2, rfl⟩
  · exact absurd h (by decide)

/-- **A commitment to a value determines its blind.** -/
theorem commit_inj {blind blind' : BlindingFactor} (h : allZero (commit curve nValue blind) = false)
    (heq : commit curve nValue blind' = commit curve nValue blind) : blind' = blind := by
  obtain ⟨hvalid, hne, hcommit⟩ := commit_eq_of_ne_null h
  rw [← heq] at h
  obtain ⟨hvalid', hne', hcommit'⟩ := commit_eq_of_ne_null h
  rw [hcommit, hcommit'] at heq
  have hpoints := congrArg curve.parse heq
  rw [curve.parse_serialize _ hne, curve.parse_serialize _ hne'] at hpoints
  have hG : scalar blind' • curve.G = scalar blind • curve.G := add_left_cancel (Option.some.inj hpoints)
  exact scalar_injective (Secp256k1.nsmul_G_injOn (Secp256k1.ecSeckeyVerify_iff.mp hvalid').2
    (Secp256k1.ecSeckeyVerify_iff.mp hvalid).2 hG)

theorem parse_commit {blind : BlindingFactor} {Q : P}
    (h : curve.parse (commit curve nValue blind) = some Q) : Q = committed curve nValue blind := by
  rw [commit_eq] at h
  split at h
  · rename_i hvalid
    rw [curve.parse_serialize _ hvalid.2] at h
    exact (Option.some.inj h).symm
  · rw [Secp256k1.parse_nullCommitment] at h
    cases h

omit [DecidableEq P] in
theorem parse_of_parseCanonical {p33 : Commitment} {Q : P} (h : parseCanonical curve p33 = some Q) :
    curve.parse p33 = some Q := by
  rw [parseCanonical] at h
  split at h
  · exact h
  · cases h

/-- The point that a commitment encodes; infinity if it encodes none. -/
def point (curve : Secp256k1 P) (p33 : Commitment) : P := (curve.parse p33).getD 0

omit [DecidableEq P] in
theorem mapM_parseCanonical {cs : List Commitment} {keys : List P}
    (h : cs.mapM (parseCanonical curve) = some keys) :
    keys = cs.map (point curve) ∧ ∀ c ∈ cs, (curve.parse c).isSome := by
  induction cs generalizing keys with
  | nil =>
    rw [mapM_nil] at h
    cases h
    exact ⟨rfl, by simp⟩
  | cons c cs ih =>
    rw [mapM_cons] at h
    obtain ⟨Q, hQ, h⟩ := Option.bind_eq_some_iff.mp h
    obtain ⟨rest, hrest, h⟩ := Option.bind_eq_some_iff.mp h
    cases h
    obtain ⟨rfl, hall⟩ := ih hrest
    have hparse := parse_of_parseCanonical hQ
    constructor
    · rw [map_cons, point, hparse, Option.getD_some]
    · intro other hother
      rcases List.mem_cons.mp hother with rfl | hother
      · rw [hparse]
        rfl
      · exact hall other hother

/-- **A sum that verifies**: every commitment encodes a point, and the two sides
are the same point. -/
theorem verifyCommitmentSum_true {vPositive vNegative : List Commitment}
    (h : verifyCommitmentSum curve vPositive vNegative = true) :
    (∀ c ∈ vPositive ++ vNegative, (curve.parse c).isSome) ∧
      (vPositive.map (point curve)).sum = (vNegative.map (point curve)).sum := by
  rw [verifyCommitmentSum] at h
  split at h
  · rename_i hempty
    rw [Bool.and_eq_true, List.isEmpty_iff, List.isEmpty_iff] at hempty
    rw [hempty.1, hempty.2]
    exact ⟨by simp, rfl⟩
  · split at h
    · rename_i posKeys negKeys hpos hneg
      obtain ⟨rfl, hposAll⟩ := mapM_parseCanonical hpos
      obtain ⟨rfl, hnegAll⟩ := mapM_parseCanonical hneg
      refine ⟨fun c hc => (mem_append.mp hc).elim (hposAll c) (hnegAll c), ?_⟩
      rw [Secp256k1.ecPubkeyCombine] at h
      split at h
      · rename_i hsum
        rw [sum_append, ← sum_neg] at hsum
        exact add_neg_eq_zero.mp hsum
      · cases h
    · cases h

end PedersenContext

/-- The order of the curve on which concrete runs are evaluated. -/
abbrev samplePrime : Nat := 3 * 2 ^ 66 + 1

/-- Squaring modulo the order. -/
def squareMod (n : Nat) : Nat := n * n % samplePrime

theorem cast_iterate_squareMod (k n : Nat) :
    ((squareMod^[k] n : Nat) : ZMod samplePrime) = (n : ZMod samplePrime) ^ 2 ^ k := by
  induction k with
  | zero => simp
  | succ k ih =>
    rw [Function.iterate_succ_apply', squareMod, ZMod.natCast_mod, Nat.cast_mul, ih, pow_succ,
      pow_mul, pow_two]

/-- Lucas's test with the base 10. -/
theorem samplePrime_prime : samplePrime.Prime := by
  have hne : ∀ k n : Nat, squareMod^[k] n < samplePrime → squareMod^[k] n ≠ 1 →
      (n : ZMod samplePrime) ^ 2 ^ k ≠ 1 := by
    intro k n hlt hne heq
    rw [← cast_iterate_squareMod, ← Nat.cast_one, ZMod.natCast_eq_natCast_iff', Nat.mod_eq_of_lt hlt] at heq
    exact hne heq
  have hcube : (10 : ZMod samplePrime) ^ 3 = ((1000 : Nat) : ZMod samplePrime) := by norm_num
  refine lucas_primality _ (10 : ZMod samplePrime) ?_ ?_
  · have hsplit : samplePrime - 1 = 3 * 2 ^ 66 := rfl
    have hlast : squareMod^[66] 1000 = 1 := by decide +kernel
    rw [hsplit, pow_mul, hcube, ← cast_iterate_squareMod, hlast, Nat.cast_one]
  · intro q hq hdvd
    have hcases : q = 2 ∨ q = 3 := by
      rcases (Nat.Prime.dvd_mul hq).mp (show q ∣ 3 * 2 ^ 66 from hdvd) with h | h
      · exact Or.inr ((Nat.prime_dvd_prime_iff_eq hq Nat.prime_three).mp h)
      · exact Or.inl ((Nat.prime_dvd_prime_iff_eq hq Nat.prime_two).mp (hq.dvd_of_dvd_pow h))
    rcases hcases with rfl | rfl
    · have hsplit : (samplePrime - 1) / 2 = 3 * 2 ^ 65 := rfl
      rw [hsplit, pow_mul, hcube]
      exact hne 65 1000 (by decide +kernel) (by decide +kernel)
    · have hsplit : (samplePrime - 1) / 3 = 2 ^ 66 := rfl
      rw [hsplit]
      exact hne 66 10 (by decide +kernel) (by decide +kernel)

/-- A point of the sample curve, by its opening. -/
abbrev SamplePoint := ZMod samplePrime × ZMod samplePrime

def sampleEncode (Q : SamplePoint) : Vector UInt8 33 :=
  ⟨(2 :: (putBE 16 Q.1.val ++ putBE 16 Q.2.val)).toArray, by simp [putBE, length_putLE]⟩

def sampleDecode (data : Vector UInt8 33) : SamplePoint :=
  (ofBE ((data.toList.drop 1).take 16), ofBE (data.toList.drop 17))

theorem drop_sampleEncode (Q : SamplePoint) : ((sampleEncode Q).toList.drop 1).take 16 =
      putBE 16 Q.1.val ∧ (sampleEncode Q).toList.drop 17 = putBE 16 Q.2.val := by
  have hlist : (sampleEncode Q).toList = 2 :: (putBE 16 Q.1.val ++ putBE 16 Q.2.val) := rfl
  have hlength : ∀ n, (putBE 16 n).length = 16 := fun n => by simp [putBE, length_putLE]
  rw [hlist]
  constructor
  · rw [drop_succ_cons, drop_zero, take_append_of_le_length (hlength _).ge, take_of_length_le (hlength _).le]
  · rw [drop_succ_cons, drop_append_of_le_length (hlength _).ge, drop_of_length_le (hlength _).le, nil_append]

theorem val_lt_width (x : ZMod samplePrime) : x.val < 256 ^ 16 := Nat.lt_trans (ZMod.val_lt x) (by decide)

theorem sampleDecode_sampleEncode (Q : SamplePoint) : sampleDecode (sampleEncode Q) = Q := by
  obtain ⟨hfirst, hsecond⟩ := drop_sampleEncode Q
  rw [sampleDecode, hfirst, hsecond, ofBE_putBE (val_lt_width _), ofBE_putBE (val_lt_width _),
    ZMod.natCast_zmod_val, ZMod.natCast_zmod_val]

theorem sampleEncode_ne_generatorH (Q : SamplePoint) : sampleEncode Q ≠ GENERATOR_H := by
  intro heq
  have hfirst := (drop_sampleEncode Q).1
  have hvalue := congrArg ofBE hfirst
  rw [heq, ofBE_putBE (val_lt_width _)] at hvalue
  have hlt := ZMod.val_lt Q.1
  rw [← hvalue] at hlt
  exact absurd hlt (by decide)

/-- Points given by their openings: the value in the first place, the blind in
the second. -/
def sampleCurve : Secp256k1 SamplePoint where
  order := samplePrime
  G := (0, 1)
  H := (1, 0)
  mul k Q := (k * Q.1, k * Q.2)
  parse data :=
    if data = GENERATOR_H then some (1, 0)
    else if sampleDecode data ≠ 0 ∧ sampleDecode data ≠ (1, 0) ∧
        sampleEncode (sampleDecode data) = data then some (sampleDecode data)
    else none
  serialize Q := if Q = (1, 0) then GENERATOR_H else sampleEncode Q
  order_prime := samplePrime_prime
  two_pow_lt := by decide
  order_lt := by decide
  order_nsmul Q := by
    rw [← Prod.mk.eta (p := Q), Prod.smul_mk, nsmul_eq_mul, nsmul_eq_mul, ZMod.natCast_self,
      zero_mul, zero_mul]
    rfl
  mul_eq k Q := by
    rw [← Prod.mk.eta (p := Q), Prod.smul_mk, nsmul_eq_mul, nsmul_eq_mul]
  G_ne_zero := by decide +kernel
  parse_serialize Q hQ := by
    by_cases hH : Q = (1, 0)
    · rw [if_pos hH, if_pos rfl, hH]
    · rw [if_neg hH, if_neg (sampleEncode_ne_generatorH Q), sampleDecode_sampleEncode,
        if_pos ⟨hQ, hH, rfl⟩]
  serialize_of_parse data Q hparse := by
    split at hparse
    · rename_i hdata
      cases hparse
      exact ⟨(if_pos rfl).trans hdata.symm, by decide +kernel⟩
    · split at hparse
      · rename_i hdecode
        cases hparse
        exact ⟨(if_neg hdecode.2.1).trans hdecode.2.2, hdecode.1⟩
      · cases hparse
  parse_head data Q hparse := by
    split at hparse
    · rename_i hdata
      rw [hdata]
      exact Or.inl (by decide)
    · split at hparse
      · rename_i hdecode
        rw [← hdecode.2.2]
        exact Or.inl rfl
      · cases hparse
  parse_generatorH := if_pos rfl

theorem sampleCurve_independent : Opening.Independent sampleCurve.H sampleCurve.G sampleCurve.order := by
  intro v b h
  have hfirst := congrArg Prod.fst h
  have hv : ((v : Int) : ZMod samplePrime) = 0 := by simpa [sampleCurve] using hfirst
  exact (ZMod.intCast_zmod_eq_zero_iff_dvd v samplePrime).mp hv

end MaryJaneCoin
