import MaryJaneCoin.Mw.Bulletproof

/-!
# `BulletproofVerifier::Verify`

The verifier compares `taux` times `G` with the commitment and the points `T1`
and `T2`, each times a challenge.  The prover makes `taux` with `ScalarMul`,
which hashes instead of multiplying, and the value has no term of its own on the
left.  So the two sides agree for the value zero at most, and there only when
hashes happen to add up to products.
-/

namespace MaryJaneCoin

open Codec Opening PedersenContext Secp256k1
open List hiding Vector

variable {H P : Type} [AddCommGroup P] [DecidableEq P] (crypto : CurveCrypto H P)

def hashChallengeEx (prevChallenge : H) (data : Bytes) : H :=
  hashChallenge crypto (.digest prevChallenge :: feed data)

/-- The challenges of a proof, which `Prove` and `Verify` derive alike. -/
def challengeY (commit : Commitment) (pA pS : Vector UInt8 33) : H :=
  hashChallenge crypto (feed (commit.toList ++ pA.toList ++ pS.toList))
def challengeX (yHash : H) (pT1 pT2 : Vector UInt8 33) : H :=
  hashChallenge crypto (.digest yHash :: feed (pT1.toList ++ pT2.toList))
def challengeZ (yHash : H) (commit : Commitment) : H :=
  hashChallenge crypto (.digest yHash :: feed commit.toList)

/-- `ScalarMul` of a challenge with itself. -/
def challengeSq (challenge : H) : H := scalarMul crypto [.digest challenge] [.digest challenge]

/-- The equation of `Verify`.  A scalar that is no secret key fails its
multiplication as it fails the check before. -/
def verifyEquation (commitPoint T1_point T2_point : P) (pTaux : Vector UInt8 32) (xHash zHash : H) :
    Bool :=
  (do
    let lhs ← crypto.curve.ecPubkeyCreate pTaux
    let z2V ← crypto.curve.ecPubkeyTweakMul commitPoint
      (crypto.digestBytes (challengeSq crypto zHash))
    let xT1 ← crypto.curve.ecPubkeyTweakMul T1_point (crypto.digestBytes xHash)
    let x2T2 ← crypto.curve.ecPubkeyTweakMul T2_point
      (crypto.digestBytes (challengeSq crypto xHash))
    let rhsPartial ← Secp256k1.ecPubkeyCombine [z2V, xT1]
    let rhs ← Secp256k1.ecPubkeyCombine [rhsPartial, x2T2]
    some (crypto.curve.serialize lhs == crypto.curve.serialize rhs)).getD false

/-- The challenges of the rounds. -/
def roundsValid : H → List (Vector UInt8 33 × Vector UInt8 33) → Bool
  | _, [] => true
  | prevChallenge, (pL, pR) :: rounds =>
    let roundChallenge := hashChallengeEx crypto prevChallenge (pL.toList ++ pR.toList)
    crypto.curve.ecSeckeyVerify (crypto.digestBytes roundChallenge) &&
      roundsValid roundChallenge rounds

def verify (commit : Commitment) (proof : Bytes) : Bool :=
  if proof.isEmpty || proof.length < 230 then false
  else
    match parseProof proof with
    | none => false
    | some (parts, _) =>
      if parts.nBits ≠ BULLETPROOF_BITS then false
      else
        match crypto.curve.parse parts.pA, crypto.curve.parse parts.pS,
          crypto.curve.parse parts.pT1, crypto.curve.parse parts.pT2 with
        | some _, some _, some T1_point, some T2_point =>
          if !crypto.curve.ecSeckeyVerify parts.pTaux then false
          else if !parts.rounds.all fun round =>
              (crypto.curve.parse round.1).isSome && (crypto.curve.parse round.2).isSome then
            false
          else
            match crypto.curve.parse commit with
            | none => false
            | some commitPoint =>
              let yHash := challengeY crypto commit parts.pA parts.pS
              let xHash := challengeX crypto yHash parts.pT1 parts.pT2
              let zHash := challengeZ crypto yHash commit
              verifyEquation crypto commitPoint T1_point T2_point parts.pTaux xHash zHash &&
                roundsValid crypto xHash parts.rounds && !allZero parts.pB_scalar
        | _, _, _, _ => false

section Transcript

variable (nValue : Int64) (blind : BlindingFactor) (nonce : H)

/-- A secret of `Prove`, by its label. -/
def proofDigest (label : String) : H :=
  deriveFromSeed crypto (computeProofSeed crypto nonce blind nValue.toUInt64) label
def proofSecret (label : String) : Vector UInt8 32 :=
  crypto.digestBytes (proofDigest crypto nValue blind nonce label)

/-- The encoding of its point. -/
def proofEncoding (label : String) : Vector UInt8 33 :=
  crypto.curve.serialize (scalar (proofSecret crypto nValue blind nonce label) • crypto.curve.G)

/-- The challenges of `Prove`. -/
def proofY : H :=
  challengeY crypto (PedersenContext.commit crypto.curve nValue blind)
    (proofEncoding crypto nValue blind nonce "alpha") (proofEncoding crypto nValue blind nonce "rho")
def proofX : H :=
  challengeX crypto (proofY crypto nValue blind nonce)
    (proofEncoding crypto nValue blind nonce "tau1") (proofEncoding crypto nValue blind nonce "tau2")
def proofZ : H :=
  challengeZ crypto (proofY crypto nValue blind nonce)
    (PedersenContext.commit crypto.curve nValue blind)

/-- The challenges by which `Verify` multiplies, and those of the rounds, are
valid scalars. -/
structure ChallengesValid (proof : Bytes) : Prop where
  x : crypto.curve.ecSeckeyVerify (crypto.digestBytes (proofX crypto nValue blind nonce))
  xSq : crypto.curve.ecSeckeyVerify
    (crypto.digestBytes (challengeSq crypto (proofX crypto nValue blind nonce)))
  zSq : crypto.curve.ecSeckeyVerify
    (crypto.digestBytes (challengeSq crypto (proofZ crypto nValue blind nonce)))
  rounds : ∀ parts behind, parseProof proof = some (parts, behind) →
    roundsValid crypto (proofX crypto nValue blind nonce) parts.rounds

/-- The scalar `taux` of `Prove`. -/
def proofTaux : Vector UInt8 32 :=
  proveTaux crypto (proofDigest crypto nValue blind nonce "tau1")
    (proofDigest crypto nValue blind nonce "tau2") (proofY crypto nValue blind nonce)
    (proofX crypto nValue blind nonce) (PedersenContext.commit crypto.curve nValue blind) blind

/-- The scalars that `Verify` multiplies by. -/
def scalarX : Nat := scalar (crypto.digestBytes (proofX crypto nValue blind nonce))
def scalarXSq : Nat :=
  scalar (crypto.digestBytes (challengeSq crypto (proofX crypto nValue blind nonce)))
def scalarZSq : Nat :=
  scalar (crypto.digestBytes (challengeSq crypto (proofZ crypto nValue blind nonce)))

/-- The scalars of the points `T1` and `T2`. -/
def scalarTau1 : Nat := scalar (proofSecret crypto nValue blind nonce "tau1")
def scalarTau2 : Nat := scalar (proofSecret crypto nValue blind nonce "tau2")

/-- What `ScalarMul` makes of the products that belong into `taux`. -/
def hashedTau1X : Vector UInt8 32 :=
  crypto.digestBytes (scalarMul crypto [.digest (proofDigest crypto nValue blind nonce "tau1")]
    [.digest (proofX crypto nValue blind nonce)])
def hashedTau2XSq : Vector UInt8 32 :=
  crypto.digestBytes (scalarMul crypto [.digest (proofDigest crypto nValue blind nonce "tau2")]
    [.digest (challengeSq crypto (proofX crypto nValue blind nonce))])
def hashedBlind : Vector UInt8 32 :=
  crypto.digestBytes (scalarMul crypto
    [.digest (challengeSq crypto (proofZ crypto nValue blind nonce))] (feed blind.toList))

end Transcript

/-- The sum of three scalars as `Prove` adds them: a step that fails leaves the
sum before, or this default. -/
def addedScalars (order fallback a b c : Nat) : Nat :=
  if 0 < a ∧ a < order ∧ b < order ∧ (a + b) % order ≠ 0 then
    if c < order ∧ (a + b + c) % order ≠ 0 then (a + b + c) % order else (a + b) % order
  else fallback

variable {crypto} {nValue : Int64} {blind : BlindingFactor} {nonce : H} {vExtraData proof : Bytes}

omit [DecidableEq P] in
theorem ecSeckeyTweakAdd_eq (curve : Secp256k1 P) (seckey tweak : Vector UInt8 32) :
    curve.ecSeckeyTweakAdd seckey tweak =
      if 0 < scalar seckey ∧ scalar seckey < curve.order ∧ scalar tweak < curve.order ∧
          (scalar seckey + scalar tweak) % curve.order ≠ 0 then
        some (scalarBytes ((scalar seckey + scalar tweak) % curve.order))
      else none := by
  have hiff : (curve.ecSeckeyVerify seckey && decide (scalar tweak < curve.order) &&
      (scalar seckey + scalar tweak) % curve.order != 0) = true ↔
      0 < scalar seckey ∧ scalar seckey < curve.order ∧ scalar tweak < curve.order ∧
        (scalar seckey + scalar tweak) % curve.order ≠ 0 := by
    rw [Bool.and_eq_true, Bool.and_eq_true, ecSeckeyVerify_iff, decide_eq_true_iff,
      bne_iff_ne, and_assoc, and_assoc]
  rw [ecSeckeyTweakAdd]
  simp only [hiff]

omit [DecidableEq P] in
theorem scalar_remainder (curve : Secp256k1 P) {n : Nat} (hne : n % curve.order ≠ 0) :
    scalar (scalarBytes (n % curve.order)) = n % curve.order ∧
      curve.ecSeckeyVerify (scalarBytes (n % curve.order)) = true := by
  have hlt := Nat.mod_lt n curve.order_prime.pos
  have hscalar := scalar_scalarBytes (Nat.lt_trans hlt curve.order_lt)
  refine ⟨hscalar, ecSeckeyVerify_iff.mpr ?_⟩
  rw [hscalar]
  exact ⟨Nat.pos_of_ne_zero hne, hlt⟩

/-- Three scalars, added as `Prove` adds them. -/
def sumOrFallback (curve : Secp256k1 P) (fallback a b c : Vector UInt8 32) : Vector UInt8 32 :=
  match curve.ecSeckeyTweakAdd a b with
  | none => fallback
  | some sum => (curve.ecSeckeyTweakAdd sum c).getD sum

omit [DecidableEq P] in
theorem sumOrFallback_spec (curve : Secp256k1 P) {fallback : Vector UInt8 32}
    (hfallback : curve.ecSeckeyVerify fallback = true) (a b c : Vector UInt8 32) :
    curve.ecSeckeyVerify (sumOrFallback curve fallback a b c) = true ∧
      scalar (sumOrFallback curve fallback a b c) =
        addedScalars curve.order (scalar fallback) (scalar a) (scalar b) (scalar c) := by
  rw [sumOrFallback, ecSeckeyTweakAdd_eq, addedScalars]
  by_cases hfirst : 0 < scalar a ∧ scalar a < curve.order ∧ scalar b < curve.order ∧
      (scalar a + scalar b) % curve.order ≠ 0
  · obtain ⟨hsum, hkey⟩ := scalar_remainder curve hfirst.2.2.2
    have hmod : ((scalar a + scalar b) % curve.order + scalar c) % curve.order =
        (scalar a + scalar b + scalar c) % curve.order := Nat.mod_add_mod _ _ _
    have hrange := ecSeckeyVerify_iff.mp hkey
    rw [hsum] at hrange
    rw [if_pos hfirst, if_pos hfirst]
    simp only [ecSeckeyTweakAdd_eq, hsum, hmod]
    by_cases hsecond : scalar c < curve.order ∧ (scalar a + scalar b + scalar c) % curve.order ≠ 0
    · obtain ⟨hsum', hkey'⟩ := scalar_remainder curve hsecond.2
      rw [if_pos ⟨hrange.1, hrange.2, hsecond⟩, if_pos hsecond, Option.getD_some]
      exact ⟨hkey', hsum'⟩
    · rw [if_neg fun h => hsecond h.2.2, if_neg hsecond, Option.getD_none]
      exact ⟨hkey, hsum⟩
  · rw [if_neg hfirst, if_neg hfirst]
    exact ⟨hfallback, rfl⟩

omit [DecidableEq P] in
theorem proveTaux_eq (tau1 tau2 yHash xHash : H) (commit : Commitment) (blind : BlindingFactor)
    (htau1 : crypto.curve.ecSeckeyVerify (crypto.digestBytes tau1) = true) :
    proveTaux crypto tau1 tau2 yHash xHash commit blind = sumOrFallback crypto.curve (crypto.digestBytes tau1)
        (crypto.digestBytes (scalarMul crypto [.digest tau1] [.digest xHash]))
        (crypto.digestBytes (scalarMul crypto [.digest tau2] [.digest (challengeSq crypto xHash)]))
        (crypto.digestBytes (scalarMul crypto
          [.digest (challengeSq crypto (challengeZ crypto yHash commit))] (feed blind.toList))) :=
  if_pos (sumOrFallback_spec crypto.curve htau1
    (crypto.digestBytes (scalarMul crypto [.digest tau1] [.digest xHash]))
    (crypto.digestBytes (scalarMul crypto [.digest tau2] [.digest (challengeSq crypto xHash)]))
    (crypto.digestBytes (scalarMul crypto
      [.digest (challengeSq crypto (challengeZ crypto yHash commit))] (feed blind.toList)))).1

/-- **The scalar `taux`** is a secret key: the sum of the hashed products, or what
a step that fails leaves of it. -/
theorem proofTaux_spec
    (htau1 : crypto.curve.ecSeckeyVerify (proofSecret crypto nValue blind nonce "tau1") = true) :
    crypto.curve.ecSeckeyVerify (proofTaux crypto nValue blind nonce) = true ∧
      scalar (proofTaux crypto nValue blind nonce) =
        addedScalars crypto.curve.order (scalarTau1 crypto nValue blind nonce)
          (scalar (hashedTau1X crypto nValue blind nonce)) (scalar (hashedTau2XSq crypto nValue blind nonce))
          (scalar (hashedBlind crypto nValue blind nonce)) := by
  rw [proofTaux, proveTaux_eq _ _ _ _ _ _ htau1]
  exact sumOrFallback_spec crypto.curve htau1 _ _ _

omit [DecidableEq P] in
theorem committed_zero (curve : Secp256k1 P) (blind : BlindingFactor) :
    committed curve 0 blind = scalar blind • curve.G := by
  have hzero : scalar (valueScalar 0) = 0 := by decide
  rw [committed, hzero, zero_nsmul, zero_add]

/-- **What the equation says** when its challenges are valid. -/
theorem verifyEquation_iff {V T1 T2 : P} {pTaux : Vector UInt8 32} {xHash zHash : H}
    (htaux : crypto.curve.ecSeckeyVerify pTaux = true)
    (hx : crypto.curve.ecSeckeyVerify (crypto.digestBytes xHash) = true)
    (hxSq : crypto.curve.ecSeckeyVerify (crypto.digestBytes (challengeSq crypto xHash)) = true)
    (hzSq : crypto.curve.ecSeckeyVerify (crypto.digestBytes (challengeSq crypto zHash)) = true) :
    verifyEquation crypto V T1 T2 pTaux xHash zHash = true ↔
      scalar (crypto.digestBytes (challengeSq crypto zHash)) • V +
          scalar (crypto.digestBytes xHash) • T1 ≠ 0 ∧ scalar pTaux • crypto.curve.G =
          scalar (crypto.digestBytes (challengeSq crypto zHash)) • V +
            scalar (crypto.digestBytes xHash) • T1 +
            scalar (crypto.digestBytes (challengeSq crypto xHash)) • T2 := by
  have hne := nsmul_G_ne_zero htaux
  simp only [verifyEquation, ecPubkeyCreate, if_pos htaux, ecPubkeyTweakMul,
    if_pos hx, if_pos hxSq, if_pos hzSq, crypto.curve.mul_eq, ecPubkeyCombine,
    sum_cons, sum_nil, add_zero, Option.bind_eq_bind, Option.bind_some]
  by_cases hchallenge : scalar (crypto.digestBytes (challengeSq crypto zHash)) • V +
      scalar (crypto.digestBytes xHash) • T1 = 0
  · rw [if_pos hchallenge]
    constructor
    · intro h
      cases h
    · intro h
      exact absurd hchallenge h.1
  · rw [if_neg hchallenge, Option.bind_some]
    by_cases hsum : scalar (crypto.digestBytes (challengeSq crypto zHash)) • V +
        scalar (crypto.digestBytes xHash) • T1 +
        scalar (crypto.digestBytes (challengeSq crypto xHash)) • T2 = 0
    · rw [if_pos hsum]
      constructor
      · intro h
        cases h
      · intro h
        exact absurd (h.2.trans hsum) hne
    · rw [if_neg hsum, Option.bind_some, Option.getD_some, beq_iff_eq, serialize_inj hne hsum]
      exact (and_iff_right hchallenge).symm

omit [DecidableEq P] in
theorem honest_sum_iff {curve : Secp256k1 P} (hind : Independent curve.H curve.G curve.order)
    {nValue : Int64} (hvalue : 0 ≤ nValue) {z : Nat} (hz : ¬ curve.order ∣ z)
    (blind : BlindingFactor) (taux m : Nat) : taux • curve.G = z • committed curve nValue blind +
      m • curve.G ↔ nValue = 0 ∧ taux ≡ z * scalar blind + m [MOD curve.order] := by
  have hscalar := scalar_valueScalar_of_nonneg hvalue
  constructor
  · intro h
    rw [committed, hscalar] at h
    have hcombination : ((z * nValue.toUInt64.toNat : Nat) : Int) • curve.H +
        ((z * scalar blind + m : Nat) - taux : Int) • curve.G = 0 := by
      rw [sub_zsmul, natCast_zsmul, natCast_zsmul, natCast_zsmul, h, add_nsmul, mul_nsmul',
        mul_nsmul', nsmul_add]
      abel
    have hdvd : curve.order ∣ z * nValue.toUInt64.toNat := Int.natCast_dvd_natCast.mp (hind _ _ hcombination)
    have hzero : nValue.toUInt64.toNat = 0 := by
      apply Nat.eq_zero_of_dvd_of_lt (((Nat.Prime.dvd_mul curve.order_prime).mp hdvd).resolve_left hz)
      exact Nat.lt_trans nValue.toUInt64.toNat_lt curve.two_pow_lt
    have hnull : nValue = 0 := by
      have hint := toInt_eq_scalar_valueScalar hvalue
      rw [hscalar, hzero] at hint
      exact Int64.toInt_inj.mp hint
    refine ⟨hnull, ?_⟩
    rw [hzero, zero_nsmul, zero_add, ← mul_nsmul', ← add_nsmul] at h
    exact nsmul_G_eq_iff.mp h
  · intro h
    obtain ⟨rfl, hmod⟩ := h
    rw [committed_zero, ← mul_nsmul', ← add_nsmul]
    exact nsmul_G_eq_iff.mpr hmod

section

omit [DecidableEq P]

theorem proofEncoding_parse {label : String}
    (h : crypto.curve.ecSeckeyVerify (proofSecret crypto nValue blind nonce label) = true) :
    crypto.curve.parse (proofEncoding crypto nValue blind nonce label) =
      some (scalar (proofSecret crypto nValue blind nonce label) • crypto.curve.G) :=
  crypto.curve.parse_serialize _ (nsmul_G_ne_zero h)

variable {encoding : Vector UInt8 33}

theorem hashedPoint_eq_some {secret : H} (h : hashedPoint crypto secret = some encoding) :
    crypto.curve.ecSeckeyVerify (crypto.digestBytes secret) = true ∧
      encoding = crypto.curve.serialize (scalar (crypto.digestBytes secret) • crypto.curve.G) := by
  have hkey : crypto.curve.ecSeckeyVerify (crypto.digestBytes secret) = true :=
    hashedPoint_isSome.mp (by rw [h]; rfl)
  rw [hashedPoint, ecPubkeyCreate, if_pos hkey, Option.map_some, crypto.curve.mul_eq] at h
  exact ⟨hkey, (Option.some.inj h).symm⟩

theorem hashedPoint_parse {secret : H}
    (h : hashedPoint crypto secret = some encoding) : (crypto.curve.parse encoding).isSome := by
  obtain ⟨hkey, rfl⟩ := hashedPoint_eq_some h
  rw [crypto.curve.parse_serialize _ (nsmul_G_ne_zero hkey)]
  rfl

theorem pairRounds_parse {proofSeed : H} {rounds : List (Vector UInt8 33 × Vector UInt8 33)}
    (h : pairRounds (((List.range 6).map (roundPoints crypto proofSeed)).filterMap Prod.fst)
      (((List.range 6).map (roundPoints crypto proofSeed)).filterMap Prod.snd) = some rounds) :
    rounds.length ≤ 10 ∧ ∀ round ∈ rounds,
      (crypto.curve.parse round.1).isSome ∧ (crypto.curve.parse round.2).isSome := by
  rw [pairRounds] at h
  split at h
  · cases h
    constructor
    · have hlength := length_filterMap_le Prod.fst
        ((List.range 6).map (roundPoints crypto proofSeed))
      rw [length_map, length_range] at hlength
      rw [length_zip]
      omega
    · intro round hround
      obtain ⟨hleft, hright⟩ := of_mem_zip hround
      obtain ⟨points, hpoints, hfst⟩ := mem_filterMap.mp hleft
      obtain ⟨points', hpoints', hsnd⟩ := mem_filterMap.mp hright
      obtain ⟨i, -, rfl⟩ := mem_map.mp hpoints
      obtain ⟨i', -, rfl⟩ := mem_map.mp hpoints'
      exact ⟨hashedPoint_parse hfst, hashedPoint_parse hsnd⟩
  · cases h

end

section

variable (hvalue : 0 ≤ nValue) (h : prove crypto nValue blind nonce vExtraData = some proof)
  (hne : proof ≠ [])
include hvalue h hne

/-- **The parts of a proof** that `Prove` wrote. -/
theorem prove_parts :
    allZero (PedersenContext.commit crypto.curve nValue blind) = false ∧
      (∀ label ∈ ["alpha", "rho", "tau1", "tau2"],
        crypto.curve.ecSeckeyVerify (proofSecret crypto nValue blind nonce label) = true) ∧
      ∃ parts extra, proof = serializeProof parts ++ extra ∧ parts.nBits = BULLETPROOF_BITS ∧
        parts.pA = proofEncoding crypto nValue blind nonce "alpha" ∧
        parts.pS = proofEncoding crypto nValue blind nonce "rho" ∧
        parts.pT1 = proofEncoding crypto nValue blind nonce "tau1" ∧
        parts.pT2 = proofEncoding crypto nValue blind nonce "tau2" ∧
        parts.pTaux = proofTaux crypto nValue blind nonce ∧ parts.rounds.length ≤ 10 ∧
        (∀ round ∈ parts.rounds, (crypto.curve.parse round.1).isSome ∧
        (crypto.curve.parse round.2).isSome) ∧ parts.pB_scalar = scalarBytes 1 := by
  rw [prove, if_neg (Int64.not_lt.mpr hvalue)] at h
  simp only at h
  split at h
  · exact absurd (Option.some.inj h).symm hne
  · rename_i hcommit
    split at h
    · rename_i pA pS pT1 pT2 halpha hrho htau1 htau2
      obtain ⟨halphaKey, rfl⟩ := hashedPoint_eq_some halpha
      obtain ⟨hrhoKey, rfl⟩ := hashedPoint_eq_some hrho
      obtain ⟨htau1Key, rfl⟩ := hashedPoint_eq_some htau1
      obtain ⟨htau2Key, rfl⟩ := hashedPoint_eq_some htau2
      obtain ⟨rounds, hrounds, hproof⟩ := Option.map_eq_some_iff.mp h
      obtain ⟨hlength, hparse⟩ := pairRounds_parse hrounds
      refine ⟨Bool.eq_false_iff.mpr hcommit, ?_, _, _, hproof.symm, rfl, rfl, rfl, rfl, rfl, rfl,
        hlength, hparse, rfl⟩
      intro label hlabel
      simp only [List.mem_cons, not_mem_nil, or_false] at hlabel
      rcases hlabel with rfl | rfl | rfl | rfl
      · exact halphaKey
      · exact hrhoKey
      · exact htau1Key
      · exact htau2Key
    · exact absurd (Option.some.inj h).symm hne

/-- **Verifying an honest proof** comes down to the equation. -/
theorem verify_prove (hchallenges : ChallengesValid crypto nValue blind nonce proof) :
    verify crypto (PedersenContext.commit crypto.curve nValue blind) proof =
      verifyEquation crypto (committed crypto.curve nValue blind)
        (scalarTau1 crypto nValue blind nonce • crypto.curve.G)
        (scalarTau2 crypto nValue blind nonce • crypto.curve.G) (proofTaux crypto nValue blind nonce)
        (proofX crypto nValue blind nonce) (proofZ crypto nValue blind nonce) := by
  obtain ⟨hcommit, hkeys, parts, extra, rfl, hbits, hA, hS, hT1, hT2, htaux, hlength, hrounds, hB⟩ :=
    prove_parts hvalue h hne
  have hread := reads_proof parts extra hlength
  have hlong : ¬ ((serializeProof parts ++ extra).isEmpty ||
      decide ((serializeProof parts ++ extra).length < 230)) = true := by
    have hleast := length_serializeProof parts
    rw [Bool.or_eq_true, List.isEmpty_iff, decide_eq_true_iff, length_append,
      ← length_eq_zero_iff, length_append]
    omega
  obtain ⟨-, hpoint, hencoding⟩ := commit_eq_of_ne_null hcommit
  have hparse : crypto.curve.parse (PedersenContext.commit crypto.curve nValue blind) =
      some (committed crypto.curve nValue blind) := by
    rw [hencoding]
    exact crypto.curve.parse_serialize _ hpoint
  have htauxKey : crypto.curve.ecSeckeyVerify parts.pTaux = true := by
    rw [htaux]
    exact (proofTaux_spec (hkeys "tau1" (by simp))).1
  have hroundParse : (parts.rounds.all fun round =>
      (crypto.curve.parse round.1).isSome && (crypto.curve.parse round.2).isSome) = true := by
    rw [all_eq_true]
    intro round hround
    rw [Bool.and_eq_true]
    exact hrounds round hround
  have hroundsValid := hchallenges.rounds parts extra hread
  have hBscalar : allZero parts.pB_scalar = false := by
    rw [hB]
    decide
  rw [verify, if_neg hlong, hread]
  simp only [hbits, hA, hS, hT1, hT2, ne_eq, not_true_eq_false, if_false,
    proofEncoding_parse (hkeys "alpha" (by simp)), proofEncoding_parse (hkeys "rho" (by simp)),
    proofEncoding_parse (hkeys "tau1" (by simp)), proofEncoding_parse (hkeys "tau2" (by simp)),
    htauxKey, hroundParse, Bool.not_true, Bool.false_eq_true, hparse]
  rw [← proofY, ← proofX, ← proofZ, hroundsValid, hBscalar, Bool.and_true, Bool.not_false,
    Bool.and_true, htaux]
  rfl

end

/-- The hashed products of a proof add up to what the products themselves add up
to, and the sum that `Verify` forms first is not zero. -/
structure ProductsAgree (crypto : CurveCrypto H P) (nValue : Int64) (blind : BlindingFactor)
    (nonce : H) : Prop where
  partialSum : ¬ crypto.curve.order ∣ scalarZSq crypto nValue blind nonce * scalar blind +
    scalarX crypto nValue blind nonce * scalarTau1 crypto nValue blind nonce
  sum : addedScalars crypto.curve.order (scalarTau1 crypto nValue blind nonce)
      (scalar (hashedTau1X crypto nValue blind nonce))
      (scalar (hashedTau2XSq crypto nValue blind nonce))
      (scalar (hashedBlind crypto nValue blind nonce)) ≡
    scalarZSq crypto nValue blind nonce * scalar blind +
      (scalarX crypto nValue blind nonce * scalarTau1 crypto nValue blind nonce +
        scalarXSq crypto nValue blind nonce * scalarTau2 crypto nValue blind nonce)
      [MOD crypto.curve.order]

/-- **When an honest range proof verifies**: for the value zero, and if hashes add
up to products. -/
theorem range_proof_verifies_iff
    (hind : Independent crypto.curve.H crypto.curve.G crypto.curve.order) (hvalue : 0 ≤ nValue)
    (h : prove crypto nValue blind nonce vExtraData = some proof) (hne : proof ≠ [])
    (hchallenges : ChallengesValid crypto nValue blind nonce proof) :
    verify crypto (PedersenContext.commit crypto.curve nValue blind) proof = true ↔
      nValue = 0 ∧ ProductsAgree crypto nValue blind nonce := by
  obtain ⟨hkey, hscalar⟩ := proofTaux_spec ((prove_parts hvalue h hne).2.1 "tau1" (by simp))
  have hzSq : ¬ crypto.curve.order ∣ scalarZSq crypto nValue blind nonce :=
    not_dvd_of_ecSeckeyVerify hchallenges.zSq
  rw [verify_prove hvalue h hne hchallenges,
    verifyEquation_iff hkey hchallenges.x hchallenges.xSq hchallenges.zSq, hscalar, ← scalarZSq,
    ← scalarX, ← scalarXSq, ← mul_nsmul', ← mul_nsmul', add_assoc, ← add_nsmul,
    honest_sum_iff hind hvalue hzSq]
  -- under the value zero the first sum is a multiple of `G` as well
  have hchallenge : nValue = 0 → (scalarZSq crypto nValue blind nonce •
        committed crypto.curve nValue blind +
      (scalarX crypto nValue blind nonce * scalarTau1 crypto nValue blind nonce) • crypto.curve.G ≠
        0 ↔ ¬ crypto.curve.order ∣ scalarZSq crypto nValue blind nonce * scalar blind +
          scalarX crypto nValue blind nonce * scalarTau1 crypto nValue blind nonce) := by
    intro hnull
    rw [hnull, committed_zero, ← mul_nsmul', ← add_nsmul, ne_eq, nsmul_G_eq_zero_iff]
  constructor
  · intro ⟨hne, hnull, hsum⟩
    exact ⟨hnull, (hchallenge hnull).mp hne, hsum⟩
  · intro ⟨hnull, hagree⟩
    exact ⟨(hchallenge hnull).mpr hagree.partialSum, hnull, hagree.sum⟩

/-- A hash function with one digest, which is read as the scalar 1. -/
def unitCrypto : CurveCrypto Unit SamplePoint where
  sha256 _ := ()
  zero := ()
  verifyExcess _ _ _ := true
  verifyRangeProof _ _ := true
  commit := PedersenContext.commit sampleCurve
  commitBlind := PedersenContext.commitBlind sampleCurve
  verifySum := PedersenContext.verifyCommitmentSum sampleCurve
  verifySchnorr _ _ _ := true
  curve := sampleCurve
  digestBytes _ := scalarBytes 1
  schnorrsigSign32 _ _ := none

/-- The proof of a value under it. -/
def unitProof (nValue : Int64) : Bytes :=
  (prove unitCrypto nValue (scalarBytes 1) () []).getD []

theorem unitProof_challenges (nValue : Int64) (proof : Bytes) :
    ChallengesValid unitCrypto nValue (scalarBytes 1) () proof := by
  have hone : sampleCurve.ecSeckeyVerify (scalarBytes 1) = true := by decide +kernel
  refine ⟨hone, hone, hone, ?_⟩
  intro parts behind _
  generalize parts.rounds = rounds
  generalize proofX unitCrypto nValue (scalarBytes 1) () = challenge
  induction rounds generalizing challenge with
  | nil => rfl
  | cons round rounds ih =>
    rw [roundsValid, Bool.and_eq_true]
    exact ⟨hone, ih _⟩

theorem range_proof_verifies_zero : verify unitCrypto (PedersenContext.commit sampleCurve 0
    (scalarBytes 1)) (unitProof 0) = true := by
  have hproof : prove unitCrypto 0 (scalarBytes 1) () [] = some (unitProof 0) := by decide +kernel
  refine (range_proof_verifies_iff sampleCurve_independent (by decide) hproof (by decide +kernel)
    (unitProof_challenges 0 _)).mpr ⟨rfl, ?_, ?_⟩
  · decide +kernel
  · decide +kernel

/-- **An honest proof of the value 420000** has valid challenges and does not verify. -/
theorem range_proof_rejected : Independent sampleCurve.H sampleCurve.G sampleCurve.order ∧
      unitCrypto.curve.ecSeckeyVerify (scalarBytes 1) = true ∧
      prove unitCrypto 420000 (scalarBytes 1) () [] = some (unitProof 420000) ∧ unitProof 420000 ≠
      [] ∧ ChallengesValid unitCrypto 420000 (scalarBytes 1) () (unitProof 420000) ∧
      verify unitCrypto (PedersenContext.commit sampleCurve 420000 (scalarBytes 1))
        (unitProof 420000) = false :=
  ⟨sampleCurve_independent, by decide +kernel, by decide +kernel, by decide +kernel,
    unitProof_challenges 420000 _, by decide +kernel⟩

end MaryJaneCoin
