import MaryJaneCoin.Mw.Pedersen
import MaryJaneCoin.Mw.Serialize
import MaryJaneCoin.Mw.Validation

/-!
# Range proofs of `mw/crypto/bulletproofs.cpp`

`Prove` writes a proof and `RecoverMessage` reads the value and the blind back
out of it.  The value stands in the proof in clear; the blind does not, and is
searched for among scalars derived from the nonce.
-/

namespace MaryJaneCoin

open Codec Option
open List hiding Vector

/-- The curve, Schnorr signing and the bytes of a digest, next to what
validation needs. -/
structure CurveCrypto (H P : Type) [AddCommGroup P] extends MWCrypto H where
  curve : Secp256k1 P
  /-- The memory of a `uint256`. -/
  digestBytes : H → Vector UInt8 32
  /-- `secp256k1_schnorrsig_sign32` under a key that makes a key pair. -/
  schnorrsigSign32 : Vector UInt8 32 → H → Option Signature

variable {H P : Type} [AddCommGroup P] [DecidableEq P] (crypto : CurveCrypto H P)

/-- A string literal as it is hashed. -/
def feedString {H : Type} (text : String) : Preimage H := feed text.toUTF8.toList

def BULLETPROOF_DOMAIN : String := "MARYJ_MWEB_BULLETPROOF_V1"
def BULLETPROOF_BITS : UInt8 := 64

/-- `HashChallenge`; the domain is always the same. -/
def hashChallenge (data : Preimage H) : H :=
  crypto.sha256d (feedString BULLETPROOF_DOMAIN ++ data)

def valueToScalar (nValue : UInt64) : Vector UInt8 32 := scalarBytes nValue.toNat

def scalarToValue (pScalar32 : Vector UInt8 32) : Option UInt64 :=
  if (pScalar32.toList.take 24).all (· == 0) then
    some (UInt64.ofNat (ofBE (pScalar32.toList.drop 24)))
  else none

/-- `ScalarMul`, which hashes its arguments instead of multiplying them. -/
def scalarMul (a32 b32 : Preimage H) : H :=
  crypto.sha256 [.digest (crypto.sha256 (a32 ++ b32 ++ feedString "scalar_mul"))]

def computeProofSeed (nonce : H) (blind : BlindingFactor) (nValue : UInt64) : H :=
  crypto.sha256 (.digest nonce :: feed blind.toList ++ feedBE 8 nValue.toNat)

def deriveFromSeed (proofSeed : H) (label : String) : H :=
  crypto.sha256 (.digest proofSeed :: feedString label)

/-- The encoding of a point made from a hashed secret. -/
def hashedPoint (secret : H) : Option (Vector UInt8 33) :=
  (crypto.curve.ecPubkeyCreate (crypto.digestBytes secret)).map crypto.curve.serialize

/-- The left and right points of one round of `Prove`, if their secrets make
points. -/
def roundPoints (proofSeed : H) (round : Nat) :
    Option (Vector UInt8 33) × Option (Vector UInt8 33) :=
  let roundSeed := crypto.sha256
    (.digest (deriveFromSeed crypto proofSeed "L") :: feedLE 4 round)
  (hashedPoint crypto roundSeed,
    hashedPoint crypto (crypto.sha256 (.digest roundSeed :: feedString "R")))

/-- The parts of a proof, in the order in which they are written. -/
structure ProofParts where
  nBits : UInt8
  pA : Vector UInt8 33
  pS : Vector UInt8 33
  pT1 : Vector UInt8 33
  pT2 : Vector UInt8 33
  pTaux : Vector UInt8 32
  pMu : Vector UInt8 32
  rounds : List (Vector UInt8 33 × Vector UInt8 33)
  pA_scalar : Vector UInt8 32
  pB_scalar : Vector UInt8 32
  pT_scalar : Vector UInt8 32

def serializeProof (parts : ProofParts) : Bytes :=
  putByte parts.nBits ++ parts.pA.toList ++ parts.pS.toList ++ parts.pT1.toList ++
    parts.pT2.toList ++ parts.pTaux.toList ++ parts.pMu.toList ++
    putByte (UInt8.ofNat parts.rounds.length) ++
    parts.rounds.flatMap (fun round => round.1.toList ++ round.2.toList) ++
    parts.pA_scalar.toList ++ parts.pB_scalar.toList ++ parts.pT_scalar.toList

/-- The rounds that `SerializeProof` writes: one for every left point.  Where a
right point is missing it reads beyond the end of `vR`, which is `none`. -/
def pairRounds (vL vR : List (Vector UInt8 33)) : Option (List (Vector UInt8 33 × Vector UInt8 33)) :=
  if vL.length ≤ vR.length then some (vL.zip vR) else none

/-- The scalar `taux` of `Prove`. -/
def proveTaux (tau1 tau2 yHash xHash : H) (commit : Commitment) (blind : BlindingFactor) :
    Vector UInt8 32 :=
  let zHash := hashChallenge crypto (.digest yHash :: feed commit.toList)
  let tau1X := scalarMul crypto [.digest tau1] [.digest xHash]
  let xSq := scalarMul crypto [.digest xHash] [.digest xHash]
  let tau2X2 := scalarMul crypto [.digest tau2] [.digest xSq]
  let zSq := scalarMul crypto [.digest zHash] [.digest zHash]
  let z2Blind := scalarMul crypto [.digest zSq] (feed blind.toList)
  let taux :=
    match crypto.curve.ecSeckeyTweakAdd (crypto.digestBytes tau1X) (crypto.digestBytes tau2X2) with
    | none => crypto.digestBytes tau1
    | some taux => (crypto.curve.ecSeckeyTweakAdd taux (crypto.digestBytes z2Blind)).getD taux
  if crypto.curve.ecSeckeyVerify taux then taux else crypto.digestBytes tau1

/-- The scalar `mu` of `Prove`. -/
def proveMu (alpha rho xHash : H) : Vector UInt8 32 :=
  (crypto.curve.ecSeckeyTweakAdd (crypto.digestBytes alpha)
    (crypto.digestBytes (scalarMul crypto [.digest rho] [.digest xHash]))).getD
    (crypto.digestBytes alpha)

/-- `BulletproofProver::Prove`.  The empty string is the null proof; `none` is a
run without a meaning. -/
def prove (nValue : Int64) (blind : BlindingFactor) (nonce : H) (vExtraData : Bytes) :
    Option Bytes :=
  if nValue < 0 then some []
  else
    let uValue := nValue.toUInt64
    let proofSeed := computeProofSeed crypto nonce blind uValue
    let commit := PedersenContext.commit crypto.curve nValue blind
    let alpha := deriveFromSeed crypto proofSeed "alpha"
    let rho := deriveFromSeed crypto proofSeed "rho"
    let tau1 := deriveFromSeed crypto proofSeed "tau1"
    let tau2 := deriveFromSeed crypto proofSeed "tau2"
    if allZero commit then some []
    else
      match hashedPoint crypto alpha, hashedPoint crypto rho, hashedPoint crypto tau1,
        hashedPoint crypto tau2 with
      | some pA, some pS, some pT1, some pT2 =>
        let yHash := hashChallenge crypto (feed (commit.toList ++ pA.toList ++ pS.toList))
        let xHash := hashChallenge crypto (.digest yHash :: feed (pT1.toList ++ pT2.toList))
        let points := (List.range 6).map (roundPoints crypto proofSeed)
        (pairRounds (points.filterMap Prod.fst) (points.filterMap Prod.snd)).map fun rounds =>
          serializeProof
            { nBits := BULLETPROOF_BITS, pA, pS, pT1, pT2
              pTaux := proveTaux crypto tau1 tau2 yHash xHash commit blind
              pMu := proveMu crypto alpha rho xHash
              rounds
              pA_scalar := valueToScalar uValue
              pB_scalar := scalarBytes 1
              pT_scalar :=
                if vExtraData.isEmpty then valueToScalar uValue
                else crypto.digestBytes
                  (crypto.sha256 (feed ((valueToScalar uValue).toList ++ vExtraData))) } ++
          if vExtraData.isEmpty then [] else putLE 4 vExtraData.length ++ vExtraData
      | _, _, _, _ => some []

/-- One round of a proof, read. -/
def getRound : Get (Vector UInt8 33 × Vector UInt8 33) := fun bytes =>
  (getVector 33 bytes).bind fun left =>
  (getVector 33 left.2).map fun right => ((left.1, right.1), right.2)

/-- `ParseProof`: the parts, and what stands behind the proof. -/
def parseProof : Get ProofParts := fun bytes =>
  (getByte bytes).bind fun nBits =>
  (getVector 33 nBits.2).bind fun pA =>
  (getVector 33 pA.2).bind fun pS =>
  (getVector 33 pS.2).bind fun pT1 =>
  (getVector 33 pT1.2).bind fun pT2 =>
  (getVector 32 pT2.2).bind fun pTaux =>
  (getVector 32 pTaux.2).bind fun pMu =>
  (getByte pMu.2).bind fun nRounds =>
  if nRounds.1 > 10 then none
  else
    (getMany getRound nRounds.1.toNat nRounds.2).bind fun rounds =>
    (getVector 32 rounds.2).bind fun pA_scalar =>
    (getVector 32 pA_scalar.2).bind fun pB_scalar =>
    (getVector 32 pB_scalar.2).map fun pT_scalar =>
      (⟨nBits.1, pA.1, pS.1, pT1.1, pT2.1, pTaux.1, pMu.1, rounds.1, pA_scalar.1, pB_scalar.1,
        pT_scalar.1⟩, pT_scalar.2)

def extractExtraData (proof : Bytes) : Bytes :=
  if proof.length < 230 then []
  else
    match parseProof proof with
    | none => []
    | some (_, behind) =>
      match getLE 4 behind with
      | none => []
      | some (extraLen, extra) =>
        if extraLen = 0 ∨ extra.length < extraLen then [] else extra.take extraLen

/-- The blinds that `RecoverMessage` derives in its loop. -/
def indexedBlind (nonce : H) (idx : Nat) : BlindingFactor :=
  crypto.digestBytes (crypto.sha256 (.digest nonce :: feedLE 4 idx ++ feedString "blind"))

/-- The blind it tries first. -/
def recoverBlind (nonce : H) : BlindingFactor :=
  crypto.digestBytes (crypto.sha256 (.digest nonce :: feedString "blind_recover"))

/-- The search of `RecoverMessage` for a blind that opens the commitment. -/
def searchBlind (commit : Commitment) (nValue : Int64) (nonce : H) : Option BlindingFactor :=
  if PedersenContext.commit crypto.curve nValue (recoverBlind crypto nonce) = commit then
    some (recoverBlind crypto nonce)
  else
    ((List.range 256).map (indexedBlind crypto nonce)).find? fun blind =>
      crypto.curve.ecSeckeyVerify blind &&
        decide (PedersenContext.commit crypto.curve nValue blind = commit)

/-- `BulletproofVerifier::RecoverMessage`: the value, the blind and the message. -/
def recoverMessage (commit : Commitment) (proof : Bytes) (nonce : H) :
    Option (Int64 × BlindingFactor × Bytes) :=
  if proof.isEmpty || proof.length < 230 then none
  else
    (parseProof proof).bind fun parsed =>
    (scalarToValue parsed.1.pA_scalar).bind fun uValue =>
    (searchBlind crypto commit uValue.toInt64 nonce).map fun blind =>
      (uValue.toInt64, blind, extractExtraData proof)

theorem reads_round :
    Reads (fun round : Vector UInt8 33 × Vector UInt8 33 => round.1.toList ++ round.2.toList) getRound
      (fun _ => True) := by
  intro round rest _
  simp only [getRound, append_assoc, reads_vector 33 _ _ trivial, bind_some, map_some]

theorem reads_proof : Reads serializeProof parseProof (fun parts => parts.rounds.length ≤ 10) := by
  intro parts rest hrounds
  have hcount : (UInt8.ofNat parts.rounds.length).toNat = parts.rounds.length := by
    rw [UInt8.toNat_ofNat', Nat.mod_eq_of_lt]
    omega
  have hsmall : ¬ UInt8.ofNat parts.rounds.length > 10 := by
    rw [gt_iff_lt, UInt8.lt_iff_toNat_lt, hcount]
    exact Nat.not_lt.mpr hrounds
  have hmany := fun rest => reads_many reads_round parts.rounds rest fun _ _ => trivial
  simp only [serializeProof, parseProof, append_assoc, reads_byte _ _ trivial,
    reads_vector 33 _ _ trivial, reads_vector 32 _ _ trivial, bind_some, if_neg hsmall, hcount,
    hmany, map_some]

theorem length_serializeProof (parts : ProofParts) : 230 ≤ (serializeProof parts).length := by
  simp only [serializeProof, putByte, length_append, Vector.length_toList, length_singleton]
  omega

theorem scalarToValue_valueToScalar (nValue : UInt64) :
    scalarToValue (valueToScalar nValue) = some nValue := by
  have hlt : nValue.toNat < 256 ^ 8 := nValue.toNat_lt
  have hlist : (valueToScalar nValue).toList = List.replicate 24 0 ++ putBE 8 nValue.toNat := putBE_add 24 hlt
  rw [scalarToValue, hlist, take_left' length_replicate, if_pos (by decide),
    drop_left' length_replicate, ofBE_putBE hlt, UInt64.ofNat_toNat]

variable {crypto} {nValue : Int64} {blind : BlindingFactor} {nonce : H} {vExtraData proof : Bytes}

/-- `Prove` gives a proof that is not null: the commitment is not null, and the
secrets derived from the seed make points. -/
structure Provable (crypto : CurveCrypto H P) (nValue : Int64) (blind : BlindingFactor)
    (nonce : H) : Prop where
  commit : allZero (PedersenContext.commit crypto.curve nValue blind) = false
  points : ∀ label ∈ ["alpha", "rho", "tau1", "tau2"], crypto.curve.ecSeckeyVerify
    (crypto.digestBytes (deriveFromSeed crypto
      (computeProofSeed crypto nonce blind nValue.toUInt64) label))

omit [DecidableEq P] in
theorem hashedPoint_isSome {secret : H} : (hashedPoint crypto secret).isSome ↔
      crypto.curve.ecSeckeyVerify (crypto.digestBytes secret) := by
  rw [hashedPoint, isSome_map, Secp256k1.ecPubkeyCreate]
  split
  · rename_i hverify
    exact ⟨fun _ => hverify, fun _ => rfl⟩
  · rename_i hverify
    exact ⟨fun h => (Bool.false_ne_true h).elim, fun h => absurd h hverify⟩

/-- **What `Prove` writes**: a proof that carries the value, or the null proof. -/
theorem prove_spec (hvalue : 0 ≤ nValue) (h : prove crypto nValue blind nonce vExtraData = some proof) :
    (Provable crypto nValue blind nonce ∧ ∃ parts extra, proof = serializeProof parts ++ extra ∧
        parts.rounds.length ≤ 10 ∧ parts.pA_scalar = valueToScalar nValue.toUInt64) ∨
      (¬ Provable crypto nValue blind nonce ∧ proof = []) := by
  rw [prove, if_neg (Int64.not_lt.mpr hvalue)] at h
  simp only at h
  split at h
  · rename_i hnull
    refine Or.inr ⟨?_, (Option.some.inj h).symm⟩
    intro hprovable
    rw [hprovable.commit] at hnull
    cases hnull
  · rename_i hcommit
    split at h
    · rename_i pA pS pT1 pT2 halpha hrho htau1 htau2
      have hpoints : Provable crypto nValue blind nonce := by
        refine ⟨Bool.eq_false_iff.mpr hcommit, ?_⟩
        intro label hlabel
        rw [← hashedPoint_isSome]
        simp only [List.mem_cons, not_mem_nil, or_false] at hlabel
        rcases hlabel with rfl | rfl | rfl | rfl
        · rw [halpha]; rfl
        · rw [hrho]; rfl
        · rw [htau1]; rfl
        · rw [htau2]; rfl
      obtain ⟨rounds, hrounds, hproof⟩ := map_eq_some_iff.mp h
      refine Or.inl ⟨hpoints, _, _, hproof.symm, ?_, rfl⟩
      rw [pairRounds] at hrounds
      split at hrounds
      · cases hrounds
        have hlength := length_filterMap_le Prod.fst ((List.range 6).map
          (roundPoints crypto (computeProofSeed crypto nonce blind nValue.toUInt64)))
        rw [length_map, length_range] at hlength
        rw [length_zip]
        omega
      · cases hrounds
    · rename_i hnone
      refine Or.inr ⟨?_, (Option.some.inj h).symm⟩
      intro hprovable
      have hsome := fun label hlabel => isSome_iff_exists.mp
        (hashedPoint_isSome.mpr (hprovable.points label hlabel))
      obtain ⟨pA, hA⟩ := hsome "alpha" (by simp)
      obtain ⟨pS, hS⟩ := hsome "rho" (by simp)
      obtain ⟨pT1, hT1⟩ := hsome "tau1" (by simp)
      obtain ⟨pT2, hT2⟩ := hsome "tau2" (by simp)
      exact hnone pA pS pT1 pT2 hA hS hT1 hT2

/-- **Recovery from a proof that was written**: the value is found, the blind is
searched for. -/
theorem recoverMessage_prove (hvalue : 0 ≤ nValue)
    (h : prove crypto nValue blind nonce vExtraData = some proof) (commit : Commitment) (nonce' : H)
    (result : Int64 × BlindingFactor × Bytes) : recoverMessage crypto commit proof nonce' = some result ↔
      Provable crypto nValue blind nonce ∧ ∃ found, searchBlind crypto commit nValue nonce' =
          some found ∧ (nValue, found, extractExtraData proof) = result := by
  rw [recoverMessage]
  rcases prove_spec hvalue h with ⟨hprovable, parts, extra, hproof, hrounds, hscalar⟩ | ⟨hnot, hproof⟩
  · have hlength := length_serializeProof parts
    have hread := reads_proof parts extra hrounds
    have hlong : ¬ (proof.isEmpty || decide (proof.length < 230)) = true := by
      rw [Bool.or_eq_true, List.isEmpty_iff, decide_eq_true_iff, hproof, length_append,
        ← length_eq_zero_iff, length_append]
      omega
    rw [← hproof] at hread
    rw [if_neg hlong, hread, bind_some, hscalar, scalarToValue_valueToScalar,
      bind_some, Int64.toInt64_toUInt64, map_eq_some_iff]
    exact (and_iff_right hprovable).symm
  · rw [hproof]
    constructor
    · intro hnull
      cases hnull
    · intro hrecovered
      exact absurd hrecovered.1 hnot

/-- The blinds that `RecoverMessage` tries. -/
def derivedBlinds (crypto : CurveCrypto H P) (nonce : H) : List BlindingFactor :=
  recoverBlind crypto nonce :: (List.range 256).map (indexedBlind crypto nonce)

/-- **The search** finds the blind of a commitment that is not null exactly if
it is one of those derived from the nonce. -/
theorem searchBlind_eq_some {found : BlindingFactor}
    (hcommit : allZero (PedersenContext.commit crypto.curve nValue blind) = false) :
    searchBlind crypto (PedersenContext.commit crypto.curve nValue blind) nValue nonce =
      some found ↔ found = blind ∧ blind ∈ derivedBlinds crypto nonce := by
  have hopens : ∀ other, PedersenContext.commit crypto.curve nValue other =
      PedersenContext.commit crypto.curve nValue blind → other = blind :=
    fun other => PedersenContext.commit_inj hcommit
  rw [searchBlind]
  split
  · rename_i hrecover
    have hblind := hopens _ hrecover
    rw [Option.some.injEq, hblind]
    refine ⟨fun h => ⟨h.symm, ?_⟩, fun h => h.1.symm⟩
    exact List.mem_cons.mpr (Or.inl hblind.symm)
  · rename_i hrecover
    constructor
    · intro h
      have hfound := find?_some h
      rw [Bool.and_eq_true, decide_eq_true_iff] at hfound
      have hblind := hopens found hfound.2
      refine ⟨hblind, mem_cons_of_mem _ ?_⟩
      rw [← hblind]
      exact mem_of_find?_eq_some h
    · rintro ⟨rfl, hderived⟩
      rcases List.mem_cons.mp hderived with rfl | hindexed
      · exact absurd rfl hrecover
      · cases hfind : List.find? (fun other => crypto.curve.ecSeckeyVerify other &&
            decide (PedersenContext.commit crypto.curve nValue other =
              PedersenContext.commit crypto.curve nValue found))
            ((List.range 256).map (indexedBlind crypto nonce)) with
        | none =>
          have hnot := find?_eq_none.mp hfind found hindexed
          exact absurd (by simpa using (PedersenContext.commit_eq_of_ne_null hcommit).1) hnot
        | some other =>
          have hother := find?_some hfind
          rw [Bool.and_eq_true, decide_eq_true_iff] at hother
          rw [hopens other hother.2]

end MaryJaneCoin
