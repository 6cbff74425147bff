import MaryJaneCoin.Mw.WalletScan
import MaryJaneCoin.Mw.WalletSpend

/-!
# What the receiver finds of what was sent

`ScanForOutputs` recomputes the shared secret and the one-time key of an output
and then looks for the blind among scalars derived from the shared secret.  The
sender draws the blind at random.  So the receiver finds an output if and only
if the draw happened to hit one of the derived scalars.
-/

namespace MaryJaneCoin

open Codec Std Option PedersenContext Secp256k1

variable {H P : Type} [AddCommGroup P] [DecidableEq P] {crypto : CurveCrypto H P}

/-- What an owner knows about an output of this value: the value, a blind that
opens the commitment and the secret key of the receiver's key. -/
structure OwnedFor (crypto : CurveCrypto H P) (output : CMWOutput) (nAmount : Int64)
    (owned : CMWOwnedOutput) : Prop where
  same : owned.output = output
  value : owned.nValue = nAmount
  blind : PedersenContext.commit crypto.curve nAmount owned.blindingFactor = output.commitment
  key : ∀ buffer, derivePublicKey crypto owned.spendKey buffer = (true, output.receiverPubKey)

/-- The output is recorded in the wallet, with what its owner knows. -/
def CMWWallet.Records (crypto : CurveCrypto H P) (wallet : CMWWallet) (output : CMWOutput)
    (nAmount : Int64) : Prop :=
  ∃ owned, wallet.mapOwnedOutputs[output.commitment]? = some owned ∧
    OwnedFor crypto output nAmount owned

/-- The wallet has the keys that `GenerateKeys` makes. -/
structure CMWWallet.Keyed (crypto : CurveCrypto H P) (wallet : CMWWallet) : Prop where
  hasKeys : wallet.hasKeys = true
  scan : ∃ buffer, derivePublicKey crypto wallet.scanPrivKey buffer = (true, wallet.scanPubKey)
  spend : ∃ buffer, derivePublicKey crypto wallet.spendPrivKey buffer = (true, wallet.spendPubKey)

/-- The secret that sender and receiver share. -/
def sharedSecret (crypto : CurveCrypto H P) (ephemeralSecret scanPrivKey : SecretKey) : H :=
  crypto.sha256 (feed (crypto.curve.serialize
    ((scalar ephemeralSecret * scalar scanPrivKey) • crypto.curve.G)).toList)

/-- The receiver can recover an output with these draws: the ephemeral key and
the one-time key exist, the range proof is not null, and the blind is one of
those derived from the shared secret. -/
structure Recoverable (crypto : CurveCrypto H P) (wallet : CMWWallet) (nAmount : Int64)
    (draws : OutputDraws H) : Prop where
  ephemeral : ¬ crypto.curve.order ∣ scalar draws.ephemeralSecret
  oneTime : ¬ crypto.curve.order ∣ scalar wallet.spendPrivKey +
    scalar (crypto.digestBytes (sharedSecret crypto draws.ephemeralSecret wallet.scanPrivKey))
  provable : Provable crypto nAmount
    (PedersenContext.generateBlindingFactor crypto.curve draws.blind) draws.proofNonce
  derived : ∃ nonce ∈ [CMWWallet.scanNonce crypto
      (sharedSecret crypto draws.ephemeralSecret wallet.scanPrivKey),
    sharedSecret crypto draws.ephemeralSecret wallet.scanPrivKey],
    PedersenContext.generateBlindingFactor crypto.curve draws.blind ∈ derivedBlinds crypto nonce

theorem derivePublicKey_true {privKey : SecretKey} {buffer pubKey : PubKey}
    (h : derivePublicKey crypto privKey buffer = (true, pubKey)) : ¬ crypto.curve.order ∣
      scalar privKey ∧ crypto.curve.parse pubKey = some (scalar privKey • crypto.curve.G) := by
  rw [derivePublicKey, writePoint, crypto.curve.mul_eq] at h
  split at h
  · cases h
  · rename_i hne
    cases h
    exact ⟨fun hdvd => hne (nsmul_G_eq_zero_iff.mpr hdvd), crypto.curve.parse_serialize _ hne⟩

omit [DecidableEq P] in
theorem parse_infinity (buffer : PubKey) : crypto.curve.parse (buffer.set 0 0 (Nat.succ_pos 32)) = none := by
  cases hparse : crypto.curve.parse (buffer.set 0 0 (Nat.succ_pos 32)) with
  | none => rfl
  | some Q =>
    have hhead := crypto.curve.parse_head _ _ hparse
    rw [Vector.getElem_set_self] at hhead
    exact absurd hhead (by decide)

variable {wallet : CMWWallet} {draws : OutputDraws H}

/-- **ECDH agrees.**  What the receiver computes from the ephemeral key. -/
theorem ecdh_receiver (hkeys : wallet.Keyed crypto) : computeECDHSharedSecret crypto wallet.scanPrivKey
        (derivePublicKey crypto draws.ephemeralSecret draws.ephemeralPubKey).2 =
      if crypto.curve.order ∣ scalar draws.ephemeralSecret then none
      else some (sharedSecret crypto draws.ephemeralSecret wallet.scanPrivKey) := by
  obtain ⟨buffer, hscan⟩ := hkeys.scan
  obtain ⟨hscan, _⟩ := derivePublicKey_true hscan
  rw [derivePublicKey, writePoint, crypto.curve.mul_eq]
  by_cases hdvd : crypto.curve.order ∣ scalar draws.ephemeralSecret
  · rw [if_pos (nsmul_G_eq_zero_iff.mpr hdvd), if_pos hdvd, computeECDHSharedSecret,
      parse_infinity, bind_none]
  · have hne : scalar draws.ephemeralSecret • crypto.curve.G ≠ 0 := fun h =>
      hdvd (nsmul_G_eq_zero_iff.mp h)
    have hproduct : ¬ crypto.curve.order ∣ scalar draws.ephemeralSecret * scalar wallet.scanPrivKey := by
      rw [crypto.curve.order_prime.dvd_mul]
      exact fun h => h.elim hdvd hscan
    rw [if_neg hne, if_neg hdvd, computeECDHSharedSecret, crypto.curve.parse_serialize _ hne,
      bind_some, crypto.curve.mul_eq, ← mul_nsmul,
      if_neg fun h => hproduct (nsmul_G_eq_zero_iff.mp h)]
    rfl

theorem ecdh_sender (hkeys : wallet.Keyed crypto)
    (hdvd : ¬ crypto.curve.order ∣ scalar draws.ephemeralSecret) :
    computeECDHSharedSecret crypto draws.ephemeralSecret wallet.scanPubKey =
      some (sharedSecret crypto draws.ephemeralSecret wallet.scanPrivKey) := by
  obtain ⟨buffer, hscan⟩ := hkeys.scan
  obtain ⟨hscan, hparse⟩ := derivePublicKey_true hscan
  have hproduct : ¬ crypto.curve.order ∣ scalar wallet.scanPrivKey * scalar draws.ephemeralSecret := by
    rw [crypto.curve.order_prime.dvd_mul]
    exact fun h => h.elim hscan hdvd
  rw [computeECDHSharedSecret, hparse, bind_some, crypto.curve.mul_eq, ← mul_nsmul,
    if_neg fun h => hproduct (nsmul_G_eq_zero_iff.mp h), sharedSecret, Nat.mul_comm]

/-- The one-time key, which sender and receiver compute alike. -/
theorem addScalar_spendPubKey (hkeys : wallet.Keyed crypto) (secret : H) (buffer : PubKey) :
    addScalarToPublicKey crypto wallet.spendPubKey secret buffer =
      writePoint crypto ((scalar wallet.spendPrivKey + scalar (crypto.digestBytes secret)) •
        crypto.curve.G) buffer := by
  obtain ⟨_, hspend⟩ := hkeys.spend
  obtain ⟨_, hparse⟩ := derivePublicKey_true hspend
  rw [addScalarToPublicKey, hparse]
  simp only [crypto.curve.mul_eq, add_nsmul]

theorem derivePublicKey_addScalars (spendPrivKey : SecretKey) (secret : H) (buffer : PubKey) :
    derivePublicKey crypto (addScalars crypto spendPrivKey secret) buffer =
      writePoint crypto ((scalar spendPrivKey + scalar (crypto.digestBytes secret)) •
        crypto.curve.G) buffer := by
  have hlt := Nat.mod_lt (scalar spendPrivKey + scalar (crypto.digestBytes secret))
    crypto.curve.order_prime.pos
  rw [derivePublicKey, addScalars, scalar_scalarBytes (Nat.lt_trans hlt crypto.curve.order_lt),
    crypto.curve.mul_eq]
  conv_rhs => rw [← Nat.div_add_mod (scalar spendPrivKey + scalar (crypto.digestBytes secret))
    crypto.curve.order]
  rw [add_nsmul, mul_nsmul, crypto.curve.order_nsmul, smul_zero, zero_add]

/-- **The rewinding of `ScanForOutputs`**: one of the two nonces derives the
blind, and then the value and the blind are those of the sender. -/
theorem rewind_eq_some {nAmount : Int64} {blind : BlindingFactor} {nonce nonce₁ nonce₂ : H}
    {proof : Bytes} {recovered : Int64 × BlindingFactor × Bytes} (hvalue : 0 ≤ nAmount)
    (hproof : prove crypto nAmount blind nonce [] = some proof) :
    (recoverMessage crypto (commit crypto.curve nAmount blind) proof nonce₁).or
        (recoverMessage crypto (commit crypto.curve nAmount blind) proof nonce₂) =
      some recovered ↔ Provable crypto nAmount blind nonce ∧
        (∃ nonce' ∈ [nonce₁, nonce₂], blind ∈ derivedBlinds crypto nonce') ∧
        (nAmount, blind, extractExtraData proof) = recovered := by
  have hrecover : ∀ nonce' result, recoverMessage crypto
      (commit crypto.curve nAmount blind) proof nonce' = some result ↔
      Provable crypto nAmount blind nonce ∧ blind ∈ derivedBlinds crypto nonce' ∧
        (nAmount, blind, extractExtraData proof) = result := by
    intro nonce' result
    rw [recoverMessage_prove hvalue hproof]
    constructor
    · rintro ⟨hprovable, found, hfound, hresult⟩
      obtain ⟨rfl, hderived⟩ := (searchBlind_eq_some hprovable.commit).mp hfound
      exact ⟨hprovable, hderived, hresult⟩
    · rintro ⟨hprovable, hderived, hresult⟩
      exact ⟨hprovable, blind, (searchBlind_eq_some hprovable.commit).mpr ⟨rfl, hderived⟩, hresult⟩
  rw [or_eq_some_iff, hrecover nonce₁ recovered, hrecover nonce₂ recovered, eq_none_iff_forall_ne_some]
  constructor
  · rintro (⟨hprovable, hderived, hresult⟩ | ⟨_, hprovable, hderived, hresult⟩)
    · exact ⟨hprovable, ⟨nonce₁, List.mem_cons_self, hderived⟩, hresult⟩
    · exact ⟨hprovable, ⟨nonce₂, List.mem_cons_of_mem _ List.mem_cons_self, hderived⟩, hresult⟩
  · rintro ⟨hprovable, ⟨nonce', hnonce, hderived⟩, hresult⟩
    by_cases hfirst : blind ∈ derivedBlinds crypto nonce₁
    · exact Or.inl ⟨hprovable, hfirst, hresult⟩
    · refine Or.inr ⟨fun other hother => hfirst ((hrecover nonce₁ other).mp hother).2.1, hprovable,
        ?_, hresult⟩
      rcases List.mem_cons.mp hnonce with rfl | hnonce
      · exact absurd hderived hfirst
      · rwa [← List.mem_singleton.mp hnonce]

variable {nAmount : Int64} {output : CMWOutput}

/-- **What the receiver finds out about the output that was sent.** -/
theorem recoverOutput_makeOutput (hkeys : wallet.Keyed crypto) (hvalue : 0 ≤ nAmount)
    (hdest : makeOutput crypto draws wallet.scanPubKey wallet.spendPubKey nAmount
      (generateBlindingFactor crypto.curve draws.blind) = some output) (nHeight : Int32) :
    ((∃ owned, wallet.recoverOutput crypto nHeight output = some owned) ↔
        Recoverable crypto wallet nAmount draws) ∧
      ∀ owned, wallet.recoverOutput crypto nHeight output = some owned →
        OwnedFor crypto output nAmount owned := by
  obtain ⟨proof, hproof, rfl⟩ := map_eq_some_iff.mp hdest
  unfold CMWWallet.recoverOutput CMWWallet.deriveSpendKey
  simp only [ecdh_receiver hkeys]
  by_cases hephemeral : crypto.curve.order ∣ scalar draws.ephemeralSecret
  · rw [if_pos hephemeral, bind_none]
    refine ⟨⟨?_, fun h => absurd hephemeral h.ephemeral⟩, ?_⟩
    · rintro ⟨owned, hnone⟩
      cases hnone
    · intro owned hnone
      cases hnone
  · simp only [if_neg hephemeral, ecdh_sender hkeys hephemeral, getD_some, bind_some,
      map_some, addScalar_spendPubKey hkeys]
    by_cases honeTime : crypto.curve.order ∣ scalar wallet.spendPrivKey +
        scalar (crypto.digestBytes (sharedSecret crypto draws.ephemeralSecret wallet.scanPrivKey))
    · simp only [writePoint, if_pos (nsmul_G_eq_zero_iff.mpr honeTime), Bool.false_and,
        Bool.false_eq_true, if_false]
      refine ⟨⟨?_, fun h => absurd honeTime h.oneTime⟩, ?_⟩
      · rintro ⟨owned, hnone⟩
        cases hnone
      · intro owned hnone
        cases hnone
    · have hpoint : ∀ buffer, writePoint crypto ((scalar wallet.spendPrivKey + scalar
          (crypto.digestBytes (sharedSecret crypto draws.ephemeralSecret wallet.scanPrivKey))) •
          crypto.curve.G) buffer = (true, crypto.curve.serialize ((scalar wallet.spendPrivKey + scalar
          (crypto.digestBytes (sharedSecret crypto draws.ephemeralSecret wallet.scanPrivKey))) •
          crypto.curve.G)) := fun buffer =>
        if_neg fun h => honeTime (nsmul_G_eq_zero_iff.mp h)
      simp only [hpoint, beq_self_eq_true, Bool.and_self, if_true, map_eq_some_iff,
        rewind_eq_some hvalue hproof]
      constructor
      · constructor
        · rintro ⟨owned, recovered, ⟨hprovable, hderived, _⟩, _⟩
          exact ⟨hephemeral, honeTime, hprovable, hderived⟩
        · intro h
          exact ⟨_, _, ⟨h.provable, h.derived, rfl⟩, rfl⟩
      · rintro owned ⟨recovered, ⟨_, _, rfl⟩, rfl⟩
        refine ⟨rfl, rfl, rfl, ?_⟩
        intro buffer
        rw [derivePublicKey_addScalars]
        exact hpoint buffer

theorem records_markOutputSpent (commitment : Commitment) :
    (wallet.markOutputSpent commitment).Records crypto output nAmount ↔
      wallet.Records crypto output nAmount := by
  have hmarked : ∀ owned, OwnedFor crypto output nAmount { owned with fSpent := true } ↔
      OwnedFor crypto output nAmount owned :=
    fun owned => ⟨fun h => ⟨h.same, h.value, h.blind, h.key⟩, fun h => ⟨h.same, h.value, h.blind, h.key⟩⟩
  unfold CMWWallet.markOutputSpent
  cases hlook : wallet.mapOwnedOutputs[commitment]? with
  | none => exact Iff.rfl
  | some owned =>
    unfold CMWWallet.Records
    simp only
    by_cases hsame : commitment = output.commitment
    · subst hsame
      rw [ExtTreeMap.getElem?_insert_self, hlook]
      simp only [Option.some.injEq, exists_eq_left']
      exact hmarked owned
    · rw [FinMap.getElem?_insert_ne _ _ hsame]

variable [Ord H] {sender sender' receiver : CMWWallet} {rand : MWRandomness H} {tx : CMWTransaction}

/-- **Sending and receiving.**  Whatever was sent to a wallet with keys, scanning
a block with the outputs of the transaction records the destination output, with
the amount, a blind that opens it and the secret of its key, exactly if it was
recorded so before or is new to the wallet and can be recovered: the sender must
have drawn a blind that is derived from the shared secret. -/
theorem send_receive (hkeys : receiver.Keyed crypto)
    (h : sender.createMWTransaction crypto receiver.scanPubKey receiver.spendPubKey nAmount rand =
      some (some (tx, sender'))) : ∃ output ∈ tx.body.vOutputs,
      makeOutput crypto rand.dest receiver.scanPubKey receiver.spendPubKey nAmount
        (PedersenContext.generateBlindingFactor crypto.curve rand.dest.blind) = some output ∧
      ∀ block : CMWBlock H, (∀ other ∈ tx.body.vOutputs, other ∈ block.body.vOutputs) →
        (block.body.vOutputs.map CMWOutput.commitment).Nodup →
        ((receiver.scanForOutputs crypto block).2.Records crypto output nAmount ↔
          receiver.Records crypto output nAmount ∨ (output.commitment ∉ receiver.mapOwnedOutputs ∧
              Recoverable crypto receiver nAmount rand.dest)) := by
  obtain ⟨hpos, vSelected, nValueSelected, output, changeOutputs, adjustedExcess, _, hdest, hbody⟩ :=
    createMWTransaction_some h
  have hmem : output ∈ tx.body.vOutputs := by
    rw [hbody]
    exact (List.mem_insertionSort _).mpr List.mem_cons_self
  refine ⟨output, hmem, hdest, ?_⟩
  intro block hblock hnodup
  obtain ⟨hrecover, howned⟩ := recoverOutput_makeOutput hkeys (Int64.le_of_lt hpos) hdest block.nHeight
  unfold CMWWallet.scanForOutputs
  rw [hkeys.hasKeys]
  simp only [Bool.not_true, Bool.false_eq_true, if_false]
  have hmarks : ∀ (inputs : List CMWInput) (wallet : CMWWallet),
      (inputs.foldl (fun wallet input => wallet.markOutputSpent input.commitment) wallet).Records
        crypto output nAmount ↔ wallet.Records crypto output nAmount := by
    intro inputs
    induction inputs with
    | nil => exact fun wallet => Iff.rfl
    | cons input inputs ih => exact fun wallet => (ih _).trans (records_markOutputSpent _)
  rw [hmarks, CMWWallet.Records, CMWWallet.Records,
    getElem?_scanOutputs hnodup (hblock output hmem), FinMap.mem_iff_exists]
  cases receiver.mapOwnedOutputs[output.commitment]? with
  | some owned => simp
  | none =>
    rw [← hrecover]
    constructor
    · rintro ⟨owned, hfound, _⟩
      exact Or.inr ⟨by simp, owned, hfound⟩
    · rintro (⟨owned, hnone, _⟩ | ⟨_, owned, hfound⟩)
      · cases hnone
      · exact ⟨owned, hfound, howned owned hfound⟩

def sampleReceiver : CMWWallet := sampleWallet 41 43 []

theorem sampleReceiver_keyed : sampleReceiver.Keyed sampleCrypto where
  hasKeys := rfl
  scan := ⟨Vector.replicate 33 0, by decide +kernel⟩
  spend := ⟨Vector.replicate 33 0, by decide +kernel⟩

/-- The blind that the receiver tries first. -/
def luckyBlind : Nat :=
  scalar (recoverBlind sampleCrypto (CMWWallet.scanNonce sampleCrypto
    (sharedSecret sampleCrypto (scalarBytes 19) (scalarBytes 41))))

/-- One coin is sent to the receiver, under this blind. -/
def sendRun (destBlind : Nat) : Option (Option (CMWTransaction × CMWWallet)) :=
  (sampleWallet 5 7 [ownedOutput (10 * COIN)]).createMWTransaction sampleCrypto
    sampleReceiver.scanPubKey sampleReceiver.spendPubKey COIN (sampleRandomness destBlind)

/-- The block with just the body of a transaction. -/
def soleBlock (tx : CMWTransaction) : CMWBlock SampleDigest where
  hashPrevMWBlock := sampleCrypto.zero
  body := tx.body
  vCutThrough := []
  nHeight := 2
  offset := tx.offset

theorem luckyBlind_recoverable :
    Recoverable sampleCrypto sampleReceiver COIN (sampleRandomness luckyBlind).dest where
  ephemeral := by decide +kernel
  oneTime := by decide +kernel
  provable := ⟨by decide +kernel, by decide +kernel⟩
  derived := ⟨_, List.mem_cons_self, List.mem_cons.mpr (Or.inl (by decide +kernel))⟩

theorem send_receive_lucky :
    ∃ tx sender' output, sendRun luckyBlind = some (some (tx, sender')) ∧ output ∈ tx.body.vOutputs ∧
      (sampleReceiver.scanForOutputs sampleCrypto (soleBlock tx)).2.Records sampleCrypto output COIN := by
  have hrun : ((sendRun luckyBlind).any fun result => result.any fun made =>
      decide ((made.1.body.vOutputs.map CMWOutput.commitment).Nodup)) = true := by decide +kernel
  rw [any_eq_true] at hrun
  obtain ⟨result, hresult, hrun⟩ := hrun
  rw [any_eq_true] at hrun
  obtain ⟨⟨tx, sender'⟩, rfl, hrun⟩ := hrun
  obtain ⟨output, hmem, _, hscan⟩ := send_receive sampleReceiver_keyed hresult
  have hrecords := (hscan (soleBlock tx) (fun _ h => h) (of_decide_eq_true hrun)).mpr
    (Or.inr ⟨ExtTreeMap.not_mem_empty, luckyBlind_recoverable⟩)
  exact ⟨tx, sender', output, hresult, hmem, hrecords⟩

/-- **An output that its receiver does not find**: the block has nothing but the
transaction, and the wallet of the receiver stays empty. -/
theorem sent_output_not_found : sampleReceiver.Keyed sampleCrypto ∧ ∃ tx sender' output,
      sendRun 17 = some (some (tx, sender')) ∧ output ∈ tx.body.vOutputs ∧
      makeOutput sampleCrypto (sampleRandomness 17).dest sampleReceiver.scanPubKey
        sampleReceiver.spendPubKey COIN (scalarBytes 17) = some output ∧
      ¬ (sampleReceiver.scanForOutputs sampleCrypto (soleBlock tx)).2.Records sampleCrypto output COIN := by
  have hrun : ((sendRun 17).any fun result => result.any fun made =>
      made.1.body.vOutputs.any fun output =>
        decide (makeOutput sampleCrypto (sampleRandomness 17).dest sampleReceiver.scanPubKey
          sampleReceiver.spendPubKey COIN (scalarBytes 17) = some output) &&
        (sampleReceiver.scanForOutputs sampleCrypto
          (soleBlock made.1)).2.mapOwnedOutputs[output.commitment]?.isNone) = true := by
    decide +kernel
  rw [any_eq_true] at hrun
  obtain ⟨result, hresult, hrun⟩ := hrun
  rw [any_eq_true] at hrun
  obtain ⟨⟨tx, sender'⟩, rfl, hrun⟩ := hrun
  rw [List.any_eq_true] at hrun
  obtain ⟨output, hmem, hrun⟩ := hrun
  rw [Bool.and_eq_true, isNone_iff_eq_none] at hrun
  refine ⟨sampleReceiver_keyed, tx, sender', output, hresult, hmem, of_decide_eq_true hrun.1, ?_⟩
  rintro ⟨owned, hfound, _⟩
  rw [hrun.2] at hfound
  cases hfound

end MaryJaneCoin
