import MaryJaneCoin.Wallet.CurveKey

/-!
# Key objects

The calls on `CKey` objects, one after the other.  Whether a public key is compressed stands twice:
in `fCompressedPubKey`, which `IsCompressed` and `GetSecret` report, and in the `EC_KEY`, by which
`GetPubKey` writes the key.
-/

namespace MaryJaneCoin

open Codec List Function

namespace Key

/-- `EC_KEY_copy`: what the source lacks stays in the target. -/
def EcKey.copy {P : Type} (dest src : EcKey P) : EcKey P where
  privKey := src.privKey.or dest.privKey
  pubKey := src.pubKey.or dest.pubKey
  convForm := src.convForm

variable {P : Type} [AddCommGroup P]

/-- The calls of OpenSSL behind `SetPrivKey` and `SetCompactSignature`, and what it does with the
forms of a point: 6 is the hybrid one. -/
structure OpenSsl (curve : Secp256k1Octets P) where
  /-- `d2i_ECPrivateKey` on a key, where `EC_KEY_check_key` accepts the result. -/
  d2i : EcKey P → Bytes → Option (EcKey P)
  /-- `ECDSA_SIG_recover_key_GFp` of a hash, the two numbers of the signature and `recid`. -/
  recover : Bytes → Bytes → Bytes → Nat → Option P
  point2oct_hybrid : ∀ Q ≠ 0, (curve.point2oct 6 Q).length = 65
  oct2point_full : ∀ data Q, data.length = 65 → curve.oct2point data = some Q →
    Q ≠ 0 ∧ (data.headD 0 &&& 0xfe = 4 ∨ data.headD 0 &&& 0xfe = 6)
  d2i_checked : ∀ key data key', d2i key data = some key' →
    ∃ bn < 256 ^ 32, key'.privKey = some bn ∧ key'.pubKey = some (bn • curve.G) ∧ bn • curve.G ≠ 0

namespace CKey

/-- The copy constructor, which leaves the flag as the memory has it. -/
def copied (b : CKey P) (memory : Bool) : CKey P := ⟨b.pkey, b.fSet, memory⟩

/-- `operator=`. -/
def assign (key b : CKey P) : CKey P := { key with pkey := key.pkey.copy b.pkey, fSet := b.fSet }

variable {curve : Secp256k1Octets P} (ssl : OpenSsl curve)

/-- `MakeNewKey`, which draws a secret. -/
def makeNewKey (key : CKey P) (drawn : SecretKey curve) : CKey P :=
  let made : CKey P :=
    { key with
      pkey := { key.pkey with privKey := some drawn.bn, pubKey := some (drawn.bn • curve.G) }
      fSet := true }
  if drawn.fCompressed then made.setCompressedPubKey else made

def setPrivKey (key : CKey P) (vchPrivKey : Bytes) : Bool × CKey P :=
  match ssl.d2i key.pkey vchPrivKey with
  | some pkey => (true, { key with pkey := pkey, fSet := true })
  | none => (false, new)

/-- What `SetSecret` leaves of an object, also where it throws. -/
def secretSet (curve : Secp256k1Octets P) (key : CKey P) (vchSecret : Bytes) (fCompressed : Bool) : CKey P :=
  (key.setSecret curve vchSecret fCompressed).getD { key with pkey := ⟨none, none, 4⟩ }

def setCompactSignature (key : CKey P) (hash vchSig : Bytes) : Bool × CKey P :=
  let nV := (vchSig.headD 0).toNat
  if vchSig.length ≠ 65 then (false, key)
  else if nV < 27 ∨ 35 ≤ nV then (false, key)
  else
    let key : CKey P := { key with pkey := ⟨none, none, 4⟩ }
    let key := if 31 ≤ nV then key.setCompressedPubKey else key
    let nV := if 31 ≤ nV then nV - 4 else nV
    match ssl.recover hash ((vchSig.drop 1).take 32) ((vchSig.drop 33).take 32) (nV - 27) with
    | some Q => (true, { key with pkey := { key.pkey with pubKey := some Q }, fSet := true })
    | none => (false, key)

end CKey

/-- A call on the objects of these names. -/
inductive KeyCall (curve : Secp256k1Octets P)
  | construct (k : Nat)
  | copy (k b : Nat) (memory : Bool)
  | assign (k b : Nat)
  | makeNewKey (k : Nat) (drawn : SecretKey curve)
  | setPrivKey (k : Nat) (vchPrivKey : Bytes)
  | setSecret (k : Nat) (vchSecret : Bytes) (fCompressed : Bool)
  | setPubKey (k : Nat) (vchPubKey : CPubKey) (hlength : vchPubKey.length = 33 ∨ vchPubKey.length = 65)
  | setCompactSignature (k : Nat) (hash vchSig : Bytes)
  | reset (k : Nat)

/-- The flag says whether the public key has 33 bytes, and the secret gives the public key again. -/
def CKey.Consistent (curve : Secp256k1Octets P) (key : CKey P) : Prop :=
  (∀ vchPubKey, key.getPubKey curve = some vchPubKey →
    (key.fCompressedPubKey = true ↔ vchPubKey.length = 33)) ∧
    ∀ vchSecret fCompressed, key.getSecret = some (vchSecret, fCompressed) →
      ∃ fresh, CKey.new.setSecret curve vchSecret fCompressed = some fresh ∧
        fresh.getPubKey curve = key.getPubKey curve

/-- A public key that joins the secret of an object is that of the secret. -/
def CKey.Joins (curve : Secp256k1Octets P) (key : CKey P) (Q : P) (convForm : UInt8) : Prop :=
  ∀ bn, key.pkey.privKey = some bn → Q = bn • curve.G ∧ convForm ≠ 6

namespace KeyCall

variable {curve : Secp256k1Octets P} (ssl : OpenSsl curve) (keys : Nat → CKey P)

/-- The objects after a call. -/
def step : KeyCall curve → Nat → CKey P
  | construct k | reset k => Function.update keys k CKey.new
  | copy k b memory => Function.update keys k ((keys b).copied memory)
  | assign k b => Function.update keys k ((keys k).assign (keys b))
  | makeNewKey k drawn => Function.update keys k ((keys k).makeNewKey drawn)
  | setPrivKey k vchPrivKey => Function.update keys k ((keys k).setPrivKey ssl vchPrivKey).2
  | setSecret k vchSecret fCompressed =>
    Function.update keys k ((keys k).secretSet curve vchSecret fCompressed)
  | setPubKey k vchPubKey _ => Function.update keys k ((keys k).setPubKey curve vchPubKey).2
  | setCompactSignature k hash vchSig =>
    Function.update keys k ((keys k).setCompactSignature ssl hash vchSig).2

/-- The objects after the calls; before them every object is as its constructor leaves it. -/
def after (calls : List (KeyCall curve)) : Nat → CKey P := calls.foldl (step ssl) fun _ => CKey.new

/-- The calls that do not part the flag from the form, nor the public key from the secret. -/
def Fits : KeyCall curve → Prop
  | construct _ | reset _ => True
  | copy _ b memory => memory = (keys b).fCompressedPubKey
  | assign k b => (keys k).fCompressedPubKey = (keys b).fCompressedPubKey ∧
      ((keys b).pkey.privKey = none → ∀ Q, (keys b).pkey.pubKey = some Q →
        (keys k).Joins curve Q (keys b).pkey.convForm)
  | makeNewKey k drawn => drawn.fCompressed = true ∨ (keys k).pkey.convForm ≠ 6
  | setPrivKey k vchPrivKey => ∀ pkey, ssl.d2i (keys k).pkey vchPrivKey = some pkey →
      pkey.convForm = if (keys k).fCompressedPubKey then 2 else 4
  | setSecret k vchSecret fCompressed =>
    if vchSecret.length ≠ 32 then (keys k).fCompressedPubKey = false
    else (fCompressed || (keys k).fCompressedPubKey) = true → ofBE vchSecret • curve.G ≠ 0
  | setPubKey k vchPubKey _ => ∀ Q, curve.oct2point vchPubKey = some Q →
      (vchPubKey.length = 65 → (keys k).fCompressedPubKey = false) ∧
        (keys k).Joins curve Q (vchPubKey.headD 0 &&& 0xfe)
  | setCompactSignature k hash vchSig => vchSig.length = 65 → 27 ≤ (vchSig.headD 0).toNat →
      if (vchSig.headD 0).toNat < 31 then (keys k).fCompressedPubKey = false
      else ssl.recover hash ((vchSig.drop 1).take 32) ((vchSig.drop 33).take 32)
        ((vchSig.headD 0).toNat - 31) ≠ some 0

end KeyCall

/-- The flag goes with the form, and the secret with the public key. -/
structure CKey.Whole (curve : Secp256k1Octets P) (key : CKey P) : Prop where
  form : key.pkey.convForm = 2 ∨ key.pkey.convForm = 4 ∨ key.pkey.convForm = 6 ∧ key.pkey.pubKey ≠ none
  flag : key.fCompressedPubKey = true ↔ key.pkey.convForm = 2
  point : key.fCompressedPubKey = true → key.pkey.pubKey ≠ some 0
  secret : ∀ bn, key.pkey.privKey = some bn →
    bn < 256 ^ 32 ∧ key.pkey.pubKey = some (bn • curve.G) ∧ key.pkey.convForm ≠ 6

variable {curve : Secp256k1Octets P} {ssl : OpenSsl curve} {key b : CKey P}

/-- An object whose public key is written as the flag says. -/
theorem whole_written (hform : key.pkey.convForm = if key.fCompressedPubKey then 2 else 4)
    (hpoint : key.fCompressedPubKey = true → key.pkey.pubKey ≠ some 0)
    (hsecret : ∀ bn, key.pkey.privKey = some bn → bn < 256 ^ 32 ∧
    key.pkey.pubKey = some (bn • curve.G)) : key.Whole curve := by
  cases hflag : key.fCompressedPubKey with
  | false =>
    have h4 : key.pkey.convForm = 4 := by rw [hform, hflag]; rfl
    exact ⟨.inr (.inl h4), by rw [hflag, h4]; decide, hpoint,
      fun bn hbn => ⟨(hsecret bn hbn).1, (hsecret bn hbn).2, by rw [h4]; decide⟩⟩
  | true =>
    have h2 : key.pkey.convForm = 2 := by rw [hform, hflag]; rfl
    exact ⟨.inl h2, by rw [hflag, h2]; decide, hpoint,
      fun bn hbn => ⟨(hsecret bn hbn).1, (hsecret bn hbn).2, by rw [h2]; decide⟩⟩

theorem CKey.Whole.written (h : key.Whole curve) (hnot : key.pkey.convForm ≠ 6) :
    key.pkey.convForm = if key.fCompressedPubKey then 2 else 4 := by
  split
  · rename_i hflag
    exact h.flag.mp hflag
  · rename_i hflag
    rcases h.form with hform | hform | hform
    · exact absurd (h.flag.mpr hform) hflag
    · exact hform
    · exact absurd hform.1 hnot

/-- An object without keys. -/
theorem whole_blank (hform : key.pkey.convForm = if key.fCompressedPubKey then 2 else 4)
    (hpriv : key.pkey.privKey = none) (hpub : key.pkey.pubKey = none) : key.Whole curve := by
  refine whole_written hform (fun _ hzero => ?_) fun bn hbn => ?_
  · cases hpub.symm.trans hzero
  · cases hpriv.symm.trans hbn

theorem whole_new : (CKey.new : CKey P).Whole curve := whole_blank rfl rfl rfl

/-- **What the objects report** is consistent while they are whole. -/
theorem CKey.Whole.consistent (h : key.Whole curve)
    (hhybrid : ∀ Q ≠ 0, (curve.point2oct 6 Q).length = 65) : key.Consistent curve := by
  constructor
  · intro vchPubKey hpub
    obtain ⟨Q, hQ, rfl⟩ := Option.map_eq_some_iff.mp hpub
    by_cases hzero : Q = 0
    · rw [hzero, curve.point2oct_zero]
      exact iff_of_false (fun hflag => h.point hflag (hzero ▸ hQ)) (by decide)
    · rw [h.flag]
      rcases h.form with hform | hform | hform
      · rw [hform, length_point2oct curve hzero]
        decide
      · rw [hform, (curve.point2oct_uncompressed Q hzero).1]
        decide
      · rw [hform.1, hhybrid Q hzero]
        decide
  · intro vchSecret fCompressed hsecret
    obtain ⟨bn, hbn, heq⟩ := Option.map_eq_some_iff.mp hsecret
    obtain ⟨rfl, rfl⟩ := Prod.mk.inj heq
    obtain ⟨hlt, hpub, hform⟩ := h.secret bn hbn
    refine ⟨_, setSecret_eq (by simp [putBE, length_putLE]) _ _, ?_⟩
    rw [CKey.getPubKey, CKey.getPubKey, hpub, h.written hform, ofBE_putBE hlt]
    simp [CKey.ofSecret, CKey.new]

theorem whole_assign (h : key.Whole curve) (hb : b.Whole curve)
    (hflag : key.fCompressedPubKey = b.fCompressedPubKey)
    (hjoins : b.pkey.privKey = none → ∀ Q, b.pkey.pubKey = some Q →
    key.Joins curve Q b.pkey.convForm) : (key.assign b).Whole curve := by
  have hpub : (key.assign b).pkey.pubKey = b.pkey.pubKey.or key.pkey.pubKey := rfl
  refine ⟨?_, hflag ▸ hb.flag, ?_, ?_⟩
  · refine hb.form.imp_right fun hform => hform.imp_right fun hhybrid => ⟨hhybrid.1, ?_⟩
    rw [hpub]
    simp [hhybrid.2]
  · intro hset
    rw [hpub]
    cases hpubB : b.pkey.pubKey with
    | none => exact h.point hset
    | some Q =>
      have hpoint := hb.point (hflag ▸ hset)
      rwa [hpubB] at hpoint
  · intro bn hbn
    have hpriv : b.pkey.privKey.or key.pkey.privKey = some bn := hbn
    rw [hpub]
    cases hprivB : b.pkey.privKey with
    | some bnB =>
      rw [hprivB] at hpriv
      obtain ⟨hlt, hsome, hform⟩ := hb.secret bnB hprivB
      cases hpriv
      exact ⟨hlt, by rw [hsome]; rfl, hform⟩
    | none =>
      rw [hprivB] at hpriv
      obtain ⟨hlt, hsome, hform⟩ := h.secret bn hpriv
      cases hpubB : b.pkey.pubKey with
      | none =>
        refine ⟨hlt, hsome, fun hhybrid => ?_⟩
        rcases hb.form with hform | hform | hform
        · exact absurd (hform.symm.trans hhybrid) (by decide)
        · exact absurd (hform.symm.trans hhybrid) (by decide)
        · exact hform.2 hpubB
      | some Q =>
        obtain ⟨rfl, hjoined⟩ := hjoins hprivB Q hpubB bn hpriv
        exact ⟨hlt, rfl, hjoined⟩

theorem whole_makeNewKey (h : key.Whole curve) {drawn : SecretKey curve}
    (hfits : drawn.fCompressed = true ∨ key.pkey.convForm ≠ 6) : (key.makeNewKey drawn).Whole curve := by
  have hlt : drawn.bn < 256 ^ 32 := drawn.lt_order.trans curve.order_lt
  have hpair : ∀ bn, some drawn.bn = some bn → bn < 256 ^ 32 ∧
      some (drawn.bn • curve.G) = some (bn • curve.G) := by
    rintro _ ⟨⟩
    exact ⟨hlt, rfl⟩
  rw [CKey.makeNewKey]
  split
  · exact whole_written rfl (fun _ hzero => drawn.nsmul_ne_zero (Option.some.inj hzero)) hpair
  · rename_i hflag
    exact whole_written (h.written (hfits.resolve_left hflag))
      (fun _ hzero => drawn.nsmul_ne_zero (Option.some.inj hzero)) hpair

theorem whole_setPubKey (h : key.Whole curve) {vchPubKey : CPubKey}
    (hfull : ∀ Q, vchPubKey.length = 65 → curve.oct2point vchPubKey = some Q →
      Q ≠ 0 ∧ (vchPubKey.headD 0 &&& 0xfe = 4 ∨ vchPubKey.headD 0 &&& 0xfe = 6))
    (hlength : vchPubKey.length = 33 ∨ vchPubKey.length = 65)
    (hfits : ∀ Q, curve.oct2point vchPubKey = some Q → (vchPubKey.length = 65 →
      key.fCompressedPubKey = false) ∧ key.Joins curve Q (vchPubKey.headD 0 &&& 0xfe)) :
    (key.setPubKey curve vchPubKey).2.Whole curve := by
  rw [CKey.setPubKey]
  cases hread : curve.oct2point vchPubKey with
  | none => exact whole_new
  | some Q =>
    obtain ⟨hclear, hjoins⟩ := hfits Q hread
    have hpair : ∀ bn, key.pkey.privKey = some bn → bn < 256 ^ 32 ∧ some Q = some (bn • curve.G) :=
      fun bn hbn => ⟨(h.secret bn hbn).1, congrArg some (hjoins bn hbn).1⟩
    rcases hlength with h33 | h65
    · have hne : Q ≠ 0 := by
        have hparse := curve.oct2point_compressed ⟨vchPubKey.toArray, h33⟩
        exact (curve.serialize_of_parse _ _ (hparse.symm.trans hread)).2
      simp only [if_pos h33]
      exact whole_written rfl (fun _ hzero => hne (Option.some.inj hzero)) hpair
    · obtain ⟨hne, hform⟩ := hfull Q h65 hread
      have hclear := hclear h65
      simp only [h65, show ¬65 = 33 by decide, if_false]
      refine ⟨.inr (hform.imp_right fun hform => ⟨hform, Option.some_ne_none Q⟩), ?_,
        fun _ hzero => hne (Option.some.inj hzero), fun bn hbn => ?_⟩
      · refine iff_of_false (Bool.eq_false_iff.mp hclear) fun h2 => ?_
        rcases hform with hform | hform <;> exact absurd (hform.symm.trans h2) (by decide)
      · exact ⟨(hpair bn hbn).1, (hpair bn hbn).2, (hjoins bn hbn).2⟩

theorem whole_setCompactSignature (h : key.Whole curve) {hash vchSig : Bytes}
    (hfits : vchSig.length = 65 → 27 ≤ (vchSig.headD 0).toNat →
      if (vchSig.headD 0).toNat < 31 then key.fCompressedPubKey = false
      else ssl.recover hash ((vchSig.drop 1).take 32) ((vchSig.drop 33).take 32)
        ((vchSig.headD 0).toNat - 31) ≠ some 0) :
    (key.setCompactSignature ssl hash vchSig).2.Whole curve := by
  rw [CKey.setCompactSignature]
  split
  · exact h
  · rename_i hlength
    split
    · exact h
    · rename_i hrange
      have hfits := hfits (not_not.mp hlength) (by omega)
      by_cases h31 : 31 ≤ (vchSig.headD 0).toNat
      · rw [if_neg (Nat.not_lt.mpr h31)] at hfits
        have hrecid : (vchSig.headD 0).toNat - 4 - 27 = (vchSig.headD 0).toNat - 31 := by omega
        simp only [if_pos h31, hrecid]
        split
        · rename_i Q hQ
          exact whole_written rfl (fun _ hzero => hfits (hQ.trans hzero)) fun _ hbn => by cases hbn
        · exact whole_blank rfl rfl rfl
      · rw [if_pos (Nat.not_le.mp h31)] at hfits
        simp only [if_neg h31]
        split
        · exact whole_written (by rw [hfits]; rfl) (fun hset => absurd hset (by simp [hfits]))
            fun _ hbn => by cases hbn
        · exact whole_blank (by rw [hfits]; rfl) rfl rfl

theorem whole_setSecret {vchSecret : Bytes} {fCompressed : Bool}
    (hfits : if vchSecret.length ≠ 32 then key.fCompressedPubKey = false
      else (fCompressed || key.fCompressedPubKey) = true → ofBE vchSecret • curve.G ≠ 0) :
    (key.secretSet curve vchSecret fCompressed).Whole curve := by
  rw [CKey.secretSet]
  by_cases hlength : vchSecret.length = 32
  · rw [if_neg (not_not_intro hlength)] at hfits
    rw [setSecret_eq hlength]
    refine whole_written rfl (fun hset hzero => hfits hset (Option.some.inj hzero)) ?_
    rintro _ ⟨⟩
    exact ⟨hlength ▸ ofBE_lt vchSecret, rfl⟩
  · rw [if_pos hlength] at hfits
    rw [CKey.setSecret, if_pos hlength]
    exact whole_blank (by rw [Option.getD_none, hfits]; rfl) rfl rfl

/-- **A call keeps the objects whole.** -/
theorem KeyCall.whole_step {keys : Nat → CKey P} (h : ∀ k, (keys k).Whole curve) {call : KeyCall curve}
    (hfits : call.Fits ssl keys) (k : Nat) : (call.step ssl keys k).Whole curve := by
  have hupdate : ∀ changed (key : CKey P), key.Whole curve → (update keys changed key k).Whole curve := by
    intro changed key hkey
    rw [Function.update_apply]
    split
    · exact hkey
    · exact h k
  cases call with
  | construct changed => exact hupdate _ _ whole_new
  | reset changed => exact hupdate _ _ whole_new
  | copy changed b memory =>
    obtain rfl : memory = (keys b).fCompressedPubKey := hfits
    exact hupdate _ _ (h b)
  | assign changed b => exact hupdate _ _ (whole_assign (h changed) (h b) hfits.1 hfits.2)
  | makeNewKey changed drawn => exact hupdate _ _ (whole_makeNewKey (h changed) hfits)
  | setPrivKey changed vchPrivKey =>
    refine hupdate _ _ ?_
    rw [CKey.setPrivKey]
    cases hread : ssl.d2i (keys changed).pkey vchPrivKey with
    | none => exact whole_new
    | some pkey =>
      obtain ⟨bn, hlt, hpriv, hpub, hne⟩ := ssl.d2i_checked _ _ _ hread
      refine whole_written (hfits pkey hread) (fun _ hzero => hne ?_) ?_
      · exact Option.some.inj (hpub.symm.trans hzero)
      · intro bn' hbn'
        obtain rfl := Option.some.inj (hpriv.symm.trans hbn')
        exact ⟨hlt, hpub⟩
  | setSecret changed vchSecret fCompressed => exact hupdate _ _ (whole_setSecret hfits)
  | setPubKey changed vchPubKey hlength =>
    exact hupdate _ _ (whole_setPubKey (h changed) (fun Q => ssl.oct2point_full _ Q) hlength hfits)
  | setCompactSignature changed hash vchSig => exact hupdate _ _ (whole_setCompactSignature (h changed) hfits)

theorem KeyCall.after_concat (calls : List (KeyCall curve)) (call : KeyCall curve) :
    after ssl (calls ++ [call]) = call.step ssl (after ssl calls) := foldl_append

/-- **Every object stays consistent** in a run of calls that fit the objects that they find. -/
theorem KeyCall.after_consistent {calls : List (KeyCall curve)}
    (hfits : ∀ before call, before ++ [call] <+: calls → call.Fits ssl (after ssl before))
    {before : List (KeyCall curve)} (hbefore : before <+: calls) (k : Nat) :
    (after ssl before k).Consistent curve := by
  refine CKey.Whole.consistent ?_ ssl.point2oct_hybrid
  induction before using List.reverseRecOn generalizing k with
  | nil => exact whole_new
  | append_singleton before call ih =>
    rw [after_concat]
    exact whole_step (fun k => ih ((prefix_append _ _).trans hbefore) k) (hfits before call hbefore) k

/-- The sample curve, which reads no other points of 65 bytes than it writes. -/
def strictOctets : Secp256k1Octets SamplePoint where
  toSecp256k1 := sampleCurve
  point2oct form Q :=
    if Q = 0 then [0] else if form = 2 then (sampleCurve.serialize Q).toList else sampleUncompressed Q
  oct2point data :=
    if h : data.length = 33 then sampleCurve.parse ⟨data.toArray, h⟩
    else if data.length = 65 ∧ data.headD 0 = 4 ∧
      sampleDecodeOctets data ≠ 0 then some (sampleDecodeOctets data)
    else none
  point2oct_zero form := if_pos rfl
  point2oct_compressed Q hQ := by rw [if_neg hQ, if_pos rfl]
  point2oct_uncompressed Q hQ := by
    rw [if_neg hQ, if_neg (by decide)]
    exact ⟨length_sampleUncompressed Q, rfl⟩
  oct2point_compressed data := by
    rw [dif_pos (by simp)]
    rfl
  oct2point_uncompressed Q hQ := by
    have hlength := length_sampleUncompressed Q
    rw [if_neg hQ, if_neg (by decide), dif_neg (by rw [hlength]; decide),
      sampleDecodeOctets_uncompressed, if_pos ⟨hlength, rfl, hQ⟩]

/-- No bytes are a secret key, and no signature is one. -/
def strictSsl : OpenSsl strictOctets where
  d2i _ _ := none
  recover _ _ _ _ := none
  point2oct_hybrid Q hQ := by
    show (if Q = 0 then [0] else if (6 : UInt8) = 2 then _ else sampleUncompressed Q).length = 65
    rw [if_neg hQ, if_neg (by decide)]
    exact length_sampleUncompressed Q
  oct2point_full data Q h65 hread := by
    have hread : (if h : data.length = 33 then sampleCurve.parse ⟨data.toArray, h⟩
      else if data.length = 65 ∧ data.headD 0 = 4 ∧
        sampleDecodeOctets data ≠ 0 then some (sampleDecodeOctets data)
      else none) = some Q := hread
    rw [dif_neg (by omega)] at hread
    split at hread
    · rename_i hfour
      rw [← Option.some.inj hread, hfour.2.1]
      exact ⟨hfour.2.2, .inl (by decide)⟩
    · cases hread
  d2i_checked _ _ _ h := nomatch h

def drawnOne : SecretKey strictOctets where
  bn := 1
  fCompressed := true
  pos := Nat.one_pos
  lt_order := Nat.lt_trans (by decide) sampleCurve.two_pow_lt

/-- A key is copied where the memory happens to hold its flag. -/
theorem after_consistent_copy :
    (KeyCall.after strictSsl [.makeNewKey 0 drawnOne, .copy 1 0 true] 1).Consistent strictOctets := by
  refine KeyCall.after_consistent (fun before call hpre => ?_) (prefix_refl _) 1
  rcases before with _ | ⟨first, _ | ⟨second, before⟩⟩
  · obtain ⟨rfl, -⟩ := cons_prefix_cons.mp hpre
    exact .inl rfl
  · obtain ⟨rfl, hrest⟩ := cons_prefix_cons.mp hpre
    obtain ⟨rfl, -⟩ := cons_prefix_cons.mp hrest
    rfl
  · have hle := hpre.length_le
    simp at hle

/-- **A key is assigned**, and the flag stays behind: the public key has 33 bytes, which the flag
denies. -/
theorem after_assign_parted :
    ¬(KeyCall.after strictSsl [.makeNewKey 0 drawnOne, .assign 1 0] 1).Consistent strictOctets := by
  intro h
  have hne : (1 : Nat) • strictOctets.G ≠ 0 := drawnOne.nsmul_ne_zero
  have hflag := (h.1 (strictOctets.point2oct 2 (1 • strictOctets.G)) rfl).mpr
    (length_point2oct strictOctets hne)
  cases hflag

end Key

end MaryJaneCoin
