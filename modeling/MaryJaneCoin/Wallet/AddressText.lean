import MaryJaneCoin.Wallet.Base58
import MaryJaneCoin.Wallet.PaymentCode
import MaryJaneCoin.Wallet.StealthPayment

/-!
# The strings of stealth addresses and payment codes

`Encoded` and `SetEncoded` of `stealth.cpp`, `ToBase58` and `FromBase58` of `bip47.cpp`.  A string
that is read changes the object it is read into.  Every byte of an address is checked or kept; of
a payment code the last twelve bytes are reserved, written as zeros and not looked at.
-/

namespace MaryJaneCoin

open Codec List Key

def STEALTH_VERSION : UInt8 := 0x28
def BIP47_BASE58_VERSION : UInt8 := 0x47

section

variable (hashes : ScriptHashes)

namespace CStealthAddress

def encoded (address : CStealthAddress) : Bytes :=
  if !address.isValid then []
  else encodeBase58Check hashes (STEALTH_VERSION :: (address.scanPubKey ++ address.spendPubKey))

/-- `CStealthAddress::SetEncoded`: what it returns, and the object after it. -/
def setEncoded (address : CStealthAddress) (addr : Bytes) : Bool × CStealthAddress :=
  match decodeBase58Check hashes addr with
  | none => (false, address)
  | some vchRaw =>
    if vchRaw.length ≠ 67 then (false, address)
    else if vchRaw.getD 0 0 ≠ STEALTH_VERSION then (false, address)
    else
      let address : CStealthAddress := ⟨(vchRaw.drop 1).take 33, (vchRaw.drop 34).take 33⟩
      (address.isValid, address)

end CStealthAddress

namespace CPaymentCode

/-- `CPaymentCode::Decode`: what it returns, and the object after it. -/
def decodeInto (code : CPaymentCode) (vchPayload : Bytes) : Bool × CPaymentCode :=
  if vchPayload.length ≠ PAYMENT_CODE_SIZE then (false, code)
  else
    let code := { code with nVersion := vchPayload.getD 0 0, nFeatures := vchPayload.getD 1 0 }
    if code.nVersion ≠ BIP47_VERSION then (false, code)
    else
      let code := { code with
        scanPubKey := (vchPayload.drop 2).take 33
        spendPubKey := (vchPayload.drop 35).take 33 }
      (code.isValid, code)

def toBase58 (code : CPaymentCode) : Bytes :=
  match code.encode [] with
  | none => []
  | some vchPayload => encodeBase58Check hashes (BIP47_BASE58_VERSION :: vchPayload)

/-- `CPaymentCode::FromBase58`: what it returns, and the object after it. -/
def fromBase58 (code : CPaymentCode) (strEncoded : Bytes) : Bool × CPaymentCode :=
  match decodeBase58Check hashes strEncoded with
  | none => (false, code)
  | some vchRaw =>
    if vchRaw.length ≠ 81 then (false, code)
    else if vchRaw.getD 0 0 ≠ BIP47_BASE58_VERSION then (false, code)
    else code.decodeInto (vchRaw.drop 1)

end CPaymentCode

/-- The string has no white space around it. -/
structure Trimmed (str : Bytes) : Prop where
  front : ∀ c ∈ str.head?, Decimal.isSpace c = false
  back : ∀ c ∈ str.getLast?, Decimal.isSpace c = false

/-- Nor has it a NUL. -/
structure Bare (str : Bytes) : Prop extends Trimmed str where
  nul : ∀ c ∈ str, c ≠ 0

/-- The reserved bytes of the payload that a string stands for. -/
def reservedBytes (strEncoded : Bytes) : Bytes :=
  ((decodeBase58Check hashes strEncoded).getD []).drop 69

end

section

variable {hashes : ScriptHashes} {str str' vch : Bytes}

theorem decodeBase58Check_encodeBase58Check (vch : Bytes) :
    decodeBase58Check hashes (encodeBase58Check hashes vch) = some vch :=
  (decodeBase58Check_eq_some_iff hashes).mpr (decodeBase58_encodeBase58 _)

/-- **A bare string** is accepted for its own encoding only. -/
theorem Bare.eq_encodeBase58Check (h : Bare str) (hread : decodeBase58Check hashes str = some vch) :
    str = encodeBase58Check hashes vch := by
  rw [decodeBase58Check_eq_some_iff, decodeBase58, cStr_eq h.nul, decodeBase58Psz_eq_some_iff] at hread
  obtain ⟨pre, post, hpre, hpost, hstr⟩ := hread
  have hfront : pre = [] := by
    cases pre with
    | nil => rfl
    | cons c pre =>
      have hspace := hpre c mem_cons_self
      rw [h.front c (by rw [hstr]; rfl)] at hspace
      cases hspace
  have hback : post = [] := by
    rcases eq_nil_or_concat post with hnil | ⟨rest, c, rfl⟩
    · exact hnil
    · have hspace := hpost c (by simp)
      rw [h.back c (by simp [hstr])] at hspace
      cases hspace
  rw [hstr, hfront, hback, nil_append, append_nil]
  rfl

theorem Bare.eq_of_decodeBase58Check (h : Bare str) (h' : Bare str')
    (hread : decodeBase58Check hashes str = some vch)
    (hread' : decodeBase58Check hashes str' = some vch) : str = str' :=
  (h.eq_encodeBase58Check hread).trans (h'.eq_encodeBase58Check hread').symm

theorem length_of_isCompressed {key : CPubKey} (h : key.isCompressed = true) : key.length = 33 :=
  beq_iff_eq.mp h

end

namespace CStealthAddress

variable {hashes : ScriptHashes} {target address : CStealthAddress} {addr : Bytes}

theorem length_of_isValid (h : address.isValid = true) :
    address.scanPubKey.length = 33 ∧ address.spendPubKey.length = 33 := by
  simp only [isValid, Bool.and_eq_true] at h
  exact ⟨length_of_isCompressed h.1.2, length_of_isCompressed h.2.2⟩

/-- **What `SetEncoded` accepts**: the version and the two keys. -/
theorem setEncoded_eq_true_iff : target.setEncoded hashes addr = (true, address) ↔ address.isValid = true ∧
      decodeBase58Check hashes addr =
        some (STEALTH_VERSION :: (address.scanPubKey ++ address.spendPubKey)) := by
  constructor
  · intro h
    rw [setEncoded] at h
    split at h
    · cases h
    · next vchRaw hread =>
        by_cases hlength : vchRaw.length = 67
        swap
        · rw [if_pos hlength] at h
          cases h
        by_cases hversion : vchRaw.getD 0 0 = STEALTH_VERSION
        swap
        · rw [if_neg (not_not_intro hlength), if_pos hversion] at h
          cases h
        rw [if_neg (not_not_intro hlength), if_neg (not_not_intro hversion)] at h
        obtain ⟨hvalid, rfl⟩ := Prod.mk.inj h
        refine ⟨hvalid, hread.trans (congrArg some ?_)⟩
        cases vchRaw with
        | nil => cases hlength
        | cons version keys =>
          rw [getD_cons_zero] at hversion
          rw [length_cons] at hlength
          show version :: keys = STEALTH_VERSION :: (keys.take 33 ++ (keys.drop 33).take 33)
          have hrest : (keys.drop 33).take 33 = keys.drop 33 := by
            refine take_of_length_le ?_
            rw [length_drop]
            omega
          rw [hversion, hrest, take_append_drop]
  · rintro ⟨hvalid, hread⟩
    obtain ⟨hscan, hspend⟩ := length_of_isValid hvalid
    rw [setEncoded, hread]
    have hlength : (STEALTH_VERSION :: (address.scanPubKey ++ address.spendPubKey)).length = 67 := by
      rw [length_cons, length_append, hscan, hspend]
    simp only [hlength, ne_eq, not_true_eq_false, if_false, getD_cons_zero, drop_succ_cons,
      drop_zero, take_left' hscan, drop_left' hscan, take_of_length_le hspend.le, hvalid]

end CStealthAddress

namespace CPaymentCode

variable {hashes : ScriptHashes} {target code : CPaymentCode} {vchPayload strEncoded : Bytes}

/-- What a payload says of a payment code. -/
def core (code : CPaymentCode) : Bytes :=
  code.nVersion :: code.nFeatures :: (code.scanPubKey ++ code.spendPubKey)

theorem length_of_isValid (h : code.isValid = true) :
    code.scanPubKey.length = 33 ∧ code.spendPubKey.length = 33 := by
  simp only [isValid, Bool.and_eq_true] at h
  exact ⟨length_of_isCompressed h.1.2.2, length_of_isCompressed h.2.2⟩

theorem length_core (h : code.isValid = true) : code.core.length = 68 := by
  obtain ⟨hscan, hspend⟩ := length_of_isValid h
  rw [core, length_cons, length_cons, length_append, hscan, hspend]

/-- **What `Decode` accepts**: a valid code with any reserved bytes behind it. -/
theorem decodeInto_eq_true_iff : target.decodeInto vchPayload = (true, code) ↔ code.isValid = true ∧
    ∃ reserved : Bytes, reserved.length = 12 ∧ vchPayload = code.core ++ reserved := by
  constructor
  · intro h
    rw [decodeInto] at h
    by_cases hlength : vchPayload.length = PAYMENT_CODE_SIZE
    swap
    · rw [if_pos hlength] at h
      cases h
    by_cases hversion : vchPayload.getD 0 0 = BIP47_VERSION
    swap
    · rw [if_neg (not_not_intro hlength)] at h
      dsimp only at h
      rw [if_pos hversion] at h
      cases h
    rw [if_neg (not_not_intro hlength)] at h
    dsimp only at h
    rw [if_neg (not_not_intro hversion)] at h
    obtain ⟨hvalid, rfl⟩ := Prod.mk.inj h
    refine ⟨hvalid, vchPayload.drop 68, ?_, ?_⟩
    · rw [length_drop, hlength]
      rfl
    · match vchPayload, hlength with
      | version :: features :: keys, _ =>
        show version :: features :: keys =
          version :: features :: (keys.take 33 ++ (keys.drop 33).take 33) ++ keys.drop 66
        have hrest : keys.drop 66 = (keys.drop 33).drop 33 := by rw [drop_drop]
        rw [cons_append, cons_append, append_assoc, hrest, take_append_drop, take_append_drop]
  · rintro ⟨hvalid, reserved, hreserved, rfl⟩
    obtain ⟨hscan, hspend⟩ := length_of_isValid hvalid
    have hversion : code.nVersion = BIP47_VERSION := by
      simp only [isValid, Bool.and_eq_true, beq_iff_eq] at hvalid
      exact hvalid.1.1
    have hlength : (code.core ++ reserved).length = PAYMENT_CODE_SIZE := by
      rw [length_append, length_core hvalid, hreserved]
      rfl
    rw [decodeInto, if_neg (not_not_intro hlength)]
    simp only [core, cons_append, append_assoc, getD_cons_zero, getD_cons_succ, drop_succ_cons,
      drop_zero, take_left' hscan, drop_left' hscan, take_left' hspend, hversion, ne_eq,
      not_true_eq_false, if_false]
    rw [← hversion, hvalid]

theorem encode_eq (h : code.isValid = true) (vchPayload : Bytes) : ∃ reserved : Bytes,
    reserved.length = 12 ∧ code.encode vchPayload = some (code.core ++ reserved) := by
  obtain ⟨hscan, hspend⟩ := length_of_isValid h
  refine ⟨((vchPayload ++ List.replicate PAYMENT_CODE_SIZE 0).take PAYMENT_CODE_SIZE).drop 68, ?_, ?_⟩
  · rw [length_drop, length_take, length_append, length_replicate]
    unfold PAYMENT_CODE_SIZE
    omega
  · rw [encode, h, hscan, hspend, core, cons_append, cons_append, append_assoc]
    simp

/-- **What `FromBase58` accepts.** -/
theorem fromBase58_eq_true_iff : target.fromBase58 hashes strEncoded = (true, code) ↔
    code.isValid = true ∧ ∃ reserved : Bytes, reserved.length = 12 ∧
      decodeBase58Check hashes strEncoded = some (BIP47_BASE58_VERSION :: (code.core ++ reserved)) := by
  constructor
  · intro h
    rw [fromBase58] at h
    split at h
    · cases h
    · next vchRaw hread =>
        by_cases hlength : vchRaw.length = 81
        swap
        · rw [if_pos hlength] at h
          cases h
        by_cases hversion : vchRaw.getD 0 0 = BIP47_BASE58_VERSION
        swap
        · rw [if_neg (not_not_intro hlength), if_pos hversion] at h
          cases h
        rw [if_neg (not_not_intro hlength), if_neg (not_not_intro hversion)] at h
        obtain ⟨hvalid, reserved, hreserved, hpayload⟩ := decodeInto_eq_true_iff.mp h
        refine ⟨hvalid, reserved, hreserved, hread.trans (congrArg some ?_)⟩
        cases vchRaw with
        | nil => cases hlength
        | cons version vchPayload =>
          rw [getD_cons_zero] at hversion
          rw [hversion, ← hpayload]
          rfl
  · rintro ⟨hvalid, reserved, hreserved, hread⟩
    rw [fromBase58, hread]
    have hlength : (BIP47_BASE58_VERSION :: (code.core ++ reserved)).length = 81 := by
      rw [length_cons, length_append, length_core hvalid, hreserved]
    simp only [hlength, ne_eq, not_true_eq_false, if_false, getD_cons_zero, drop_succ_cons, drop_zero]
    exact decodeInto_eq_true_iff.mpr ⟨hvalid, reserved, hreserved, rfl⟩

theorem reservedBytes_eq {reserved : Bytes} (hvalid : code.isValid = true)
    (hread : decodeBase58Check hashes strEncoded = some (BIP47_BASE58_VERSION :: (code.core ++ reserved))) :
    reservedBytes hashes strEncoded = reserved := by
  rw [reservedBytes, hread]
  exact drop_left' (length_core hvalid)

end CPaymentCode

/-- **Strings of addresses and payment codes.**  What is written is read again into any object, from
any buffer.  A bare string of an address is determined by the address; one of a payment code by the
code and the reserved bytes. -/
theorem address_strings_exact (hashes : ScriptHashes) :
    (∀ address : CStealthAddress, address.isValid = true → ∀ target : CStealthAddress,
      target.setEncoded hashes (address.encoded hashes) = (true, address)) ∧
    (∀ code : CPaymentCode, code.isValid = true → ∀ target : CPaymentCode,
      target.fromBase58 hashes (code.toBase58 hashes) = (true, code) ∧ ∀ vchPayload, ∃ payload,
      code.encode vchPayload = some payload ∧ target.decodeInto payload = (true, code)) ∧
    (∀ (addr addr' : Bytes) (target target' address : CStealthAddress), Bare addr → Bare addr' →
      target.setEncoded hashes addr = (true, address) → target'.setEncoded hashes addr' = (true, address) →
      addr = addr') ∧ ∀ (str str' : Bytes) (target target' code : CPaymentCode), Bare str →
      Bare str' → target.fromBase58 hashes str = (true, code) → target'.fromBase58 hashes str' =
      (true, code) → (str = str' ↔ reservedBytes hashes str = reservedBytes hashes str') := by
  refine ⟨?_, ?_, ?_, ?_⟩
  · intro address hvalid target
    rw [CStealthAddress.setEncoded_eq_true_iff, CStealthAddress.encoded, hvalid]
    exact ⟨rfl, decodeBase58Check_encodeBase58Check _⟩
  · intro code hvalid target
    refine ⟨?_, fun vchPayload => ?_⟩
    · obtain ⟨reserved, hreserved, hencode⟩ := code.encode_eq hvalid []
      rw [CPaymentCode.fromBase58_eq_true_iff, CPaymentCode.toBase58, hencode]
      exact ⟨hvalid, reserved, hreserved, decodeBase58Check_encodeBase58Check _⟩
    · obtain ⟨reserved, hreserved, hencode⟩ := code.encode_eq hvalid vchPayload
      exact ⟨_, hencode, CPaymentCode.decodeInto_eq_true_iff.mpr ⟨hvalid, reserved, hreserved, rfl⟩⟩
  · intro addr addr' target target' address hbare hbare' hset hset'
    rw [CStealthAddress.setEncoded_eq_true_iff] at hset hset'
    exact hbare.eq_of_decodeBase58Check hbare' hset.2 hset'.2
  · intro str str' target target' code hbare hbare' hset hset'
    obtain ⟨hvalid, reserved, -, hread⟩ := CPaymentCode.fromBase58_eq_true_iff.mp hset
    obtain ⟨-, reserved', -, hread'⟩ := CPaymentCode.fromBase58_eq_true_iff.mp hset'
    rw [CPaymentCode.reservedBytes_eq hvalid hread, CPaymentCode.reservedBytes_eq hvalid hread']
    constructor
    · rintro rfl
      rw [hread, Option.some.injEq, List.cons.injEq, append_cancel_left_eq] at hread'
      exact hread'.2
    · rintro rfl
      exact hbare.eq_of_decodeBase58Check hbare' hread hread'

/-- An address of two keys, and a payment code of the same. -/
def sampleAddress : CStealthAddress := ⟨List.replicate 33 2, List.replicate 33 3⟩

def samplePaymentCode : CPaymentCode := ⟨BIP47_VERSION, 0, List.replicate 33 2, List.replicate 33 3⟩

/-- The sample address and the sample payment code are read again. -/
theorem address_strings_exact_sample :
    CStealthAddress.setEncoded sampleHashes ⟨[], []⟩ (sampleAddress.encoded sampleHashes) =
      (true, sampleAddress) ∧
      CPaymentCode.fromBase58 sampleHashes ⟨0, 0, [],
        []⟩ (samplePaymentCode.toBase58 sampleHashes) = (true, samplePaymentCode) :=
  ⟨(address_strings_exact sampleHashes).1 sampleAddress (by decide) _,
    ((address_strings_exact sampleHashes).2.1 samplePaymentCode (by decide) _).1⟩

theorem bare_encodeBase58Check (hashes : ScriptHashes) (vch : Bytes) :
    Bare (encodeBase58Check hashes vch) where
  front _ hc := (plain_of_mem_encodeBase58 (mem_of_mem_head? hc)).1
  back _ hc := (plain_of_mem_encodeBase58 (mem_of_mem_getLast? hc)).1
  nul _ hc := (plain_of_mem_encodeBase58 hc).2

/-- **Two strings for one object**: an address with something behind a NUL, and a payment code
with a reserved byte set. -/
theorem address_strings_differ : ¬(∀ (addr addr' : Bytes) (target target' address : CStealthAddress),
      Trimmed addr → Trimmed addr' → target.setEncoded sampleHashes addr = (true, address) →
      target'.setEncoded sampleHashes addr' = (true, address) → addr = addr') ∧
    ¬∀ (str str' : Bytes) (target target' code : CPaymentCode), Bare str → Bare str' →
      target.fromBase58 sampleHashes str = (true, code) →
      target'.fromBase58 sampleHashes str' = (true, code) → str = str' := by
  constructor
  · intro h
    let addr := sampleAddress.encoded sampleHashes
    have hbare : Bare addr := bare_encodeBase58Check _ _
    have hread : decodeBase58Check sampleHashes addr =
        some (STEALTH_VERSION :: (sampleAddress.scanPubKey ++ sampleAddress.spendPubKey)) :=
      decodeBase58Check_encodeBase58Check _
    have hcut : cStr (addr ++ [0]) = addr := by
      rw [cStr, takeWhile_append_of_pos fun c hc => bne_iff_ne.mpr (hbare.nul c hc)]
      exact append_nil _
    have hread' : decodeBase58Check sampleHashes (addr ++ [0]) =
        some (STEALTH_VERSION :: (sampleAddress.scanPubKey ++ sampleAddress.spendPubKey)) := by
      rw [decodeBase58Check_eq_some_iff, decodeBase58] at hread ⊢
      rw [hcut, ← cStr_eq hbare.nul]
      exact hread
    have htrimmed : Trimmed (addr ++ [0]) := by
      refine ⟨fun c hc => ?_, fun c hc => ?_⟩
      · rcases mem_append.mp (mem_of_mem_head? hc) with hmem | hmem
        · exact (plain_of_mem_encodeBase58 hmem).1
        · cases mem_singleton.mp hmem
          rfl
      · rw [getLast?_concat] at hc
        cases hc
        rfl
    have heq := h addr (addr ++ [0]) sampleAddress sampleAddress sampleAddress hbare.toTrimmed
      htrimmed (CStealthAddress.setEncoded_eq_true_iff.mpr ⟨by decide, hread⟩)
      (CStealthAddress.setEncoded_eq_true_iff.mpr ⟨by decide, hread'⟩)
    exact cons_ne_nil _ _ (self_eq_append_right.mp heq)
  · intro h
    let payload (byte : UInt8) : Bytes :=
      BIP47_BASE58_VERSION :: (samplePaymentCode.core ++ List.replicate 12 byte)
    have hread (byte : UInt8) : samplePaymentCode.fromBase58 sampleHashes
        (encodeBase58Check sampleHashes (payload byte)) = (true, samplePaymentCode) :=
      CPaymentCode.fromBase58_eq_true_iff.mpr
        ⟨by decide, _, length_replicate, decodeBase58Check_encodeBase58Check _⟩
    have heq := h _ _ _ _ _ (bare_encodeBase58Check _ _) (bare_encodeBase58Check _ _) (hread 0) (hread 1)
    have hdecode : decodeBase58Check sampleHashes (encodeBase58Check sampleHashes (payload 0)) =
        some (payload 1) := by
      rw [heq]
      exact decodeBase58Check_encodeBase58Check _
    rw [decodeBase58Check_encodeBase58Check] at hdecode
    exact absurd hdecode (by decide)

end MaryJaneCoin
