import MaryJaneCoin.Wallet.CurveKey

/-!
# The encrypted key store

`CCryptoKeyStore`, and `EncryptSecret` and `DecryptSecret` below it.  The encrypted form of
a key does not hold whether its public key is compressed: `GetKey` builds that again from
the public key, in the object that the caller passes.
-/

namespace MaryJaneCoin

open Codec Std

namespace Key

def WALLET_CRYPTO_KEY_SIZE : Nat := 32
def WALLET_CRYPTO_IV_SIZE : Nat := 16

/-- What the key store calls: the curve, `CPubKey::GetID` and `CPubKey::GetHash`, and the
cipher, which takes a key, an initialisation vector and a text. -/
structure KeyCrypto (P K : Type) [AddCommGroup P] where
  curve : Secp256k1Octets P
  getID : CPubKey → K
  getHash : CPubKey → Vector UInt8 32
  encrypt : Bytes → Bytes → Bytes → Bytes
  decrypt : Bytes → Bytes → Bytes → Option Bytes

/-- The ideal cipher: a secret is read again under its own key, and under no other one as a
secret of the same public key. -/
structure IdealCipher {P K : Type} [AddCommGroup P] (crypto : KeyCrypto P K) : Prop where
  decrypt_encrypt : ∀ vchKey vchIV vchPlaintext, vchKey.length = WALLET_CRYPTO_KEY_SIZE →
    crypto.decrypt vchKey vchIV (crypto.encrypt vchKey vchIV vchPlaintext) = some vchPlaintext
  wrong_key : ∀ vchKey vchKey' vchIV vchPlaintext vchPlaintext',
    vchKey.length = WALLET_CRYPTO_KEY_SIZE → vchKey'.length = WALLET_CRYPTO_KEY_SIZE →
    vchKey' ≠ vchKey →
    crypto.decrypt vchKey' vchIV (crypto.encrypt vchKey vchIV vchPlaintext) = some vchPlaintext' →
    ofBE vchPlaintext' % crypto.curve.order ≠ ofBE vchPlaintext % crypto.curve.order

namespace KeyCrypto

variable {P K : Type} [AddCommGroup P] (crypto : KeyCrypto P K)

def encryptSecret (vMasterKey vchPlaintext : Bytes) (nIV : Vector UInt8 32) : Option Bytes :=
  if vMasterKey.length ≠ WALLET_CRYPTO_KEY_SIZE then none
  else some (crypto.encrypt vMasterKey (nIV.toList.take WALLET_CRYPTO_IV_SIZE) vchPlaintext)

def decryptSecret (vMasterKey vchCiphertext : Bytes) (nIV : Vector UInt8 32) : Option Bytes :=
  if vMasterKey.length ≠ WALLET_CRYPTO_KEY_SIZE then none
  else crypto.decrypt vMasterKey (nIV.toList.take WALLET_CRYPTO_IV_SIZE) vchCiphertext

end KeyCrypto

/-- `CCryptoKeyStore`, with the `mapKeys` of `CBasicKeyStore`. -/
structure CCryptoKeyStore (K : Type) [Ord K] where
  mapKeys : ExtTreeMap K (Bytes × Bool)
  mapCryptedKeys : ExtTreeMap K (CPubKey × Bytes)
  vMasterKey : Bytes
  fUseCrypto : Bool

namespace CCryptoKeyStore

section

variable {P K : Type} [AddCommGroup P] [Ord K] [TransOrd K] (crypto : KeyCrypto P K)

def new : CCryptoKeyStore K := ⟨∅, ∅, [], false⟩

def isCrypted (store : CCryptoKeyStore K) : Bool := store.fUseCrypto

def isLocked (store : CCryptoKeyStore K) : Bool := store.isCrypted && store.vMasterKey.isEmpty

/-- The store, encrypted. -/
def asCrypted (store : CCryptoKeyStore K) : CCryptoKeyStore K := { store with fUseCrypto := true }

/-- The store with other encrypted keys. -/
def withCrypted (store : CCryptoKeyStore K) (mapCryptedKeys : ExtTreeMap K (CPubKey × Bytes)) :
    CCryptoKeyStore K := { store with mapCryptedKeys }

/-- The store with another master key. -/
def withMasterKey (store : CCryptoKeyStore K) (vMasterKey : Bytes) : CCryptoKeyStore K :=
  { store with vMasterKey }

def setCrypted (store : CCryptoKeyStore K) : Bool × CCryptoKeyStore K :=
  if store.fUseCrypto then (true, store)
  else if !store.mapKeys.isEmpty then (false, store)
  else (true, store.asCrypted)

def lock (store : CCryptoKeyStore K) : Bool × CCryptoKeyStore K :=
  if !store.setCrypted.1 then (false, store.setCrypted.2)
  else (true, store.setCrypted.2.withMasterKey [])

/-- Whether `Unlock` can read the first of the encrypted keys. -/
def opensFirst (store : CCryptoKeyStore K) (vMasterKeyIn : Bytes) : Bool :=
  match store.mapCryptedKeys.toList.head? with
  | none => true
  | some (_, vchPubKey, vchCryptedSecret) =>
    match crypto.decryptSecret vMasterKeyIn vchCryptedSecret (crypto.getHash vchPubKey) with
    | none => false
    | some vchSecret =>
      if vchSecret.length ≠ 32 then false
      else
        (((CKey.new.setPubKey crypto.curve vchPubKey).2.setSecret crypto.curve vchSecret
          false).bind (CKey.getPubKey crypto.curve)) == some vchPubKey

def unlock (store : CCryptoKeyStore K) (vMasterKeyIn : Bytes) : Bool × CCryptoKeyStore K :=
  if !store.setCrypted.1 then (false, store.setCrypted.2)
  else if !store.setCrypted.2.opensFirst crypto vMasterKeyIn then (false, store.setCrypted.2)
  else (true, store.setCrypted.2.withMasterKey vMasterKeyIn)

def addCryptedKey (store : CCryptoKeyStore K) (vchPubKey : CPubKey) (vchCryptedSecret : Bytes) :
    Bool × CCryptoKeyStore K :=
  if !store.setCrypted.1 then (false, store.setCrypted.2)
  else
    (true, store.setCrypted.2.withCrypted (store.setCrypted.2.mapCryptedKeys.insert
      (crypto.getID vchPubKey) (vchPubKey, vchCryptedSecret)))

/-- `CBasicKeyStore::AddKey`. -/
def addPlainKey (store : CCryptoKeyStore K) (key : CKey P) : Option (Bool × CCryptoKeyStore K) :=
  key.getSecret.bind fun secret =>
    (key.getPubKey crypto.curve).map fun vchPubKey =>
      (true, { store with mapKeys := store.mapKeys.insert (crypto.getID vchPubKey) secret })

def addKey (store : CCryptoKeyStore K) (key : CKey P) : Option (Bool × CCryptoKeyStore K) :=
  if !store.isCrypted then store.addPlainKey crypto key
  else if store.isLocked then some (false, store)
  else
    (key.getPubKey crypto.curve).bind fun vchPubKey =>
      key.getSecret.map fun secret =>
        match crypto.encryptSecret store.vMasterKey secret.1 (crypto.getHash vchPubKey) with
        | none => (false, store)
        | some vchCryptedSecret => store.addCryptedKey crypto vchPubKey vchCryptedSecret

/-- `CBasicKeyStore::GetKey`. -/
def getPlainKey (store : CCryptoKeyStore K) (address : K) (keyOut : CKey P) :
    Option (Bool × CKey P) :=
  match store.mapKeys[address]? with
  | none => some (false, keyOut)
  | some (vchSecret, fCompressed) =>
    (CKey.new.setSecret crypto.curve vchSecret fCompressed).map fun key => (true, key)

/-- `GetKey`: the answer, and what it leaves in `keyOut`. -/
def getKey (store : CCryptoKeyStore K) (address : K) (keyOut : CKey P) : Option (Bool × CKey P) :=
  if !store.isCrypted then store.getPlainKey crypto address keyOut
  else
    match store.mapCryptedKeys[address]? with
    | none => some (false, keyOut)
    | some (vchPubKey, vchCryptedSecret) =>
      match crypto.decryptSecret store.vMasterKey vchCryptedSecret (crypto.getHash vchPubKey) with
      | none => some (false, keyOut)
      | some vchSecret =>
        if vchSecret.length ≠ 32 then some (false, keyOut)
        else
          ((keyOut.setPubKey crypto.curve vchPubKey).2.setSecret crypto.curve vchSecret
            false).map fun key => (true, key)

/-- `GetPubKey`: the public key, where the answer is `true`. -/
def getPubKey (store : CCryptoKeyStore K) (address : K) : Option CPubKey :=
  if !store.isCrypted then
    (store.getPlainKey crypto address CKey.new).bind fun out =>
      if out.1 then out.2.getPubKey crypto.curve else none
  else store.mapCryptedKeys[address]?.map Prod.fst

omit [AddCommGroup P] in
def haveKey (store : CCryptoKeyStore K) (address : K) : Bool :=
  if !store.isCrypted then store.mapKeys.contains address else store.mapCryptedKeys.contains address

/-- One round of `EncryptKeys`.  A key that cannot be set throws, and that ends the loop as
`false` does. -/
def encryptEntry (vMasterKeyIn : Bytes) (store : CCryptoKeyStore K) (mKey : K × Bytes × Bool) :
    Bool × CCryptoKeyStore K :=
  match CKey.new.setSecret crypto.curve mKey.2.1 mKey.2.2 with
  | none => (false, store)
  | some key =>
    match key.getPubKey crypto.curve, key.getSecret with
    | some vchPubKey, some secret =>
      match crypto.encryptSecret vMasterKeyIn secret.1 (crypto.getHash vchPubKey) with
      | none => (false, store)
      | some vchCryptedSecret => store.addCryptedKey crypto vchPubKey vchCryptedSecret
    | _, _ => (false, store)

def encryptKeys (store : CCryptoKeyStore K) (vMasterKeyIn : Bytes) : Bool × CCryptoKeyStore K :=
  if !store.mapCryptedKeys.isEmpty || store.isCrypted then (false, store)
  else
    let done := EarlyExit.loop (encryptEntry crypto vMasterKeyIn) store.asCrypted
      store.mapKeys.toList
    if done.1 then (true, { done.2 with mapKeys := ∅ }) else done

end

end CCryptoKeyStore

namespace SecretKey

variable {P : Type} [AddCommGroup P] {curve : Secp256k1Octets P} (key : SecretKey curve)

/-- What `mapKeys` holds of it. -/
def plain : Bytes × Bool := (putBE 32 key.bn, key.fCompressed)

theorem length_plain : key.plain.1.length = 32 := by simp [plain, putBE, length_putLE]

theorem ofBE_plain : ofBE key.plain.1 = key.bn := ofBE_putBE (key.lt_order.trans curve.order_lt)

theorem setSecret_plain (keyOut : CKey P) (fCompressed : Bool) :
    keyOut.setSecret curve key.plain.1 fCompressed =
      some (CKey.ofSecret curve key.bn (fCompressed || keyOut.fCompressedPubKey)) := by
  rw [setSecret_eq key.length_plain, ofBE_plain]

theorem plain_injective : Function.Injective fun key : SecretKey curve => key.plain := by
  intro key key' heq
  obtain ⟨bn, fCompressed, pos, lt_order⟩ := key
  obtain ⟨bn', fCompressed', pos', lt_order'⟩ := key'
  have hbn := congrArg (fun secret : Bytes × Bool => ofBE secret.1) heq
  simp only [ofBE_plain] at hbn
  obtain rfl : bn = bn' := hbn
  obtain rfl : fCompressed = fCompressed' := congrArg Prod.snd heq
  rfl

theorem setSecret_new : CKey.new.setSecret curve key.plain.1 key.plain.2 = some key.toCKey := by
  rw [setSecret_plain, show (CKey.new : CKey P).fCompressedPubKey = false from rfl, Bool.or_false]
  rfl

/-- What an encrypted key becomes in `keyOut`. -/
theorem setPubKey_setSecret {vchSecret : Bytes} (hlength : vchSecret.length = 32)
    (keyOut : CKey P) : (keyOut.setPubKey curve key.pubKey).2.setSecret curve vchSecret false =
      some (CKey.ofSecret curve (ofBE vchSecret) (key.fCompressed || keyOut.fCompressedPubKey)) := by
  rw [setSecret_eq hlength, pubKey, (setPubKey_form key.nsmul_ne_zero _ _).2, Bool.false_or]

end SecretKey

namespace KeyCrypto

variable {P K : Type} [AddCommGroup P] (crypto : KeyCrypto P K)

/-- A secret under the master key. -/
def cryptedSecret (masterKey : Bytes) (key : SecretKey crypto.curve) : Bytes :=
  crypto.encrypt masterKey ((crypto.getHash key.pubKey).toList.take WALLET_CRYPTO_IV_SIZE) key.plain.1

/-- What `mapCryptedKeys` holds of a key. -/
def crypted (masterKey : Bytes) (key : SecretKey crypto.curve) : CPubKey × Bytes :=
  (key.pubKey, crypto.cryptedSecret masterKey key)

variable {crypto} {masterKey : Bytes}

theorem encryptSecret_eq (key : SecretKey crypto.curve)
    (hsize : masterKey.length = WALLET_CRYPTO_KEY_SIZE) :
    crypto.encryptSecret masterKey key.plain.1 (crypto.getHash key.pubKey) =
      some (crypto.cryptedSecret masterKey key) := if_neg fun h => h hsize

theorem decryptSecret_cryptedSecret (hideal : IdealCipher crypto) (key : SecretKey crypto.curve)
    (hsize : masterKey.length = WALLET_CRYPTO_KEY_SIZE) :
    crypto.decryptSecret masterKey (crypto.cryptedSecret masterKey key)
      (crypto.getHash key.pubKey) = some key.plain.1 := by
  rw [decryptSecret, if_neg fun h => h hsize]
  exact hideal.decrypt_encrypt _ _ _ hsize

theorem ne_of_decryptSecret (hideal : IdealCipher crypto) (key : SecretKey crypto.curve)
    (hsize : masterKey.length = WALLET_CRYPTO_KEY_SIZE) {vMasterKeyIn vchSecret : Bytes}
    (hne : vMasterKeyIn ≠ masterKey)
    (h : crypto.decryptSecret vMasterKeyIn (crypto.cryptedSecret masterKey key)
      (crypto.getHash key.pubKey) = some vchSecret) :
    ofBE vchSecret • crypto.curve.G ≠ key.bn • crypto.curve.G := by
  unfold decryptSecret at h
  split at h
  · cases h
  next hsize' =>
    have hother := hideal.wrong_key _ _ _ _ _ hsize (not_not.mp hsize') hne h
    rw [key.ofBE_plain] at hother
    intro hsame
    apply hother
    have hpos := crypto.curve.order_prime.pos
    apply Secp256k1.nsmul_G_injOn (Set.mem_Iio.mpr (Nat.mod_lt _ hpos))
      (Set.mem_Iio.mpr (Nat.mod_lt _ hpos))
    show (ofBE vchSecret % crypto.curve.order) • crypto.curve.G = _
    rw [mul_order, hsame]
    exact (mul_order _ _).symm

end KeyCrypto

namespace CCryptoKeyStore

variable {P K : Type} [AddCommGroup P] [Ord K] [TransOrd K] {crypto : KeyCrypto P K}
  {store : CCryptoKeyStore K} {masterKey : Bytes}

omit [TransOrd K] in
theorem setCrypted_of_isCrypted (h : store.isCrypted) : store.setCrypted = (true, store) := if_pos h

omit [TransOrd K] in
theorem setCrypted_of_isEmpty (h : store.mapKeys = ∅) : store.setCrypted = (true, store.asCrypted) := by
  obtain ⟨mapKeys, mapCryptedKeys, vMasterKey, fUseCrypto⟩ := store
  obtain rfl : mapKeys = ∅ := h
  cases fUseCrypto
  · rw [setCrypted, if_neg Bool.false_ne_true, if_neg (by simp)]
  · rfl

theorem setCrypted_of_plain (hplain : store.isCrypted = false) (h : store.mapKeys ≠ ∅) :
    store.setCrypted = (false, store) := by
  have hkeys : store.mapKeys.isEmpty = false := by
    rwa [← Bool.not_eq_true, ExtTreeMap.isEmpty_iff]
  rw [setCrypted, show store.fUseCrypto = false from hplain, hkeys]
  rfl

theorem opensFirst_of_empty (h : store.mapCryptedKeys = ∅) (vMasterKeyIn : Bytes) :
    store.opensFirst crypto vMasterKeyIn = true := by
  have hlist : (∅ : ExtTreeMap K (CPubKey × Bytes)).toList = [] := by
    rw [← List.isEmpty_iff, ExtTreeMap.isEmpty_toList, ExtTreeMap.isEmpty_iff]
  rw [opensFirst, h, hlist]
  rfl

theorem addCryptedKey_eq (h : store.isCrypted) (masterKey : Bytes) (key : SecretKey crypto.curve) :
    store.addCryptedKey crypto key.pubKey (crypto.cryptedSecret masterKey key) =
      (true, store.withCrypted (store.mapCryptedKeys.insert (crypto.getID key.pubKey)
        (crypto.crypted masterKey key))) := by
  rw [addCryptedKey, setCrypted_of_isCrypted h]
  rfl

theorem encryptEntry_eq (h : store.isCrypted) (masterKey : Bytes) (key : SecretKey crypto.curve)
    (address : K) : encryptEntry crypto masterKey store (address, key.plain) =
      if masterKey.length = WALLET_CRYPTO_KEY_SIZE then
        (true, store.withCrypted (store.mapCryptedKeys.insert (crypto.getID key.pubKey)
          (crypto.crypted masterKey key)))
      else (false, store) := by
  have hpub : key.toCKey.getPubKey crypto.curve = some key.pubKey := rfl
  have hsecret : key.toCKey.getSecret = some key.plain := rfl
  rw [encryptEntry, key.setSecret_new]
  simp only [hpub, hsecret]
  by_cases hsize : masterKey.length = WALLET_CRYPTO_KEY_SIZE
  · rw [KeyCrypto.encryptSecret_eq key hsize, if_pos hsize]
    exact addCryptedKey_eq h masterKey key
  · rw [KeyCrypto.encryptSecret, if_pos hsize, if_neg hsize]

/-- **`EncryptKeys` encrypts every key.** -/
theorem loop_encryptEntry (keys : List (SecretKey crypto.curve))
    (hsize : keys ≠ [] → masterKey.length = WALLET_CRYPTO_KEY_SIZE) (h : store.isCrypted) :
    EarlyExit.loop (encryptEntry crypto masterKey) store
        (keys.map fun key => (crypto.getID key.pubKey, key.plain)) = (true, store.withCrypted (keys.foldl
        (fun m key => m.insert (crypto.getID key.pubKey) (crypto.crypted masterKey key))
        store.mapCryptedKeys)) := by
  induction keys generalizing store with
  | nil => rfl
  | cons key keys ih =>
    have hsize : masterKey.length = WALLET_CRYPTO_KEY_SIZE := hsize (List.cons_ne_nil key keys)
    rw [List.map_cons, EarlyExit.loop, encryptEntry_eq h masterKey key, if_pos hsize, if_pos rfl]
    exact ih (fun _ => hsize) h

end CCryptoKeyStore

end Key

end MaryJaneCoin
