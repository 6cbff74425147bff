import MaryJaneCoin.Wallet.CryptoKeyStore

/-!
# Key lookups in an encrypted store

Any sequence of calls on a `CCryptoKeyStore`, beside the keys that were added.  A locked store
knows the same keys as an open one, and an open one gives them as they were added, but that
`GetKey` does not reset the object that it fills.
-/

namespace MaryJaneCoin

open Codec Std List Key.CCryptoKeyStore ExtTreeMap

namespace Key

section

variable {P K : Type} [AddCommGroup P]

inductive StoreCall (crypto : KeyCrypto P K)
  | encryptKeys (vMasterKeyIn : Bytes)
  | lock
  | unlock (vMasterKeyIn : Bytes)
  | addKey (key : SecretKey crypto.curve)
  | getKey (address : K) (keyOut : CKey P)
  | getPubKey (address : K)
  | haveKey (address : K)

/-- A key store, and what its owner knows: the keys added under the identifiers of their
public keys, and the master key that they are encrypted with. -/
structure OwnedStore (crypto : KeyCrypto P K) [Ord K] where
  store : CCryptoKeyStore K
  added : ExtTreeMap K (SecretKey crypto.curve)
  masterKey : Bytes

end

namespace OwnedStore

section

variable {P K : Type} [AddCommGroup P] [Ord K] [TransOrd K] {crypto : KeyCrypto P K}

def new : OwnedStore crypto := ⟨CCryptoKeyStore.new, ∅, []⟩

/-- The state after a call. -/
def step (state : OwnedStore crypto) : StoreCall crypto → OwnedStore crypto
  | .encryptKeys vMasterKeyIn =>
    { state with
      store := (state.store.encryptKeys crypto vMasterKeyIn).2
      masterKey :=
        if (state.store.encryptKeys crypto vMasterKeyIn).1 then vMasterKeyIn else state.masterKey }
  | .lock => { state with store := state.store.lock.2 }
  | .unlock vMasterKeyIn => { state with store := (state.store.unlock crypto vMasterKeyIn).2 }
  | .addKey key =>
    match state.store.addKey crypto key.toCKey with
    | some (true, store) =>
      { store
        added := state.added.insert (crypto.getID key.pubKey) key
        masterKey := if state.store.isCrypted then state.store.vMasterKey else state.masterKey }
    | some (false, store) => { state with store }
    | none => state
  | .getKey _ _ | .getPubKey _ | .haveKey _ => state

/-- The state after a sequence of calls on a new store. -/
def after (calls : List (StoreCall crypto)) : OwnedStore crypto := calls.foldl step new

/-- The store knows exactly the keys added, under the identifiers of their public keys. -/
def Knows (state : OwnedStore crypto) : Prop :=
  ∀ address,
    state.store.haveKey address = state.added[address]?.isSome ∧
      state.store.getPubKey crypto address = state.added[address]?.map SecretKey.pubKey ∧
      ∀ key, state.added[address]? = some key → crypto.getID key.pubKey = address

/-- What is asked of a call: the store knows the keys added afterwards, a locked store has no
secrets to give and another one gives the keys added, and only the master key opens it. -/
def Right (state : OwnedStore crypto) (call : StoreCall crypto) : Prop :=
  (state.step call).Knows ∧
    match call with
    | .getKey address keyOut =>
      state.store.getKey crypto address keyOut =
        if state.store.isLocked then some (false, keyOut)
        else some ((state.added[address]?.map fun key => (true, key.toCKey)).getD (false, keyOut))
    | .getPubKey address =>
      state.store.getPubKey crypto address = state.added[address]?.map SecretKey.pubKey
    | .haveKey address => state.store.haveKey address = state.added[address]?.isSome
    | .unlock vMasterKeyIn =>
      state.added ≠ ∅ → state.store.unlock crypto vMasterKeyIn =
          if state.store.isCrypted ∧ vMasterKeyIn = state.masterKey then
            (true, state.store.withMasterKey vMasterKeyIn)
          else (false, state.store)
    | _ => True

/-- The calls that the store answers as it should: no key with an uncompressed public key is
read from an unlocked encrypted store into an object that has its compressed flag set, and
keys are encrypted with a master key of 32 bytes. -/
def Fits (state : OwnedStore crypto) : StoreCall crypto → Prop
  | .getKey address keyOut =>
    ¬(state.store.isCrypted ∧ ¬state.store.isLocked ∧ keyOut.fCompressedPubKey ∧
      ∃ key, state.added[address]? = some key ∧ ¬key.fCompressed)
  | .encryptKeys vMasterKeyIn =>
    state.store.isCrypted ∨ state.added = ∅ ∨ vMasterKeyIn.length = WALLET_CRYPTO_KEY_SIZE
  | _ => True

end

end OwnedStore

namespace OwnedStore

variable {P K : Type} [AddCommGroup P] [Ord K] [TransOrd K] {crypto : KeyCrypto P K}
  {state : OwnedStore crypto}

/-- The states of a store whose calls all fit: the maps hold the keys added, in the clear or
under the master key, and a store is locked or has that key. -/
structure Sound (state : OwnedStore crypto) : Prop where
  address : ∀ (address : K) key, state.added[address]? = some key → crypto.getID key.pubKey = address
  plain : state.store.isCrypted = false →
    state.store.mapCryptedKeys = ∅ ∧ state.store.vMasterKey = [] ∧
      ∀ address : K, state.store.mapKeys[address]? = state.added[address]?.map SecretKey.plain
  crypted : state.store.isCrypted = true → (∀ address : K, state.store.mapCryptedKeys[address]? =
      state.added[address]?.map (crypto.crypted state.masterKey)) ∧
    (state.added ≠ ∅ → state.masterKey.length = WALLET_CRYPTO_KEY_SIZE ∧
      (state.store.vMasterKey = [] ∨ state.store.vMasterKey = state.masterKey))

/-- **The store knows the keys added.** -/
theorem Sound.knows (hsound : state.Sound) : state.Knows := by
  intro address
  refine ⟨?_, ?_, fun key => hsound.address address key⟩
  · cases hcrypted : state.store.isCrypted with
    | false =>
      rw [CCryptoKeyStore.haveKey, hcrypted, Bool.not_false, if_pos rfl,
        contains_eq_isSome_getElem?, (hsound.plain hcrypted).2.2, Option.isSome_map]
    | true =>
      rw [CCryptoKeyStore.haveKey, hcrypted, Bool.not_true, if_neg Bool.false_ne_true,
        contains_eq_isSome_getElem?, (hsound.crypted hcrypted).1, Option.isSome_map]
  · cases hcrypted : state.store.isCrypted with
    | false =>
      rw [CCryptoKeyStore.getPubKey, hcrypted, getPlainKey, (hsound.plain hcrypted).2.2]
      cases state.added[address]? with
      | none => rfl
      | some key =>
        rw [Option.map_some]
        simp only [Bool.not_false, key.setSecret_new]
        rfl
    | true =>
      rw [CCryptoKeyStore.getPubKey, hcrypted, (hsound.crypted hcrypted).1]
      cases state.added[address]? <;> rfl

theorem Sound.getKey_plain (hsound : state.Sound) (hplain : state.store.isCrypted = false)
    (address : K) (keyOut : CKey P) : state.store.getKey crypto address keyOut =
      some ((state.added[address]?.map fun key => (true, key.toCKey)).getD (false, keyOut)) := by
  rw [CCryptoKeyStore.getKey, hplain, getPlainKey, (hsound.plain hplain).2.2]
  cases state.added[address]? with
  | none => rfl
  | some key =>
    rw [Option.map_some]
    simp only [key.setSecret_new]
    rfl

theorem Sound.getKey_locked (hsound : state.Sound) (hlocked : state.store.isLocked) (address : K)
    (keyOut : CKey P) : state.store.getKey crypto address keyOut = some (false, keyOut) := by
  obtain ⟨hcrypted, hempty⟩ := Bool.and_eq_true_iff.mp hlocked
  have hmaster : state.store.vMasterKey = [] := List.isEmpty_iff.mp hempty
  rw [CCryptoKeyStore.getKey, hcrypted, (hsound.crypted hcrypted).1, hmaster]
  cases state.added[address]? with
  | none => rfl
  | some key => rfl

/-- **An unlocked encrypted store** gives the keys added, but that the compressed flag of the
object passed stays set. -/
theorem Sound.getKey_unlocked (hideal : IdealCipher crypto) (hsound : state.Sound)
    (hcrypted : state.store.isCrypted) (hlocked : ¬state.store.isLocked) (address : K) (keyOut : CKey P) :
    state.store.getKey crypto address keyOut = some ((state.added[address]?.map fun key =>
        (true, CKey.ofSecret crypto.curve key.bn
          (key.fCompressed || keyOut.fCompressedPubKey))).getD (false, keyOut)) := by
  rw [CCryptoKeyStore.getKey, hcrypted, (hsound.crypted hcrypted).1]
  cases hkey : state.added[address]? with
  | none => rfl
  | some key =>
    have hadded : state.added ≠ ∅ := fun h => by simp [h] at hkey
    obtain ⟨hsize, hmaster⟩ := (hsound.crypted hcrypted).2 hadded
    have hmaster : state.store.vMasterKey = state.masterKey := by
      refine hmaster.resolve_left fun h => hlocked ?_
      rw [isLocked, hcrypted, h]
      rfl
    have hread := KeyCrypto.decryptSecret_cryptedSecret hideal key hsize
    have hset := key.setPubKey_setSecret key.length_plain keyOut
    rw [key.ofBE_plain] at hset
    rw [Option.map_some, hmaster]
    simp only [KeyCrypto.crypted, hread, hset, key.length_plain]
    rfl

variable [LawfulEqOrd K]

theorem eq_empty_iff_added {β : Type} {m : ExtTreeMap K β} {f : SecretKey crypto.curve → β}
    (h : ∀ address : K, m[address]? = state.added[address]?.map f) : m = ∅ ↔ state.added = ∅ := by
  rw [FinMap.eq_empty_iff, FinMap.eq_empty_iff]
  apply forall_congr'
  intro address
  rw [h, Option.map_eq_none_iff]

/-- **Only the master key opens the store.** -/
theorem Sound.opensFirst_iff (hideal : IdealCipher crypto) (hsound : state.Sound)
    (hcrypted : state.store.isCrypted) (hadded : state.added ≠ ∅) (vMasterKeyIn : Bytes) :
    state.store.opensFirst crypto vMasterKeyIn = decide (vMasterKeyIn = state.masterKey) := by
  obtain ⟨hkeys, hmaster⟩ := hsound.crypted hcrypted
  obtain ⟨hsize, -⟩ := hmaster hadded
  unfold opensFirst
  cases hhead : state.store.mapCryptedKeys.toList.head? with
  | none =>
    have hempty : state.store.mapCryptedKeys = ∅ := by
      rw [← ExtTreeMap.isEmpty_iff, ← ExtTreeMap.isEmpty_toList, List.isEmpty_iff]
      exact head?_eq_none_iff.mp hhead
    exact absurd ((eq_empty_iff_added hkeys).mp hempty) hadded
  | some entry =>
    obtain ⟨address, entry⟩ := entry
    have hlook := mem_toList_iff_getElem?_eq_some.mp (mem_of_head? hhead)
    rw [hkeys, Option.map_eq_some_iff] at hlook
    obtain ⟨key, -, rfl⟩ := hlook
    have hset : ∀ vchSecret : Bytes, vchSecret.length = 32 →
        ((CKey.new.setPubKey crypto.curve key.pubKey).2.setSecret crypto.curve vchSecret
          false).bind (CKey.getPubKey crypto.curve) =
        some (crypto.curve.point2oct (if key.fCompressed then 2 else 4)
          (ofBE vchSecret • crypto.curve.G)) := by
      intro vchSecret hlength
      rw [key.setPubKey_setSecret hlength,
        show (CKey.new : CKey P).fCompressedPubKey = false from rfl, Bool.or_false]
      rfl
    simp only [KeyCrypto.crypted]
    cases hread : crypto.decryptSecret vMasterKeyIn (crypto.cryptedSecret state.masterKey key)
        (crypto.getHash key.pubKey) with
    | none =>
      rw [decide_eq_false]
      intro hsame
      rw [hsame, KeyCrypto.decryptSecret_cryptedSecret hideal key hsize] at hread
      cases hread
    | some vchSecret =>
      by_cases hsame : vMasterKeyIn = state.masterKey
      · rw [hsame, KeyCrypto.decryptSecret_cryptedSecret hideal key hsize] at hread
        cases hread
        simp only [key.length_plain, hset _ key.length_plain, key.ofBE_plain]
        simp [hsame, SecretKey.pubKey]
      · have hother := KeyCrypto.ne_of_decryptSecret hideal key hsize hsame hread
        rw [decide_eq_false hsame]
        by_cases hlength : vchSecret.length = 32
        · simp only [hlength, hset _ hlength, ne_eq, not_true_eq_false, if_false]
          rw [beq_eq_false_iff_ne]
          intro heq
          exact hother (eq_of_form_eq key.nsmul_ne_zero (Option.some.inj heq))
        · exact if_pos hlength

omit [LawfulEqOrd K] in
theorem sound_new : (new : OwnedStore crypto).Sound where
  address address key h := by simp [new] at h
  plain _ := ⟨rfl, rfl, fun address => by simp [new, CCryptoKeyStore.new]⟩
  crypted h := absurd h Bool.false_ne_true

omit [LawfulEqOrd K] in
theorem sound_of_empty (hadded : state.added = ∅) (hcrypted : state.store.isCrypted)
    (hkeys : state.store.mapCryptedKeys = ∅) : state.Sound where
  address address key h := by simp [hadded] at h
  plain h := absurd (h.symm.trans hcrypted) Bool.false_ne_true
  crypted _ := by
    refine ⟨fun address => ?_, fun h => absurd hadded h⟩
    rw [hadded, hkeys, ExtTreeMap.getElem?_empty, ExtTreeMap.getElem?_empty]
    rfl

theorem Sound.crypted_empty (hsound : state.Sound) (hadded : state.added = ∅) :
    state.store.mapCryptedKeys = ∅ := by
  cases hcrypted : state.store.isCrypted with
  | false => exact (hsound.plain hcrypted).1
  | true => exact (eq_empty_iff_added (hsound.crypted hcrypted).1).mpr hadded

/-- What `SetCrypted` does: nothing, but that a store without keys becomes encrypted. -/
theorem Sound.setCrypted (hsound : state.Sound) :
    (state.store.setCrypted = (true, state.store) ∧ state.store.isCrypted) ∨
      (state.store.setCrypted = (true, state.store.asCrypted) ∧ state.added = ∅) ∨
      (state.store.setCrypted = (false, state.store) ∧ state.added ≠ ∅ ∧ state.store.isCrypted = false) := by
  cases hcrypted : state.store.isCrypted with
  | true => exact .inl ⟨setCrypted_of_isCrypted hcrypted, rfl⟩
  | false =>
    have hempty := eq_empty_iff_added (hsound.plain hcrypted).2.2
    by_cases hadded : state.added = ∅
    · exact .inr (.inl ⟨setCrypted_of_isEmpty (hempty.mpr hadded), hadded⟩)
    · refine .inr (.inr ⟨?_, hadded, rfl⟩)
      exact setCrypted_of_plain hcrypted fun h => hadded (hempty.mp h)

theorem Sound.lock (hsound : state.Sound) : (state.step .lock).Sound := by
  rw [step, CCryptoKeyStore.lock]
  rcases hsound.setCrypted with ⟨heq, hcrypted⟩ | ⟨heq, hadded⟩ | ⟨heq, hadded, hplain⟩
  · rw [heq]
    refine ⟨hsound.address, fun h => absurd (h.symm.trans hcrypted) Bool.false_ne_true, fun h => ?_⟩
    obtain ⟨hkeys, hmaster⟩ := hsound.crypted hcrypted
    exact ⟨hkeys, fun hadded => ⟨(hmaster hadded).1, .inl rfl⟩⟩
  · rw [heq]
    exact sound_of_empty hadded rfl (hsound.crypted_empty hadded)
  · rw [heq]
    exact hsound

/-- **What `Unlock` answers** in a store with keys. -/
theorem Sound.unlock_eq (hideal : IdealCipher crypto) (hsound : state.Sound)
    (hadded : state.added ≠ ∅) (vMasterKeyIn : Bytes) : state.store.unlock crypto vMasterKeyIn =
      if state.store.isCrypted ∧ vMasterKeyIn = state.masterKey then
        (true, state.store.withMasterKey vMasterKeyIn)
      else (false, state.store) := by
  rw [CCryptoKeyStore.unlock]
  rcases hsound.setCrypted with ⟨heq, hcrypted⟩ | ⟨-, hempty⟩ | ⟨heq, -, hplain⟩
  · rw [heq, hsound.opensFirst_iff hideal hcrypted hadded]
    by_cases hsame : vMasterKeyIn = state.masterKey
    · have hright : state.store.isCrypted ∧ vMasterKeyIn = state.masterKey := ⟨hcrypted, hsame⟩
      rw [decide_eq_true hsame, if_pos hright]
      rfl
    · have hwrong : ¬(state.store.isCrypted ∧ vMasterKeyIn = state.masterKey) := fun h => hsame h.2
      rw [decide_eq_false hsame, if_neg hwrong]
      rfl
  · exact absurd hempty hadded
  · have hwrong : ¬(state.store.isCrypted ∧ vMasterKeyIn = state.masterKey) :=
      fun h => absurd (hplain.symm.trans h.1) Bool.false_ne_true
    rw [heq, if_neg hwrong]
    rfl

theorem Sound.unlock (hideal : IdealCipher crypto) (hsound : state.Sound) (vMasterKeyIn : Bytes) :
    (state.step (.unlock vMasterKeyIn)).Sound := by
  by_cases hadded : state.added = ∅
  · rw [step, CCryptoKeyStore.unlock]
    have hkeys := hsound.crypted_empty hadded
    rcases hsound.setCrypted with ⟨heq, hcrypted⟩ | ⟨heq, -⟩ | ⟨-, hne, -⟩
    · rw [heq]
      rw [opensFirst_of_empty hkeys]
      exact sound_of_empty hadded hcrypted hkeys
    · rw [heq]
      have hkeys' : state.store.asCrypted.mapCryptedKeys = ∅ := hkeys
      rw [opensFirst_of_empty hkeys']
      exact sound_of_empty hadded rfl hkeys
    · exact absurd hadded hne
  · rw [step, hsound.unlock_eq hideal hadded]
    split
    · next h =>
        obtain ⟨hcrypted, hsame⟩ := h
        obtain ⟨hkeys, hmaster⟩ := hsound.crypted hcrypted
        refine ⟨hsound.address, fun h => absurd (h.symm.trans hcrypted) Bool.false_ne_true, fun _ => ?_⟩
        exact ⟨hkeys, fun hadded => ⟨(hmaster hadded).1, .inr hsame⟩⟩
    · exact hsound

theorem Sound.addKey (hsound : state.Sound) (key : SecretKey crypto.curve) :
    (state.step (.addKey key)).Sound := by
  have hpub : key.toCKey.getPubKey crypto.curve = some key.pubKey := rfl
  have hsecret : key.toCKey.getSecret = some key.plain := rfl
  have haddress : ∀ (address : K) key',
      (state.added.insert (crypto.getID key.pubKey) key)[address]? = some key' →
        crypto.getID key'.pubKey = address := by
    intro address key' hlook
    rw [ExtTreeMap.getElem?_insert] at hlook
    split at hlook
    · next heq =>
        cases hlook
        exact LawfulEqCmp.eq_of_compare heq
    · exact hsound.address address key' hlook
  cases hcrypted : state.store.isCrypted with
  | false =>
    obtain ⟨hkeys, hmaster, hplain⟩ := hsound.plain hcrypted
    rw [step, CCryptoKeyStore.addKey, hcrypted, addPlainKey, hpub, hsecret]
    refine ⟨haddress, fun _ => ⟨hkeys, hmaster, fun address => ?_⟩,
      fun h => absurd (hcrypted.symm.trans h) Bool.false_ne_true⟩
    show (state.store.mapKeys.insert _ key.plain)[address]? =
      Option.map SecretKey.plain (state.added.insert (crypto.getID key.pubKey) key)[address]?
    rw [ExtTreeMap.getElem?_insert, ExtTreeMap.getElem?_insert, hplain]
    split <;> rfl
  | true =>
    obtain ⟨hkeys, hmaster⟩ := hsound.crypted hcrypted
    cases hlocked : state.store.isLocked with
    | true =>
      rw [step, CCryptoKeyStore.addKey, hcrypted, hlocked]
      exact hsound
    | false =>
      rw [step, CCryptoKeyStore.addKey, hcrypted, hlocked, hpub, hsecret]
      by_cases hsize : state.store.vMasterKey.length = WALLET_CRYPTO_KEY_SIZE
      · have hencrypt := KeyCrypto.encryptSecret_eq key hsize
        have hadd := addCryptedKey_eq hcrypted state.store.vMasterKey key
        simp only [Option.bind_some, Option.map_some, hencrypt, hadd]
        refine ⟨haddress, fun h => absurd (h.symm.trans hcrypted) Bool.false_ne_true, fun _ => ?_⟩
        refine ⟨fun address => ?_, fun _ => ⟨hsize, .inr rfl⟩⟩
        -- the keys before it are encrypted with the same master key
        have hbefore : state.store.mapCryptedKeys[address]? =
            state.added[address]?.map (crypto.crypted state.store.vMasterKey) := by
          rw [hkeys]
          by_cases hadded : state.added = ∅
          · rw [hadded, ExtTreeMap.getElem?_empty]
            rfl
          · have hne : state.store.vMasterKey ≠ [] := by
              intro h
              rw [h] at hsize
              cases hsize
            rw [(hmaster hadded).2.resolve_left hne]
        show (state.store.mapCryptedKeys.insert _ _)[address]? =
          Option.map (crypto.crypted state.store.vMasterKey)
            (state.added.insert (crypto.getID key.pubKey) key)[address]?
        rw [ExtTreeMap.getElem?_insert, ExtTreeMap.getElem?_insert, hbefore]
        split <;> rfl
      · have hencrypt : crypto.encryptSecret state.store.vMasterKey key.plain.1
            (crypto.getHash key.pubKey) = none := if_pos hsize
        simp only [Option.bind_some, Option.map_some, hencrypt]
        exact hsound

theorem Sound.toList_mapKeys (hsound : state.Sound) (hplain : state.store.isCrypted = false) :
    ∃ keys : List (SecretKey crypto.curve), state.store.mapKeys.toList =
      keys.map fun key => (crypto.getID key.pubKey, key.plain) := by
  have hentries : state.store.mapKeys.toList ∈ Set.range (List.map
      fun key : SecretKey crypto.curve => (crypto.getID key.pubKey, key.plain)) := by
    rw [Set.range_list_map]
    intro entry hentry
    have hlook := mem_toList_iff_getElem?_eq_some.mp hentry
    rw [(hsound.plain hplain).2.2, Option.map_eq_some_iff] at hlook
    obtain ⟨key, hkey, hsecret⟩ := hlook
    exact ⟨key, Prod.ext (hsound.address _ key hkey) hsecret⟩
  obtain ⟨keys, hkeys⟩ := hentries
  exact ⟨keys, hkeys.symm⟩

/-- **The encrypted keys are those that were there.** -/
theorem Sound.encrypted (hsound : state.Sound) (hplain : state.store.isCrypted = false)
    {keys : List (SecretKey crypto.curve)} (hkeys : state.store.mapKeys.toList =
      keys.map fun key => (crypto.getID key.pubKey, key.plain)) (masterKey : Bytes) (address : K) :
    (keys.foldl (fun m key => m.insert (crypto.getID key.pubKey) (crypto.crypted masterKey key))
        (∅ : ExtTreeMap K (CPubKey × Bytes)))[address]? =
      state.added[address]?.map (crypto.crypted masterKey) := by
  have hmem : ∀ key : SecretKey crypto.curve,
      (crypto.getID key.pubKey, key.plain) ∈ state.store.mapKeys.toList ↔
        state.added[crypto.getID key.pubKey]? = some key := by
    intro key
    rw [mem_toList_iff_getElem?_eq_some, (hsound.plain hplain).2.2, Option.map_eq_some_iff]
    constructor
    · intro ⟨key', hlook, hsame⟩
      rw [hlook, SecretKey.plain_injective hsame]
    · intro hlook
      exact ⟨key, hlook, rfl⟩
  rcases FinMap.getElem?_foldl_insert (fun key : SecretKey crypto.curve => crypto.getID key.pubKey)
    (crypto.crypted masterKey) keys ∅ address with ⟨hne, hlook⟩ | ⟨key, hkey, rfl, hlook⟩
  · rw [hlook, ExtTreeMap.getElem?_empty]
    cases hadded : state.added[address]? with
    | none => rfl
    | some key =>
      have haddress := hsound.address address key hadded
      have hin := (hmem key).mpr (haddress.symm ▸ hadded)
      rw [hkeys, mem_map] at hin
      obtain ⟨key', hkey', hsame⟩ := hin
      exact absurd ((congrArg Prod.fst hsame).trans haddress) (hne key' hkey')
  · have hin : (crypto.getID key.pubKey, key.plain) ∈ state.store.mapKeys.toList :=
      hkeys ▸ mem_map_of_mem hkey
    rw [hlook, (hmem key).mp hin]
    rfl

theorem Sound.encryptKeys (hsound : state.Sound) {vMasterKeyIn : Bytes} (hfits : state.Fits
    (.encryptKeys vMasterKeyIn)) : (state.step (.encryptKeys vMasterKeyIn)).Sound := by
  cases hcrypted : state.store.isCrypted with
  | true =>
    rw [step, CCryptoKeyStore.encryptKeys, hcrypted, Bool.or_true]
    exact hsound
  | false =>
    obtain ⟨hnone, hmaster, hplain⟩ := hsound.plain hcrypted
    obtain ⟨keys, hkeys⟩ := hsound.toList_mapKeys hcrypted
    have hsize : keys ≠ [] → vMasterKeyIn.length = WALLET_CRYPTO_KEY_SIZE := by
      intro hne
      rcases hfits with h | h | h
      · exact absurd (hcrypted.symm.trans h) Bool.false_ne_true
      · have hempty := (eq_empty_iff_added hplain).mpr h
        rw [← ExtTreeMap.isEmpty_iff, ← ExtTreeMap.isEmpty_toList, hkeys, List.isEmpty_iff,
          map_eq_nil_iff] at hempty
        exact absurd hempty hne
      · exact h
    have hloop := loop_encryptEntry keys hsize
      (show state.store.asCrypted.isCrypted from rfl)
    rw [show state.store.asCrypted.mapCryptedKeys = ∅ from hnone] at hloop
    have hdone : state.store.encryptKeys crypto vMasterKeyIn =
        (true, { state.store.asCrypted.withCrypted (keys.foldl (fun m key =>
          m.insert (crypto.getID key.pubKey) (crypto.crypted vMasterKeyIn key)) ∅) with
            mapKeys := ∅ }) := by
      rw [CCryptoKeyStore.encryptKeys, hcrypted, hnone, hkeys, hloop]
      simp
    rw [step, hdone]
    refine ⟨hsound.address, fun h => absurd h.symm Bool.false_ne_true, fun _ => ?_⟩
    refine ⟨hsound.encrypted hcrypted hkeys vMasterKeyIn, fun hadded => ⟨?_, .inl hmaster⟩⟩
    refine hsize fun h => hadded ((eq_empty_iff_added hplain).mp ?_)
    rw [← ExtTreeMap.isEmpty_iff, ← ExtTreeMap.isEmpty_toList, hkeys, h]
    rfl

/-- **Every call that fits keeps the store sound.** -/
theorem Sound.next (hideal : IdealCipher crypto) (hsound : state.Sound) {call : StoreCall crypto}
    (hfits : state.Fits call) : (state.step call).Sound := by
  cases call with
  | encryptKeys vMasterKeyIn => exact hsound.encryptKeys hfits
  | lock => exact hsound.lock
  | unlock vMasterKeyIn => exact hsound.unlock hideal vMasterKeyIn
  | addKey key => exact hsound.addKey key
  | getKey address keyOut => exact hsound
  | getPubKey address => exact hsound
  | haveKey address => exact hsound

omit [LawfulEqOrd K] in
/-- **`GetKey` answers as it should** in the calls that fit. -/
theorem Sound.right_getKey (hideal : IdealCipher crypto) (hsound : state.Sound) {address : K}
    {keyOut : CKey P} (hfits : state.Fits (.getKey address keyOut)) :
    state.Right (.getKey address keyOut) := by
  refine ⟨hsound.knows, ?_⟩
  show state.store.getKey crypto address keyOut = _
  by_cases hlocked : state.store.isLocked = true
  · rw [if_pos hlocked, hsound.getKey_locked hlocked]
  rw [if_neg hlocked]
  cases hcrypted : state.store.isCrypted with
  | false => exact hsound.getKey_plain hcrypted address keyOut
  | true =>
    rw [hsound.getKey_unlocked hideal hcrypted hlocked]
    cases hadded : state.added[address]? with
    | none => rfl
    | some key =>
      have hflag : (key.fCompressed || keyOut.fCompressedPubKey) = key.fCompressed := by
        cases hkey : key.fCompressed with
        | true => rfl
        | false =>
          rw [Bool.false_or, ← Bool.not_eq_true]
          intro hset
          exact hfits ⟨hcrypted, hlocked, hset, key, hadded, by simp [hkey]⟩
      simp only [Option.map_some, hflag]
      rfl

theorem Sound.right (hideal : IdealCipher crypto) (hsound : state.Sound) {call : StoreCall crypto}
    (hfits : state.Fits call) : state.Right call := by
  have hknows := (hsound.next hideal hfits).knows
  cases call with
  | encryptKeys vMasterKeyIn => exact ⟨hknows, trivial⟩
  | lock => exact ⟨hknows, trivial⟩
  | unlock vMasterKeyIn =>
    exact ⟨hknows, fun hadded => hsound.unlock_eq hideal hadded vMasterKeyIn⟩
  | addKey key => exact ⟨hknows, trivial⟩
  | getKey address keyOut => exact hsound.right_getKey hideal hfits
  | getPubKey address => exact ⟨hknows, (hknows address).2.1⟩
  | haveKey address => exact ⟨hknows, (hknows address).1⟩

theorem Sound.not_knows_encryptKeys (hsound : state.Sound) (hplain : state.store.isCrypted = false)
    (hadded : state.added ≠ ∅) {vMasterKeyIn : Bytes} (hsize : vMasterKeyIn.length ≠ WALLET_CRYPTO_KEY_SIZE) :
    ¬(state.step (.encryptKeys vMasterKeyIn)).Knows := by
  obtain ⟨hnone, -, hkeys⟩ := hsound.plain hplain
  obtain ⟨keys, hlist⟩ := hsound.toList_mapKeys hplain
  cases keys with
  | nil =>
    have hempty : state.store.mapKeys = ∅ := by
      rw [← ExtTreeMap.isEmpty_iff, ← ExtTreeMap.isEmpty_toList, hlist]
      rfl
    exact absurd ((eq_empty_iff_added hkeys).mp hempty) hadded
  | cons key keys =>
    have hentry := encryptEntry_eq (show state.store.asCrypted.isCrypted from rfl)
      vMasterKeyIn key (crypto.getID key.pubKey)
    rw [if_neg hsize] at hentry
    have hfail : state.store.encryptKeys crypto vMasterKeyIn = (false, state.store.asCrypted) := by
      rw [CCryptoKeyStore.encryptKeys, hplain, hnone, hlist, map_cons, EarlyExit.loop, hentry]
      simp
    intro hknows
    have hlook : state.added[crypto.getID key.pubKey]? ≠ none := by
      intro h
      have hmem : (crypto.getID key.pubKey, key.plain) ∈ state.store.mapKeys.toList := by
        rw [hlist]
        exact mem_cons_self
      rw [mem_toList_iff_getElem?_eq_some, hkeys, h] at hmem
      cases hmem
    have hhave := (hknows (crypto.getID key.pubKey)).1
    rw [step, hfail] at hhave
    have hhidden : state.store.asCrypted.haveKey (crypto.getID key.pubKey) = false := by
      show state.store.mapCryptedKeys.contains _ = false
      rw [hnone, contains_empty]
    rw [hhidden] at hhave
    exact hlook (Option.isNone_iff_eq_none.mp (Option.isSome_eq_false_iff.mp hhave.symm))

/-- **The calls that are answered as they should are those that fit.** -/
theorem Sound.right_iff (hideal : IdealCipher crypto) (hsound : state.Sound)
    (call : StoreCall crypto) : state.Right call ↔ state.Fits call := by
  refine ⟨fun hright => ?_, hsound.right hideal⟩
  cases call with
  | getKey address keyOut =>
    intro ⟨hcrypted, hlocked, hflag, key, hadded, hkey⟩
    have hanswer := hright.2
    simp only [hsound.getKey_unlocked hideal hcrypted hlocked, if_neg hlocked, hadded,
      Option.map_some, Option.getD_some, Option.some.injEq, Prod.mk.injEq, true_and] at hanswer
    have hform := congrArg CKey.fCompressedPubKey hanswer
    have hsame : (key.fCompressed || keyOut.fCompressedPubKey) = key.fCompressed := hform
    rw [hflag, Bool.or_true] at hsame
    exact hkey hsame.symm
  | encryptKeys vMasterKeyIn =>
    by_contra hnot
    obtain ⟨hplain, hnot⟩ := not_or.mp hnot
    obtain ⟨hadded, hsize⟩ := not_or.mp hnot
    exact hsound.not_knows_encryptKeys (Bool.not_eq_true _ ▸ hplain) hadded hsize hright.1
  | lock => trivial
  | unlock vMasterKeyIn => trivial
  | addKey key => trivial
  | getPubKey address => trivial
  | haveKey address => trivial

omit [LawfulEqOrd K] in
theorem after_append (calls : List (StoreCall crypto)) (call : StoreCall crypto) :
    after (calls ++ [call]) = (after calls).step call := by
  rw [after, foldl_concat]
  rfl

theorem sound_after (hideal : IdealCipher crypto) {calls : List (StoreCall crypto)}
    (hfits : ∀ before call, before ++ [call] <+: calls → (after before).Fits call) : (after calls).Sound := by
  induction calls using List.reverseRecOn with
  | nil => exact sound_new
  | append_singleton calls call ih =>
    rw [after_append]
    refine (ih fun before call' hpre => ?_).next hideal (hfits calls call (prefix_refl _))
    exact hfits before call' (hpre.trans (prefix_append _ _))

/-- **Encryption is transparent to key lookups exactly when every call fits.** -/
theorem lookups_right_iff (hideal : IdealCipher crypto) (calls : List (StoreCall crypto)) :
    (∀ before call, before ++ [call] <+: calls → (after before).Right call) ↔
      ∀ before call, before ++ [call] <+: calls → (after before).Fits call := by
  constructor
  · intro hright
    induction calls using List.reverseRecOn with
    | nil =>
      intro before call hpre
      exact absurd (prefix_nil.mp hpre) (by simp)
    | append_singleton calls last ih =>
      have hfits := ih fun before call hpre =>
        hright before call (hpre.trans (prefix_append _ _))
      intro before call hpre
      rcases prefix_concat_iff.mp hpre with heq | hpre
      · obtain ⟨rfl, hsame⟩ := append_inj' heq rfl
        obtain rfl := singleton_inj.mp hsame
        exact ((sound_after hideal hfits).right_iff hideal call).mp (hright before call hpre)
      · exact hfits before call hpre
  · intro hfits before call hpre
    have hsound : (after before).Sound := sound_after hideal fun before' call' hpre' =>
      hfits before' call' (hpre'.trans ((prefix_append _ _).trans hpre))
    exact (hsound.right_iff hideal call).mpr (hfits before call hpre)

end OwnedStore

/-- A cipher that puts its key in front of the text. -/
def sampleKeyCrypto : KeyCrypto SamplePoint Nat where
  curve := sampleOctets
  getID vchPubKey := ofBE (sampleHashes.hash160 vchPubKey).toList
  getHash := sampleHashes.hash256
  encrypt vchKey _ vchPlaintext := vchKey ++ vchPlaintext
  decrypt vchKey _ vchCiphertext :=
    if vchCiphertext.take WALLET_CRYPTO_KEY_SIZE = vchKey then
      some (vchCiphertext.drop WALLET_CRYPTO_KEY_SIZE)
    else none

theorem idealCipher_sample : IdealCipher sampleKeyCrypto where
  decrypt_encrypt vchKey vchIV vchPlaintext hsize := by
    show (if (vchKey ++ vchPlaintext).take WALLET_CRYPTO_KEY_SIZE = vchKey then
      some ((vchKey ++ vchPlaintext).drop WALLET_CRYPTO_KEY_SIZE) else none) = _
    rw [if_pos (take_left' hsize), drop_left' hsize]
  wrong_key vchKey vchKey' vchIV vchPlaintext vchPlaintext' hsize _ hne h := by
    change (if (vchKey ++ vchPlaintext).take WALLET_CRYPTO_KEY_SIZE = vchKey' then _ else _) = _ at h
    rw [take_left' hsize, if_neg hne.symm] at h
    cases h

/-- A secret whose public key is not compressed. -/
def plainSecret : SecretKey sampleKeyCrypto.curve := ⟨7, false, by decide, by decide⟩

def sampleMasterKey : Bytes := List.replicate 32 9

/-- A key is added, the store encrypted and opened. -/
def openedCalls : List (StoreCall sampleKeyCrypto) :=
  [.addKey plainSecret, .encryptKeys sampleMasterKey, .unlock sampleMasterKey]

/-- An object that held a compressed key before. -/
def usedKey : CKey SamplePoint := CKey.ofSecret sampleOctets 5 true

/-- The uncompressed key comes out compressed, and its identifier is another one. -/
theorem getKey_usedKey_wrong : ¬(OwnedStore.after openedCalls).Right
      (.getKey (sampleKeyCrypto.getID plainSecret.pubKey) usedKey) := by
  intro hright
  have hflag := congrArg (Option.map fun out => out.2.fCompressedPubKey) hright.2
  exact absurd hflag (by decide +kernel)

theorem lookups_right_openedCalls : (OwnedStore.after openedCalls).Right (.getKey
    (sampleKeyCrypto.getID plainSecret.pubKey) CKey.new) ∧
      (OwnedStore.after (openedCalls ++ [.getKey (sampleKeyCrypto.getID plainSecret.pubKey) CKey.new])).Right
        .lock := by
  have hright := (OwnedStore.lookups_right_iff idealCipher_sample
    (openedCalls ++ [.getKey (sampleKeyCrypto.getID plainSecret.pubKey) CKey.new, .lock])).mpr ?_
  · exact ⟨hright openedCalls _ ⟨[.lock], by rw [append_assoc, singleton_append]⟩,
      hright _ .lock ⟨[], by rw [append_nil, append_assoc, singleton_append]⟩⟩
  · intro before call hpre
    have hmem := hpre.subset (mem_append_right before mem_cons_self)
    simp only [openedCalls, cons_append, nil_append, List.mem_cons, not_mem_nil, or_false] at hmem
    rcases hmem with rfl | rfl | rfl | rfl | rfl
    · trivial
    · exact .inr (.inr rfl)
    · trivial
    · intro ⟨_, _, hflag, _⟩
      cases hflag
    · trivial

end Key

end MaryJaneCoin
