import MaryJaneCoin.Wallet.SpentRun
import MaryJaneCoin.Wallet.StealthPayment

/-!
# Stealth payments that arrive

`AddToWalletIfInvolvingMe` on a transaction with a stealth payment, over the keys of the curve
and the scripts that `IsMine` solves.  The key of the payment is imported when the wallet can
read the secrets of the address at that moment.
-/

namespace MaryJaneCoin

open List hiding Vector
open Std Codec ExtTreeMap Key.CKey

namespace WalletKeys

variable {source : KeySource} {keys mid after : WalletKeys} {keyID : CKeyID}

/-- The key store may have more keys, but not when the wallet is locked. -/
structure Grows (keys after : WalletKeys) : Prop where
  haveKey : ∀ keyID, keys.haveKey keyID → after.haveKey keyID
  fLocked : after.fLocked = keys.fLocked
  locked : keys.fLocked = true → after.keyStore = keys.keyStore

theorem Grows.refl (keys : WalletKeys) : Grows keys keys := ⟨fun _ h => h, rfl, fun _ => rfl⟩

theorem Grows.of_eq (hstore : after.keyStore = keys.keyStore)
    (hlocked : after.fLocked = keys.fLocked) : Grows keys after :=
  ⟨fun keyID h => by rw [WalletKeys.haveKey, hstore]; exact h, hlocked, fun _ => hstore⟩

theorem Grows.trans (h : Grows keys mid) (h' : Grows mid after) : Grows keys after :=
  ⟨fun keyID hkey => h'.haveKey keyID (h.haveKey keyID hkey), h'.fLocked.trans h.fLocked,
    fun hlocked => (h'.locked (h.fLocked.trans hlocked)).trans (h.locked hlocked)⟩

theorem Grows.of_cons (hlocked : keys.fLocked = false) (hstore : after.keyStore = keyID :: keys.keyStore)
    (hsame : after.fLocked = keys.fLocked) : Grows keys after := by
  refine ⟨fun keyID h => ?_, hsame, fun h => absurd (hlocked.symm.trans h) Bool.false_ne_true⟩
  rw [WalletKeys.haveKey, hstore, contains_cons, Bool.or_eq_true]
  exact .inr h

theorem grows_addKey (keys : WalletKeys) (key : CPubKey) : Grows keys (keys.addKey source key) := by
  rw [addKey]
  cases hlocked : keys.fLocked with
  | true => exact .refl keys
  | false =>
    rw [if_neg Bool.false_ne_true]
    exact .of_cons hlocked rfl hlocked.symm

theorem grows_addPoolKey (hlocked : keys.fLocked = false) : Grows keys (keys.addPoolKey source) :=
  .of_cons hlocked rfl rfl

theorem grows_topUpKeyPool (keys : WalletKeys) : Grows keys (keys.topUpKeyPool source) := by
  rw [topUpKeyPool]
  cases hlocked : keys.fLocked with
  | true => exact .refl keys
  | false =>
    show Grows keys ((addPoolKey source)^[_] keys)
    generalize (source.nTargetSize + 1).toNat - keys.setKeyPool.card = rounds
    induction rounds with
    | zero => exact .refl keys
    | succ rounds ih =>
      rw [Function.iterate_succ_apply']
      exact ih.trans (grows_addPoolKey (ih.fLocked.trans hlocked))

theorem grows_reserveKeyFromKeyPool {drawn : Option (Nat × CPubKey)}
    (h : keys.reserveKeyFromKeyPool source = some (drawn, after)) : Grows keys after := by
  rw [reserveKeyFromKeyPool] at h
  have htop : Grows keys (keys.topUpKeyPool source) := grows_topUpKeyPool keys
  split at h
  · simp only at h
    split at h
    · cases h
    · split at h
      · obtain ⟨-, rfl⟩ := Prod.mk.inj (Option.some.inj h)
        exact htop.trans (.of_eq rfl rfl)
      · cases h
  · obtain ⟨-, rfl⟩ := Prod.mk.inj (Option.some.inj h)
    exact htop

theorem grows_getKeyFromPool {drawn : Option CPubKey}
    (h : keys.getKeyFromPool source false = some (drawn, after)) : Grows keys after := by
  rw [getKeyFromPool] at h
  cases hreserve : keys.reserveKeyFromKeyPool source with
  | none =>
    rw [hreserve] at h
    cases h
  | some reserved =>
    obtain ⟨reserved, mid⟩ := reserved
    have hmid := grows_reserveKeyFromKeyPool hreserve
    rw [hreserve] at h
    cases reserved with
    | some reserved =>
      obtain ⟨-, rfl⟩ := Prod.mk.inj (Option.some.inj h)
      exact hmid.trans (.of_eq rfl rfl)
    | none =>
      simp only [Bool.false_and, Bool.false_eq_true, if_false] at h
      cases hlocked : mid.fLocked with
      | true =>
        rw [hlocked, if_pos rfl] at h
        obtain ⟨-, rfl⟩ := Prod.mk.inj (Option.some.inj h)
        exact hmid
      | false =>
        rw [hlocked, if_neg Bool.false_ne_true] at h
        obtain ⟨-, rfl⟩ := Prod.mk.inj (Option.some.inj h)
        exact hmid.trans (.of_cons hlocked rfl rfl)

/-- **`AddToWallet` draws keys**, but not when the wallet is locked. -/
theorem grows_renewDefaultKeys {vout : List CTxOut}
    (h : keys.renewDefaultKeys source vout = some after) : Grows keys after := by
  refine OptionLoop.foldlM_invariant (Grows keys) (fun txout _ mid after hmid hstep => ?_) h (.refl keys)
  rw [renewAt] at hstep
  split at hstep
  · obtain ⟨drawn, hdrawn, hafter⟩ := Option.map_eq_some_iff.mp hstep
    refine hmid.trans ?_
    obtain ⟨drawn, next⟩ := drawn
    have hnext := grows_getKeyFromPool hdrawn
    cases drawn with
    | none => exact hafter ▸ hnext
    | some newDefaultKey => exact hafter ▸ hnext.trans (.of_eq rfl rfl)
  · exact Option.some.inj hstep ▸ hmid

end WalletKeys

def haveKeys (hashes : ScriptHashes) (keyStore : List CKeyID) (pubkeys : List Bytes) : Nat :=
  pubkeys.countP fun pubkey => keyStore.contains (hashes.hash160 pubkey)

/-- `IsMine`, of a script, for redeem scripts that are nested so deep at most. -/
def isMine (hashes : ScriptHashes) (getCScript : Vector UInt8 20 → Option CScript)
    (keyStore : List CKeyID) : Nat → CScript → Bool
  | 0, _ => false
  | nDepth + 1, scriptPubKey =>
    match solver scriptPubKey with
    | some (.TX_PUBKEY, vSolutions) => keyStore.contains (hashes.hash160 (vSolutions.headD []))
    | some (.TX_PUBKEYHASH, vSolutions) => keyStore.contains (uint160 (vSolutions.headD []))
    | some (.TX_SCRIPTHASH, vSolutions) =>
      match getCScript (uint160 (vSolutions.headD [])) with
      | none => false
      | some subscript => isMine hashes getCScript keyStore nDepth subscript
    | some (.TX_MULTISIG, vSolutions) =>
      haveKeys hashes keyStore vSolutions.tail.dropLast == vSolutions.tail.dropLast.length
    | _ => false

/-- **A script with a key as its destination** is the wallet's when it has the key. -/
theorem isMine_of_extractDestination {hashes : ScriptHashes}
    {getCScript : Vector UInt8 20 → Option CScript} {keyStore : List CKeyID} {nDepth : Nat}
    {script : CScript} {keyID : CKeyID} (h : extractDestination hashes script = some (.keyID keyID)) :
    isMine hashes getCScript keyStore (nDepth + 1) script = keyStore.contains keyID := by
  rw [extractDestination] at h
  rw [isMine]
  split at h
  · next hsolved =>
      rw [hsolved, ← CTxDestination.keyID.inj (Option.some.inj h)]
  · next hsolved =>
      rw [hsolved, ← CTxDestination.keyID.inj (Option.some.inj h)]
  · cases Option.some.inj h
  · cases h

/-- What a wallet with stealth addresses runs on: the curve and the hashes, the secret keys
that the key store holds under their identifiers, and its redeem scripts. -/
structure StealthCrypto (P : Type) [AddCommGroup P] where
  curve : Secp256k1Octets P
  hashes : ScriptHashes
  secretOf : CKeyID → Key.CKey P
  getCScript : Vector UInt8 20 → Option CScript
  nDepth : Nat

namespace StealthCrypto

section

variable {P H : Type} [AddCommGroup P] [DecidableEq P] (crypto : StealthCrypto P)

/-- `DetectStealthPayment`, and `GetPubKey` of what it finds. -/
def detect (scanPubKey ephemeralPubKey spendPubKey : CPubKey) : Option CPubKey :=
  (Key.detectStealthPayment crypto.curve crypto.hashes
    (crypto.secretOf (crypto.hashes.hash160 scanPubKey)) ephemeralPubKey spendPubKey
    new).bind (getPubKey crypto.curve)

/-- `ComputeStealthSharedSecret` and `DeriveStealthSpendKey`. -/
def deriveSpendKey (scanPubKey ephemeralPubKey spendPubKey : CPubKey) : Option (Key.CKey P) :=
  (Key.computeStealthSharedSecret crypto.curve crypto.hashes.sha256
      (crypto.secretOf (crypto.hashes.hash160 scanPubKey)) ephemeralPubKey).bind fun sharedSecret =>
    Key.deriveStealthSpendKey crypto.curve crypto.hashes
      (crypto.secretOf (crypto.hashes.hash160 spendPubKey)) sharedSecret new

/-- The world of a wallet, over this cryptography. -/
def withCrypto (world : StealthWorld H) : StealthWorld H :=
  { world with
    getID := crypto.hashes.hash160
    isMine := fun keyStore => isMine crypto.hashes crypto.getCScript keyStore (crypto.nDepth + 1)
    extractDestination := extractDestination crypto.hashes
    detectStealthPayment := crypto.detect
    deriveStealthSpendKey := fun scanPubKey ephemeralPubKey spendPubKey =>
      (crypto.deriveSpendKey scanPubKey ephemeralPubKey spendPubKey).bind
        (getPubKey crypto.curve) }

end

/-- The wallet holds the scan key and the spend key of an address. -/
structure HoldsAddress {P : Type} [AddCommGroup P] (crypto : StealthCrypto P) (keys : WalletKeys)
    (address : CStealthAddress) extends Key.AddressKeys crypto.curve address where
  scan_eq : scan = crypto.secretOf (crypto.hashes.hash160 address.scanPubKey)
  spend_eq : spend = crypto.secretOf (crypto.hashes.hash160 address.spendPubKey)
  haveScan : keys.haveKey (crypto.hashes.hash160 address.scanPubKey) = true
  haveSpend : keys.haveKey (crypto.hashes.hash160 address.spendPubKey) = true

/-- The transaction announces the payment, and one of its outputs has the destination. -/
structure Carries {P H : Type} [AddCommGroup P] (crypto : StealthCrypto P) (tx : CTransaction H)
    (payment : CStealthPayment) : Prop where
  marker : ∃ txout ∈ tx.vout, txout.scriptPubKey = OP_RETURN :: 0x21 :: payment.ephemeralPubKey
  output : ∃ txout ∈ tx.vout,
    extractDestination crypto.hashes txout.scriptPubKey = some (.keyID payment.destKeyID)

end StealthCrypto

namespace StealthWorld

variable {H : Type} {world : StealthWorld H} {tx : CTransaction H} {keys : WalletKeys}

theorem grows_importStealthKey (ephemeral : CPubKey) (keys : WalletKeys)
    (sxAddr : CStealthAddress) : keys.Grows (world.importStealthKey tx ephemeral keys sxAddr) := by
  rw [importStealthKey]
  split
  · exact .refl keys
  · split
    · exact .refl keys
    · simp only
      split
      · split
        · exact .refl keys
        · exact WalletKeys.grows_addKey keys _
      · exact .refl keys

theorem grows_foldl {α : Type} {step : WalletKeys → α → WalletKeys}
    (hstep : ∀ (keys : WalletKeys) item, keys.Grows (step keys item)) (items : List α)
    (keys : WalletKeys) : keys.Grows (items.foldl step keys) := by
  refine List.foldlRecOn items step (.refl keys) fun mid hmid item _ => ?_
  exact WalletKeys.Grows.trans hmid (hstep mid item)

/-- One round of the outer loop. -/
def importAt (world : StealthWorld H) (tx : CTransaction H) (keys : WalletKeys) (txout : CTxOut) :
    WalletKeys :=
  match ephemeralPubKey txout.scriptPubKey with
  | none => keys
  | some ephemeral => world.mapStealthAddresses.foldl (world.importStealthKey tx ephemeral) keys

theorem importStealthKeys_eq :
    world.importStealthKeys tx keys = tx.vout.foldl (world.importAt tx) keys := rfl

theorem grows_importAt (keys : WalletKeys) (txout : CTxOut) : keys.Grows (world.importAt tx keys txout) := by
  rw [importAt]
  split
  · exact .refl keys
  · exact grows_foldl (grows_importStealthKey _) _ keys

theorem grows_importStealthKeys (keys : WalletKeys) : keys.Grows (world.importStealthKeys tx keys) :=
  grows_foldl grows_importAt tx.vout keys

theorem haveKey_foldl {α : Type} {step : WalletKeys → α → WalletKeys} {keyID : CKeyID} {item : α}
    {items : List α} (hstep : ∀ (keys : WalletKeys) item, keys.Grows (step keys item))
    (hmem : item ∈ items) (hgoal : ∀ mid, keys.Grows mid → (step mid item).haveKey keyID) :
    (items.foldl step keys).haveKey keyID := by
  obtain ⟨pre, post, rfl⟩ := append_of_mem hmem
  rw [foldl_append, foldl_cons]
  have hbefore := grows_foldl hstep pre keys
  exact (grows_foldl hstep post _).haveKey keyID (hgoal _ hbefore)

end StealthWorld

namespace StealthCrypto

section

variable {P H : Type} [AddCommGroup P] [DecidableEq P] {crypto : StealthCrypto P}
  {world : StealthWorld H} {keys mid : WalletKeys} {tx : CTransaction H} {address : CStealthAddress}
  {payment : CStealthPayment} {wouldReuse : CPubKey → Bool} {drawn : Nat → Key.SecretKey crypto.curve}

/-- The receiver's side, over the secrets of the key store. -/
theorem HoldsAddress.receives (holds : crypto.HoldsAddress keys address)
    (hpay : Key.prepareStealthPayment crypto.curve crypto.hashes wouldReuse drawn address = some payment) :
    crypto.detect address.scanPubKey payment.ephemeralPubKey address.spendPubKey = some payment.destPubKey ∧
      ∃ destKey, crypto.deriveSpendKey address.scanPubKey payment.ephemeralPubKey
          address.spendPubKey = some destKey ∧ destKey.getPubKey crypto.curve = some payment.destPubKey := by
  obtain ⟨-, -, -, hdetect, sharedSecret, hshared, hderive⟩ := Key.stealth_agreement holds.toAddressKeys hpay
  obtain ⟨found, hfound, hfoundPub⟩ := hdetect new
  obtain ⟨destKey, hdest, hdestPub⟩ := hderive new
  rw [holds.scan_eq] at hfound hshared
  rw [holds.spend_eq] at hdest
  refine ⟨?_, destKey, ?_, hdestPub⟩
  · rw [detect, hfound, Option.bind_some, hfoundPub]
  · rw [deriveSpendKey, hshared, Option.bind_some, hdest]

omit [DecidableEq P] in
theorem HoldsAddress.grow (holds : crypto.HoldsAddress keys address) (hgrows : keys.Grows mid) :
    mid.haveKey (crypto.hashes.hash160 address.scanPubKey) = true ∧
      mid.haveKey (crypto.hashes.hash160 address.spendPubKey) = true :=
  ⟨hgrows.haveKey _ holds.haveScan, hgrows.haveKey _ holds.haveSpend⟩

/-- **The round of the address imports the key**, or finds it there. -/
theorem haveKey_importStealthKey (holds : crypto.HoldsAddress keys address) (hunlocked : keys.fLocked = false)
    (hpay : Key.prepareStealthPayment crypto.curve crypto.hashes wouldReuse drawn address = some payment)
    (hcarries : crypto.Carries tx payment) (hgrows : keys.Grows mid) :
    ((crypto.withCrypto world).importStealthKey tx payment.ephemeralPubKey mid address).haveKey
      payment.destKeyID := by
  obtain ⟨hdetect, destKey, hderive, hdestPub⟩ := holds.receives hpay
  obtain ⟨-, -, hid, -⟩ := Key.stealth_agreement holds.toAddressKeys hpay
  obtain ⟨hscan, hspend⟩ := holds.grow hgrows
  have hunlocked : mid.fLocked = false := hgrows.fLocked.trans hunlocked
  have hscan : mid.getKey (crypto.hashes.hash160 address.scanPubKey) = true := by
    rw [WalletKeys.getKey, hscan, hunlocked]
    rfl
  have hspend : mid.getKey (crypto.hashes.hash160 address.spendPubKey) = true := by
    rw [WalletKeys.getKey, hspend, hunlocked]
    rfl
  have hmatch : (tx.vout.any fun txout2 => extractDestination crypto.hashes txout2.scriptPubKey ==
      some (.keyID (crypto.hashes.hash160 payment.destPubKey))) = true := by
    obtain ⟨txout, hmem, hdest⟩ := hcarries.output
    rw [any_eq_true]
    exact ⟨txout, hmem, by rw [hdest, hid]; exact beq_self_eq_true _⟩
  have hadd : (crypto.withCrypto world).deriveStealthSpendKey address.scanPubKey
      payment.ephemeralPubKey address.spendPubKey = some payment.destPubKey := by
    show (crypto.deriveSpendKey _ _ _).bind _ = _
    rw [hderive, Option.bind_some, hdestPub]
  rw [StealthWorld.importStealthKey]
  simp only [show (crypto.withCrypto world).getID = crypto.hashes.hash160 from rfl, hscan, hspend,
    show (crypto.withCrypto world).detectStealthPayment = crypto.detect from rfl, hdetect,
    show (crypto.withCrypto world).extractDestination = extractDestination crypto.hashes from rfl, hmatch,
    hadd, Bool.not_true, Bool.false_eq_true, if_false, Bool.true_and, Bool.and_true]
  cases hhave : mid.haveKey (crypto.hashes.hash160 payment.destPubKey) with
  | true => rw [hid, Bool.not_true, if_neg Bool.false_ne_true, hhave]
  | false =>
    rw [Bool.not_false, if_pos rfl, WalletKeys.addKey, hunlocked, if_neg Bool.false_ne_true, hid,
      WalletKeys.haveKey, contains_cons, Bool.or_eq_true]
    exact .inl (beq_self_eq_true _)

/-- The output that announces the payment is read. -/
theorem ephemeralPubKey_marker (holds : crypto.HoldsAddress keys address)
    (hpay : Key.prepareStealthPayment crypto.curve crypto.hashes wouldReuse drawn address = some payment) :
    StealthWorld.ephemeralPubKey (OP_RETURN :: 0x21 :: payment.ephemeralPubKey) =
      some payment.ephemeralPubKey := by
  obtain ⟨hvalid, hcompressed, -⟩ := Key.stealth_agreement holds.toAddressKeys hpay
  have hlength : payment.ephemeralPubKey.length = 33 := by
    simpa [CPubKey.isCompressed] using hcompressed
  rw [StealthWorld.ephemeralPubKey, if_pos (by simp [hlength])]
  simp [hvalid, hcompressed]

/-- **An unlocked wallet imports the key of the payment**, wherever its outputs stand. -/
theorem haveKey_importStealthKeys (haddress : address ∈ world.mapStealthAddresses)
    (holds : crypto.HoldsAddress keys address) (hunlocked : keys.fLocked = false)
    (hpay : Key.prepareStealthPayment crypto.curve crypto.hashes wouldReuse drawn address = some payment)
    (hcarries : crypto.Carries tx payment) :
    ((crypto.withCrypto world).importStealthKeys tx keys).haveKey payment.destKeyID := by
  obtain ⟨txout, hmem, hscript⟩ := hcarries.marker
  rw [StealthWorld.importStealthKeys_eq]
  refine StealthWorld.haveKey_foldl StealthWorld.grows_importAt hmem fun before hbefore => ?_
  rw [StealthWorld.importAt, hscript, ephemeralPubKey_marker holds hpay]
  refine StealthWorld.haveKey_foldl (StealthWorld.grows_importStealthKey _) haddress fun mid hmid => ?_
  exact haveKey_importStealthKey holds hunlocked hpay hcarries (hbefore.trans hmid)

end

end StealthCrypto

namespace CWalletState

open WalletMap

variable {H : Type} [Ord H] [TransOrd H] [DecidableEq H]

/-- The wallet has a reason to record the transaction, with these keys: it is there, an output
is the wallet's own and large enough, or it spends from the wallet. -/
def Records (world : StealthWorld H) (sha : Sha256 H) (mapWallet : WalletMap H)
    (keyStore : List CKeyID) (tx : CTransaction H) : Prop :=
  tx.getHash sha ∈ mapWallet ∨ isMineTx (world.isMine keyStore) world.nMinimumInputValue tx = true ∨
    isFromMe (world.isMine keyStore) mapWallet tx = some true

variable {world : StealthWorld H} {c : Consensus H} {wallet after : CWalletState H}
  {tx : CTransaction H} {pblock : Option (CBlock H)} {fUpdate fResult : Bool}

omit [DecidableEq H] in
theorem involved_iff {sha : Sha256 H} : wallet.involved world sha tx = some true ↔
      Records world sha wallet.mapWallet wallet.keys.keyStore tx := by
  rw [involved, Records, ← ExtTreeMap.contains_iff_mem, ← or_assoc, ← Bool.or_eq_true]
  split
  · next h => exact iff_of_true rfl (.inl h)
  · next h => exact ⟨.inr, fun h' => h'.resolve_left h⟩

omit [DecidableEq H] in
theorem mem_iff_of_info_eq {mapWallet mapWallet' : WalletMap H}
    (h : info mapWallet' = info mapWallet) (hash : H) : hash ∈ mapWallet' ↔ hash ∈ mapWallet := by
  have hsame := congrFun h hash
  rw [info, info] at hsame
  rw [mem_iff_isSome_getElem?, mem_iff_isSome_getElem?,
    ← Option.isSome_map (f := StoredTx.forgetFlags), hsame, Option.isSome_map]

omit [Ord H] [TransOrd H] in
theorem getHash_arriving (sha : Sha256 H) (tx : CTransaction H) (pblock : Option (CBlock H)) :
    (StoredTx.arriving c tx pblock).getHash sha = tx.getHash sha := by
  cases pblock with
  | none => rfl
  | some block =>
    rw [StoredTx.arriving, StoredTx.setMerkleBranch]
    split <;> rfl

variable [LawfulEqOrd H]

/-- **What `AddToWalletIfInvolvingMe` records**, and what it does to the key store behind the
import. -/
theorem arrival (h : wallet.addToWalletIfInvolvingMe world c tx pblock fUpdate = some (fResult, after)) :
    (world.importStealthKeys tx wallet.keys).Grows after.keys ∧ (tx.getHash c.toSha256 ∈ after.mapWallet ↔
        Records world c.toSha256 wallet.mapWallet (world.importStealthKeys tx wallet.keys).keyStore tx) := by
  rcases addToWalletIfInvolvingMe_cases h with ⟨hknown, rfl⟩ | ⟨-, hinvolved, hadd⟩ |
    ⟨hknown, hinvolved, mapWallet, hspent, rfl⟩
  · have hmem : tx.getHash c.toSha256 ∈ wallet.mapWallet :=
      ExtTreeMap.contains_iff_mem.mp (Bool.and_eq_true_iff.mp hknown).1
    exact ⟨.refl _, iff_of_true hmem (.inl hmem)⟩
  · obtain ⟨hkeys, hinfo, -⟩ := addToWallet_effect hadd
    refine ⟨?_, iff_of_true ?_ (involved_iff.mp hinvolved)⟩
    · rcases hkeys with ⟨-, hkeys⟩ | ⟨-, hkeys⟩
      · split at hkeys
        · exact Option.some.inj hkeys ▸ .refl _
        · exact WalletKeys.grows_renewDefaultKeys hkeys
      · exact hkeys ▸ .refl _
    · rw [mem_iff_of_info_eq hinfo]
      refine mem_insert.mpr (.inl ?_)
      rw [getHash_arriving]
      exact ReflCmp.compare_self
  · obtain ⟨hinfo, -⟩ := walletUpdateSpent_exact hspent
    refine ⟨.refl _, ?_⟩
    have hnot : ¬Records world c.toSha256 wallet.mapWallet
        (world.importStealthKeys tx wallet.keys).keyStore tx := fun hrecords => by
      have hsome : (wallet.imported world tx).involved world c.toSha256 tx = some true :=
        involved_iff.mpr hrecords
      rw [hsome] at hinvolved
      cases hinvolved
    exact iff_of_false (fun hmem => hnot (.inl ((mem_iff_of_info_eq hinfo _).mp hmem))) hnot

end CWalletState

section

variable {P H : Type} [AddCommGroup P] [DecidableEq P] [Ord H] [TransOrd H] [DecidableEq H]
  [LawfulEqOrd H]

/-- An output has the destination of the payment, and is not below `nMinimumInputValue`. -/
def StealthCrypto.PaysEnough (crypto : StealthCrypto P) (world : StealthWorld H)
    (tx : CTransaction H) (payment : CStealthPayment) : Prop :=
  ∃ txout ∈ tx.vout,
    extractDestination crypto.hashes txout.scriptPubKey = some (.keyID payment.destKeyID) ∧
      txout.nValue ≥ world.nMinimumInputValue

/-- **When a stealth payment arrives.**  The secret that the receiver derives always has the
destination as its public key.  The wallet owns the output afterwards exactly when it is not
locked, or has the key already, and the output is large enough or the wallet records the
transaction for another reason. -/
theorem stealth_payment_arrives_iff (crypto : StealthCrypto P) (world : StealthWorld H)
    (c : Consensus H) {wallet after : CWalletState H} {tx : CTransaction H}
    {pblock : Option (CBlock H)} {fUpdate fResult : Bool} {address : CStealthAddress}
    {payment : CStealthPayment} {wouldReuse : CPubKey → Bool} {drawn : Nat → Key.SecretKey crypto.curve}
    (haddress : address ∈ world.mapStealthAddresses) (holds : crypto.HoldsAddress wallet.keys address)
    (hpay : Key.prepareStealthPayment crypto.curve crypto.hashes wouldReuse drawn address = some payment)
    (hcarries : crypto.Carries tx payment)
    (hafter : wallet.addToWalletIfInvolvingMe (crypto.withCrypto world) c tx pblock fUpdate =
      some (fResult, after)) : (∃ destKey, crypto.deriveSpendKey address.scanPubKey payment.ephemeralPubKey
        address.spendPubKey = some destKey ∧ destKey.getPubKey crypto.curve =
      some payment.destPubKey ∧ payment.destKeyID = crypto.hashes.hash160 payment.destPubKey) ∧
    ((tx.getHash c.toSha256 ∈ after.mapWallet ∧ after.keys.haveKey payment.destKeyID = true) ↔
      (wallet.keys.fLocked = false ∨ wallet.keys.haveKey payment.destKeyID = true) ∧
        (crypto.PaysEnough world tx payment ∨
          CWalletState.Records (crypto.withCrypto world) c.toSha256 wallet.mapWallet
            ((crypto.withCrypto world).importStealthKeys tx wallet.keys).keyStore tx)) := by
  obtain ⟨-, destKey, hderive, hdestPub⟩ := holds.receives hpay
  obtain ⟨-, -, hid, -⟩ := Key.stealth_agreement holds.toAddressKeys hpay
  refine ⟨⟨destKey, hderive, hdestPub, hid⟩, ?_⟩
  obtain ⟨hgrows, hrecorded⟩ := CWalletState.arrival hafter
  have himported : wallet.keys.Grows ((crypto.withCrypto world).importStealthKeys tx wallet.keys) :=
    StealthWorld.grows_importStealthKeys wallet.keys
  have himport : wallet.keys.fLocked = false ∨ wallet.keys.haveKey payment.destKeyID = true →
      ((crypto.withCrypto world).importStealthKeys tx wallet.keys).haveKey payment.destKeyID = true := by
    intro h
    rcases h with hunlocked | hhave
    · exact StealthCrypto.haveKey_importStealthKeys haddress holds hunlocked hpay hcarries
    · exact himported.haveKey _ hhave
  have hkey : after.keys.haveKey payment.destKeyID = true ↔
      (wallet.keys.fLocked = false ∨ wallet.keys.haveKey payment.destKeyID = true) := by
    refine ⟨?_, fun h => hgrows.haveKey _ (himport h)⟩
    intro hhave
    cases hlocked : wallet.keys.fLocked with
    | false => exact .inl rfl
    | true =>
      have hstore : after.keys.keyStore = wallet.keys.keyStore := (himported.trans hgrows).locked hlocked
      rw [WalletKeys.haveKey, hstore] at hhave
      exact .inr hhave
  -- with the key, an output that is large enough is the wallet's
  have hpays : (wallet.keys.fLocked = false ∨ wallet.keys.haveKey payment.destKeyID = true) →
      crypto.PaysEnough world tx payment →
      CWalletState.Records (crypto.withCrypto world) c.toSha256 wallet.mapWallet
        ((crypto.withCrypto world).importStealthKeys tx wallet.keys).keyStore tx := by
    intro h hpays
    obtain ⟨txout, hmem, hdest, hvalue⟩ := hpays
    refine .inr (.inl (any_eq_true.mpr ⟨txout, hmem, ?_⟩))
    rw [Bool.and_eq_true]
    exact ⟨(isMine_of_extractDestination hdest).trans (himport h), decide_eq_true hvalue⟩
  rw [hkey, hrecorded]
  constructor
  · intro ⟨hrecords, h⟩
    exact ⟨h, .inr hrecords⟩
  · intro ⟨h, hreason⟩
    exact ⟨hreason.elim (hpays h) id, h⟩

end

section

open Key

/-- An address with the secrets 11 and 13. -/
def stealthAddress : CStealthAddress where
  scanPubKey := sampleOctets.point2oct 2 (11 • sampleOctets.G)
  spendPubKey := sampleOctets.point2oct 2 (13 • sampleOctets.G)

/-- Hashes that keep the end of their input. -/
def endHashes : ScriptHashes where
  ripemd160 data := Vector.ofFn fun i => data.getD i 0
  sha1 data := Vector.ofFn fun i => data.getD i 0
  sha256 data := Vector.ofFn fun i => data.reverse.getD i 0

/-- The secrets of the wallet. -/
def stealthSecretOf (keyID : CKeyID) : Key.CKey SamplePoint :=
  ofSecret sampleOctets (if keyID = endHashes.hash160 stealthAddress.scanPubKey then 11 else 13) true

def sampleStealthCrypto : StealthCrypto SamplePoint where
  curve := sampleOctets
  hashes := endHashes
  secretOf := stealthSecretOf
  getCScript _ := none
  nDepth := 0

/-- The ephemeral key has the secret 17. -/
def prepared : Option CStealthPayment :=
  prepareStealthPayment sampleOctets endHashes (fun _ => false)
    (fun _ => ⟨17, true, by decide, by decide⟩) stealthAddress

def stealthPayment : CStealthPayment := prepared.getD ⟨[], Vector.replicate 20 0, []⟩

theorem prepared_eq : prepared = some stealthPayment := by decide +kernel

/-- A coin for the destination, with the output that announces it behind. -/
def stealthTx : CTransaction (List Nat) :=
  samplePayment 1 ⟨[7], 0⟩
    [⟨COIN, CScript.setDestination (.keyID stealthPayment.destKeyID)⟩,
      ⟨0, OP_RETURN :: 0x21 :: stealthPayment.ephemeralPubKey⟩]

theorem carries_stealthTx : sampleStealthCrypto.Carries stealthTx stealthPayment where
  marker := ⟨_, mem_cons_of_mem _ mem_cons_self, rfl⟩
  output := ⟨_, mem_cons_self, by decide +kernel⟩

def stealthWorld : StealthWorld (List Nat) :=
  { CWalletState.coinStealthWorld.toStealthWorld with mapStealthAddresses := [stealthAddress] }

/-- A wallet with the keys of the address. -/
def stealthWallet (fLocked : Bool) : CWalletState (List Nat) where
  mapWallet := ∅
  keys := ⟨[endHashes.hash160 stealthAddress.scanPubKey,
    endHashes.hash160 stealthAddress.spendPubKey], 0, fLocked, ∅, ∅, []⟩
  nOrderPosNext := 0

theorem stealthSecretOf_scan : stealthSecretOf (endHashes.hash160 stealthAddress.scanPubKey) =
    ofSecret sampleOctets 11 true := by rw [stealthSecretOf, if_pos rfl]

theorem stealthSecretOf_spend : stealthSecretOf (endHashes.hash160 stealthAddress.spendPubKey) =
    ofSecret sampleOctets 13 true := by
  have hne : endHashes.hash160 stealthAddress.spendPubKey ≠
    endHashes.hash160 stealthAddress.scanPubKey := by decide +kernel
  rw [stealthSecretOf, if_neg hne]

def stealthHolds (fLocked : Bool) :
    sampleStealthCrypto.HoldsAddress (stealthWallet fLocked).keys stealthAddress where
  scan := ofSecret sampleOctets 11 true
  spend := ofSecret sampleOctets 13 true
  scanSecret := 11
  spendSecret := 13
  scanPair := isPair_ofSecret (by decide) true
  spendPair := isPair_ofSecret (by decide) true
  scanPubKey := getPubKey_ofSecret 11
  spendPubKey := getPubKey_ofSecret 13
  scan_eq := stealthSecretOf_scan.symm
  spend_eq := stealthSecretOf_spend.symm
  haveScan := by simp [stealthWallet, WalletKeys.haveKey, sampleStealthCrypto]
  haveSpend := by simp [stealthWallet, WalletKeys.haveKey, sampleStealthCrypto]

theorem stealth_payment_arrives_sample : ∃ fResult after,
    (stealthWallet false).addToWalletIfInvolvingMe (sampleStealthCrypto.withCrypto stealthWorld)
        sampleConsensus stealthTx none false = some (fResult, after) ∧
      stealthTx.getHash transparent ∈ after.mapWallet ∧
      after.keys.haveKey stealthPayment.destKeyID = true := by
  have hsome : ((stealthWallet false).addToWalletIfInvolvingMe (sampleStealthCrypto.withCrypto stealthWorld)
      sampleConsensus stealthTx none false).isSome := by decide +kernel
  obtain ⟨⟨fResult, after⟩, hafter⟩ := Option.isSome_iff_exists.mp hsome
  have harrives := (stealth_payment_arrives_iff sampleStealthCrypto stealthWorld sampleConsensus
    mem_cons_self (stealthHolds false) prepared_eq carries_stealthTx hafter).2
  refine ⟨fResult, after, hafter, harrives.mpr ⟨.inl rfl, .inl ?_⟩⟩
  exact ⟨_, mem_cons_self, by decide +kernel, by decide +kernel⟩

/-- **The locked wallet misses the payment**, though it has both keys of the address. -/
theorem stealth_payment_missed :
    Nonempty (sampleStealthCrypto.HoldsAddress (stealthWallet true).keys stealthAddress) ∧
      prepared = some stealthPayment ∧ sampleStealthCrypto.Carries stealthTx stealthPayment ∧
      ((stealthWallet true).addToWalletIfInvolvingMe (sampleStealthCrypto.withCrypto stealthWorld)
          sampleConsensus stealthTx none false).map (fun done =>
        (done.2.mapWallet.contains (stealthTx.getHash transparent),
          done.2.keys.haveKey stealthPayment.destKeyID)) = some (false, false) :=
  ⟨⟨stealthHolds true⟩, prepared_eq, carries_stealthTx, by decide +kernel⟩

end

end MaryJaneCoin
