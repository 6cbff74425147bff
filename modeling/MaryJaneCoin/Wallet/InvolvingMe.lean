import MaryJaneCoin.Chain.Identity
import MaryJaneCoin.Wallet.SpentFlags

/-!
# Transactions that involve the wallet

`CWallet::AddToWalletIfInvolvingMe`, which every transaction that arrives goes
through: the keys of stealth payments are imported, a transaction that pays or
spends from the wallet is recorded, and of another one the inputs are looked at.
-/

namespace MaryJaneCoin

open Std

def CPubKey.isCompressed (vchPubKey : CPubKey) : Bool := vchPubKey.length == 33

/-- `CStealthAddress`, as far as the wallet looks for payments to it. -/
structure CStealthAddress where
  scanPubKey : CPubKey
  spendPubKey : CPubKey

/-- What the import of stealth keys takes from outside: the addresses in the order
of the map, and the cryptography.  A secret key is named by its public key. -/
structure StealthWorld (H : Type) extends WalletWorld H where
  nMinimumInputValue : Int64
  mapStealthAddresses : List CStealthAddress
  extractDestination : CScript → Option CTxDestination
  /-- `DetectStealthPayment`: the destination of scan key, ephemeral key and spend key. -/
  detectStealthPayment : CPubKey → CPubKey → CPubKey → Option CPubKey
  /-- `ComputeStealthSharedSecret` and `DeriveStealthSpendKey`, of the same. -/
  deriveStealthSpendKey : CPubKey → CPubKey → CPubKey → Option CPubKey

/-- Equality of transactions, which does not look at `mwTx`. -/
def CTransaction.same {H : Type} [DecidableEq H] (a b : CTransaction H) : Bool :=
  a.nVersion == b.nVersion && a.nTime == b.nTime && a.vin == b.vin && a.vout == b.vout &&
    a.nLockTime == b.nLockTime

/-- The nodes beside the path from a leaf to the root. -/
def merkleBranch {H : Type} (combine : H → H → H) (zero : H) (level : List H) (nIndex : Nat) : List H :=
  if level.length ≤ 1 then []
  else level[min (nIndex ^^^ 1) (level.length - 1)]?.getD zero ::
    merkleBranch combine zero (merkleLevel combine level) (nIndex / 2)
termination_by level.length
decreasing_by
  rw [length_merkleLevel]
  omega

def CBlock.getMerkleBranch {H : Type} (c : Consensus H) (block : CBlock H) (nIndex : Nat) : List H :=
  merkleBranch (fun a b => c.sha256d [.digest a, .digest b]) c.zero
    (block.vtx.map (CTransaction.getHash c.toSha256)) nIndex

namespace WalletKeys

variable (source : KeySource)

def haveKey (keys : WalletKeys) (keyID : CKeyID) : Bool := keys.keyStore.contains keyID

/-- `GetKey`, which has no secret keys to give when the wallet is locked. -/
def getKey (keys : WalletKeys) (keyID : CKeyID) : Bool := keys.haveKey keyID && !keys.fLocked

/-- `CWallet::AddKey`.  The key is in the key store also when it could not be
written. -/
def addKey (keys : WalletKeys) (key : CPubKey) : WalletKeys :=
  if keys.fLocked then keys else { keys with keyStore := source.getID key :: keys.keyStore }

end WalletKeys

namespace StealthWorld

variable {H : Type} (world : StealthWorld H)

/-- The ephemeral key of a stealth payment, in the output that announces it. -/
def ephemeralPubKey (script : CScript) : Option CPubKey :=
  if script.length = 35 ∧ script[0]? = some OP_RETURN ∧ script[1]? = some 0x21 then
    (some (script.drop 2)).filter fun key => CPubKey.isValid key && CPubKey.isCompressed key
  else none

/-- One round of the inner loop: a key is added for a payment to the address. -/
def importStealthKey (tx : CTransaction H) (ephemeral : CPubKey) (keys : WalletKeys)
    (sxAddr : CStealthAddress) : WalletKeys :=
  if !keys.getKey (world.getID sxAddr.scanPubKey) then keys
  else
    match world.detectStealthPayment sxAddr.scanPubKey ephemeral sxAddr.spendPubKey with
    | none => keys
    | some destPubKey =>
      let destKeyID := world.getID destPubKey
      let fMatchFound := tx.vout.any fun txout2 =>
        world.extractDestination txout2.scriptPubKey == some (.keyID destKeyID)
      if fMatchFound && !keys.haveKey destKeyID && keys.getKey (world.getID sxAddr.spendPubKey) then
        match world.deriveStealthSpendKey sxAddr.scanPubKey ephemeral sxAddr.spendPubKey with
        | none => keys
        | some destKey => keys.addKey world.toKeySource destKey
      else keys

/-- The import of the stealth keys that a transaction pays. -/
def importStealthKeys (tx : CTransaction H) (keys : WalletKeys) : WalletKeys :=
  tx.vout.foldl
    (fun keys txout =>
      match ephemeralPubKey txout.scriptPubKey with
      | none => keys
      | some ephemeral => world.mapStealthAddresses.foldl (world.importStealthKey tx ephemeral) keys)
    keys

end StealthWorld

namespace StoredTx

variable {H : Type}

/-- `CWalletTx(this, tx)`. -/
def ofTransaction (sha : Sha256 H) (tx : CTransaction H) : StoredTx H :=
  { tx with
    hashBlock := sha.zero, vMerkleBranch := [], nIndex := -1, nTimeReceived := 0, nTimeSmart := 0,
    fFromMe := false, vfSpent := [], nOrderPos := -1 }

/-- `CMerkleTx::SetMerkleBranch`, with a block. -/
def setMerkleBranch [DecidableEq H] (c : Consensus H) (block : CBlock H) (wtx : StoredTx H) :
    StoredTx H :=
  match block.vtx.findIdx? fun tx => tx.same wtx.toCTransaction with
  | none => { wtx with hashBlock := block.getHash c, vMerkleBranch := [], nIndex := -1 }
  | some nIndex =>
    { wtx with
      hashBlock := block.getHash c
      vMerkleBranch := block.getMerkleBranch c nIndex
      nIndex := Int32.ofNat nIndex }

/-- The entry that a transaction from a block, or from elsewhere, is to become. -/
def arriving [DecidableEq H] (c : Consensus H) (tx : CTransaction H) (pblock : Option (CBlock H)) :
    StoredTx H :=
  match pblock with
  | none => ofTransaction c.toSha256 tx
  | some block => (ofTransaction c.toSha256 tx).setMerkleBranch c block

end StoredTx

namespace WalletMap

variable {H : Type} [Ord H] [TransOrd H] (isMine : CScript → Bool)

/-- `CWallet::IsMine`, of a transaction. -/
def isMineTx (nMinimumInputValue : Int64) (tx : CTransaction H) : Bool :=
  tx.vout.any fun txout => isMine txout.scriptPubKey && decide (txout.nValue ≥ nMinimumInputValue)

/-- `CWallet::GetDebit`, of an input. -/
def getDebitIn (mapWallet : WalletMap H) (txin : CTxIn H) : Int64 :=
  ((mapWallet[txin.prevout.hash]?.bind fun prev => prev.vout[txin.prevout.n.toNat]?).filter
    fun txout => isMine txout.scriptPubKey).elim 0 CTxOut.nValue

/-- `CWallet::GetDebit`: none when it throws. -/
def getDebit (mapWallet : WalletMap H) (tx : CTransaction H) : Option Int64 :=
  tx.vin.foldlM
    (fun nDebit txin =>
      let nDebit := nDebit + getDebitIn isMine mapWallet txin
      if moneyRange nDebit then some nDebit else none)
    0

def isFromMe (mapWallet : WalletMap H) (tx : CTransaction H) : Option Bool :=
  (getDebit isMine mapWallet tx).map fun nDebit => decide (nDebit > 0)

end WalletMap

namespace CWalletState

variable {H : Type} [Ord H] [TransOrd H] [DecidableEq H] (world : StealthWorld H)

/-- The wallet with the stealth keys that the transaction pays. -/
def imported (wallet : CWalletState H) (tx : CTransaction H) : CWalletState H :=
  { wallet with keys := world.importStealthKeys tx wallet.keys }

/-- Whether the transaction is recorded: it is there already, pays the wallet or
spends from it. -/
def involved (sha : Sha256 H) (wallet : CWalletState H) (tx : CTransaction H) : Option Bool :=
  if wallet.mapWallet.contains (tx.getHash sha) ||
      WalletMap.isMineTx (world.isMine wallet.keys.keyStore) world.nMinimumInputValue tx then
    some true
  else WalletMap.isFromMe (world.isMine wallet.keys.keyStore) wallet.mapWallet tx

/-- `CWallet::AddToWalletIfInvolvingMe`: none when it throws. -/
def addToWalletIfInvolvingMe (c : Consensus H) (wallet : CWalletState H) (tx : CTransaction H)
    (pblock : Option (CBlock H)) (fUpdate : Bool) : Option (Bool × CWalletState H) :=
  let wallet := wallet.imported world tx
  if wallet.mapWallet.contains (tx.getHash c.toSha256) && !fUpdate then some (false, wallet)
  else
    (wallet.involved world c.toSha256 tx).bind fun fInvolved =>
      if fInvolved then
        addToWallet world.toWalletWorld c.toSha256 wallet (StoredTx.arriving c tx pblock)
      else
        (WalletMap.walletUpdateSpent c.toSha256 (world.isMine wallet.keys.keyStore) wallet.mapWallet
          tx false).map fun mapWallet => (false, { wallet with mapWallet := mapWallet })

end CWalletState

end MaryJaneCoin
