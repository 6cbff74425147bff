import MaryJaneCoin.Wallet.KeyPool

/-!
# Recording a transaction and handing it to the memory pool

`CWallet::CommitTransaction` with all it calls: `AddToWallet`, which inserts a
transaction or merges it into the one stored, `WalletUpdateSpent`, the marking of
the inputs, and `AcceptToMemoryPool` last.  An entry carries one spent flag for
each output, in a vector that may be shorter than the outputs.
-/

namespace MaryJaneCoin

open Std

/-- `CWalletTx` as `mapWallet` stores it. -/
structure StoredTx (H : Type) extends CTransaction H where
  hashBlock : H
  vMerkleBranch : List H
  nIndex : Int32
  nTimeReceived : UInt32
  nTimeSmart : UInt32
  fFromMe : Bool
  vfSpent : List Bool
  nOrderPos : Int

namespace StoredTx

variable {H : Type}

/-- `CWalletTx::IsSpent`, of an output that exists. -/
def isSpent (wtx : StoredTx H) (nOut : Nat) : Bool := wtx.vfSpent[nOut]?.getD false

/-- `vfSpent.resize(vout.size())`. -/
def resized (wtx : StoredTx H) : List Bool :=
  wtx.vfSpent.take wtx.vout.length ++ List.replicate (wtx.vout.length - wtx.vfSpent.length) false

/-- `MarkSpent` and `MarkUnspent`: none when they throw. -/
def mark (fSpent : Bool) (wtx : StoredTx H) (nOut : Nat) : Option (StoredTx H) :=
  if nOut < wtx.vout.length then some { wtx with vfSpent := wtx.resized.set nOut fSpent } else none

def markSpent (wtx : StoredTx H) (nOut : Nat) : Option (StoredTx H) := mark true wtx nOut

def markUnspent (wtx : StoredTx H) (nOut : Nat) : Option (StoredTx H) := mark false wtx nOut

/-- `CWalletTx::UpdateSpent`, on the vectors.  The loop ends with the shorter one. -/
def updateSpent : List Bool → List Bool → Bool × List Bool
  | fNew :: vfNewSpent, fSpent :: vfSpent =>
    let (fReturn, vfSpent) := updateSpent vfNewSpent vfSpent
    ((fNew && !fSpent) || fReturn, (fSpent || fNew) :: vfSpent)
  | _, vfSpent => (false, vfSpent)

variable [DecidableEq H]

/-- What `AddToWallet` does to an entry that is there already, and `fUpdated`. -/
def merge (sha : Sha256 H) (wtxIn wtx : StoredTx H) : Bool × StoredTx H :=
  let newBlock := wtxIn.hashBlock != sha.zero && wtxIn.hashBlock != wtx.hashBlock
  let newIndex := wtxIn.nIndex != -1 &&
    (wtxIn.vMerkleBranch != wtx.vMerkleBranch || wtxIn.nIndex != wtx.nIndex)
  let newFromMe := wtxIn.fFromMe && wtxIn.fFromMe != wtx.fFromMe
  let (newSpent, vfSpent) := updateSpent wtxIn.vfSpent wtx.vfSpent
  (newBlock || newIndex || newFromMe || newSpent,
    { wtx with
      hashBlock := if newBlock then wtxIn.hashBlock else wtx.hashBlock
      vMerkleBranch := if newIndex then wtxIn.vMerkleBranch else wtx.vMerkleBranch
      nIndex := if newIndex then wtxIn.nIndex else wtx.nIndex
      fFromMe := if newFromMe then wtxIn.fFromMe else wtx.fFromMe
      vfSpent := vfSpent })

end StoredTx

/-- What the wallet takes from outside: the keys it draws, which scripts are its
own given its key store, whether an entry can be written to the database, the
clock, the times of the blocks in the index, and the accounting entries with
their place and time. -/
structure WalletWorld (H : Type) extends KeySource where
  qtGui : Bool
  isMine : List CKeyID → CScript → Bool
  writeTx : StoredTx H → Bool
  adjustedTime : UInt32
  blockTime : H → Option UInt32
  acentries : List (Int × Int)

abbrev WalletMap (H : Type) [Ord H] := ExtTreeMap H (StoredTx H)

/-- `CWallet`, as far as `CommitTransaction` changes it. -/
structure CWalletState (H : Type) [Ord H] where
  mapWallet : WalletMap H
  keys : WalletKeys
  nOrderPosNext : Int

namespace WalletMap

variable {H : Type} [Ord H] [TransOrd H]

/-- One round of the loop of `CommitTransaction`.  An entry that `mapWallet[hash]`
has to create has no outputs, so `MarkSpent` throws. -/
def markInput (mapWallet : WalletMap H) (txin : CTxIn H) : Option (WalletMap H) :=
  match mapWallet[txin.prevout.hash]? with
  | none => none
  | some coin =>
    (coin.markSpent txin.prevout.n.toNat).map fun coin => mapWallet.insert txin.prevout.hash coin

/-- One round of the first loop of `WalletUpdateSpent`. -/
def updateInput (isMine : CScript → Bool) (mapWallet : WalletMap H) (txin : CTxIn H) :
    Option (WalletMap H) :=
  match mapWallet[txin.prevout.hash]? with
  | none => some mapWallet
  | some wtx =>
    match wtx.vout[txin.prevout.n.toNat]? with
    | none => some mapWallet
    | some txout =>
      if !wtx.isSpent txin.prevout.n.toNat && isMine txout.scriptPubKey then
        (wtx.markSpent txin.prevout.n.toNat).map fun wtx =>
          mapWallet.insert txin.prevout.hash wtx
      else some mapWallet

/-- One round of the second loop of `WalletUpdateSpent`. -/
def unmarkOutput (isMine : CScript → Bool) (hash : H) (mapWallet : WalletMap H)
    (output : CTxOut × Nat) : Option (WalletMap H) :=
  if isMine output.1.scriptPubKey then
    match mapWallet[hash]? with
    | none => none
    | some wtx => (wtx.markUnspent output.2).map fun wtx => mapWallet.insert hash wtx
  else some mapWallet

def walletUpdateSpent (sha : Sha256 H) (isMine : CScript → Bool) (mapWallet : WalletMap H)
    (tx : CTransaction H) (fBlock : Bool) : Option (WalletMap H) :=
  (tx.vin.foldlM (updateInput isMine) mapWallet).bind fun mapWallet =>
    if fBlock then tx.vout.zipIdx.foldlM (unmarkOutput isMine (tx.getHash sha)) mapWallet
    else some mapWallet

/-- `CWallet::OrderedTxItems`: what an item is an entry for, if it is one, and
its time. -/
def orderedTxItems (mapWallet : WalletMap H) (acentries : List (Int × Int)) : List (Option H × Int) :=
  let txs : List (Int × Option H × Int) := mapWallet.toList.map fun (hash, wtx) =>
    (wtx.nOrderPos, some hash,
      Int.ofNat (if wtx.nTimeSmart = 0 then wtx.nTimeReceived else wtx.nTimeSmart).toNat)
  let entries := acentries.map fun (nOrderPos, nTime) => (nOrderPos, none, nTime)
  ((txs ++ entries).mergeSort fun a b => a.1 ≤ b.1).map Prod.snd

variable [DecidableEq H]

/-- `nTimeSmart` of an entry that is new in the wallet and in a block. -/
def smartTime (world : WalletWorld H) (mapWallet : WalletMap H) (hash hashBlock : H)
    (nTimeReceived : UInt32) : UInt32 :=
  match world.blockTime hashBlock with
  | none => nTimeReceived
  | some blocktime =>
    let latestTolerated : Int := (nTimeReceived + 300).toNat
    let found := (orderedTxItems mapWallet world.acentries).reverse.find? fun item =>
      item.1 != some hash && item.2 ≤ latestTolerated
    let latestEntry := found.elim 0 fun item => UInt32.ofInt item.2
    let latestNow := found.elim nTimeReceived fun item =>
      if item.2 > nTimeReceived.toNat then UInt32.ofInt item.2 else nTimeReceived
    max latestEntry (min blocktime latestNow)

end WalletMap

namespace CWalletState

variable {H : Type} [Ord H] [TransOrd H] [DecidableEq H] (world : WalletWorld H)

/-- The entry for a transaction that the wallet does not have. -/
def newEntry (sha : Sha256 H) (wallet : CWalletState H) (wtxIn : StoredTx H) : StoredTx H :=
  let nTimeReceived := world.adjustedTime
  { wtxIn with
    nTimeReceived := nTimeReceived
    nOrderPos := wallet.nOrderPosNext
    nTimeSmart :=
      if wtxIn.hashBlock = sha.zero then nTimeReceived
      else WalletMap.smartTime world wallet.mapWallet (wtxIn.getHash sha) wtxIn.hashBlock nTimeReceived }

/-- What `AddToWallet` does once the entry is in the map: it is written where
something changed, the default key is renewed, except under `QT_GUI`, and the
outputs that the transaction spends are marked. -/
def entryAdded (sha : Sha256 H) (wallet : CWalletState H) (hash : H) (wtx : StoredTx H)
    (fChanged fBlock : Bool) : Option (Bool × CWalletState H) :=
  let mapWallet := wallet.mapWallet.insert hash wtx
  if fChanged && !world.writeTx wtx then some (false, { wallet with mapWallet := mapWallet })
  else
    (if world.qtGui then some wallet.keys
      else wallet.keys.renewDefaultKeys world.toKeySource wtx.vout).bind fun keys =>
    (WalletMap.walletUpdateSpent sha (world.isMine keys.keyStore) mapWallet wtx.toCTransaction
      fBlock).map fun mapWallet => (true, { wallet with mapWallet := mapWallet, keys := keys })

/-- `CWallet::AddToWallet`: none when it throws. -/
def addToWallet (sha : Sha256 H) (wallet : CWalletState H) (wtxIn : StoredTx H) :
    Option (Bool × CWalletState H) :=
  let hash := wtxIn.getHash sha
  let fBlock := wtxIn.hashBlock != sha.zero
  match wallet.mapWallet[hash]? with
  | none =>
    entryAdded world sha { wallet with nOrderPosNext := wallet.nOrderPosNext + 1 } hash
      (newEntry world sha wallet wtxIn) true fBlock
  | some wtx =>
    entryAdded world sha wallet hash (StoredTx.merge sha wtxIn wtx).2
      (StoredTx.merge sha wtxIn wtx).1 fBlock

/-- `CWallet::CommitTransaction`: none when it throws.  What it returns comes with
the wallet, the reservation and the memory pool it leaves. -/
def commitTransaction (c : Consensus H) (wallet : CWalletState H) (pool : CTxMemPool H) (s : Node H)
    (env : Env H) (policy : RelayPolicy H) (wtxNew : StoredTx H) (reservekey : CReserveKey) :
    Option (Bool × CWalletState H × CReserveKey × CTxMemPool H) :=
  let (keys, reservekey) := wallet.keys.keepReserved reservekey
  (addToWallet world c.toSha256 { wallet with keys := keys } wtxNew).bind fun (_, wallet) =>
    (wtxNew.vin.foldlM WalletMap.markInput wallet.mapWallet).map fun mapWallet =>
      let (fAccepted, pool) := pool.accept c s env policy wtxNew.toCTransaction true
      (fAccepted, { wallet with mapWallet := mapWallet }, reservekey, pool)

end CWalletState

end MaryJaneCoin
