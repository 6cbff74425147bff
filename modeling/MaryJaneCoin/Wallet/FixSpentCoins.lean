import MaryJaneCoin.Wallet.SpentFlags

/-!
# `CWallet::FixSpentCoins`

The repair of the wallet goes through its entries.  It removes transactions that conflict with
the chain and orphaned generations, and sets the spent flags that differ from the transaction
index.  Its check counts the same and is to change nothing.
-/

namespace MaryJaneCoin

open Std Function

/-- What a repair finds: which scripts are own, what the chain says of a transaction and of an
entry, whose flags do not matter there, and whether the wallet has a file. -/
structure RepairWorld (H : Type) extends Sha256 H where
  isMine : CScript → Bool
  readTxIndex : H → Option CTxIndex
  depthInMainChain : StoredTx H → Int
  fFileBacked : Bool

/-- What the wallet database is asked to do. -/
inductive WalletRequest (H : Type) where
  | writeTx (hash : H) (wtx : StoredTx H)
  | eraseTx (hash : H)

/-- The wallet with the amounts that its entries keep, the requests to its database, and what
was found so far. -/
structure RepairState (H : Type) [Ord H] where
  mapWallet : WalletMap H
  nDebitCached : H → Option Int64
  nCreditCached : H → Option Int64
  walletdb : List (WalletRequest H)
  nMismatchFound : Nat
  nBalanceInQuestion : Int64
  nOrphansFound : Nat

/-- The output is spent in the index, whose `vSpent` is empty when nothing was read. -/
def spentInIndex (txindex : Option CTxIndex) (n : Nat) : Bool :=
  txindex.any fun txindex => (txindex.vSpent[n]?.join).isSome

namespace WalletMap

variable {H : Type} [Ord H] [TransOrd H] (isMine : CScript → Bool) (mapWallet : WalletMap H)

/-- The output that an input spends, if it is the wallet's own. -/
def ownPrevOut (prevout : COutPoint H) : Option CTxOut :=
  ((mapWallet[prevout.hash]?).bind fun prev => prev.vout[prevout.n.toNat]?).filter fun txout =>
    isMine txout.scriptPubKey

/-- `CWallet::GetDebit(tx)`; none when it throws. -/
def debitOf (vin : List (CTxIn H)) : Option Int64 :=
  vin.foldlM (fun nDebit txin =>
    let nDebit := nDebit + ((ownPrevOut isMine mapWallet txin.prevout).map CTxOut.nValue).getD 0
    if moneyRange nDebit then some nDebit else none) 0

end WalletMap

/-- `CWallet::GetCredit(tx)`; none when it throws. -/
def creditOf (isMine : CScript → Bool) (vout : List CTxOut) : Option Int64 :=
  vout.foldlM (fun nCredit txout =>
    let nValue := if isMine txout.scriptPubKey then txout.nValue else 0
    if moneyRange txout.nValue && moneyRange (nCredit + nValue) then some (nCredit + nValue)
    else none) 0

namespace RepairState

variable {H : Type} [Ord H] [TransOrd H] (world : RepairWorld H) (fCheckOnly : Bool)
  (s : RepairState H)

/-- What `CWalletTx::GetDebit` of the entry returns. -/
def debit (key : H) (wtx : StoredTx H) : Option Int64 :=
  if wtx.vin.isEmpty then some 0
  else (s.nDebitCached key).or (s.mapWallet.debitOf world.isMine wtx.vin)

/-- What `CWalletTx::GetCredit` returns, of an entry that is no generation. -/
def credit (key : H) (wtx : StoredTx H) : Option Int64 :=
  (s.nCreditCached key).or (creditOf world.isMine wtx.vout)

/-- The entry is written to the wallet and to its database. -/
def write (key : H) (wtx : StoredTx H) : RepairState H :=
  { s with
    mapWallet := s.mapWallet.insert key wtx
    walletdb := s.walletdb ++ [.writeTx (wtx.getHash world.toSha256) wtx] }

def eraseFromWallet (hash : H) : RepairState H :=
  if !world.fFileBacked then s
  else if s.mapWallet.contains hash then
    { s with
      mapWallet := s.mapWallet.erase hash
      walletdb := s.walletdb ++ [.eraseTx hash] }
  else s

/-- A mismatch is counted. -/
def mismatch (nValue : Int64) : RepairState H :=
  { s with
    nMismatchFound := s.nMismatchFound + 1
    nBalanceInQuestion := s.nBalanceInQuestion + nValue }

/-- One input of a conflicted transaction: the output that it spends is unspent again, if the
index says so.  That is done by the check as well. -/
def restoreInput (txin : CTxIn H) : RepairState H :=
  match s.mapWallet[txin.prevout.hash]? with
  | none => s
  | some prev =>
    match prev.vout[txin.prevout.n.toNat]? with
    | none => s
    | some txout =>
      let prevTxIndex := world.readTxIndex (prev.getHash world.toSha256)
      if world.isMine txout.scriptPubKey && prevTxIndex.isSome &&
          !spentInIndex prevTxIndex txin.prevout.n.toNat && prev.isSpent txin.prevout.n.toNat then
        (prev.markUnspent txin.prevout.n.toNat).elim s (s.write world txin.prevout.hash)
      else s

/-- One output of an entry of the chain: its flag is to be as in the index. -/
def fixOutput (key : H) (txindex : Option CTxIndex) (s : RepairState H) (output : CTxOut × Nat) :
    RepairState H :=
  match s.mapWallet[key]? with
  | none => s
  | some pcoin =>
    let (txout, n) := output
    if world.isMine txout.scriptPubKey && pcoin.isSpent n && !spentInIndex txindex n then
      let found := s.mismatch txout.nValue
      if fCheckOnly then found else (pcoin.markUnspent n).elim found (found.write world key)
    else if world.isMine txout.scriptPubKey && !pcoin.isSpent n && spentInIndex txindex n then
      let found := s.mismatch txout.nValue
      if fCheckOnly then found else (pcoin.markSpent n).elim found (found.write world key)
    else s

variable [DecidableEq H]

omit [TransOrd H] in
/-- `fDebitCached` of the entry. -/
def cacheDebit (key : H) (nDebit : Int64) : RepairState H :=
  { s with nDebitCached := Function.update s.nDebitCached key (some nDebit) }

omit [TransOrd H] in
/-- `fCreditCached` of the entry. -/
def cacheCredit (key : H) (nCredit : Int64) : RepairState H :=
  { s with nCreditCached := Function.update s.nCreditCached key (some nCredit) }

variable {s} {key other : H}

section

omit [TransOrd H]

@[simp] theorem cacheDebit_self (nDebit : Int64) :
    (s.cacheDebit key nDebit).nDebitCached key = some nDebit := update_self ..

theorem cacheDebit_of_ne (hne : other ≠ key) (nDebit : Int64) :
    (s.cacheDebit key nDebit).nDebitCached other = s.nDebitCached other := update_of_ne hne ..

@[simp] theorem cacheCredit_self (nCredit : Int64) :
    (s.cacheCredit key nCredit).nCreditCached key = some nCredit := update_self ..

theorem cacheCredit_of_ne (hne : other ≠ key) (nCredit : Int64) :
    (s.cacheCredit key nCredit).nCreditCached other = s.nCreditCached other :=
  update_of_ne hne ..

end

variable (s)

/-- A transaction that the chain gave up on. -/
def isConflicted (pcoin : StoredTx H) : Bool :=
  !(pcoin.isCoinBase world.toSha256 || pcoin.isCoinStake world.toSha256) &&
    (world.readTxIndex (pcoin.getHash world.toSha256)).isNone &&
    world.depthInMainChain pcoin.forgetFlags < 0

/-- A conflicted transaction is counted, and removed unless it is a check. -/
def removeConflicted (hash : H) (nValue : Int64) : RepairState H :=
  let found := s.mismatch nValue
  if fCheckOnly then found else found.eraseFromWallet world hash

/-- The branches for conflicted transactions. -/
def fixConflicted (key : H) (pcoin : StoredTx H) : Except (RepairState H) (RepairState H) :=
  let hash := pcoin.getHash world.toSha256
  match s.debit world key pcoin with
  | none => .error s
  | some nDebit =>
    let s := s.cacheDebit key nDebit
    let received := pcoin.vout.filter fun txout => world.isMine txout.scriptPubKey
    if nDebit = 0 && !received.isEmpty then
      .ok (s.removeConflicted world fCheckOnly hash
        (received.foldl (fun nReceivedAmount txout => nReceivedAmount + txout.nValue) 0))
    else if nDebit > 0 then
      let restored := pcoin.vin.foldl (restoreInput world) s
      match restored.credit world key pcoin with
      | none => .error restored
      | some nCredit =>
        let nNet := nCredit - nDebit
        .ok ((restored.cacheCredit key nCredit).removeConflicted world fCheckOnly hash
          (if nNet < 0 then -nNet else nNet))
    else .ok s

/-- The branches for transactions of the chain and for generations. -/
def fixCoins (key : H) (pcoin : StoredTx H) : RepairState H :=
  let hash := pcoin.getHash world.toSha256
  let s := pcoin.vout.zipIdx.foldl (fixOutput world fCheckOnly key (world.readTxIndex hash)) s
  if (pcoin.isCoinBase world.toSha256 || pcoin.isCoinStake world.toSha256) &&
      world.depthInMainChain pcoin.forgetFlags ≤ 0 then
    let found := { s with nOrphansFound := s.nOrphansFound + 1 }
    if fCheckOnly then found else found.eraseFromWallet world hash
  else s

/-- One round of the loop, for the entry that the pointer leads to. -/
def fixCoin (s : RepairState H) (key : H) : Except (RepairState H) (RepairState H) :=
  match s.mapWallet[key]? with
  | none => .error s
  | some pcoin =>
    if isConflicted world pcoin then s.fixConflicted world fCheckOnly key pcoin
    else if (world.readTxIndex (pcoin.getHash world.toSha256)).isNone &&
        !(pcoin.isCoinBase world.toSha256 || pcoin.isCoinStake world.toSha256) then .ok s
    else .ok (s.fixCoins world fCheckOnly key pcoin)

omit [TransOrd H] [DecidableEq H] in
/-- The counts at the start of a call. -/
def cleared : RepairState H :=
  { s with nMismatchFound := 0, nBalanceInQuestion := 0, nOrphansFound := 0 }

/-- `CWallet::FixSpentCoins`; an error when it throws, with the state that it leaves. -/
def fixSpentCoins : Except (RepairState H) (RepairState H) :=
  s.mapWallet.keys.foldlM (fixCoin world fCheckOnly) s.cleared

end RepairState

end MaryJaneCoin
