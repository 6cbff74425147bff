import MaryJaneCoin.Wallet.CommitRollback
import MaryJaneCoin.Wallet.SelectionInTime

/-!
# `CWallet::MultiSend`

With each new block the wallet sends a percentage of what its coinstakes earned to every
recipient, out of the outputs of the coinstake.  The percentage is one of the reward of the
whole transaction, and it is sent for each of the outputs.
-/

namespace MaryJaneCoin

open Std WrappedSum List

/-- The configuration: recipients with their percentages, and how addresses are written. -/
structure MultiSendSettings where
  vMultiSend : List (String × Int32)
  /-- `CBitcoinAddress(strAddress).Get()`. -/
  getAddress : String → CTxDestination
  /-- `CBitcoinAddress(address).ToString()`. -/
  addressText : CTxDestination → String

/-- What a call finds: the node, what the chain says about the entries of the wallet, and
what the draws of `CreateTransaction` come to. -/
structure MultiSendWorld (H : Type) [Ord H] extends WalletWorld H where
  consensus : Consensus H
  hashes : ScriptHashes
  node : Node H
  env : Env H
  policy : RelayPolicy H
  isInitialBlockDownload : Bool
  isLocked : Bool
  /-- `GetNumBlocksOfPeers`. -/
  numBlocksOfPeers : Int
  nTransactionFee : Int64
  nMinimumInputValue : Int64
  signSignature : CScript → CTransaction H → Nat → Option CScript
  isFinal : StoredTx H → Bool
  depthInMainChain : StoredTx H → Int
  blocksToMaturity : StoredTx H → Int
  vDisabledAddresses : List String
  nTime : UInt32
  draw : COutPoint H → Int64 → Nat
  fuel : Nat

/-- What was sent on account of an output: the reward of its transaction, and the payments. -/
structure MultiSendPayment (H : Type) where
  outpt : COutPoint H
  nReward : Int64
  vecSend : List Recipient

/-- The wallet with the memory pool, and what `MultiSend` has sent so far. -/
structure MultiSendState (H : Type) [Ord H] where
  wallet : CWalletState H
  pool : CTxMemPool H
  nLastMultiSendHeight : Int
  sent : List (MultiSendPayment H)

namespace MultiSendWorld

variable {H : Type} [Ord H] (world : MultiSendWorld H)

/-- An entry as the chain sees it. -/
def viewTx (wtx : StoredTx H) : Option (CWalletTx H) :=
  if hlt : wtx.vout.length < 2 ^ 32 then
    some
      { toCTransaction := wtx.toCTransaction
        vfSpent := wtx.vfSpent
        fFinal := world.isFinal wtx
        nDepthInMainChain := world.depthInMainChain wtx
        nBlocksToMaturity := world.blocksToMaturity wtx
        vout_lt := hlt }
  else none

/-- The wallet as the chain sees it.  The change of `MultiSend` goes back to where the coin
came from, so no key is reserved. -/
def view (wallet : CWalletState H) : CWallet H where
  mapWallet := wallet.mapWallet.filterMap fun _ wtx => world.viewTx wtx
  isMine := world.isMine wallet.keys.keyStore
  signSignature := world.signSignature
  isLocked := world.isLocked
  nMinimumInputValue := world.nMinimumInputValue
  reservedKey := none
  keyFromPool := none
  reservedKey_mine _ hkey := nomatch hkey
  keyFromPool_mine _ hkey := nomatch hkey

end MultiSendWorld

namespace CWallet

variable {H : Type} [Ord H] [TransOrd H] (wallet : CWallet H)

omit [TransOrd H] in
/-- `GetCredit` of a transaction; none when it throws. -/
def getCredit (tx : CTransaction H) : Option Int64 :=
  tx.vout.foldlM (fun nCredit txout =>
    if !moneyRange txout.nValue || !moneyRange (nCredit + wallet.ownValue txout) then none
    else some (nCredit + wallet.ownValue txout)) 0

/-- `GetDebit` of a transaction; none when it throws. -/
def getTxDebit (tx : CTransaction H) : Option Int64 :=
  tx.vin.foldlM (fun nDebit txin =>
    if !moneyRange (nDebit + wallet.getDebit txin) then none
    else some (nDebit + wallet.getDebit txin)) 0

/-- `GetCredit() - GetDebit()`. -/
def reward (tx : CTransaction H) : Option Int64 :=
  (wallet.getCredit tx).bind fun nCredit => (wallet.getTxDebit tx).map (nCredit - ·)

variable [DecidableEq H] [LawfulEqOrd H]

variable {wallet} in
theorem nodup_availableCoins {sha : Sha256 H} :
    ((wallet.availableCoins sha true).map COutput.prevout).Nodup := by
  have hnodup := @nodup_coinsToSpend _ _ _ _ _ wallet sha (fun _ => false) none
  rw [coinsToSpend, map_flatMap] at hnodup
  rw [availableCoins, map_flatMap]
  have hsame : ∀ entry : H × CWalletTx H,
      (((wallet.spendable sha true entry.1 entry.2).filter fun out => isAdmitted none out.prevout).map
        fun out => (⟨out.prevout, out.txout.nValue, entry.2.nTime, false, out.nDepth⟩ :
          CoinToSpend (COutPoint H))).map CoinToSpend.coin =
      (wallet.spendable sha true entry.1 entry.2).map COutput.prevout := by
    intro entry
    have hall : (wallet.spendable sha true entry.1 entry.2).filter
        (fun out => isAdmitted none out.prevout) = wallet.spendable sha true entry.1 entry.2 :=
      filter_eq_self.mpr fun _ _ => rfl
    rw [map_map, hall]
    rfl
  exact flatMap_congr (fun entry _ => hsame entry) ▸ hnodup

/-- `SelectCoins` under a coin control that selects this output. -/
def selectControlled (sha : Sha256 H) (control : CCoinControl H) (nTargetValue : Int64) :
    Option (CoinSelection sha wallet) :=
  let coins := (wallet.availableCoins sha true).filter fun coin => isAdmitted (some control) coin.prevout
  let nValueRet := wrapped (fun coin : COutput H => coin.txout.nValue) coins
  if nValueRet ≥ nTargetValue then
    some
      { coins := coins
        nValueRet := nValueRet
        available := fun _ hcoin => (List.mem_filter.mp hcoin).1
        nodup := (List.Nodup.of_map _ nodup_availableCoins).filter _ }
  else none

end CWallet

/-- Whether the output is one of a mature coinstake. -/
def MultiSendWorld.isMatureStake {H : Type} [Ord H] [TransOrd H] [DecidableEq H]
    (world : MultiSendWorld H) (s : MultiSendState H) (out : COutput H) : Bool :=
  ((world.view s.wallet).mapWallet[out.prevout.hash]?).any fun tx =>
    tx.isCoinStake world.consensus.toSha256 && tx.nBlocksToMaturity == 0 &&
      tx.nDepthInMainChain ≥ nCoinbaseMaturity + 10

namespace MultiSendSettings

variable {H : Type} [Ord H] [TransOrd H] [DecidableEq H] (settings : MultiSendSettings)
  (world : MultiSendWorld H)

/-- Whether the output pays an address that is not disabled. -/
def wants (out : COutput H) : Bool :=
  (extractDestination world.hashes out.txout.scriptPubKey).any fun address =>
    !world.vDisabledAddresses.contains (settings.addressText address)

/-- `vecSend`, with the reward; none when `GetCredit` or `GetDebit` throws. -/
def vecSend (s : MultiSendState H) (out : COutput H) : Option (Int64 × List Recipient) :=
  let nReward := (s.wallet.mapWallet[out.prevout.hash]?).bind fun tx =>
    (world.view s.wallet).reward tx.toCTransaction
  (settings.vMultiSend.mapM fun entry => nReward.map fun nReward =>
    (CScript.setDestination (settings.getAddress entry.1), nReward * entry.2.toInt64 / 100)).map
      (nReward.getD 0, ·)

end MultiSendSettings

namespace MultiSendState

variable {H : Type} [Ord H] [TransOrd H] [DecidableEq H] [LawfulEqOrd H]
  (settings : MultiSendSettings) (world : MultiSendWorld H)

/-- `CreateTransaction` of `MultiSend`: the output is selected, the change goes back, and
blocks are not split. -/
def create (s : MultiSendState H) (out : COutput H) (vecSend : List Recipient) :
    Option (CTransaction H) :=
  let wallet := world.view s.wallet
  let control : CCoinControl H := ⟨.CNoDestination, true, [out.prevout], []⟩
  ((CWallet.createTransactionFor wallet world.hashes world.consensus.toSha256
    ⟨world.nTransactionFee, false, world.node.nBestHeight⟩ (some control)
    (wallet.selectControlled world.consensus.toSha256 control) (world.draw out.prevout)
    (.new world.nTime) vecSend 1 world.fuel).bind Prod.fst)

/-- A transaction that was just created. -/
def created (tx : CTransaction H) : StoredTx H where
  toCTransaction := tx
  hashBlock := world.consensus.zero
  vMerkleBranch := []
  nIndex := -1
  nTimeReceived := 0
  nTimeSmart := 0
  fFromMe := true
  vfSpent := []
  nOrderPos := -1

/-- One round of the loop, for one of the outputs; an error when it throws. -/
def payFor (s : MultiSendState H) (out : COutput H) : Except (MultiSendState H) (MultiSendState H) :=
  if !settings.wants world out || !world.isMatureStake s out then .ok s
  else
    match settings.vecSend world s out with
    | none => .error s
    | some (nReward, vecSend) =>
      match s.create world out vecSend with
      | none => .ok s
      | some tx =>
        match s.wallet.commitTransaction world.toWalletWorld world.consensus s.pool world.node
            world.env world.policy (created world tx) ⟨none, []⟩ with
        | none => .error s
        | some (fAccepted, wallet, _, pool) =>
          if fAccepted then
            .ok
              { wallet := wallet
                pool := pool
                nLastMultiSendHeight := world.node.nBestHeight
                sent := s.sent ++ [⟨out.prevout, nReward, vecSend⟩] }
          else .ok { s with wallet := wallet, pool := pool }

/-- The outputs that a call goes through. -/
def vCoins (s : MultiSendState H) : List (COutput H) :=
  (world.view s.wallet).availableCoins world.consensus.toSha256 true

/-- `CWallet::MultiSend`: what it returns and the state it leaves; an error when it throws,
with the state before the round that throws. -/
def multiSend (s : MultiSendState H) : Except (MultiSendState H) (Bool × MultiSendState H) :=
  if world.isInitialBlockDownload || world.isLocked ||
      world.node.nBestHeight < world.numBlocksOfPeers then .ok (false, s)
  else if world.node.nBestHeight ≤ s.nLastMultiSendHeight then .ok (false, s)
  else ((s.vCoins world).foldlM (payFor settings world) s).map (true, ·)

end MultiSendState

end MaryJaneCoin
