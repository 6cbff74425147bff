import MaryJaneCoin.PayJoin.Server
import MaryJaneCoin.Wallet.CreateTransaction

/-!
# The sender of a PayJoin: `CPayJoinClient` of `payjoin.cpp`

The sender makes an original transaction, posts it, checks the proposal that
comes back and signs it.  The check compares inputs, the amount paid, the change
and the number of new outputs.  Signing asks for every input only whether it is
the wallet's own.
-/

namespace MaryJaneCoin

open Std WrappedSum

def PAYJOIN_MAX_FEE_INCREASE : Int64 := COIN

inductive CPayJoinClient.Error (H : Type) where
  | invalidAddress (strAddress : String)
  | invalidAmount
  | insufficientFunds
  | insufficientFundsWithFee (nFeeRequired : Int64)
  | creationFailed
  | inputRemoved (prevout : COutPoint H)
  | noAdditionalInputs
  | invalidReceiverAddress
  | receiverReduced (nAmount nReceiverTotal : Int64)
  | changeReduced (nChangeReduction : Int64)
  | manyNewOutputs (nNewOutputs : Nat)
  | signInput (i : Nat)
  | tooLarge
  | rejectedByMempool
deriving DecidableEq

/-- The text in `strError`, with `FormatMoney` and `GetHex`. -/
def CPayJoinClient.Error.strError {H : Type} (formatMoney : Int64 → String) (getHex : H → String) :
    CPayJoinClient.Error H → String
  | invalidAddress strAddress => "Invalid MaryJaneCoin address: " ++ strAddress
  | invalidAmount => "Invalid amount"
  | insufficientFunds => "Insufficient funds"
  | insufficientFundsWithFee nFeeRequired =>
    "Insufficient funds including fee of " ++ formatMoney nFeeRequired
  | creationFailed => "Transaction creation failed"
  | inputRemoved prevout => "Proposal removed our input " ++ getHex prevout.hash ++ ":" ++
      toString prevout.n.toNat ++ " — REJECTED"
  | noAdditionalInputs => "Proposal has no additional inputs from receiver"
  | invalidReceiverAddress => "Invalid receiver address for validation"
  | receiverReduced nAmount nReceiverTotal => "Receiver output reduced from " ++
      formatMoney nAmount ++ " to " ++ formatMoney nReceiverTotal ++ " — REJECTED"
  | changeReduced nChangeReduction => "Change reduced by " ++ formatMoney nChangeReduction ++
      ", exceeds max allowed " ++ formatMoney PAYJOIN_MAX_FEE_INCREASE ++ " — REJECTED"
  | manyNewOutputs nNewOutputs =>
    "Proposal adds " ++ toString nNewOutputs ++ " new outputs — suspiciously many"
  | signInput i => "Failed to sign input " ++ toString i
  | tooLarge => "PayJoin transaction too large"
  | rejectedByMempool => "PayJoin transaction rejected by mempool"

/-- `CPayJoinResult` of `SignAndBroadcast`. -/
structure CPayJoinResult (H : Type) where
  txHash : H
  nSenderInputs : Nat
  nReceiverInputs : Int
  nTotalInputs : Nat
  nOutputs : Nat
  nFeePaid : Int64
  fSuccess : Bool
  fPayJoinUsed : Bool

namespace CWallet

variable {H : Type} [Ord H] [TransOrd H] [DecidableEq H] (wallet : CWallet H)

/-- The value of an output that pays this script. -/
def valueTo (script : CScript) (txout : CTxOut) : Int64 :=
  if txout.scriptPubKey = script then txout.nValue else 0

omit [TransOrd H] [DecidableEq H] in
/-- The value of an output of the wallet's own that does not pay this script. -/
def changeValue (script : CScript) (txout : CTxOut) : Int64 :=
  if wallet.isMine txout.scriptPubKey && txout.scriptPubKey != script then txout.nValue else 0

/-- `CPayJoinClient::CreateOriginalTx`.  `address` is what the address decodes
to; `none` is an exception, or a fee loop that runs out of fuel. -/
def createOriginalTx (sha : Sha256 H) (settings : WalletSettings)
    (selectCoins : Int64 → Option (CoinSelection sha wallet)) (draw : Int64 → Nat)
    (wtxNew : CTransaction H) (fuel : Nat) (strAddress : String) (address : Option CTxDestination)
    (nAmount : Int64) : Option (Except (CPayJoinClient.Error H) (CTransaction H)) :=
  match address with
  | none => some (.error (.invalidAddress strAddress))
  | some dest =>
    if nAmount ≤ 0 then some (.error .invalidAmount)
    else
      (wallet.getBalance sha).bind fun nBalance =>
      if nAmount > nBalance then some (.error .insufficientFunds)
      else
        (createTransaction sha wallet settings selectCoins draw wtxNew
          [(CScript.setDestination dest, nAmount)] 1 fuel).map fun (created, nFeeRequired) =>
            match created with
            | some txOriginal => .ok txOriginal
            | none =>
              if nAmount + nFeeRequired > nBalance then
                .error (.insufficientFundsWithFee nFeeRequired)
              else .error .creationFailed

omit [TransOrd H] in
/-- `CPayJoinClient::ValidateProposal`.  The totals and the original fee, which
it computes as well, decide nothing. -/
def validateProposal (txOriginal txProposal : CTransaction H) (address : Option CTxDestination)
    (nAmount : Int64) : Except (CPayJoinClient.Error H) Unit :=
  match txOriginal.vin.find? fun txin => !(txProposal.vin.map CTxIn.prevout).contains txin.prevout with
  | some txin => .error (.inputRemoved txin.prevout)
  | none =>
    if txProposal.vin.length ≤ txOriginal.vin.length then .error .noAdditionalInputs
    else
      match address with
      | none => .error .invalidReceiverAddress
      | some dest =>
        let scriptReceiver := CScript.setDestination dest
        let nReceiverTotal := wrapped (valueTo scriptReceiver) txProposal.vout
        let nChangeReduction := wrapped (wallet.changeValue scriptReceiver) txOriginal.vout -
          wrapped (wallet.changeValue scriptReceiver) txProposal.vout
        let nNewOutputs := txProposal.vout.countP fun txout =>
          !txOriginal.vout.any fun origOut => txout.scriptPubKey == origOut.scriptPubKey
        if nReceiverTotal < nAmount then .error (.receiverReduced nAmount nReceiverTotal)
        else if nChangeReduction > PAYJOIN_MAX_FEE_INCREASE then
          .error (.changeReduced nChangeReduction)
        else if nNewOutputs > PAYJOIN_MAX_RECEIVER_INPUTS + 1 then .error (.manyNewOutputs nNewOutputs)
        else .ok ()

omit [DecidableEq H] in
/-- The value of an input, from the wallet or through `GetTransaction`. -/
def lookupValue (chain : ChainView H) (txin : CTxIn H) : Int64 :=
  if wallet.mapWallet.contains txin.prevout.hash then foundValue (wallet.prevOut txin.prevout)
  else foundValue (chain.prevOut txin.prevout)

/-- `CPayJoinClient::SignAndBroadcast`: the signed transaction and the result. -/
def signAndBroadcast (c : Consensus H) (chain : ChainView H) (policy : RelayPolicy H)
    (txProposal txOriginal : CTransaction H) :
    Except (CPayJoinClient.Error H) (CTransaction H × CPayJoinResult H) := do
  let signed ← (wallet.signOwn txProposal).mapError .signInput
  if signed.serializeSize ≥ MAX_BLOCK_SIZE_GEN / 5 then .error .tooLarge
  else if !(chain.mempool.accept c chain.node chain.env policy signed true).1 then
    .error .rejectedByMempool
  else
    .ok (signed,
      { txHash := signed.getHash c.toSha256
        nSenderInputs := txOriginal.vin.length
        nReceiverInputs := signed.vin.length - txOriginal.vin.length
        nTotalInputs := signed.vin.length
        nOutputs := signed.vout.length
        nFeePaid := wrapped (wallet.lookupValue chain) signed.vin - wrapped CTxOut.nValue signed.vout
        fSuccess := true
        fPayJoinUsed := true })

end CWallet

end MaryJaneCoin
