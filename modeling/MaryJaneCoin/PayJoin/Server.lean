import MaryJaneCoin.Wallet.CWallet

/-!
# The receiver of a PayJoin: `CPayJoinServer` of `payjoin.cpp`

A sender posts an original transaction that pays this wallet.  `CreateProposal`
adds coins of the wallet to its inputs, gives itself change for them, and signs
every input that is the wallet's own.
-/

namespace MaryJaneCoin

open Std WrappedSum

def PAYJOIN_MAX_RECEIVER_INPUTS : Nat := 5
def PAYJOIN_MIN_CONFIRMATIONS : Int := 1

inductive CPayJoinServer.Error where
  | walletNotAvailable
  | walletLocked
  | noInputs
  | noOutputs
  | coinBase
  | coinStake
  | noOutputToWallet
  | amountNotPositive
  | allInputsOwn
  | noSuitableInputs
  | inputsWithoutValue
  | noAddedValue
  | keypoolRanOut
  | signReceiverInput (i : Nat)
deriving DecidableEq

/-- The text in `strError`. -/
def CPayJoinServer.Error.strError : CPayJoinServer.Error → String
  | walletNotAvailable => "Wallet not available"
  | walletLocked => "Wallet is locked — unlock with walletpassphrase first"
  | noInputs => "Transaction has no inputs"
  | noOutputs => "Transaction has no outputs"
  | coinBase => "Transaction is a coinbase"
  | coinStake => "Transaction is a coinstake"
  | noOutputToWallet => "Transaction does not contain any output to our wallet"
  | amountNotPositive => "Receiver amount is zero or negative"
  | allInputsOwn => "All inputs belong to our wallet — not a valid PayJoin request"
  | noSuitableInputs => "No suitable receiver inputs available for PayJoin"
  | inputsWithoutValue => "Selected receiver inputs have zero value"
  | noAddedValue => "No added input value to adjust"
  | keypoolRanOut => "Keypool ran out for receiver change address"
  | signReceiverInput i => s!"Failed to sign receiver input {i}"

structure CPayJoinProposal (H : Type) where
  txOriginal : CTransaction H
  txProposal : CTransaction H
  nReceiverAmount : Int64
  nTimestamp : Int64
  fCompleted : Bool

structure CPayJoinServer (H : Type) [Ord H] where
  pWallet : Option (CWallet H)
  mapProposals : ExtTreeMap H (CPayJoinProposal H)

def scoreDenominationMatch (nUtxoValue : Int64) : List Int64 → Int64
  | [] => nUtxoValue
  | first :: rest => rest.foldl (fun nBestDiff nValue =>
    if (nUtxoValue - nValue).abs < nBestDiff then (nUtxoValue - nValue).abs else nBestDiff)
    (nUtxoValue - first).abs

/-- Coins with their score and their place, as `std::sort` orders the pairs. -/
def scoredBefore {H : Type} (a b : (Int64 × Nat) × COutput H) : Prop :=
  a.1.1 < b.1.1 ∨ (a.1.1 = b.1.1 ∧ a.1.2 ≤ b.1.2)

instance {H : Type} : DecidableRel (scoredBefore (H := H)) :=
  fun _ _ => inferInstanceAs (Decidable (_ ∨ _))

/-- The second loop of `SelectReceiverInputs`: the coins it takes, and their
value added to `nValueIn`. -/
def selectLoop {H : Type} (nPaymentAmount : Int64) (nSelected : Nat) (nValueIn : Int64) :
    List (COutput H) → List (COutput H) × Int64
  | [] => ([], nValueIn)
  | out :: rest =>
    if nSelected < PAYJOIN_MAX_RECEIVER_INPUTS then
      if nValueIn + out.txout.nValue > nPaymentAmount * 3 && 0 < nSelected then ([], nValueIn)
      else
        let taken := selectLoop nPaymentAmount (nSelected + 1) (nValueIn + out.txout.nValue) rest
        (out :: taken.1, taken.2)
    else ([], nValueIn)

section

variable {H : Type}

/-- Insert at the place that `GetRandInt` draws. -/
def insertAt {α : Type} (draw : Nat) (items : List α) (item : α) : List α :=
  items.insertIdx (getRandInt draw (items.length + 1)) item

/-- The loop of `AddReceiverInputs` over the coins. -/
def insertInputs (draw : Nat → Nat) (coins : List (COutput H)) (vin : List (CTxIn H)) :
    List (CTxIn H) :=
  coins.zipIdx.foldl (fun vin coin => insertAt (draw coin.2) vin coin.1.prevout.newInput) vin

end

namespace CWallet

variable {H : Type} [Ord H] [TransOrd H] [DecidableEq H] (sha : Sha256 H) (wallet : CWallet H)

/-- `ValidateOriginalTx`: the amount that the wallet receives. -/
def validateOriginalTx (tx : CTransaction H) : Except CPayJoinServer.Error Int64 :=
  if tx.vin.isEmpty then .error .noInputs
  else if tx.vout.isEmpty then .error .noOutputs
  else if tx.isCoinBase sha then .error .coinBase
  else if tx.isCoinStake sha then .error .coinStake
  else
    let nReceiverAmount := wrapped wallet.ownValue tx.vout
    if !tx.vout.any fun txout => wallet.isMine txout.scriptPubKey then .error .noOutputToWallet
    else if nReceiverAmount ≤ 0 then .error .amountNotPositive
    else if tx.vin.countP (fun txin => (wallet.ownOut txin.prevout).isSome) = tx.vin.length then
      .error .allInputsOwn
    else .ok nReceiverAmount

omit [DecidableEq H] in
/-- The values to which `SelectReceiverInputs` compares its coins: of the inputs
that the wallet knows, or else of the outputs. -/
def senderValues (txOriginal : CTransaction H) : List Int64 :=
  let vSenderValues := txOriginal.vin.filterMap fun txin =>
    (wallet.prevOut txin.prevout).map CTxOut.nValue
  if vSenderValues.isEmpty then
    (txOriginal.vout.filter fun txout => 0 < txout.nValue).map CTxOut.nValue
  else vSenderValues

/-- The coins that `SelectReceiverInputs` considers, best match first. -/
def scoredCoins (txOriginal : CTransaction H) : List (COutput H) :=
  let vCoins := wallet.availableCoins sha true
  let vScored := vCoins.zipIdx.filterMap fun (out, i) =>
    if out.nDepth < PAYJOIN_MIN_CONFIRMATIONS then none
    else if txOriginal.vin.any fun txin => txin.prevout == out.prevout then none
    else some ((scoreDenominationMatch out.txout.nValue (wallet.senderValues txOriginal), i), out)
  (vScored.insertionSort scoredBefore).map Prod.snd

/-- `SelectReceiverInputs`: the coins, which are distinct, and their value. -/
def selectReceiverInputs (txOriginal : CTransaction H) : List (COutput H) × Int64 :=
  selectLoop (wrapped wallet.ownValue txOriginal.vout) 0 0 (wallet.scoredCoins sha txOriginal)

def addReceiverInputs (draw : Nat → Nat) (tx txOriginal : CTransaction H) :
    Except CPayJoinServer.Error (CTransaction H) :=
  let selected := wallet.selectReceiverInputs sha txOriginal
  if selected.1.isEmpty then .error .noSuitableInputs
  else if selected.2 ≤ 0 then .error .inputsWithoutValue
  else .ok { tx with vin := insertInputs draw selected.1 tx.vin }

omit [TransOrd H] [DecidableEq H] in
/-- `AdjustOutputs`, which does not read the amount it is given. -/
def adjustOutputs (draw : Nat) (tx : CTransaction H) (_nReceiverAmount nAddedInputValue : Int64) :
    Except CPayJoinServer.Error (CTransaction H) :=
  if nAddedInputValue ≤ 0 then .error .noAddedValue
  else
    let nReceiverChange := nAddedInputValue - MIN_TX_FEE
    if nReceiverChange ≤ 0 then .ok tx
    else
      match wallet.keyFromPool with
      | none => .error .keypoolRanOut
      | some keyID => .ok { tx with
          vout := insertAt draw tx.vout ⟨nReceiverChange, CScript.setDestination (.keyID keyID)⟩ }

variable (chain : ChainView H)

omit [DecidableEq H] in
/-- The value of an input that `GetTransaction` finds. -/
def inputValue (txin : CTxIn H) : Int64 := foundValue (chain.prevOut txin.prevout)

omit [DecidableEq H] in
/-- The value of an input that `GetTransaction` finds and that is not the
wallet's own. -/
def foreignValue (txin : CTxIn H) : Int64 :=
  if (wallet.ownOut txin.prevout).isSome then 0 else inputValue chain txin

omit [DecidableEq H] in
/-- `nReceiverAddedValue`: the inputs of the proposal, through the wallet and
through `GetTransaction`, less those of the original, through `GetTransaction`. -/
def receiverAddedValue (txOriginal txProposal : CTransaction H) : Int64 :=
  wrapped wallet.getDebit txProposal.vin + wrapped (wallet.foreignValue chain) txProposal.vin -
    wrapped (inputValue chain) txOriginal.vin

/-- `CreateProposal` with a wallet; `draw` are the numbers from `GetRandInt`. -/
def createProposal (draw : Nat → Nat) (nTime : Int64) (txOriginal : CTransaction H) :
    Except CPayJoinServer.Error (CPayJoinProposal H) :=
  if wallet.isLocked then .error .walletLocked
  else do
    let nReceiverAmount ← wallet.validateOriginalTx sha txOriginal
    let txAdded ← wallet.addReceiverInputs sha draw txOriginal txOriginal
    let txAdjusted ← wallet.adjustOutputs (draw PAYJOIN_MAX_RECEIVER_INPUTS) txAdded nReceiverAmount
      (wallet.receiverAddedValue chain txOriginal txAdded)
    let txProposal ← (wallet.signOwn txAdjusted).mapError .signReceiverInput
    return { txOriginal, txProposal, nReceiverAmount, nTimestamp := nTime, fCompleted := false }

end CWallet

/-- `CPayJoinServer::CreateProposal`: the proposal, and the server that
remembers it. -/
def CPayJoinServer.createProposal {H : Type} [Ord H] [TransOrd H] [DecidableEq H] (sha : Sha256 H)
    (server : CPayJoinServer H) (chain : ChainView H) (draw : Nat → Nat) (nTime : Int64)
    (txOriginal : CTransaction H) : Except CPayJoinServer.Error (CTransaction H × CPayJoinServer H) :=
  match server.pWallet with
  | none => .error .walletNotAvailable
  | some wallet => (wallet.createProposal sha chain draw nTime txOriginal).map fun proposal =>
    (proposal.txProposal, { server with
      mapProposals := server.mapProposals.insert (txOriginal.getHash sha) proposal })

end MaryJaneCoin
