import MaryJaneCoin.Chain.Node
import MaryJaneCoin.Lib.EarlyExit

/-!
# `ConnectBlock` and `DisconnectBlock`

Inputs are fetched and connected as `ConnectBlock` asks for it, that is with
`fBlock` set and `fMiner` not.  A call that returns `false` early is `none`
where nothing but local variables has changed; where the node has changed
already, the changed node is returned with the flag.
-/

namespace MaryJaneCoin

open Std

def nCoinbaseMaturity : Int := 10
def STEALTH_MANDATORY_HEIGHT : Nat := 1000
def RING_MIXING_MANDATORY_HEIGHT : Nat := 1500
def RING_MIXING_MIN_EQUAL_OUTPUTS : Nat := 3
def TWO_POOL_ACTIVATION_HEIGHT : Nat := 2000
def DEV_FUND_FEE_ACTIVATION_HEIGHT : Nat := 60000
def MARYJ_DEV_FUND_FEE_NUM : Int64 := 20
def MARYJ_DEV_FUND_FEE_DEN : Int64 := 420
def MWEB_ACTIVATION_HEIGHT : Nat := 50000

def getProofOfWorkReward (nHeight : Nat) (nFees : Int64) : Int64 :=
  if nHeight = 1 then 1000000000 * COIN + nFees else 0 + nFees

/-- `GetProofOfStakeReward`; only the fees count. -/
def getProofOfStakeReward (nFees : Int64) : Int64 := 0 + nFees

def getDevFundCut (nFees : Int64) : Int64 :=
  if nFees ≤ 0 then 0 else nFees * MARYJ_DEV_FUND_FEE_NUM / MARYJ_DEV_FUND_FEE_DEN

abbrev MapPrevTx (H : Type) [Ord H] := ExtTreeMap H (CTxIndex × CTransaction H)

/-- The local variables of the transaction loop of `ConnectBlock`. -/
structure ConnectState (H : Type) [Ord H] where
  mapQueuedChanges : TxIndexMap H
  nFees : Int64
  nValueIn : Int64
  nValueOut : Int64
  nStakeReward : Int64
  nSigOps : Nat
  nTxPos : Nat

namespace CTransaction

variable {H : Type} [Ord H] [TransOrd H]

/-- `CTransaction::GetOutputFor`; `none` is the exception. -/
def getOutputFor (input : CTxIn H) (inputs : MapPrevTx H) : Option CTxOut :=
  inputs[input.prevout.hash]?.bind fun prev => prev.2.vout[input.prevout.n.toNat]?

/-- The loop of `CTransaction::GetValueMapIn`. -/
def valueMapIn (inputs : MapPrevTx H) (vin : List (CTxIn H)) : Option Int64 :=
  vin.foldlM (fun nResult txin =>
    (getOutputFor txin inputs).map fun prevout => nResult + prevout.nValue) 0

/-- The loop of `CTransaction::GetP2SHSigOpCount`. -/
def getP2SHSigOpCount (tx : CTransaction H) (inputs : MapPrevTx H) : Nat :=
  (tx.vin.map fun txin =>
    ((getOutputFor txin inputs).map fun prevout =>
      if CScript.isPayToScriptHash prevout.scriptPubKey then
        CScript.getP2SHSigOpCount prevout.scriptPubKey txin.scriptSig
      else 0).getD 0).sum

/-- First loop of `CTransaction::FetchInputs`: one previous transaction with
its index entry, from the queued changes or the database. -/
def fetchInput (s : Node H) (env : Env H) (mapTestPool : TxIndexMap H) (inputs : MapPrevTx H)
    (txin : CTxIn H) : Option (MapPrevTx H) :=
  if txin.prevout.hash ∈ inputs then some inputs
  else
    (mapTestPool[txin.prevout.hash]?.or (s.txdb.readTxIndex txin.prevout.hash)).bind fun txindex =>
      (if txindex.pos = ⟨1, 1, 1⟩ then env.mempool txin.prevout.hash
        else s.readTxFromDisk env txindex.pos).map fun txPrev =>
          inputs.insert txin.prevout.hash (txindex, txPrev)

/-- Second loop of `CTransaction::FetchInputs`: the output exists. -/
def inRange (inputs : MapPrevTx H) (txin : CTxIn H) : Bool :=
  inputs[txin.prevout.hash]?.any fun prev =>
    txin.prevout.n.toNat < prev.2.vout.length && txin.prevout.n.toNat < prev.1.vSpent.length

/-- `CTransaction::FetchInputs` of a transaction that is no coinbase. -/
def fetchInputs (s : Node H) (env : Env H) (mapTestPool : TxIndexMap H) (tx : CTransaction H) :
    Option (MapPrevTx H) :=
  (tx.vin.foldlM (fetchInput s env mapTestPool) ∅).filter fun inputs => tx.vin.all (inRange inputs)

variable [DecidableEq H] (c : Consensus H)

/-- The maturity loop of `ConnectInputs`: the position is that of one of the
last `nCoinbaseMaturity` blocks. -/
def immature (pos : CDiskTxPos) (pindexBlock : CBlockIndex H) (pprev : PIndex H) : Bool :=
  ((pindexBlock :: pprev).takeWhile fun pindex =>
      (pindexBlock.nHeight : Int) - pindex.nHeight < nCoinbaseMaturity).any fun pindex =>
    pindex.nBlockPos == pos.nBlockPos && pindex.nFile == pos.nFile

/-- First loop of `CTransaction::ConnectInputs`: the value so far. -/
def checkInput (tx : CTransaction H) (inputs : MapPrevTx H) (pindexBlock : CBlockIndex H)
    (pprev : PIndex H) (nValueIn : Int64) (txin : CTxIn H) : Option Int64 :=
  inputs[txin.prevout.hash]?.bind fun prev =>
    prev.2.vout[txin.prevout.n.toNat]?.bind fun prevout =>
      if txin.prevout.n.toNat ≥ prev.1.vSpent.length then none
      else if (prev.2.isCoinBase c.toSha256 || prev.2.isCoinStake c.toSha256) &&
          immature prev.1.pos pindexBlock pprev then none
      else if prev.2.nTime > tx.nTime then none
      else if !moneyRange prevout.nValue || !moneyRange (nValueIn + prevout.nValue) then none
      else some (nValueIn + prevout.nValue)

/-- Second loop of `CTransaction::ConnectInputs`: the output is unspent, the
signature is valid unless blocks are still below the last checkpoint, and the
output is marked. -/
def spendInput (tx : CTransaction H) (posThisTx : CDiskTxPos) (nBestHeight : Int)
    (acc : MapPrevTx H × TxIndexMap H) (input : CTxIn H × Nat) :
    Option (MapPrevTx H × TxIndexMap H) :=
  acc.1[input.1.prevout.hash]?.bind fun prev =>
    if prev.1.vSpent[input.1.prevout.n.toNat]? ≠ some none then none
    else if !(nBestHeight < c.getTotalBlocksEstimate) && !c.verifySignature prev.2 tx input.2 then none
    else
      let txindex : CTxIndex :=
        { prev.1 with vSpent := prev.1.vSpent.set input.1.prevout.n.toNat (some posThisTx) }
      some (acc.1.insert input.1.prevout.hash (txindex, prev.2),
        acc.2.insert input.1.prevout.hash txindex)

/-- The fee rules of `ConnectInputs`, which a coinstake is exempt from. -/
def checkFee (tx : CTransaction H) (nValueIn : Int64) (nHeight : Nat) : Bool :=
  tx.isCoinStake c.toSha256 ||
    tx.getValueOut.any fun nValueOut =>
      let nTxFee := nValueIn - nValueOut
      let nTierFee := tx.getTxTypeFeeFloor c.toSha256 nHeight
      let nMinFee :=
        if nTierFee > tx.getMinFee 1 .GMF_BLOCK 0 then nTierFee else tx.getMinFee 1 .GMF_BLOCK 0
      !(nValueIn < nValueOut) && !(nTxFee < 0) && !(nTxFee < nMinFee) && moneyRange (0 + nTxFee)

/-- `CTransaction::ConnectInputs` of a transaction that is no coinbase: the
queued changes with the inputs marked. -/
def connectInputs (tx : CTransaction H) (inputs : MapPrevTx H) (mapTestPool : TxIndexMap H)
    (posThisTx : CDiskTxPos) (pindexBlock : CBlockIndex H) (pprev : PIndex H)
    (nBestHeight : Int) : Option (TxIndexMap H) :=
  (tx.vin.foldlM (tx.checkInput c inputs pindexBlock pprev) 0).bind fun nValueIn =>
    (tx.vin.zipIdx.foldlM (tx.spendInput c posThisTx nBestHeight) (inputs, mapTestPool)).bind
      fun spent =>
        if tx.checkFee c nValueIn pindexBlock.nHeight then some spent.2 else none

end CTransaction

namespace Node

variable {H : Type} [Ord H] [TransOrd H] [DecidableEq H] (c : Consensus H)

/-- An unspent transaction is not to be overwritten. -/
def overwritesUnspent (s : Node H) (hashTx : H) : Bool :=
  (s.txdb.readTxIndex hashTx).any fun txindexOld => txindexOld.vSpent.any Option.isNone

/-- One round of the transaction loop of `ConnectBlock`. -/
def connectTx (s : Node H) (env : Env H) (pindex : CBlockIndex H) (pprev : PIndex H)
    (fJustCheck : Bool) (acc : ConnectState H) (tx : CTransaction H) : Option (ConnectState H) :=
  let hashTx := tx.getHash c.toSha256
  let nSigOps := acc.nSigOps + tx.getLegacySigOpCount
  let posThisTx : CDiskTxPos := ⟨pindex.nFile, pindex.nBlockPos, acc.nTxPos⟩
  let nTxPos := if fJustCheck then acc.nTxPos else acc.nTxPos + tx.serializeSize
  let txindex := CTxIndex.new posThisTx tx.vout.length
  if s.overwritesUnspent hashTx then none
  else if nSigOps > MAX_BLOCK_SIGOPS then none
  else if tx.isCoinBase c.toSha256 then
    tx.getValueOut.map fun nTxValueOut =>
      { acc with
        mapQueuedChanges := acc.mapQueuedChanges.insert hashTx txindex
        nValueOut := acc.nValueOut + nTxValueOut
        nSigOps := nSigOps
        nTxPos := nTxPos }
  else
    (tx.fetchInputs s env acc.mapQueuedChanges).bind fun mapInputs =>
    let nSigOps := nSigOps + tx.getP2SHSigOpCount mapInputs
    if nSigOps > MAX_BLOCK_SIGOPS then none
    else
      (CTransaction.valueMapIn mapInputs tx.vin).bind fun nTxValueIn =>
      tx.getValueOut.bind fun nTxValueOut =>
      (tx.connectInputs c mapInputs acc.mapQueuedChanges posThisTx pindex pprev
        s.nBestHeight).map fun queued =>
        { mapQueuedChanges := queued.insert hashTx txindex
          nFees := if tx.isCoinStake c.toSha256 then acc.nFees
            else acc.nFees + (nTxValueIn - nTxValueOut)
          nValueIn := acc.nValueIn + nTxValueIn
          nValueOut := acc.nValueOut + nTxValueOut
          nStakeReward := if tx.isCoinStake c.toSha256 then nTxValueOut - nTxValueIn
            else acc.nStakeReward
          nSigOps := nSigOps
          nTxPos := nTxPos }

/-- What the transaction loop starts from. -/
def connectStart (block : CBlock H) (pindex : CBlockIndex H) (fJustCheck : Bool) :
    ConnectState H where
  mapQueuedChanges := ∅
  nFees := 0
  nValueIn := 0
  nValueOut := 0
  nStakeReward := 0
  nSigOps := 0
  nTxPos := if fJustCheck then 1 else block.firstTxPos pindex.nBlockPos

/-- The greatest number of outputs of one value, empty ones apart. -/
def maxEqualOutputs (tx : CTransaction H) : Nat :=
  let values := (tx.vout.map CTxOut.nValue).filter (· != 0)
  (values.map fun nValue => values.count nValue).foldl max 0

/-- The stealth, ring mixing and canonical structure rules of `ConnectBlock`. -/
def checkPrivacyRules (block : CBlock H) (nHeight : Nat) : Bool :=
  let ordinary := block.vtx.filter fun tx =>
    !tx.isCoinBase c.toSha256 && !tx.isCoinStake c.toSha256
  (nHeight < STEALTH_MANDATORY_HEIGHT || ordinary.all fun tx =>
      tx.hasStealthMarker || (nHeight ≥ TWO_POOL_ACTIVATION_HEIGHT && tx.hasPegoutMarker)) &&
    (nHeight < RING_MIXING_MANDATORY_HEIGHT || ordinary.all fun tx =>
      tx.hasPegoutMarker || maxEqualOutputs tx ≥ RING_MIXING_MIN_EQUAL_OUTPUTS) &&
    (nHeight < L5_GRAPH_NORM_ACTIVATION_HEIGHT ||
      block.vtx.all fun tx => tx.checkCanonicalStructure c.toSha256 nHeight)

/-- Whether `CTransaction::GetCoinAge` succeeds; the age itself is not used. -/
def getCoinAge (s : Node H) (env : Env H) (tx : CTransaction H) : Bool :=
  tx.isCoinBase c.toSha256 || tx.vin.all fun txin =>
    match s.txdb.readTxIndex txin.prevout.hash with
    | none => true
    | some txindex =>
      match s.readTxFromDisk env txindex.pos with
      | none => true
      | some txPrev =>
        txin.prevout.n.toNat ≥ txPrev.vout.length ||
          (txPrev.nTime ≤ tx.nTime && env.readsBlock txindex.pos.nFile txindex.pos.nBlockPos)

/-- The dev-fund rule of `ConnectBlock`. -/
def checkDevFund (coinstake : CTransaction H) (nHeight : Nat) (nFees : Int64) : Bool :=
  nHeight < DEV_FUND_FEE_ACTIVATION_HEIGHT || getDevFundCut nFees ≤ 0 ||
    c.getDevFundScript.any fun devScript =>
      getDevFundCut nFees ≤ (coinstake.vout.filter (·.scriptPubKey = devScript)).foldl
        (fun nPaidToDevFund txout => nPaidToDevFund + txout.nValue) 0

/-- The reward rules of `ConnectBlock`. -/
def checkRewards (s : Node H) (env : Env H) (block : CBlock H) (nHeight : Nat)
    (acc : ConnectState H) : Bool :=
  if block.isProofOfWork c then
    (block.vtx.head?.bind CTransaction.getValueOut).any fun nValueOut =>
      nValueOut ≤ getProofOfWorkReward nHeight acc.nFees
  else
    block.vtx[1]?.any fun coinstake =>
      s.getCoinAge c env coinstake && acc.nStakeReward ≤ getProofOfStakeReward acc.nFees &&
        checkDevFund c coinstake nHeight acc.nFees

/-- The transaction loop and the rules behind it. -/
def connectChecks (s : Node H) (env : Env H) (block : CBlock H) (pindex : CBlockIndex H)
    (pprev : PIndex H) (fJustCheck : Bool) : Option (ConnectState H) :=
  if block.checkBlock c env.adjustedTime (!fJustCheck) (!fJustCheck) false then
    (block.vtx.foldlM (s.connectTx c env pindex pprev fJustCheck)
      (connectStart block pindex fJustCheck)).filter fun acc =>
        checkPrivacyRules c block pindex.nHeight && s.checkRewards c env block pindex.nHeight acc
  else none

/-- `ConnectBlock` records what the block mints. -/
def recordSupply (s : Node H) (pindex : CBlockIndex H) (pprev : PIndex H) (acc : ConnectState H) :
    Node H :=
  let nPrevSupply := (pprev.head?.map fun prev => s.nMoneySupply[prev.hash]?.getD 0).getD 0
  let s' :=
    { s with
      nMint := s.nMint.insert pindex.hash (acc.nValueOut - acc.nValueIn + acc.nFees)
      nMoneySupply := s.nMoneySupply.insert pindex.hash
        (nPrevSupply + acc.nValueOut - acc.nValueIn) }
  { s' with txdb := s'.txdb.writeBlockIndex pindex.hash (s'.diskBlockIndex c pindex) }

/-- `ConnectBlock` writes the queued changes and links the previous block. -/
def writeChanges (s : Node H) (pindex : CBlockIndex H) (pprev : PIndex H)
    (mapQueuedChanges : TxIndexMap H) : Node H :=
  let txdb := mapQueuedChanges.toList.foldl
    (fun txdb change => txdb.updateTxIndex change.1 change.2) s.txdb
  match pprev with
  | [] => { s with txdb := txdb }
  | prev :: _ =>
    let blockindexPrev := { s.diskBlockIndex c prev with hashNext := pindex.hash }
    { s with txdb := txdb.writeBlockIndex prev.hash blockindexPrev }

/-- `ConnectBlock` validates and applies an extension block. -/
def connectMWEB (mwState : CMWState H) (block : CBlock H) (pindex : CBlockIndex H) :
    Option (CMWState H) :=
  if pindex.nHeight < MWEB_ACTIVATION_HEIGHT then some mwState
  else if block.vtx.any fun tx => tx.hasMWEB && !tx.checkMWEB c.toMWCrypto then none
  else if block.hasMWEBVersion && !block.mwExtBlock.isNull c.toSha256 then
    let nTransparentPegIn := block.vtx.foldl
      (fun nPegIn tx => nPegIn + tx.pegInAmount.getD 0) 0
    if (validateMWBlock c.toMWCrypto block.mwExtBlock mwState (Int32.ofNat pindex.nHeight)
        nTransparentPegIn 0).isValid then
      mwState.applyBlock c.toSha256 block.mwExtBlock (Int32.ofNat pindex.nHeight) pindex.hash
        (block.mwExtBlock.body.getTotalPegIn - block.mwExtBlock.body.getTotalPegOut)
    else none
  else some mwState

def connectBlock (s : Node H) (env : Env H) (block : CBlock H) (pindex : CBlockIndex H)
    (pprev : PIndex H) (fJustCheck : Bool) : Bool × Node H :=
  match s.connectChecks c env block pindex pprev fJustCheck with
  | none => (false, s)
  | some acc =>
    let recorded := s.recordSupply c pindex pprev acc
    if fJustCheck then (true, recorded)
    else
      let written := recorded.writeChanges c pindex pprev acc.mapQueuedChanges
      match connectMWEB c written.g_mwState block pindex with
      | none => (false, written)
      | some mwState => (true, { written with g_mwState := mwState })

/-- One input of `CTransaction::DisconnectInputs`. -/
def disconnectInput (txdb : CTxDB H) (txin : CTxIn H) : Bool × CTxDB H :=
  match txdb.readTxIndex txin.prevout.hash with
  | none => (true, txdb)
  | some txindex =>
    if txin.prevout.n.toNat ≥ txindex.vSpent.length then (false, txdb)
    else (true, txdb.updateTxIndex txin.prevout.hash
      { txindex with vSpent := txindex.vSpent.set txin.prevout.n.toNat none })

def disconnectInputs (txdb : CTxDB H) (tx : CTransaction H) : Bool × CTxDB H :=
  let inputs := if tx.isCoinBase c.toSha256 then [] else tx.vin
  let done := EarlyExit.loop disconnectInput txdb inputs
  if done.1 then (true, done.2.eraseTxIndex (tx.getHash c.toSha256)) else done

def disconnectBlock (s : Node H) (block : CBlock H) (pindex : CBlockIndex H) (pprev : PIndex H) :
    Bool × Node H :=
  let undone := EarlyExit.loop (disconnectInputs c) s.txdb block.vtx.reverse
  if !undone.1 then (false, { s with txdb := undone.2 })
  else
    let txdb :=
      match pprev with
      | [] => undone.2
      | prev :: _ => undone.2.writeBlockIndex prev.hash
          { s.diskBlockIndex c prev with hashNext := c.zero }
    if pindex.nHeight < MWEB_ACTIVATION_HEIGHT then (true, { s with txdb := txdb })
    else
      let fNoMWChange := !(block.hasMWEBVersion && !block.mwExtBlock.isNull c.toSha256)
      let unwound := s.g_mwState.disconnectBlock pindex.hash fNoMWChange
      (unwound.1, { s with txdb := txdb, g_mwState := unwound.2 })

end Node

end MaryJaneCoin
