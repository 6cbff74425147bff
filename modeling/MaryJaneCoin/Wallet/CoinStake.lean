import MaryJaneCoin.Chain.StakeKernel
import MaryJaneCoin.Wallet.PayeeTotals

/-!
# `CWallet::CreateCoinStake`

The wallet looks for a kernel among its coins, adds coins of the same script to it and
distributes the reward: to the charities, to the development fund, and to the staker,
whose outputs take what is left of one running credit.
-/

namespace MaryJaneCoin

open Std

def MAX_MINT_PROOF_OF_STAKE : Int64 := 1 * CENT
def MAX_COMBINE_AMOUNT : Int64 := 2500 * COIN
def nStakeCombineAge : Int := 14 * 24 * 60 * 60

structure StakeForCharityEntry where
  strAddress : String
  nPercent : Int32

/-- The settings that `CreateCoinStake` reads. -/
structure StakeSettings where
  /-- `-reservebalance`, with what `ParseMoney` makes of it. -/
  reserveBalance : Option (Option Int64)
  nCombineThreshold : Int64
  /-- The start of the node caps it. -/
  nCombineThreshold_le : nCombineThreshold ≤ MAX_COMBINE_AMOUNT
  nStakeSplitThreshold : UInt64
  nHashDrift : UInt32
  fStakeForCharity : Bool
  vStakeForCharity : List StakeForCharityEntry
  /-- `CBitcoinAddress(strAddress).Get()` of a valid address. -/
  address : String → Option CTxDestination

/-- The order of a `std::set` of pointers, which is that of the addresses in memory. -/
structure SetOrder (α : Type) where
  sorted : List α → List α
  perm : ∀ items, (sorted items).Perm items

/-- A coin of the wallet: where the output stands, its transaction and the output. -/
structure StakeCoin (H : Type) where
  prevout : COutPoint H
  pcoin : CWalletTx H
  txout : CTxOut

namespace CWallet

section

variable {H : Type} [Ord H] [TransOrd H] (wallet : CWallet H)

def availableCoinsMinConf (nConf : Int) : List (StakeCoin H) :=
  wallet.mapWallet.toList.flatMap fun (hash, pcoin) =>
    if !pcoin.fFinal || pcoin.nDepthInMainChain < nConf then []
    else
      (pcoin.vout.zipIdx.filter fun (txout, i) => !pcoin.isSpent i &&
        wallet.isMine txout.scriptPubKey && txout.nValue ≥ wallet.nMinimumInputValue).map
          fun (txout, i) => ⟨⟨hash, UInt32.ofNat i⟩, pcoin, txout⟩

end

section

variable {H : Type}

/-- The loop of `SelectCoinsSimple` and of `SelectCoinsTransparentOnly`: the coins of the
usable transactions that are taken, from the total `nValueRet` on. -/
def selectStakeLoop (usable : CWalletTx H → Bool) (nTargetValue : Int64) (nSpendTime : UInt32) :
    List (StakeCoin H) → Int64 → List (StakeCoin H)
  | [], _ => []
  | output :: vCoins, nValueRet =>
    let n := output.txout.nValue
    if nValueRet ≥ nTargetValue then []
    else if output.pcoin.nTime > nSpendTime || !usable output.pcoin then
      selectStakeLoop usable nTargetValue nSpendTime vCoins nValueRet
    else if n ≥ nTargetValue then [output]
    else if n < nTargetValue + CENT then
      output :: selectStakeLoop usable nTargetValue nSpendTime vCoins (nValueRet + n)
    else selectStakeLoop usable nTargetValue nSpendTime vCoins nValueRet

end

section

variable {H : Type} [Ord H] [TransOrd H] [DecidableEq H] (wallet : CWallet H) (sha : Sha256 H)

/-- Whether `GetOutputPool` is `POOL_TRANSPARENT`. -/
def inTransparentPool (tx : CTransaction H) : Bool :=
  tx.isCoinStake sha || tx.isCoinBase sha || tx.hasPegoutMarker || !tx.hasStealthMarker

def selectCoinsSimple (nTargetValue : Int64) (nSpendTime : UInt32) (nMinConf : Int) :
    List (StakeCoin H) :=
  selectStakeLoop (fun _ => true) nTargetValue nSpendTime (wallet.availableCoinsMinConf nMinConf) 0

def selectCoinsTransparentOnly (nTargetValue : Int64) (nSpendTime : UInt32) (nMinConf : Int) :
    List (StakeCoin H) :=
  selectStakeLoop (fun pcoin => inTransparentPool sha pcoin.toCTransaction) nTargetValue nSpendTime
    (wallet.availableCoinsMinConf nMinConf) 0

def getTransparentBalance : Int64 :=
  (wallet.mapWallet.toList.filter fun (_, pcoin) => pcoin.fFinal && pcoin.isConfirmed &&
      inTransparentPool sha pcoin.toCTransaction).foldl
    (fun nTotal (_, pcoin) => (pcoin.vout.zipIdx.filter fun (txout, i) => !pcoin.isSpent i &&
      wallet.isMine txout.scriptPubKey && txout.nValue != 0).foldl
        (fun nTotal (txout, _) => nTotal + txout.nValue) nTotal) 0

end

end CWallet

/-- The key of a kernel and the script that its outputs get; `none` where the kernel is not
supported. -/
def kernelScript {H : Type} (hashes : ScriptHashes) (keystore : CKeyStore H)
    (scriptPubKeyKernel : CScript) : Option (CKey H × CScript) :=
  match solver scriptPubKeyKernel with
  | some (.TX_PUBKEYHASH, vSolutions) =>
    (keystore.getKey (uint160 (vSolutions.headD []))).map fun key =>
      (key, CScript.pushData key.pubKey ++ [OP_CHECKSIG])
  | some (.TX_PUBKEY, vSolutions) =>
    (keystore.getKey (hashes.hash160 (vSolutions.headD []))).bind fun key =>
      if key.pubKey ≠ vSolutions.headD [] then none else some (key, scriptPubKeyKernel)
  | _ => none

/-- A kernel that was found. -/
structure StakeKernel (H : Type) where
  coin : StakeCoin H
  nTime : UInt32
  key : CKey H
  scriptPubKeyOut : CScript
  /-- Whether there are two outputs to the staker. -/
  fSplit : Bool

/-- What `CreateCoinStake` reads besides its arguments: the wallet with its keys, the node
and the settings. -/
structure StakeMint (H : Type) [Ord H] where
  wallet : CWallet H
  keystore : CKeyStore H
  hashes : ScriptHashes
  node : StakeNode H
  env : Env H
  settings : StakeSettings
  order : SetOrder (StakeCoin H)
  /-- `fShutdown`, as it is read behind a coin. -/
  fShutdown : COutPoint H → Bool

namespace StakeMint

variable {H : Type} [Ord H] [TransOrd H] [DecidableEq H] (w : StakeWorld H) (mint : StakeMint H)

/-- The size that decides about the split. -/
def nTotalSize (nValue : Int64) (nTime : UInt32) (nBlockTime : Int64) : UInt64 :=
  (nValue * (1 + (Int64.ofNat nTime.toNat - nBlockTime) / (60 * 60 * 24) *
    (MAX_MINT_PROOF_OF_STAKE / COIN / 365))).toUInt64

def makeKernel (coin : StakeCoin H) (block : CBlock H) (nTime : UInt32) : Option (StakeKernel H) :=
  (kernelScript mint.hashes mint.keystore coin.txout.scriptPubKey).map fun (key, scriptPubKeyOut) =>
    ⟨coin, nTime, key, scriptPubKeyOut,
      nTotalSize coin.txout.nValue nTime (Int64.ofNat block.nTime.toNat) / 2 >
        mint.settings.nStakeSplitThreshold * COIN.toUInt64⟩

/-- The header of the block that a coin is from, with the index entry of its transaction. -/
def readBlockFrom (coin : StakeCoin H) : Option (CTxIndex × CBlock H) :=
  (mint.node.txdb.readTxIndex coin.prevout.hash).bind fun txindex =>
    (if mint.env.readsBlock txindex.pos.nFile txindex.pos.nBlockPos then
      mint.node.blockFiles txindex.pos.nFile txindex.pos.nBlockPos else none).map (txindex, ·)

/-- The loop that looks for a kernel. -/
def findKernel (nBits nTime : UInt32) : List (StakeCoin H) → Option (StakeKernel H)
  | [] => none
  | coin :: setCoins =>
    match mint.readBlockFrom coin with
    | none => findKernel nBits nTime setCoins
    | some (txindex, block) =>
      if block.nTime.toNat + nStakeMinAge.toNat > nTime.toNat then findKernel nBits nTime setCoins
      else
        match mint.node.searchStakeKernelHash w nBits block
            (txindex.pos.nTxPos - txindex.pos.nBlockPos) coin.pcoin.toCTransaction coin.prevout
            nTime mint.settings.nHashDrift w.zero with
        | (true, nTxNewTime, _) => mint.makeKernel coin block nTxNewTime
        | (false, _, _) =>
          if mint.fShutdown coin.prevout then none else findKernel nBits nTime setCoins

/-- The loop that adds coins to a kernel: the coins and what they are worth. -/
def combine (kernel : StakeKernel H) (nAvailable : Int64) :
    List (StakeCoin H) → List (StakeCoin H) → Int64 → List (StakeCoin H) × Int64
  | [], vwtxPrev, nCredit => (vwtxPrev, nCredit)
  | coin :: setCoins, vwtxPrev, nCredit =>
    if !kernel.fSplit && (coin.txout.scriptPubKey == kernel.coin.txout.scriptPubKey ||
        coin.txout.scriptPubKey == kernel.scriptPubKeyOut) &&
        coin.prevout.hash ≠ kernel.coin.prevout.hash then
      if vwtxPrev.length ≥ 100 then (vwtxPrev, nCredit)
      else if nCredit ≥ mint.settings.nCombineThreshold then (vwtxPrev, nCredit)
      else if nCredit + coin.txout.nValue > nAvailable then (vwtxPrev, nCredit)
      else if coin.txout.nValue ≥ mint.settings.nCombineThreshold then
        combine kernel nAvailable setCoins vwtxPrev nCredit
      else if getWeight coin.pcoin.nTime.toNat kernel.nTime.toNat < nStakeCombineAge then
        combine kernel nAvailable setCoins vwtxPrev nCredit
      else combine kernel nAvailable setCoins (vwtxPrev ++ [coin]) (nCredit + coin.txout.nValue)
    else combine kernel nAvailable setCoins vwtxPrev nCredit

end StakeMint

namespace StakeSettings

variable (settings : StakeSettings)

def nCharityAmount (nReward : Int64) (entry : StakeForCharityEntry) : Int64 :=
  nReward * entry.nPercent.toInt64 / 100

def charityOutput (nReward : Int64) (entry : StakeForCharityEntry) : Option CTxOut :=
  let nCharityAmount := nCharityAmount nReward entry
  if nCharityAmount > 0 && nCharityAmount ≥ MIN_RELAY_TX_FEE then
    (settings.address entry.strAddress).map fun destination =>
      ⟨nCharityAmount, CScript.setDestination destination⟩
  else none

/-- One round of the charity loop, over the outputs, `nTotalCharity` and
`nCharityOutputCount`. -/
def insertCharity (nReward : Int64) (acc : List CTxOut × Int64 × Nat)
    (entry : StakeForCharityEntry) : List CTxOut × Int64 × Nat :=
  match settings.charityOutput nReward entry with
  | none => acc
  | some txout => (acc.1.insertIdx (1 + acc.2.2) txout, acc.2.1 + txout.nValue, acc.2.2 + 1)

/-- The entries that the charity loop goes through. -/
def charities : List StakeForCharityEntry :=
  if settings.fStakeForCharity && !settings.vStakeForCharity.isEmpty then
    settings.vStakeForCharity.take 5
  else []

/-- The credit less the charities, which are capped to the reward. -/
def chargeCharity (nReward nTotalCharity nCredit : Int64) : Int64 :=
  if nTotalCharity > 0 then
    nCredit - (if nTotalCharity > nReward then nReward else nTotalCharity)
  else nCredit

end StakeSettings

/-- The part of the development fund: the outputs to it and the cut. -/
def devFundOutput (getDevFundScript : Option CScript) (nBestHeight : Int) (nReward nFees : Int64) :
    Option (List CTxOut × Int64) :=
  if nBestHeight + 1 ≥ DEV_FUND_FEE_ACTIVATION_HEIGHT then
    let nDevFundCut := if getDevFundCut nFees > nReward then nReward else getDevFundCut nFees
    if nDevFundCut > 0 then
      getDevFundScript.map fun devScript => ([⟨nDevFundCut, devScript⟩], nDevFundCut)
    else some ([], 0)
  else some ([], 0)

/-- `txout.nValue = nValue`, for the output at this place. -/
def setValue (vout : List CTxOut) (i : Nat) (nValue : Int64) : List CTxOut :=
  vout.modify i fun txout => { txout with nValue }

/-- The outputs to the staker get the credit. -/
def payStaker (nOriginalOutputCount nFirstStakerOutput : Nat) (nCredit : Int64)
    (vout : List CTxOut) : Option (List CTxOut) :=
  if nCredit ≤ 0 then none
  else if nFirstStakerOutput ≥ vout.length then none
  else if nOriginalOutputCount = 3 then
    if nFirstStakerOutput + 1 ≥ vout.length then none
    else
      let nValue := nCredit / 2 / CENT * CENT
      some (setValue (setValue vout nFirstStakerOutput nValue) (nFirstStakerOutput + 1)
        (nCredit - nValue))
  else some (setValue vout nFirstStakerOutput nCredit)

/-- The distribution of the reward: the outputs with their values. -/
def distributeReward (settings : StakeSettings) (getDevFundScript : Option CScript)
    (nBestHeight : Int) (nReward nFees nCredit : Int64) (vout : List CTxOut) : Option (List CTxOut) :=
  let (charityVout, nTotalCharity, nCharityOutputCount) :=
    settings.charities.foldl (settings.insertCharity nReward) (vout, 0, 0)
  (devFundOutput getDevFundScript nBestHeight nReward nFees).bind fun (devFund, nDevFundCut) =>
    payStaker vout.length (1 + nCharityOutputCount + devFund.length)
      (StakeSettings.chargeCharity nReward nTotalCharity nCredit - nDevFundCut)
      (devFund.foldl (fun vout txout => vout.insertIdx (1 + nCharityOutputCount) txout) charityVout)

/-- The outputs to the staker, before they have a value. -/
def stakerOutputs (fSplit : Bool) (script : CScript) : List CTxOut :=
  if fSplit then [⟨0, script⟩, ⟨0, script⟩] else [⟨0, script⟩]

namespace StakeMint

variable {H : Type} [Ord H] [TransOrd H] [DecidableEq H] (w : StakeWorld H) (mint : StakeMint H)

/-- One round of the signing loop. -/
def signStake (txNew : CTransaction H) (prev : StakeCoin H × Nat) : Option (CTransaction H) :=
  txNew.vin[prev.2]?.bind fun txin =>
    (mint.wallet.signSignature prev.1.txout.scriptPubKey txNew prev.2).map fun scriptSig =>
      { txNew with vin := txNew.vin.set prev.2 { txin with scriptSig } }

/-- The balance and the coins that may stake, with what is available of them. -/
def stakeCoins (nTime : UInt32) : Option (List (StakeCoin H) × Int64) :=
  let fTwoPoolActive := mint.node.nBestHeight ≥ TWO_POOL_ACTIVATION_HEIGHT
  (if fTwoPoolActive then some (mint.wallet.getTransparentBalance w.toSha256)
    else mint.wallet.getBalance w.toSha256).bind fun nBalance =>
      (mint.settings.reserveBalance.getD (some 0)).bind fun nReserveBalance =>
        if nBalance ≤ nReserveBalance then none
        else
          let nAvailable := nBalance - nReserveBalance
          let nMinConf := nCoinbaseMaturity + 5
          some (mint.order.sorted
            (if fTwoPoolActive then
              mint.wallet.selectCoinsTransparentOnly w.toSha256 nAvailable nTime nMinConf
            else mint.wallet.selectCoinsSimple nAvailable nTime nMinConf), nAvailable)

/-- The inputs of the coinstake: the kernel, the coins and what they are worth. -/
def stakeInputs (nBits nTime : UInt32) : Option (StakeKernel H × List (StakeCoin H) × Int64) :=
  (mint.stakeCoins w nTime).bind fun (setCoins, nAvailable) =>
    (mint.findKernel w nBits nTime setCoins).bind fun kernel =>
      let nCredit := 0 + kernel.coin.txout.nValue
      if nCredit = 0 || nCredit > nAvailable then none
      else some (kernel, mint.combine kernel nAvailable setCoins [kernel.coin] nCredit)

/-- `CWallet::CreateCoinStake`: the coinstake and the key of the kernel. -/
def createCoinStake (nBits : UInt32) (nFees : Int64) (txNew : CTransaction H) :
    Option (CTransaction H × CKey H) :=
  (mint.stakeInputs w nBits txNew.nTime).bind fun (kernel, vwtxPrev, nCredit) =>
    let txNew := { txNew with
      nTime := kernel.nTime
      vin := vwtxPrev.map fun coin => coin.prevout.newInput
      vout := ⟨0, []⟩ :: stakerOutputs kernel.fSplit kernel.scriptPubKeyOut }
    if !mint.node.getCoinAge w.toConsensus mint.env txNew then none
    else
      let nReward := getProofOfStakeReward nFees
      if nReward ≤ 0 then none
      else
        (distributeReward mint.settings w.getDevFundScript mint.node.nBestHeight nReward nFees
            (nCredit + nReward) txNew.vout).bind fun vout =>
          (vwtxPrev.zipIdx.foldlM mint.signStake { txNew with vout }).bind fun signed =>
            if signed.serializeSize ≥ MAX_BLOCK_SIZE_GEN / 5 then none else some (signed, kernel.key)

end StakeMint

end MaryJaneCoin
