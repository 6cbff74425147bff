import MaryJaneCoin.Chain.ConnectBlock

/-!
# Choosing the best chain

`Reorganize`, `SetBestChainInner`, `SetBestChain`, `AddToBlockIndex` and
`AcceptBlock`.  All of them return their flag together with the node they leave
behind, also when the flag is `false`.
-/

namespace MaryJaneCoin

open Std

section

variable {H : Type}

/-- The inner loop of the fork search: go down while the path is higher. -/
def lowerTo (nHeight : Nat) : PIndex H → Option (PIndex H)
  | [] => none
  | plonger :: pprev => if plonger.nHeight > nHeight then lowerTo nHeight pprev
      else some (plonger :: pprev)

/-- The fork search of `Reorganize`; `none` stands for a null `pprev`. -/
def findFork [DecidableEq H] (plonger : PIndex H) : PIndex H → Option (PIndex H)
  | [] => none
  | pfork :: pprev =>
    if pfork :: pprev = plonger then some (pfork :: pprev)
    else
      match lowerTo pfork.nHeight plonger with
      | none => none
      | some lowered =>
        if pfork :: pprev = lowered then some (pfork :: pprev) else findFork lowered pprev

/-- The entries from a path down to the fork, each with its `pprev`. -/
def downTo [DecidableEq H] (pfork : PIndex H) : PIndex H → List (CBlockIndex H × PIndex H)
  | [] => []
  | pindex :: pprev =>
    if pindex :: pprev = pfork then [] else (pindex, pprev) :: downTo pfork pprev

/-- The postponing loop of `SetBestChain`: the secondary entries and the
intermediate one. -/
def postpone (nBestTrust : Nat) (pindex : CBlockIndex H) :
    PIndex H → List (CBlockIndex H × PIndex H) × (CBlockIndex H × PIndex H)
  | [] => ([], (pindex, []))
  | prev :: rest =>
    if prev.nChainTrust > nBestTrust then
      ((pindex, prev :: rest) :: (postpone nBestTrust prev rest).1,
        (postpone nBestTrust prev rest).2)
    else ([], (pindex, prev :: rest))

end

namespace Node

variable {H : Type} [Ord H] [TransOrd H] [DecidableEq H] (c : Consensus H)

/-- One round of the disconnecting loop of `Reorganize`. -/
def disconnectIndex (env : Env H) (s : Node H) (entry : CBlockIndex H × PIndex H) : Bool × Node H :=
  match s.readBlockFromDisk c env entry.1 with
  | none => (false, s)
  | some block =>
    let undone := s.disconnectBlock c block entry.1 entry.2
    if undone.1 && entry.1.fProofOfStake then
      (true, { undone.2 with
        setStakeSeen := undone.2.setStakeSeen.erase (entry.1.prevoutStake, entry.1.nStakeTime) })
    else undone

/-- One round of the connecting loop of `Reorganize`. -/
def connectIndex (env : Env H) (s : Node H) (entry : CBlockIndex H × PIndex H) : Bool × Node H :=
  match s.readBlockFromDisk c env entry.1 with
  | none => (false, s)
  | some block => s.connectBlock c env block entry.1 entry.2 false

/-- `pindex->pprev->pnext = NULL`. -/
def unlink (pnext : ExtTreeMap H H) (entry : CBlockIndex H × PIndex H) : ExtTreeMap H H :=
  match entry.2 with
  | [] => pnext
  | prev :: _ => pnext.erase prev.hash

/-- `pindex->pprev->pnext = pindex`. -/
def link (pnext : ExtTreeMap H H) (entry : CBlockIndex H × PIndex H) : ExtTreeMap H H :=
  match entry.2 with
  | [] => pnext
  | prev :: _ => pnext.insert prev.hash entry.1.hash

/-- Write the new best hash and commit the batch; on success the links follow. -/
def commitTip (s : Node H) (env : Env H) (hash : H) (relink : ExtTreeMap H H → ExtTreeMap H H) :
    Bool × Node H :=
  let committed := (s.txdb.writeHashBestChain hash).txnCommit (env.commits hash)
  if committed.1 then (true, { s with txdb := committed.2, pnext := relink s.pnext })
  else (false, { s with txdb := committed.2 })

def reorganize (s : Node H) (env : Env H) (pindexNew : CBlockIndex H) (pprev : PIndex H) :
    Bool × Node H :=
  match findFork (pindexNew :: pprev) s.pindexBest with
  | none => (false, s)
  | some pfork =>
    let vDisconnect := downTo pfork s.pindexBest
    let vConnect := (downTo pfork (pindexNew :: pprev)).reverse
    let undone := EarlyExit.loop (disconnectIndex c env) s vDisconnect
    if !undone.1 then undone
    else
      let done := EarlyExit.loop (connectIndex c env) undone.2 vConnect
      if !done.1 then done
      else
        done.2.commitTip env pindexNew.hash fun pnext =>
          vConnect.foldl link (vDisconnect.foldl unlink pnext)

/-- Drop the open batch. -/
def txnAbort (s : Node H) : Node H := { s with txdb := s.txdb.txnAbort }

/-- Open a batch. -/
def txnBegin (s : Node H) : Node H := { s with txdb := s.txdb.txnBegin }

def setBestChainInner (s : Node H) (env : Env H) (block : CBlock H) (pindexNew : CBlockIndex H)
    (pprev : PIndex H) : Bool × Node H :=
  let connected := s.connectBlock c env block pindexNew pprev false
  if !connected.1 then (false, connected.2.txnAbort)
  else connected.2.commitTip env (block.getHash c) fun pnext => link pnext (pindexNew, pprev)

/-- One round of the loop of `SetBestChain` over the postponed entries. -/
def connectSecondary (env : Env H) (s : Node H) (entry : CBlockIndex H × PIndex H) :
    Bool × Node H :=
  match s.readBlockFromDisk c env entry.1 with
  | none => (false, s)
  | some block => s.txnBegin.setBestChainInner c env block entry.1 entry.2

/-- The assignments at the end of `SetBestChain`. -/
def setTip (s : Node H) (hash : H) (pindexNew : CBlockIndex H) (pprev : PIndex H) : Node H :=
  { s with
    hashBestChain := hash
    pindexBest := pindexNew :: pprev
    nBestHeight := pindexNew.nHeight
    nBestChainTrust := pindexNew.nChainTrust }

/-- `SetBestChain` of the genesis block. -/
def setGenesis (s : Node H) (env : Env H) (hash : H) (pindexNew : CBlockIndex H)
    (pprev : PIndex H) : Bool × Node H :=
  let committed := s.commitTip env hash id
  if !committed.1 then committed
  else (true, { committed.2.setTip hash pindexNew pprev with
    pindexGenesisBlock := pindexNew :: pprev })

/-- The third branch of `SetBestChain`: reorganize to the intermediate entry,
then connect the postponed ones until one fails. -/
def switchBranch (s : Node H) (env : Env H) (hash : H) (pindexNew : CBlockIndex H)
    (pprev : PIndex H) : Bool × Node H :=
  let nBestTrust := (s.pindexBest.head?.map CBlockIndex.nChainTrust).getD 0
  let postponed := postpone nBestTrust pindexNew pprev
  let reorganized := s.reorganize c env postponed.2.1 postponed.2.2
  if !reorganized.1 then (false, reorganized.2.txnAbort)
  else
    let connected := EarlyExit.loop (connectSecondary c env) reorganized.2 postponed.1.reverse
    (true, connected.2.setTip hash pindexNew pprev)

def setBestChain (s : Node H) (env : Env H) (block : CBlock H) (pindexNew : CBlockIndex H)
    (pprev : PIndex H) : Bool × Node H :=
  let hash := block.getHash c
  if s.pindexGenesisBlock = [] ∧ pindexNew.nHeight = 0 then
    s.txnBegin.setGenesis env hash pindexNew pprev
  else if block.hashPrevBlock = s.hashBestChain then
    let inner := s.txnBegin.setBestChainInner c env block pindexNew pprev
    if !inner.1 then inner else (true, inner.2.setTip hash pindexNew pprev)
  else s.txnBegin.switchBranch c env hash pindexNew pprev

/-- The constructor `CBlockIndex(nFile, nBlockPos, block)` and what
`AddToBlockIndex` derives from the previous entry. -/
def newIndex (block : CBlock H) (nFile nBlockPos : Nat) (pprev : PIndex H) : CBlockIndex H where
  hash := block.getHash c
  nFile := nFile
  nBlockPos := nBlockPos
  nChainTrust :=
    ((pprev.head?.map CBlockIndex.nChainTrust).getD 0 + c.getBlockTrust block.nBits) % 2 ^ 256
  nHeight := (pprev.head?.map fun prev => prev.nHeight + 1).getD 0
  fProofOfStake := block.isProofOfStake c
  prevoutStake :=
    ((block.vtx[1]?.filter (CTransaction.isCoinStake c.toSha256)).bind fun coinstake =>
      coinstake.vin.head?.map CTxIn.prevout).getD ⟨c.zero, 0xffffffff⟩
  nStakeTime :=
    ((block.vtx[1]?.filter (CTransaction.isCoinStake c.toSha256)).map CTransaction.nTime).getD 0
  nTime := block.nTime

/-- `AddToBlockIndex` enters the new entry into the index. -/
def insertIndex (s : Node H) (pindexNew : CBlockIndex H) (pprev : PIndex H) : Node H :=
  { s with
    mapBlockIndex := s.mapBlockIndex.insert pindexNew.hash (pindexNew :: pprev)
    setStakeSeen :=
      if pindexNew.fProofOfStake then
        insert (pindexNew.prevoutStake, pindexNew.nStakeTime) s.setStakeSeen
      else s.setStakeSeen }

/-- The part of `AddToBlockIndex` before the call of `SetBestChain`: the entry
is entered into the index and written to the database. -/
def storeIndex (s : Node H) (env : Env H) (block : CBlock H) (nFile nBlockPos : Nat) :
    Bool × Node H :=
  let hash := block.getHash c
  if hash ∈ s.mapBlockIndex then (false, s)
  else
    let pprev := s.mapBlockIndex[block.hashPrevBlock]?.getD []
    let pindexNew := newIndex c block nFile nBlockPos pprev
    if !env.computesStakeModifier hash then (false, s)
    else
      let added := s.insertIndex pindexNew pprev
      let entry := added.diskBlockIndex c pindexNew
      let committed :=
        (added.txdb.txnBegin.writeBlockIndex hash entry).txnCommit (env.commitsIndex hash)
      (committed.1, { added with txdb := committed.2 })

def addToBlockIndex (s : Node H) (env : Env H) (block : CBlock H) (nFile nBlockPos : Nat) :
    Bool × Node H :=
  let stored := s.storeIndex c env block nFile nBlockPos
  if !stored.1 then stored
  else
    let pprev := s.mapBlockIndex[block.hashPrevBlock]?.getD []
    let pindexNew := newIndex c block nFile nBlockPos pprev
    if pindexNew.nChainTrust > stored.2.nBestChainTrust then
      stored.2.setBestChain c env block pindexNew pprev
    else (true, stored.2)

def acceptBlock (s : Node H) (env : Env H) (block : CBlock H) : Bool × Node H :=
  if block.getHash c ∈ s.mapBlockIndex then (false, s)
  else
    match s.mapBlockIndex[block.hashPrevBlock]?.getD [] with
    | [] => (false, s)
    | pindexPrev :: pprev =>
      if !block.acceptRules c pindexPrev pprev (env.checksProofOfStake block)
          (env.checksSync (block.getHash c)) then (false, s)
      else
        match s.writeToDisk env block with
        | none => (false, s)
        | some (nFile, nBlockPos, written) =>
          written.addToBlockIndex c env block nFile nBlockPos

/-- Accept blocks one after the other. -/
def acceptAll (s : Node H) (links : List (Env H × CBlock H)) : Node H :=
  links.foldl (fun s link => (s.acceptBlock c link.1 link.2).2) s

/-- The node that has the genesis block at the start of its first block file
and nothing else. -/
def genesis (c : Consensus H) (block : CBlock H) : Node H where
  txdb := ⟨⟨∅, ∅, some (block.getHash c)⟩, none⟩
  blockFiles nFile nBlockPos := if nFile = 1 ∧ nBlockPos = 8 then some block else none
  mapBlockIndex := (∅ : ExtTreeMap H (PIndex H)).insert (block.getHash c) [newIndex c block 1 8 []]
  pnext := ∅
  nMint := ∅
  nMoneySupply := ∅
  setStakeSeen := ∅
  pindexGenesisBlock := [newIndex c block 1 8 []]
  hashBestChain := block.getHash c
  pindexBest := [newIndex c block 1 8 []]
  nBestHeight := 0
  nBestChainTrust := (newIndex c block 1 8 []).nChainTrust
  g_mwState := CMWState.empty c.toSha256

/-- The index entry of the block on the sample genesis block. -/
def childIndex : CBlockIndex (List Nat) :=
  newIndex sampleConsensus childBlock 1 1000 (genesis sampleConsensus sampleGenesis).pindexBest

/-- A coinbase with two outputs. -/
def fundedCoinbase : CTransaction (List Nat) := sampleCoinbase 1 [⟨COIN, []⟩, ⟨COIN, [OP_1]⟩]

/-- Eleven blocks, after which the first coinbase can be spent. -/
def fundedChain : List (Env (List Nat) × CBlock (List Nat)) :=
  sampleChain 1 (sampleGenesis.getHash sampleConsensus)
    ([fundedCoinbase] :: (List.range 10).map fun k => [sampleCoinbase (k + 2) [⟨0, []⟩]])

def fundedNode : Node (List Nat) :=
  acceptAll sampleConsensus (genesis sampleConsensus sampleGenesis) fundedChain

/-- The first output of the coinbase. -/
def fundedOutput : COutPoint (List Nat) := ⟨fundedCoinbase.getHash transparent, 0⟩

/-- A transaction that spends it. -/
def pooledTx : CTransaction (List Nat) := samplePayment 12 fundedOutput [⟨COIN - MIN_TX_FEE, []⟩]

/-- A payment that spends the output of `pooledTx`. -/
def followingTx : CTransaction (List Nat) :=
  samplePayment 12 ⟨pooledTx.getHash transparent, 0⟩ [⟨COIN - MIN_TX_FEE - MIN_TX_FEE, []⟩]

/-- A block with both, so that one transaction spends an output of the one before it. -/
def chainedBlock : CBlock (List Nat) :=
  sampleBlock 12 fundedNode.hashBestChain [sampleCoinbase 12 [⟨0, []⟩], pooledTx, followingTx]

def chainedIndex : CBlockIndex (List Nat) :=
  newIndex sampleConsensus chainedBlock 1 12000 fundedNode.pindexBest

end Node

end MaryJaneCoin
