import MaryJaneCoin.Chain.Block

/-!
# The node: database, block files and the global variables of `main.cpp`

The LevelDB database of `CTxDB` is a map with an optional batch.  A batch is
modelled by the content it would leave behind: writes go to it while it is
open, `TxnCommit` makes it the content and `TxnAbort` drops it.  `TxnBegin` and
writes into a batch cannot fail, `TxnCommit` can.

The block files are append-only; a failing read is up to the environment.  The
wallets and the memory pool follow the chain but do not influence it and are
left out.
-/

namespace MaryJaneCoin

open Std Codec

/-- `CDiskTxPos`, without the null position. -/
structure CDiskTxPos where
  nFile : Nat
  nBlockPos : Nat
  nTxPos : Nat
deriving DecidableEq

/-- `CTxIndex`; a null position in `vSpent` is `none`. -/
structure CTxIndex where
  pos : CDiskTxPos
  vSpent : List (Option CDiskTxPos)
deriving DecidableEq

/-- The constructor `CTxIndex(pos, nOutputs)`. -/
def CTxIndex.new (pos : CDiskTxPos) (nOutputs : Nat) : CTxIndex :=
  ⟨pos, List.replicate nOutputs none⟩

/-- `CDiskBlockIndex`, as far as it is not fixed when the entry is added. -/
structure CDiskBlockIndex (H : Type) where
  hashNext : H
  nMint : Int64
  nMoneySupply : Int64
deriving DecidableEq

/-- The transaction index: what the database holds under `"tx"`. -/
abbrev TxIndexMap (H : Type) [Ord H] := ExtTreeMap H CTxIndex

/-- The content of the database. -/
structure TxDBContent (H : Type) [Ord H] where
  txindex : TxIndexMap H
  blockindex : ExtTreeMap H (CDiskBlockIndex H)
  hashBestChain : Option H

structure CTxDB (H : Type) [Ord H] where
  pdb : TxDBContent H
  activeBatch : Option (TxDBContent H)

structure Node (H : Type) [Ord H] where
  txdb : CTxDB H
  blockFiles : Nat → Nat → Option (CBlock H)
  mapBlockIndex : ExtTreeMap H (PIndex H)
  pnext : ExtTreeMap H H
  nMint : ExtTreeMap H Int64
  nMoneySupply : ExtTreeMap H Int64
  setStakeSeen : Finset (COutPoint H × UInt32)
  pindexGenesisBlock : PIndex H
  hashBestChain : H
  pindexBest : PIndex H
  nBestHeight : Int
  nBestChainTrust : Nat
  g_mwState : CMWState H

/-- What the node's surroundings do during one call: the clock, which reads and
commits succeed, and the memory pool. -/
structure Env (H : Type) where
  /-- `GetAdjustedTime`. -/
  adjustedTime : Int
  /-- Whether the block at this position can be read. -/
  readsBlock : Nat → Nat → Bool
  /-- Whether the transaction at this position can be read. -/
  readsTx : CDiskTxPos → Bool
  /-- Whether the batch that connects up to this block can be written. -/
  commits : H → Bool
  /-- Whether the batch with the index entry of this block can be written. -/
  commitsIndex : H → Bool
  /-- `mempool.lookup`. -/
  mempool : H → Option (CTransaction H)
  /-- Where `AppendBlockFile` lets the next block be written, if it can be. -/
  appendsAt : Option (Nat × Nat)
  /-- `CheckProofOfStake` of the block's coinstake. -/
  checksProofOfStake : CBlock H → Bool
  /-- `Checkpoints::CheckSync`, or the checkpoint mode is not strict. -/
  checksSync : H → Bool
  /-- Whether the stake modifier can be computed and passes its checkpoint. -/
  computesStakeModifier : H → Bool

namespace CTxDB

variable {H : Type} [Ord H]

/-- What reads see. -/
def view (txdb : CTxDB H) : TxDBContent H := txdb.activeBatch.getD txdb.pdb

def write (txdb : CTxDB H) (f : TxDBContent H → TxDBContent H) : CTxDB H :=
  match txdb.activeBatch with
  | some batch => { txdb with activeBatch := some (f batch) }
  | none => { txdb with pdb := f txdb.pdb }

def txnBegin (txdb : CTxDB H) : CTxDB H := { txdb with activeBatch := some txdb.pdb }

def txnAbort (txdb : CTxDB H) : CTxDB H := { txdb with activeBatch := none }

/-- `CTxDB::TxnCommit`: the batch is gone in either case. -/
def txnCommit (txdb : CTxDB H) (ok : Bool) : Bool × CTxDB H :=
  if ok then (true, ⟨txdb.view, none⟩) else (false, txdb.txnAbort)

variable [TransOrd H]

def readTxIndex (txdb : CTxDB H) (hash : H) : Option CTxIndex := txdb.view.txindex[hash]?

def updateTxIndex (txdb : CTxDB H) (hash : H) (txindex : CTxIndex) : CTxDB H :=
  txdb.write fun db => { db with txindex := db.txindex.insert hash txindex }

def eraseTxIndex (txdb : CTxDB H) (hash : H) : CTxDB H :=
  txdb.write fun db => { db with txindex := db.txindex.erase hash }

def writeBlockIndex (txdb : CTxDB H) (hash : H) (entry : CDiskBlockIndex H) : CTxDB H :=
  txdb.write fun db => { db with blockindex := db.blockindex.insert hash entry }

def writeHashBestChain (txdb : CTxDB H) (hash : H) : CTxDB H :=
  txdb.write fun db => { db with hashBestChain := some hash }

end CTxDB

/-- The size of the serialized header. -/
def HEADER_SIZE : Nat := 80

/-- Where the first transaction of a block stands in its file: behind the
header and the transaction count. -/
def CBlock.firstTxPos {H : Type} (block : CBlock H) (nBlockPos : Nat) : Nat :=
  nBlockPos + HEADER_SIZE + (putCompactSize block.vtx.length).length

/-- The transaction that starts at `nTxPos`, in a row of transactions the first
of which starts at `start`. -/
def txAt {H : Type} (nTxPos : Nat) : Nat → List (CTransaction H) → Option (CTransaction H)
  | _, [] => none
  | start, tx :: rest =>
    if start = nTxPos then some tx else txAt nTxPos (start + tx.serializeSize) rest

/-- `CTransaction::ReadFromDisk(CDiskTxPos)`, when the file can be read. -/
def readTx {H : Type} (blockFiles : Nat → Nat → Option (CBlock H)) (pos : CDiskTxPos) :
    Option (CTransaction H) :=
  (blockFiles pos.nFile pos.nBlockPos).bind fun block =>
    txAt pos.nTxPos (block.firstTxPos pos.nBlockPos) block.vtx

/-- The files hold at least the blocks they held before. -/
def FilesExtend {H : Type} (files files' : Nat → Nat → Option (CBlock H)) : Prop :=
  ∀ nFile nBlockPos block, files nFile nBlockPos = some block → files' nFile nBlockPos = some block

namespace Node

variable {H : Type} [Ord H]

/-- `CTransaction::ReadFromDisk(CDiskTxPos)`. -/
def readTxFromDisk (s : Node H) (env : Env H) (pos : CDiskTxPos) : Option (CTransaction H) :=
  if env.readsTx pos then readTx s.blockFiles pos else none

variable [DecidableEq H] (c : Consensus H)

/-- `CBlock::ReadFromDisk(const CBlockIndex*)`. -/
def readBlockFromDisk (s : Node H) (env : Env H) (pindex : CBlockIndex H) : Option (CBlock H) :=
  if env.readsBlock pindex.nFile pindex.nBlockPos then
    (s.blockFiles pindex.nFile pindex.nBlockPos).filter fun block =>
      !(block.isProofOfWork c && !c.checkProofOfWork (block.getHash c) block.nBits) &&
        block.getHash c == pindex.hash
  else none

/-- `CBlock::WriteToDisk`: the position and the files with the block.  The file
is opened at its end, where no block stands yet. -/
def writeToDisk (s : Node H) (env : Env H) (block : CBlock H) : Option (Nat × Nat × Node H) :=
  env.appendsAt.bind fun pos =>
    if (s.blockFiles pos.1 pos.2).isSome then none
    else some (pos.1, pos.2, { s with
      blockFiles := fun nFile nBlockPos =>
        if nFile = pos.1 ∧ nBlockPos = pos.2 then some block else s.blockFiles nFile nBlockPos })

omit [DecidableEq H] in
/-- **The block files are append-only.** -/
theorem writeToDisk_some {s written : Node H} {env : Env H} {block : CBlock H}
    {nFile nBlockPos : Nat} (h : s.writeToDisk env block = some (nFile, nBlockPos, written)) :
    FilesExtend s.blockFiles written.blockFiles ∧ written.blockFiles nFile nBlockPos = some block ∧
      written = { s with blockFiles := written.blockFiles } := by
  unfold writeToDisk at h
  obtain ⟨pos, _, hfree⟩ := Option.bind_eq_some_iff.mp h
  split at hfree
  · cases hfree
  · rename_i hnone
    cases hfree
    refine ⟨?_, if_pos ⟨rfl, rfl⟩, rfl⟩
    intro nFile nBlockPos other hother
    have hne : ¬(nFile = pos.1 ∧ nBlockPos = pos.2) := by
      intro heq
      rw [heq.1, heq.2] at hother
      simp [hother] at hnone
    show (if nFile = pos.1 ∧ nBlockPos = pos.2 then some block else s.blockFiles nFile nBlockPos) = some other
    rw [if_neg hne]
    exact hother

variable [TransOrd H]

/-- The constructor `CDiskBlockIndex(CBlockIndex*)`. -/
def diskBlockIndex (s : Node H) (pindex : CBlockIndex H) : CDiskBlockIndex H where
  hashNext := s.pnext[pindex.hash]?.getD c.zero
  nMint := s.nMint[pindex.hash]?.getD 0
  nMoneySupply := s.nMoneySupply[pindex.hash]?.getD 0

end Node

/-- Surroundings in which everything succeeds and the next block is written at
this position. -/
def sampleEnv (nBlockPos : Nat) : Env (List Nat) where
  adjustedTime := 1000000
  readsBlock _ _ := true
  readsTx _ := true
  commits _ := true
  commitsIndex _ := true
  mempool _ := none
  appendsAt := some (1, nBlockPos)
  checksProofOfStake _ := true
  checksSync _ := true
  computesStakeModifier _ := true

/-- Blocks with these transactions, each behind the one before. -/
def sampleChain : Nat → List Nat → List (List (CTransaction (List Nat))) →
    List (Env (List Nat) × CBlock (List Nat))
  | _, _, [] => []
  | nHeight, hashPrevBlock, vtx :: rest =>
    let block := sampleBlock nHeight hashPrevBlock vtx
    (sampleEnv (1000 * nHeight), block) ::
      sampleChain (nHeight + 1) (block.getHash sampleConsensus) rest

end MaryJaneCoin
