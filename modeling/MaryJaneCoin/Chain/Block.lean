import MaryJaneCoin.Chain.Transaction

/-!
# Blocks and the block index

`CBlock` with its header hash, its merkle root and the checks of `CheckBlock`,
and `CBlockIndex`.  The proof-of-work function, signatures and checkpoints are
parameters, collected in `Consensus`.

A block index entry never changes its `pprev`, so a pointer to one is modelled
by the path that the `pprev` links span, newest entry first.  The null pointer
is the empty path.  What does change about an entry (`pnext`, `nMint` and
`nMoneySupply`) is kept in the node, under the entry's hash.
-/

namespace MaryJaneCoin

open Codec

def LAST_POW_BLOCK : Nat := 500
def MODIFIER_INTERVAL_SWITCH : Nat := 20
def MWEB_VERSION_BIT : Int32 := 0x20000000

structure CBlockHeader (H : Type) where
  nVersion : Int32
  hashPrevBlock : H
  hashMerkleRoot : H
  nTime : UInt32
  nBits : UInt32
  nNonce : UInt32
deriving DecidableEq

def CBlockHeader.CURRENT_VERSION : Int32 := 1

structure CBlock (H : Type) extends CBlockHeader H where
  vtx : List (CTransaction H)
  vchBlockSig : Bytes
  mwExtBlock : CMWBlock H
deriving DecidableEq

/-- `CBlockIndex`, as far as an entry is fixed when it is added.  `nHeight` is
an `int` of the source, which no chain reaches the end of. -/
structure CBlockIndex (H : Type) where
  hash : H
  nFile : Nat
  nBlockPos : Nat
  nChainTrust : Nat
  nHeight : Nat
  fProofOfStake : Bool
  prevoutStake : COutPoint H
  nStakeTime : UInt32
  nTime : UInt32
deriving DecidableEq

/-- `CBlockIndex*`: the entry and those its `pprev` links lead to. -/
abbrev PIndex (H : Type) := List (CBlockIndex H)

/-- What block validation takes from elsewhere: cryptography, the target
calculation, the stake kernel, the checkpoints and the fund's address. -/
structure Consensus (H : Type) extends MWCrypto H where
  /-- `Hash9`. -/
  hash9 : Preimage H → H
  /-- `VerifySignature(txPrev, txTo, nIn, 0)`. -/
  verifySignature : CTransaction H → CTransaction H → Nat → Bool
  /-- `CheckProofOfWork`. -/
  checkProofOfWork : H → UInt32 → Bool
  /-- `CBlock::CheckBlockSignature`. -/
  checkBlockSignature : CBlock H → Bool
  /-- `GetNextTargetRequired`. -/
  getNextTargetRequired : PIndex H → Bool → UInt32
  /-- `CBlockIndex::GetBlockTrust`. -/
  getBlockTrust : UInt32 → Nat
  /-- `Checkpoints::CheckHardened`. -/
  checkHardened : Nat → H → Bool
  /-- `Checkpoints::GetTotalBlocksEstimate`. -/
  getTotalBlocksEstimate : Nat
  /-- `GetDevFundScript`. -/
  getDevFundScript : Option CScript

/-- The serialized header, which is what `GetHash` hashes. -/
def CBlockHeader.serialize {H : Type} (header : CBlockHeader H) : Preimage H :=
  feed (putInt32 header.nVersion) ++ (.digest header.hashPrevBlock :: .digest header.hashMerkleRoot ::
    (feedLE 4 header.nTime.toNat ++ (feedLE 4 header.nBits.toNat ++ feedLE 4 header.nNonce.toNat)))

/-- `CMWBlock`. -/
def CMWBlock.serialize {H : Type} (block : CMWBlock H) : Preimage H :=
  .digest block.hashPrevMWBlock :: feed (putCMWTransactionBody block.body ++
    putVec Vector.toList block.vCutThrough ++ putInt32 block.nHeight ++ block.offset.toList)

/-- One level of the merkle tree from the one below: an odd node at the end is
paired with itself. -/
def merkleLevel {H : Type} (combine : H → H → H) : List H → List H
  | [] => []
  | [a] => [combine a a]
  | a :: b :: rest => combine a b :: merkleLevel combine rest

theorem length_merkleLevel {H : Type} (combine : H → H → H) (level : List H) :
    (merkleLevel combine level).length = (level.length + 1) / 2 := by
  induction level using merkleLevel.induct with
  | case1 => simp [merkleLevel]
  | case2 a => simp [merkleLevel]
  | case3 a b rest ih =>
    simp only [merkleLevel, List.length_cons, ih]
    omega

/-- The last node of the merkle tree over a level. -/
def merkleRoot {H : Type} (combine : H → H → H) (zero : H) (level : List H) : H :=
  if level.length ≤ 1 then level.headD zero
  else merkleRoot combine zero (merkleLevel combine level)
termination_by level.length
decreasing_by
  rw [length_merkleLevel]
  omega

namespace CBlock

variable {H : Type}

/-- Bit `MWEB_VERSION_BIT` of the version, which announces an extension
block. -/
def hasMWEBVersion (block : CBlock H) : Bool := block.nVersion &&& MWEB_VERSION_BIT != 0

/-- `GetSerializeSize`. -/
def serializeSize (block : CBlock H) : Nat :=
  Preimage.size block.toCBlockHeader.serialize + (putCompactSize block.vtx.length).length +
    (block.vtx.map CTransaction.serializeSize).sum + (putVec putByte block.vchBlockSig).length +
    if block.hasMWEBVersion then Preimage.size block.mwExtBlock.serialize else 0

def getBlockTime (block : CBlock H) : Int := block.nTime.toNat

def getClockDrift (_nTime : Int) : Int := 60

variable (c : Consensus H)

def getHash (block : CBlock H) : H := c.hash9 block.toCBlockHeader.serialize

def buildMerkleTree (block : CBlock H) : H :=
  merkleRoot (fun a b => c.sha256d [.digest a, .digest b]) c.zero
    (block.vtx.map (CTransaction.getHash c.toSha256))

variable [DecidableEq H]

def isProofOfStake (block : CBlock H) : Bool :=
  block.vtx[1]?.any (CTransaction.isCoinStake c.toSha256)

def isProofOfWork (block : CBlock H) : Bool := !block.isProofOfStake c

/-- The checks of `CheckBlock` on a proof-of-stake block: an empty coinbase, a
coinstake behind it and no other one. -/
def checkProofOfStakeShape (block : CBlock H) (fCheckSig : Bool) : Bool :=
  match block.vtx with
  | coinbase :: coinstake :: rest =>
    (coinbase.vout.length == 2 && coinbase.vout.all CTxOut.isEmpty) &&
      coinstake.isCoinStake c.toSha256 && rest.all (fun tx => !tx.isCoinStake c.toSha256) &&
      coinstake.nTime == block.nTime && (!fCheckSig || c.checkBlockSignature block)
  | _ => false

/-- `CBlock::CheckBlock`, at the adjusted time. -/
def checkBlock (adjustedTime : Int) (block : CBlock H)
    (fCheckPOW fCheckMerkleRoot fCheckSig : Bool) : Bool :=
  (!block.vtx.isEmpty && block.vtx.length ≤ MAX_BLOCK_SIZE && block.serializeSize ≤ MAX_BLOCK_SIZE) &&
    !(fCheckPOW && block.isProofOfWork c && !c.checkProofOfWork (block.getHash c) block.nBits) &&
    block.getBlockTime ≤ adjustedTime + getClockDrift block.getBlockTime &&
    (block.vtx.head?.any (CTransaction.isCoinBase c.toSha256) &&
      block.vtx.tail.all (fun tx => !tx.isCoinBase c.toSha256)) &&
    (block.vtx.head?.all fun coinbase =>
      block.getBlockTime ≤ (coinbase.nTime.toNat : Int) + getClockDrift coinbase.nTime.toNat) &&
    (!block.isProofOfStake c || block.checkProofOfStakeShape c fCheckSig) &&
    (block.vtx.all fun tx => tx.checkTransaction c.toMWCrypto && tx.nTime ≤ block.nTime) &&
    (block.vtx.map (CTransaction.getHash c.toSha256)).Nodup &&
    (block.vtx.map CTransaction.getLegacySigOpCount).sum ≤ MAX_BLOCK_SIGOPS &&
    (!fCheckMerkleRoot || block.hashMerkleRoot == block.buildMerkleTree c)

/-- `CBlockIndex::GetPastTimeLimit`: the median time of the last eleven
blocks. -/
def getPastTimeLimit (pindex : PIndex H) : Nat :=
  let times := ((pindex.take 11).map fun entry => entry.nTime.toNat).insertionSort (· ≤ ·)
  times[times.length / 2]?.getD 0

/-- The rules of `AcceptBlock` on a block behind `pindexPrev`.  The kernel
check of a proof-of-stake block and the synchronized checkpoint depend on the
node and are given.  The comparison of inputs and outputs above height 10000 is
only made for proof-of-work blocks, which end at `LAST_POW_BLOCK`. -/
def acceptRules (block : CBlock H) (pindexPrev : CBlockIndex H) (pprev : PIndex H)
    (checkProofOfStake checkSync : Bool) : Bool :=
  let nHeight := pindexPrev.nHeight + 1
  !(block.isProofOfWork c && nHeight > LAST_POW_BLOCK) &&
    !(block.isProofOfStake c && nHeight < MODIFIER_INTERVAL_SWITCH) &&
    block.nVersion ≥ CBlockHeader.CURRENT_VERSION &&
    block.nBits == c.getNextTargetRequired (pindexPrev :: pprev) (block.isProofOfStake c) &&
    (getPastTimeLimit (pindexPrev :: pprev) < block.nTime.toNat &&
      (pindexPrev.nTime.toNat : Int) ≤ block.getBlockTime + getClockDrift block.getBlockTime) &&
    block.vtx.all (fun tx => tx.isFinal nHeight block.nTime) &&
    c.checkHardened nHeight (block.getHash c) &&
    (!block.isProofOfStake c || checkProofOfStake) && checkSync &&
    (block.vtx.head?.bind fun coinbase => coinbase.vin.head?).any fun txin =>
      (CScript.pushInt64 nHeight).isPrefixOf txin.scriptSig

end CBlock

/-- Transparent hashing, and rules that accept: the blocks below stand for
properly mined and signed ones. -/
def sampleConsensus : Consensus (List Nat) where
  toMWCrypto := accepting
  hash9 := transparent.sha256
  verifySignature _ _ _ := true
  checkProofOfWork _ _ := true
  checkBlockSignature _ := true
  getNextTargetRequired _ _ := 0
  getBlockTrust _ := 1
  checkHardened _ _ := true
  getTotalBlocksEstimate := 0
  getDevFundScript := none

/-- A block for a height, which is its time as well. -/
def sampleBlock (nHeight : Nat) (hashPrevBlock : List Nat)
    (vtx : List (CTransaction (List Nat))) : CBlock (List Nat) :=
  let block : CBlock (List Nat) :=
    { nVersion := 1, hashPrevBlock := hashPrevBlock, hashMerkleRoot := transparent.zero
      nTime := UInt32.ofNat nHeight, nBits := 0, nNonce := 0, vtx := vtx, vchBlockSig := []
      mwExtBlock := ⟨transparent.zero, ⟨[], [], []⟩, [], 0, Vector.replicate 32 0⟩ }
  { block with hashMerkleRoot := block.buildMerkleTree sampleConsensus }

/-- A genesis block whose coinbase pays nothing. -/
def sampleGenesis : CBlock (List Nat) := sampleBlock 0 transparent.zero [sampleCoinbase 0 [⟨0, []⟩]]

/-- A block on the sample genesis block. -/
def childBlock : CBlock (List Nat) :=
  sampleBlock 1 (sampleGenesis.getHash sampleConsensus) [sampleCoinbase 1 [⟨COIN, []⟩]]

end MaryJaneCoin
