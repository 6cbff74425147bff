import MaryJaneCoin.Chain.BestChain
import MaryJaneCoin.Lib.OwnedHeap

/-!
# Orphan blocks

`ProcessBlock` and the orphan pass at the end of `LoadExternalBlockFile`.  An
orphan is allocated when it is received before its previous block and deleted
when `AcceptBlock` has been tried on it.  `mapOrphanBlocks` owns it under its
hash, `mapOrphanBlocksByPrev` refers to it under that of its previous block.

A function that would read a deleted block, or a loop whose fuel does not
suffice, is `none`.
-/

namespace MaryJaneCoin

open Std

/-- The node with its orphan blocks. -/
structure OrphanNode (H : Type) [Ord H] where
  node : Node H
  orphans : OwnedHeap H (CBlock H)
  setStakeSeenOrphan : Finset (COutPoint H × UInt32)

/-- What the surroundings do during one call. -/
structure ProcessEnv (H : Type) where
  /-- `GetAdjustedTime`. -/
  adjustedTime : Int
  /-- `IsInitialBlockDownload`. -/
  isInitialBlockDownload : Bool
  /-- `Checkpoints::WantedByPendingSyncCheckpoint`. -/
  wantedByPendingSyncCheckpoint : H → Bool
  /-- There is no synchronized checkpoint, or the block's target is not above
  the one required behind it. -/
  checksTarget : CBlock H → Bool
  /-- The surroundings while `AcceptBlock` runs on a block. -/
  accepting : CBlock H → Env H

section

variable {H : Type} [DecidableEq H] (c : Consensus H)

def CBlock.getProofOfStake (block : CBlock H) : COutPoint H × UInt32 :=
  ((block.vtx[1]?.filter (CTransaction.isCoinStake c.toSha256)).bind fun coinstake =>
    coinstake.vin.head?.map fun txin => (txin.prevout, coinstake.nTime)).getD
      (⟨c.zero, 0xffffffff⟩, 0)

end

namespace OrphanNode

variable {H : Type} [Ord H]

def mapOrphanBlocks (s : OrphanNode H) : ExtTreeMap H Nat := s.orphans.owner

def mapOrphanBlocksByPrev (s : OrphanNode H) : List (H × Nat) := s.orphans.refs

variable [TransOrd H] [DecidableEq H] (c : Consensus H)

/-- Delete an orphan and erase it from `mapOrphanBlocks` and its stake from
`setStakeSeenOrphan`; the orphan pass asks first whether it has one. -/
def deleteOrphan (fAsk : Bool) (s : OrphanNode H) (hash : H) (pblock : Nat) (block : CBlock H) :
    OrphanNode H where
  node := s.node
  orphans := s.orphans.free hash pblock
  setStakeSeenOrphan :=
    if fAsk && block.isProofOfWork c then s.setStakeSeenOrphan
    else s.setStakeSeenOrphan.erase (block.getProofOfStake c)

omit [TransOrd H] in
/-- `mapOrphanBlocksByPrev.erase(hashPrev)`. -/
def eraseByPrev (s : OrphanNode H) (hashPrev : H) : OrphanNode H :=
  { s with orphans := s.orphans.dropRefs hashPrev }

/-- One round of the inner loop over the children of an accepted block: the work
queue gets the hash of the child when it is accepted. -/
def acceptChild (fAsk : Bool) (env : CBlock H → Env H) (acc : List H × OrphanNode H)
    (pblock : Nat) : Option (List H × OrphanNode H) :=
  acc.2.orphans.heap[pblock]?.map fun block =>
    let accepted := acc.2.node.acceptBlock c (env block) block
    (if accepted.1 then acc.1 ++ [block.getHash c] else acc.1,
      { acc.2 with node := accepted.2 }.deleteOrphan c fAsk (block.getHash c) pblock block)

/-- The loop over the work queue. -/
def workQueue (fAsk : Bool) (env : CBlock H → Env H) :
    Nat → List H → OrphanNode H → Option (OrphanNode H)
  | _, [], s => some s
  | 0, _ :: _, _ => none
  | fuel + 1, hashPrev :: queue, s =>
    ((s.orphans.refsUnder hashPrev).foldlM (acceptChild c fAsk env) ([], s)).bind fun done =>
      workQueue fAsk env fuel (queue ++ done.1) (done.2.eraseByPrev hashPrev)

/-- The loop over the work queue that starts with an accepted block. -/
def connectChildren (fAsk : Bool) (env : CBlock H → Env H) (s : OrphanNode H) (hash : H) :
    Option (OrphanNode H) :=
  workQueue c fAsk env (s.mapOrphanBlocksByPrev.length + 1) [hash] s

/-- Whether a block whose stake has been seen may be processed. -/
def fAllowDuplicate (s : OrphanNode H) (env : ProcessEnv H) (block : CBlock H) : Bool :=
  s.mapOrphanBlocksByPrev.any (fun ref => ref.1 = block.getHash c) ||
    env.wantedByPendingSyncCheckpoint (block.getHash c) ||
    (env.isInitialBlockDownload && s.node.mapBlockIndex.contains block.hashPrevBlock) ||
    (s.node.mapBlockIndex.contains block.hashPrevBlock &&
      block.hashPrevBlock != s.node.hashBestChain)

/-- The end of `ProcessBlock` for an orphan. -/
def addOrphan (s : OrphanNode H) (env : ProcessEnv H) (block : CBlock H) : Bool × OrphanNode H :=
  let hash := block.getHash c
  if block.isProofOfStake c && decide (block.getProofOfStake c ∈ s.setStakeSeenOrphan) &&
      !s.mapOrphanBlocksByPrev.any (fun ref => ref.1 = hash) &&
      !env.wantedByPendingSyncCheckpoint hash then (false, s)
  else
    (true, { s with
      orphans := s.orphans.alloc hash block.hashPrevBlock block
      setStakeSeenOrphan :=
        if block.isProofOfStake c then insert (block.getProofOfStake c) s.setStakeSeenOrphan
        else s.setStakeSeenOrphan })

def processBlock (s : OrphanNode H) (env : ProcessEnv H) (block : CBlock H) :
    Option (Bool × OrphanNode H) :=
  let hash := block.getHash c
  if hash ∈ s.node.mapBlockIndex then some (false, s)
  else if hash ∈ s.mapOrphanBlocks then some (false, s)
  else if block.isProofOfStake c && decide (block.getProofOfStake c ∈ s.node.setStakeSeen) &&
      !s.fAllowDuplicate c env block then some (false, s)
  else if !block.checkBlock c env.adjustedTime true true true then some (false, s)
  else if block.hashPrevBlock != s.node.hashBestChain &&
      !env.wantedByPendingSyncCheckpoint hash && !env.checksTarget block then some (false, s)
  else if block.hashPrevBlock ∉ s.node.mapBlockIndex then some (s.addOrphan c env block)
  else
    let accepted := s.node.acceptBlock c (env.accepting block) block
    if !accepted.1 then some (false, { s with node := accepted.2 })
    else
      ({ s with node := accepted.2 }.connectChildren c false env.accepting hash).map fun t =>
        (true, t)

/-- One round of the orphan pass: `fProgress` and the node. -/
def passOrphan (env : CBlock H → Env H) (acc : Bool × OrphanNode H) (hashOrphan : H) :
    Option (Bool × OrphanNode H) :=
  match acc.2.mapOrphanBlocks[hashOrphan]? with
  | none => some acc
  | some pblockOrphan =>
    acc.2.orphans.heap[pblockOrphan]?.bind fun block =>
      if block.hashPrevBlock ∉ acc.2.node.mapBlockIndex then some acc
      else
        let accepted := acc.2.node.acceptBlock c (env block) block
        let s := { acc.2 with node := accepted.2 }
        if accepted.1 then
          (s.connectChildren c true env hashOrphan).bind fun t =>
            t.orphans.heap[pblockOrphan]?.map fun block =>
              (true, t.deleteOrphan c true hashOrphan pblockOrphan block)
        else
          let t := s.deleteOrphan c true hashOrphan pblockOrphan block
          some (acc.1, { t with orphans := t.orphans.dropRef block.hashPrevBlock pblockOrphan })

/-- The rounds of the orphan pass, while there is progress. -/
def passRounds (env : CBlock H → Env H) : Nat → OrphanNode H → Option (OrphanNode H)
  | 0, _ => none
  | fuel + 1, s =>
    if s.mapOrphanBlocks.isEmpty then some s
    else
      (s.mapOrphanBlocks.keys.foldlM (passOrphan c env) (false, s)).bind fun done =>
        if done.1 then passRounds env fuel done.2 else some done.2

/-- The orphan pass of `LoadExternalBlockFile`. -/
def connectOrphans (s : OrphanNode H) (env : CBlock H → Env H) : Option (OrphanNode H) :=
  passRounds c env (s.mapOrphanBlocks.size + 1) s

/-- A node without orphans. -/
def start (node : Node H) : OrphanNode H := ⟨node, .empty, ∅⟩

end OrphanNode

end MaryJaneCoin
