import MaryJaneCoin.Chain.OrphanBlocks

/-!
# Synchronized checkpoints

A synchronized checkpoint names a block that the best chain has to contain.  It comes
in a signed message, and waits when its block is not known yet.  The node is one on the
main network that is strict about checkpoints.

`SetBestChain` is taken by its contract here: it makes an entry the tip, with the links
that `Reorganize` changes, or it changes nothing.
-/

namespace MaryJaneCoin

open Std Codec

def CHECKPOINT_MAX_SPAN : Int := 60 * 60

structure CSyncCheckpoint (H : Type) where
  nVersion : Int32
  hashCheckpoint : H
  vchMsg : Bytes
  vchSig : Bytes
deriving DecidableEq

/-- The master key, and the message that it signs. -/
structure CheckpointKey (H : Type) where
  /-- `key.Verify(Hash(vchMsg), vchSig)`, with the master public key. -/
  verify : Bytes → Bytes → Bool
  /-- `key.Sign(Hash(vchMsg), vchSig)`; none without the private key. -/
  sign : Bytes → Option Bytes
  /-- A `CUnsignedSyncCheckpoint` in bytes. -/
  serialize : Int32 → H → Bytes
  /-- Reading one; none for the exception of a message that is too short. -/
  unserialize : Bytes → Option (Int32 × H)

/-- What the checkpoints meet during one call. -/
structure CheckpointEnv (H : Type) [Ord H] where
  /-- Whether `SetBestChain` succeeds for the entry. -/
  setsBestChain : Node H → PIndex H → Bool
  /-- Whether `WriteSyncCheckpoint` can write and commit. -/
  writes : H → Bool
  disk : Env H

/-- A node with its synchronized checkpoint.  `history` is for the proofs: the values
that `hashSyncCheckpoint` had, the last first. -/
structure CheckpointNode (H : Type) [Ord H] extends OrphanNode H where
  hashSyncCheckpoint : H
  hashPendingCheckpoint : H
  hashInvalidCheckpoint : H
  checkpointMessage : CSyncCheckpoint H
  checkpointMessagePending : CSyncCheckpoint H
  history : List H

namespace Node

variable {H : Type} [Ord H] [TransOrd H] [DecidableEq H]

def isInMainChain (s : Node H) (pindex : CBlockIndex H) (pprev : PIndex H) : Bool :=
  s.pnext.contains pindex.hash || decide (pindex :: pprev = s.pindexBest)

/-- `SetBestChain`, by its contract. -/
def moveTip (s : Node H) (succeeds : Bool) (pindexNew : CBlockIndex H) (pprev : PIndex H) :
    Bool × Node H :=
  match succeeds, findFork (pindexNew :: pprev) s.pindexBest with
  | true, some pfork =>
    (true, { s.setTip pindexNew.hash pindexNew pprev with
      pnext := (downTo pfork (pindexNew :: pprev)).reverse.foldl link
        ((downTo pfork s.pindexBest).foldl unlink s.pnext) })
  | _, _ => (false, s)

end Node

namespace CheckpointNode

variable {H : Type} [Ord H] [TransOrd H] [DecidableEq H] (c : Consensus H)

/-- `CSyncCheckpoint::SetNull`. -/
def nullMessage : CSyncCheckpoint H := ⟨1, c.zero, [], []⟩

/-- `ValidateSyncCheckpoint`: the one of the two entries that is higher is followed down
to the height of the other. -/
def validateSyncCheckpoint (s : CheckpointNode H) (hashCheckpoint : H) : Bool × CheckpointNode H :=
  match s.node.mapBlockIndex[s.hashSyncCheckpoint]?, s.node.mapBlockIndex[hashCheckpoint]? with
  | some (sync :: syncPrev), some (recv :: recvPrev) =>
    if recv.nHeight ≤ sync.nHeight then
      match lowerTo recv.nHeight (sync :: syncPrev) with
      | some (pindex :: _) =>
        if pindex.hash ≠ hashCheckpoint then (false, { s with hashInvalidCheckpoint := hashCheckpoint })
        else (false, s)
      | _ => (false, s)
    else
      match lowerTo sync.nHeight (recv :: recvPrev) with
      | some (pindex :: _) =>
        if pindex.hash ≠ s.hashSyncCheckpoint then
          (false, { s with hashInvalidCheckpoint := hashCheckpoint })
        else (true, s)
      | _ => (false, s)
  | _, _ => (false, s)

def writeSyncCheckpoint (env : CheckpointEnv H) (s : CheckpointNode H) (hashCheckpoint : H) :
    Bool × CheckpointNode H :=
  if env.writes hashCheckpoint then
    (true, { s with hashSyncCheckpoint := hashCheckpoint, history := hashCheckpoint :: s.history })
  else (false, s)

/-- The best chain is led through the checkpoint, if it does not contain it. -/
def enforce (env : CheckpointEnv H) (s : CheckpointNode H) (hashCheckpoint : H) :
    Bool × CheckpointNode H :=
  match s.node.mapBlockIndex[hashCheckpoint]? with
  | some (pindex :: pprev) =>
    if s.node.isInMainChain pindex pprev then (true, s)
    else
      match s.node.readBlockFromDisk c env.disk pindex with
      | none => (false, s)
      | some _ =>
        let moved := s.node.moveTip (env.setsBestChain s.node (pindex :: pprev)) pindex pprev
        if !moved.1 then (false, { s with hashInvalidCheckpoint := hashCheckpoint })
        else (true, { s with node := moved.2 })
  | _ => (false, s)

def acceptPendingSyncCheckpoint (env : CheckpointEnv H) (s : CheckpointNode H) :
    Bool × CheckpointNode H :=
  if s.hashPendingCheckpoint ≠ c.zero ∧ s.hashPendingCheckpoint ∈ s.node.mapBlockIndex then
    let validated := s.validateSyncCheckpoint s.hashPendingCheckpoint
    if !validated.1 then
      (false, { validated.2 with
                hashPendingCheckpoint := c.zero
                checkpointMessagePending := nullMessage c })
    else
      let enforced := validated.2.enforce c env s.hashPendingCheckpoint
      if !enforced.1 then enforced
      else
        let written := enforced.2.writeSyncCheckpoint env s.hashPendingCheckpoint
        if !written.1 then written
        else
          (true, { written.2 with
                   hashPendingCheckpoint := c.zero
                   checkpointMessage := written.2.checkpointMessagePending
                   checkpointMessagePending := nullMessage c })
  else (false, s)

/-- `CSyncCheckpoint::CheckSignature`: the message, as it was signed. -/
def checkSignature (key : CheckpointKey H) (checkpoint : CSyncCheckpoint H) :
    Option (CSyncCheckpoint H) :=
  if key.verify checkpoint.vchMsg checkpoint.vchSig then
    (key.unserialize checkpoint.vchMsg).map fun (nVersion, hashCheckpoint) =>
      { checkpoint with nVersion := nVersion, hashCheckpoint := hashCheckpoint }
  else none

def processSyncCheckpoint (key : CheckpointKey H) (env : CheckpointEnv H) (s : CheckpointNode H)
    (message : CSyncCheckpoint H) : Bool × CheckpointNode H :=
  match checkSignature key message with
  | none => (false, s)
  | some checkpoint =>
    let hashCheckpoint := checkpoint.hashCheckpoint
    if hashCheckpoint ∉ s.node.mapBlockIndex then
      (false, { s with
                hashPendingCheckpoint := hashCheckpoint
                checkpointMessagePending := checkpoint })
    else
      let validated := s.validateSyncCheckpoint hashCheckpoint
      if !validated.1 then validated
      else
        let enforced := validated.2.enforce c env hashCheckpoint
        if !enforced.1 then enforced
        else
          let written := enforced.2.writeSyncCheckpoint env hashCheckpoint
          if !written.1 then written
          else
            (true, { written.2 with
                     checkpointMessage := checkpoint
                     hashPendingCheckpoint := c.zero
                     checkpointMessagePending := nullMessage c })

def checkSync (s : CheckpointNode H) (hashBlock : H) (pindexPrev : CBlockIndex H)
    (pprev : PIndex H) : Bool :=
  let nHeight := pindexPrev.nHeight + 1
  match s.node.mapBlockIndex[s.hashSyncCheckpoint]? with
  | some (sync :: _) =>
    if nHeight > sync.nHeight then
      match lowerTo sync.nHeight (pindexPrev :: pprev) with
      | some (pindex :: _) => !(pindex.nHeight < sync.nHeight || pindex.hash != s.hashSyncCheckpoint)
      | _ => false
    else if nHeight = sync.nHeight then hashBlock == s.hashSyncCheckpoint
    else s.node.mapBlockIndex.contains hashBlock
  | _ => false

def addToBlockIndex (env : Env H) (sync : CheckpointEnv H) (s : Node H) (block : CBlock H)
    (nFile nBlockPos : Nat) : Bool × Node H :=
  let stored := s.storeIndex c env block nFile nBlockPos
  if !stored.1 then stored
  else
    let pprev := s.mapBlockIndex[block.hashPrevBlock]?.getD []
    let pindexNew := Node.newIndex c block nFile nBlockPos pprev
    if pindexNew.nChainTrust > stored.2.nBestChainTrust then
      stored.2.moveTip (sync.setsBestChain stored.2 (pindexNew :: pprev)) pindexNew pprev
    else (true, stored.2)

def acceptBlock (env : Env H) (sync : CheckpointEnv H) (s : CheckpointNode H) (block : CBlock H) :
    Bool × CheckpointNode H :=
  let hash := block.getHash c
  if hash ∈ s.node.mapBlockIndex then (false, s)
  else
    match s.node.mapBlockIndex[block.hashPrevBlock]?.getD [] with
    | [] => (false, s)
    | pindexPrev :: pprev =>
      if !block.acceptRules c pindexPrev pprev (env.checksProofOfStake block)
          (s.checkSync hash pindexPrev pprev) then (false, s)
      else
        match s.node.writeToDisk env block with
        | none => (false, s)
        | some (nFile, nBlockPos, written) =>
          let added := addToBlockIndex c env sync written block nFile nBlockPos
          if !added.1 then (false, { s with node := added.2 })
          else (true, (acceptPendingSyncCheckpoint c sync { s with node := added.2 }).2)

/-- One round of the loop of `ProcessBlock` over the children of an accepted block. -/
def acceptChild (env : CBlock H → Env H) (sync : CheckpointEnv H) (acc : List H × CheckpointNode H)
    (pblock : Nat) : Option (List H × CheckpointNode H) :=
  acc.2.orphans.heap[pblock]?.map fun block =>
    let accepted := acceptBlock c (env block) sync acc.2 block
    (if accepted.1 then acc.1 ++ [block.getHash c] else acc.1,
      { accepted.2 with
        toOrphanNode := accepted.2.toOrphanNode.deleteOrphan c false (block.getHash c) pblock block })

/-- The loop over the work queue. -/
def workQueue (env : CBlock H → Env H) (sync : CheckpointEnv H) :
    Nat → List H → CheckpointNode H → Option (CheckpointNode H)
  | _, [], s => some s
  | 0, _ :: _, _ => none
  | fuel + 1, hashPrev :: queue, s =>
    ((s.orphans.refsUnder hashPrev).foldlM (acceptChild c env sync) ([], s)).bind fun done =>
      workQueue env sync fuel (queue ++ done.1)
        { done.2 with toOrphanNode := done.2.toOrphanNode.eraseByPrev hashPrev }

/-- `AutoSelectSyncCheckpoint`: the loop over an entry that has a `pprev`. -/
def autoSelectFrom (best : CBlockIndex H) : CBlockIndex H → PIndex H → H
  | pindex, [] => pindex.hash
  | pindex, prev :: rest =>
    if (pindex.nTime.toNat : Int) + CHECKPOINT_MAX_SPAN > best.nTime.toNat ∨
        pindex.nHeight + 8 > best.nHeight then autoSelectFrom best prev rest
    else pindex.hash

/-- `SendSyncCheckpoint(AutoSelectSyncCheckpoint())`. -/
def sendSyncCheckpoint (key : CheckpointKey H) (env : CheckpointEnv H) (s : CheckpointNode H) :
    CheckpointNode H :=
  match s.node.pindexBest with
  | [] => s
  | best :: pprev =>
    let hashCheckpoint := autoSelectFrom best best pprev
    let vchMsg := key.serialize 1 hashCheckpoint
    match key.sign vchMsg with
    | none => s
    | some vchSig => (s.processSyncCheckpoint c key env ⟨1, hashCheckpoint, vchMsg, vchSig⟩).2

/-- `ProcessBlock`, of a block from a peer or of the node's own. -/
def processBlock (key : CheckpointKey H) (fFromPeer : Bool) (env : ProcessEnv H)
    (sync : CheckpointEnv H) (s : CheckpointNode H) (block : CBlock H) : Option (Bool × CheckpointNode H) :=
  let hash := block.getHash c
  if hash ∈ s.node.mapBlockIndex then some (false, s)
  else if hash ∈ s.mapOrphanBlocks then some (false, s)
  else if block.isProofOfStake c && decide (block.getProofOfStake c ∈ s.node.setStakeSeen) &&
      !s.toOrphanNode.fAllowDuplicate c env block then some (false, s)
  else if !block.checkBlock c env.adjustedTime true true true then some (false, s)
  else if block.hashPrevBlock != s.node.hashBestChain &&
      !env.wantedByPendingSyncCheckpoint hash && !env.checksTarget block then some (false, s)
  else if block.hashPrevBlock ∉ s.node.mapBlockIndex then
    let orphaned := s.toOrphanNode.addOrphan c env block
    some (orphaned.1, { s with toOrphanNode := orphaned.2 })
  else
    let accepted := acceptBlock c (env.accepting block) sync s block
    if !accepted.1 then some (false, accepted.2)
    else
      (workQueue c env.accepting sync (accepted.2.mapOrphanBlocksByPrev.length + 1) [hash]
        accepted.2).map fun t =>
          (true, if fFromPeer then t.sendSyncCheckpoint c key sync else t)

/-- What happens at the node. -/
inductive CheckpointEvent (H : Type) [Ord H] where
  | processBlock (fFromPeer : Bool) (env : ProcessEnv H) (sync : CheckpointEnv H) (block : CBlock H)
  | acceptBlock (env : Env H) (sync : CheckpointEnv H) (block : CBlock H)
  | processSyncCheckpoint (sync : CheckpointEnv H) (message : CSyncCheckpoint H)
  | acceptPendingSyncCheckpoint (sync : CheckpointEnv H)

def step (key : CheckpointKey H) (s : CheckpointNode H) : CheckpointEvent H → Option (CheckpointNode H)
  | .processBlock fFromPeer env sync block =>
    (s.processBlock c key fFromPeer env sync block).map Prod.snd
  | .acceptBlock env sync block => some (s.acceptBlock c env sync block).2
  | .processSyncCheckpoint sync message => some (s.processSyncCheckpoint c key sync message).2
  | .acceptPendingSyncCheckpoint sync => some (s.acceptPendingSyncCheckpoint c sync).2

end CheckpointNode

end MaryJaneCoin
