import MaryJaneCoin.Mw.Models

/-!
# The Mimblewimble state of `mw/state/mw_state.cpp`

`CMWState` is the global unspent-output state of the extension block chain:
the output map, the set of spent commitments, the output MMR with its index,
the kernel excesses, the supply, the tip and the undo records of the last
`MW_UNDO_WINDOW` blocks.  Locks and `memory_cleanse` calls have no effect on
the values and are left out.
-/

namespace MaryJaneCoin

open Std

def MW_UNDO_WINDOW : Nat := 1000

structure CMWBlockUndo (H : Type) where
  vAddedOutputs : List Commitment
  vSpentOutputs : List CMWOutput
  nMMRLeavesBefore : Nat
  nKernelsBefore : Nat
  nSupplyDelta : Int64
  hashPrevMWBlock : H
  nPrevHeight : Int32

structure CMWState (H : Type) [Ord H] where
  mapOutputs : ExtTreeMap Commitment CMWOutput
  setSpent : ExtTreeSet Commitment
  mmr : CMMR H
  mapMMRIndex : ExtTreeMap Commitment UInt64
  vKernelExcesses : List Commitment
  hashLatestMWBlock : H
  nHeight : Int32
  nMWEBSupply : Int64
  mapBlockUndo : ExtTreeMap H (CMWBlockUndo H)
  dqUndoOrder : List H

namespace CMWState

variable {H : Type} [Ord H] [TransOrd H] (sha : Sha256 H)

/-- The constructor of `CMWState`. -/
def empty : CMWState H where
  mapOutputs := ∅
  setSpent := ∅
  mmr := CMMR.empty
  mapMMRIndex := ∅
  vKernelExcesses := []
  hashLatestMWBlock := sha.zero
  nHeight := 0
  nMWEBSupply := 0
  mapBlockUndo := ∅
  dqUndoOrder := []

/-- `CMWState::AddOutput`; `none` is a `false` return, which changes nothing. -/
def addOutput (state : CMWState H) (output : CMWOutput) : Option (CMWState H) :=
  if output.isNull then none
  else if output.commitment ∈ state.mapOutputs then none
  else some
    { state with
      mapOutputs := state.mapOutputs.insert output.commitment output
      mmr := state.mmr.append sha.mmr (output.getOutputID sha)
      mapMMRIndex := state.mapMMRIndex.insert output.commitment (UInt64.ofNat state.mmr.nLeaves) }

/-- `CMWState::SpendOutput`; `none` is a `false` return, which changes
nothing. -/
def spendOutput (state : CMWState H) (commitment : Commitment) : Option (CMWState H) :=
  if commitment ∉ state.mapOutputs then none
  else if commitment ∈ state.setSpent then none
  else some
    { state with
      setSpent := state.setSpent.insert commitment
      mapOutputs := state.mapOutputs.erase commitment }

def hasOutput (state : CMWState H) (commitment : Commitment) : Bool :=
  commitment ∈ state.mapOutputs

def getOutput (state : CMWState H) (commitment : Commitment) : Option CMWOutput :=
  state.mapOutputs[commitment]?

/-- One round of the output loop of `ApplyBlock`: a refused output is skipped
without notice. -/
def applyOutput (acc : CMWState H × CMWBlockUndo H) (out : CMWOutput) :
    CMWState H × CMWBlockUndo H :=
  match acc.1.addOutput sha out with
  | some state => (state, { acc.2 with vAddedOutputs := acc.2.vAddedOutputs ++ [out.commitment] })
  | none => acc

/-- One round of the input loop of `ApplyBlock`: an unknown input is logged, a
refused spend is skipped without notice. -/
def applyInput (acc : CMWState H × CMWBlockUndo H) (input : CMWInput) :
    CMWState H × CMWBlockUndo H :=
  match acc.1.getOutput input.commitment with
  | some spent =>
    match acc.1.spendOutput input.commitment with
    | some state => (state, { acc.2 with vSpentOutputs := acc.2.vSpentOutputs ++ [spent] })
    | none => acc
  | none => acc

/-- The eviction loop at the end of `ApplyBlock`. -/
def evictUndo (mapBlockUndo : ExtTreeMap H (CMWBlockUndo H)) :
    List H → ExtTreeMap H (CMWBlockUndo H) × List H
  | [] => (mapBlockUndo, [])
  | oldest :: rest =>
    if (oldest :: rest).length > MW_UNDO_WINDOW then evictUndo (mapBlockUndo.erase oldest) rest
    else (mapBlockUndo, oldest :: rest)

/-- The undo record `ApplyBlock` starts from. -/
def newUndo (state : CMWState H) (nSupplyDelta : Int64) : CMWBlockUndo H where
  vAddedOutputs := []
  vSpentOutputs := []
  nMMRLeavesBefore := state.mmr.getSize
  nKernelsBefore := state.vKernelExcesses.length
  nSupplyDelta := nSupplyDelta
  hashPrevMWBlock := state.hashLatestMWBlock
  nPrevHeight := state.nHeight

/-- Both component loops of `ApplyBlock`, with the undo record they fill. -/
def applyBody (state : CMWState H) (body : CMWTransactionBody) (nSupplyDelta : Int64) :
    CMWState H × CMWBlockUndo H :=
  body.vInputs.foldl applyInput
    (body.vOutputs.foldl (applyOutput sha) (state, state.newUndo nSupplyDelta))

/-- `CMWState::ApplyBlock`; `none` is a `false` return, which changes
nothing. -/
def applyBlock (state : CMWState H) (mwBlock : CMWBlock H) (nBlockHeight : Int32)
    (hashBlock : H) (nSupplyDelta : Int64) : Option (CMWState H) :=
  if hashBlock ∈ state.mapBlockUndo then none
  else
    let applied := state.applyBody sha mwBlock.body nSupplyDelta
    let undone := evictUndo (applied.1.mapBlockUndo.insert hashBlock applied.2)
      (applied.1.dqUndoOrder ++ [hashBlock])
    some
      { applied.1 with
        vKernelExcesses :=
          applied.1.vKernelExcesses ++ mwBlock.body.vKernels.map CMWKernel.excess
        nMWEBSupply := applied.1.nMWEBSupply + nSupplyDelta
        hashLatestMWBlock := mwBlock.getHash sha
        nHeight := nBlockHeight
        mapBlockUndo := undone.1
        dqUndoOrder := undone.2 }

/-- First loop of `DisconnectBlock`. -/
def unspendOutput (state : CMWState H) (out : CMWOutput) : CMWState H :=
  { state with
    setSpent := state.setSpent.erase out.commitment
    mapOutputs := state.mapOutputs.insert out.commitment out }

/-- Second loop of `DisconnectBlock`. -/
def removeOutput (state : CMWState H) (commitment : Commitment) : CMWState H :=
  { state with
    mapOutputs := state.mapOutputs.erase commitment
    mapMMRIndex := state.mapMMRIndex.erase commitment }

/-- `CMWState::DisconnectBlock`.  A failure behind the two loops leaves the
outputs already undone. -/
def disconnectBlock [DecidableEq H] (state : CMWState H) (hashBlock : H) (fNoMWChange : Bool) :
    Bool × CMWState H :=
  match state.mapBlockUndo[hashBlock]? with
  | none => (fNoMWChange, state)
  | some undo =>
    let undone := undo.vAddedOutputs.foldl removeOutput
      (undo.vSpentOutputs.foldl unspendOutput state)
    match undone.mmr.rewind undo.nMMRLeavesBefore with
    | none => (false, undone)
    | some mmr =>
      if undone.vKernelExcesses.length < undo.nKernelsBefore then
        (false, { undone with mmr := mmr })
      else
        (true,
          { undone with
            mmr := mmr
            vKernelExcesses := undone.vKernelExcesses.take undo.nKernelsBefore
            nMWEBSupply := undone.nMWEBSupply - undo.nSupplyDelta
            hashLatestMWBlock := undo.hashPrevMWBlock
            nHeight := undo.nPrevHeight
            mapBlockUndo := undone.mapBlockUndo.erase hashBlock
            dqUndoOrder := undone.dqUndoOrder.erase hashBlock })

def hasUndo (state : CMWState H) (hashBlock : H) : Bool :=
  hashBlock ∈ state.mapBlockUndo

def computeStateHash (state : CMWState H) : H :=
  sha.sha256d ([.digest (state.mmr.getRoot sha.mmr)] ++ feedLE 8 state.mmr.getSize ++
    feedLE 8 state.mapOutputs.size ++ state.mapOutputs.toList.flatMap (fun entry =>
      feed entry.1.toList ++ [.digest (entry.2.getOutputID sha)]) ++
    feedLE 8 state.setSpent.size ++ state.setSpent.toList.flatMap (fun c => feed c.toList) ++
    feedLE 8 state.vKernelExcesses.length ++
    state.vKernelExcesses.flatMap (fun c => feed c.toList) ++
    feedLE 8 state.nMWEBSupply.toUInt64.toNat ++ feedLE 4 state.nHeight.toUInt32.toNat ++
    [.digest state.hashLatestMWBlock])

end CMWState

end MaryJaneCoin
