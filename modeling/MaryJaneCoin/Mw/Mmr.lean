import MaryJaneCoin.Lib.Popcount

/-!
# The Merkle mountain range of `mw/state/mmr.cpp`

`CMMR` stores the nodes of a forest of perfect binary trees in postorder: a
leaf is pushed, and while the new tree has a left neighbour of its own height
the two are merged under a parent that is pushed right behind them.  Every
function below follows the source line by line.

Positions, sizes and leaf counts are natural numbers.  The source keeps them
in `uint64_t`; nothing wraps as long as there are fewer than `2 ^ 63` leaves,
which is more than a `std::vector` can hold.  The digest type and the two
tagged hashes are parameters (`MMRHash`): SHA-256 is not part of this code.
-/

namespace MaryJaneCoin

open Popcount

/-- The hashing an MMR uses: `HashLeaf`, `HashParent` and the zero digest that
stands for an empty range. -/
structure MMRHash (H : Type) where
  hashLeaf : H → H
  hashParent : H → H → H
  zero : H

/-- `CMMRProof`: sibling digests from the leaf upwards; a side flag is `true`
when the sibling is hashed on the left. -/
structure CMMRProof (H : Type) where
  nIndex : Nat
  vBranch : List H
  vSide : List Bool
deriving DecidableEq, Repr

/-- `CMMR`: all nodes in postorder and the number of leaves. -/
structure CMMR (H : Type) where
  vNodes : List H
  nLeaves : Nat
deriving DecidableEq, Repr

/-- `AllOnesBelow`: the largest `2 ^ b - 1` that is at most `n`. -/
def allOnesBelow (n : Nat) : Nat :=
  if n = 0 then 0
  else if 2 ^ bitLength n - 1 ≤ n then 2 ^ bitLength n - 1
  else 2 ^ (bitLength n - 1) - 1

/-- `LeafIndexToPos`: position of a leaf among all nodes. -/
def leafIndexToPos (nLeafIndex : Nat) : Nat :=
  2 * nLeafIndex - popcount nLeafIndex

theorem allOnesBelow_pos {n : Nat} (h : n ≠ 0) : 0 < allOnesBelow n := by
  obtain ⟨b, hlo, hhi⟩ := exists_bracket h
  have hlen : bitLength n = b + 1 := bitLength_eq hlo hhi
  have hpow : 2 ^ (b + 1) = 2 * 2 ^ b := by ring
  have hpos : 0 < 2 ^ b := Nat.two_pow_pos b
  simp only [allOnesBelow, if_neg h, hlen, Nat.add_sub_cancel]
  split
  · omega
  · cases b with
    | zero => simp_all
    | succ b =>
      have : 2 ^ (b + 1) = 2 * 2 ^ b := by ring
      have : 0 < 2 ^ b := Nat.two_pow_pos b
      omega

/-- The loop of `CMMR::GetHeight`: strip leading perfect trees until the
position closes one. -/
def getHeightLoop (n : Nat) : Nat :=
  if n = 0 then 0
  else if n = allOnesBelow n then bitLength n - 1
  else getHeightLoop (n - allOnesBelow n)
termination_by n
decreasing_by
  have := allOnesBelow_pos (n := n) (by assumption)
  omega

/-- `CMMR::GetHeight`: height of the node stored at a position. -/
def getHeight (nPos : Nat) : Nat :=
  getHeightLoop (nPos + 1)

/-- `CMMR::IsLeftSibling`: does a node of the same height sit one subtree to
the right? -/
def isLeftSibling (nPos : Nat) : Bool :=
  getHeight (nPos + (2 ^ (getHeight nPos + 1) - 1)) == getHeight nPos

def nodeCountForLeaves (nTargetLeaves : Nat) : Nat :=
  2 * nTargetLeaves - popcount nTargetLeaves

/-- The loop of `CMMR::GetPeaks`, counting `h` down; the first argument is
`h + 1`. -/
def getPeaksLoop : Nat → Nat → Nat → List Nat
  | 0, _, _ => []
  | h + 1, remaining, nodeOffset =>
    if 2 ^ h ≤ remaining then
      (nodeOffset + (2 ^ (h + 1) - 1) - 1) ::
        getPeaksLoop h (remaining - 2 ^ h) (nodeOffset + (2 ^ (h + 1) - 1))
    else getPeaksLoop h remaining nodeOffset

/-- The loop of `CMMR::GetProof` that finds the mountain of a leaf; `none` is
the `myPeakIdx = -1` of the source. -/
def myPeakIdxLoop (nLeafIndex : Nat) : Nat → Nat → Nat → Nat → Option Nat
  | 0, _, _, _ => none
  | h + 1, remaining, leafOffset, peakCounter =>
    if 2 ^ h ≤ remaining then
      if leafOffset ≤ nLeafIndex ∧ nLeafIndex < leafOffset + 2 ^ h then
        some peakCounter
      else
        myPeakIdxLoop nLeafIndex h (remaining - 2 ^ h) (leafOffset + 2 ^ h) (peakCounter + 1)
    else myPeakIdxLoop nLeafIndex h remaining leafOffset peakCounter

namespace CMMR

variable {H : Type} (hash : MMRHash H)

/-- The empty range. -/
def empty : CMMR H := ⟨[], 0⟩

def getSize (mmr : CMMR H) : Nat := mmr.nLeaves

/-- The merge loop of `CMMR::Append`.  The vector accesses of the source are
unchecked; on a well-formed range they never leave the vector, so the default
is never read. -/
def mergeLoop (height idx : Nat) (vNodes : List H) : List H :=
  if idx % 2 = 1 then
    let rightIdx := vNodes.length - 1
    let leftIdx := rightIdx - (2 ^ (height + 1) - 1)
    let parent := hash.hashParent (vNodes.getD leftIdx hash.zero) (vNodes.getD rightIdx hash.zero)
    mergeLoop (height + 1) (idx / 2) (vNodes ++ [parent])
  else vNodes
termination_by idx

/-- `CMMR::Append`: the grown range; the returned leaf index is the old
`nLeaves`. -/
def append (mmr : CMMR H) (leaf : H) : CMMR H :=
  { vNodes := mergeLoop hash 0 mmr.nLeaves (mmr.vNodes ++ [hash.hashLeaf leaf])
    nLeaves := mmr.nLeaves + 1 }

/-- Append a list of leaves, first to last. -/
def appendAll (mmr : CMMR H) (leaves : List H) : CMMR H :=
  leaves.foldl (append hash) mmr

/-- `CMMR::Rewind`: drop the newest leaves; `none` is a `false` return, which
leaves the range as it was. -/
def rewind (mmr : CMMR H) (nTargetLeaves : Nat) : Option (CMMR H) :=
  if nTargetLeaves > mmr.nLeaves then none
  else if nTargetLeaves = mmr.nLeaves then some mmr
  else if nodeCountForLeaves nTargetLeaves > mmr.vNodes.length then none
  else some ⟨mmr.vNodes.take (nodeCountForLeaves nTargetLeaves), nTargetLeaves⟩

/-- `CMMR::GetPeaks`: positions of the mountain tops, left to right. -/
def getPeaks (mmr : CMMR H) : List Nat :=
  if mmr.nLeaves = 0 then [] else getPeaksLoop 64 mmr.nLeaves 0

/-- `CMMR::GetRoot`: bag the peaks from the right.  The one-peak branch of the
source is the loop with nothing left to bag. -/
def getRoot (mmr : CMMR H) : H :=
  if mmr.nLeaves = 0 then hash.zero
  else match mmr.getPeaks.reverse with
    | [] => hash.zero
    | last :: rest =>
      match mmr.vNodes[last]? with
      | none => hash.zero
      | some bag =>
        (rest.foldlM (fun bag peak =>
          (mmr.vNodes[peak]?).map fun node => hash.hashParent node bag) bag).getD hash.zero

/-- The climb of `CMMR::GetProof` from a position to the peak above it, one
sibling a level.  A 64-bit position has fewer than 64 levels above it, which
is the fuel. -/
def climbLoop (vNodes : List H) (peaks : List Nat) : Nat → Nat → List (H × Bool)
  | 0, _ => []
  | fuel + 1, currentPos =>
    if currentPos ∈ peaks then []
    else
      let siblingOffset := 2 ^ (getHeight currentPos + 1) - 1
      if isLeftSibling currentPos then
        match vNodes[currentPos + siblingOffset]? with
        | none => []
        | some sibling =>
          (sibling, false) :: climbLoop vNodes peaks fuel (currentPos + siblingOffset + 1)
      else
        match vNodes[currentPos - siblingOffset]? with
        | none => []
        | some sibling =>
          (sibling, true) :: climbLoop vNodes peaks fuel (currentPos + 1)

/-- The other peaks listed by `CMMR::GetProof`: those to the right of the
leaf's mountain from the last one inwards, then those to the left from the
nearest one outwards. -/
def peakBranch (vNodes : List H) (peaks : List Nat) (myPeakIdx : Nat) : List (H × Bool) :=
  ((peaks.drop (myPeakIdx + 1)).reverse.filterMap fun peak =>
      (vNodes[peak]?).map fun node => (node, false)) ++
  ((peaks.take myPeakIdx).reverse.filterMap fun peak =>
      (vNodes[peak]?).map fun node => (node, true))

def getProof (mmr : CMMR H) (nLeafIndex : Nat) : CMMRProof H :=
  if nLeafIndex ≥ mmr.nLeaves then ⟨nLeafIndex, [], []⟩
  else if leafIndexToPos nLeafIndex ≥ mmr.vNodes.length then ⟨nLeafIndex, [], []⟩
  else
    let peaks := mmr.getPeaks
    let climb := climbLoop mmr.vNodes peaks 64 (leafIndexToPos nLeafIndex)
    let others :=
      match myPeakIdxLoop nLeafIndex 64 mmr.nLeaves 0 0 with
      | none => []
      | some myPeakIdx =>
        if peaks.length > 1 then peakBranch mmr.vNodes peaks myPeakIdx else []
    ⟨nLeafIndex, (climb ++ others).map Prod.fst, (climb ++ others).map Prod.snd⟩

/-- One round of `CMMR::VerifyProof`. -/
def verifyStep (current : H) (step : H × Bool) : H :=
  if step.2 then hash.hashParent step.1 current else hash.hashParent current step.1

def verifyProof [DecidableEq H] (root leafHash : H) (proof : CMMRProof H) : Bool :=
  if proof.vBranch.length ≠ proof.vSide.length then false
  else
    (proof.vBranch.zip proof.vSide).foldl (verifyStep hash) (hash.hashLeaf leafHash) == root

def getLeafHash (mmr : CMMR H) (nLeafIndex : Nat) : H :=
  if nLeafIndex ≥ mmr.nLeaves then hash.zero
  else mmr.vNodes.getD (leafIndexToPos nLeafIndex) hash.zero

end CMMR

end MaryJaneCoin
