import MaryJaneCoin.Chain.MerkleCommitment

/-!
# `CPartialMerkleTree`

The part of a merkle tree that shows some of its leaves.  The tree is not
stored: `TraverseAndBuild` and `TraverseAndExtract` walk the same implicit tree,
and what the one appends to `vBits` and `vHash` the other takes off again.
-/

namespace MaryJaneCoin

open Codec

section

variable {H : Type}

/-- The bytes at the front of a stream. -/
def leadingBytes : Preimage H → Bytes
  | .byte b :: data => b :: leadingBytes data
  | _ => []

/-- Read bytes off the front of a stream that may contain digests. -/
def fromStream {α : Type} (get : Get α) (data : Preimage H) : Option (α × Preimage H) :=
  (get (leadingBytes data)).map fun read =>
    (read.1, data.drop ((leadingBytes data).length - read.2.length))

/-- Read digests off the front of a stream. -/
def getDigests : Nat → Preimage H → Option (List H × Preimage H)
  | 0, data => some ([], data)
  | n + 1, .digest h :: data => (getDigests n data).map fun read => (h :: read.1, read.2)
  | _ + 1, _ => none

end

structure CPartialMerkleTree (H : Type) where
  nTransactions : UInt32
  vBits : List Bool
  vHash : List H
  fBad : Bool

/-- What `TraverseAndExtract` has used and found so far. -/
structure ExtractState (H : Type) where
  nBitsUsed : Nat
  nHashUsed : Nat
  vMatch : List H
  fBad : Bool

/-- `nBitsUsed++`. -/
def ExtractState.useBit {H : Type} (state : ExtractState H) : ExtractState H :=
  { state with nBitsUsed := state.nBitsUsed + 1 }

namespace CPartialMerkleTree

/-- `CalcTreeWidth`: the number of nodes at a height. -/
def calcTreeWidth (nTransactions height : Nat) : Nat := (nTransactions + 2 ^ height - 1) / 2 ^ height

theorem calcTreeWidth_zero (nTransactions : Nat) : calcTreeWidth nTransactions 0 = nTransactions := by
  rw [calcTreeWidth, Nat.pow_zero, Nat.div_one, Nat.add_sub_cancel]

/-- Each level has half the nodes of the one below. -/
theorem calcTreeWidth_succ (nTransactions height : Nat) :
    calcTreeWidth nTransactions (height + 1) = (calcTreeWidth nTransactions height + 1) / 2 := by
  have hpos := Nat.two_pow_pos height
  have hsum : nTransactions + 2 ^ (height + 1) - 1 = nTransactions + 2 ^ height - 1 + 2 ^ height := by
    rw [Nat.pow_succ]
    omega
  rw [calcTreeWidth, calcTreeWidth, hsum, Nat.pow_succ, ← Nat.div_div_eq_div_mul, Nat.add_div_right _ hpos]

/-- `while (CalcTreeWidth(nHeight) > 1) nHeight++`. -/
def growHeight (nTransactions nHeight : Nat) : Nat :=
  if calcTreeWidth nTransactions nHeight > 1 then growHeight nTransactions (nHeight + 1) else nHeight
termination_by calcTreeWidth nTransactions nHeight
decreasing_by
  rw [calcTreeWidth_succ]
  omega

variable {H : Type} (sha : Sha256 H)

def calcHash (vTxid : List H) : Nat → Nat → H
  | 0, pos => vTxid[pos]?.getD sha.zero
  | height + 1, pos =>
    let left := calcHash vTxid height (pos * 2)
    let right :=
      if pos * 2 + 1 < calcTreeWidth vTxid.length height then calcHash vTxid height (pos * 2 + 1)
      else left
    sha.nodeHash left right

/-- The first loop of `TraverseAndBuild`: whether there is a match below. -/
def parentOfMatch (vMatch : List Bool) (height pos : Nat) : Bool :=
  ((vMatch.drop (pos * 2 ^ height)).take (2 ^ height)).any id

/-- `TraverseAndBuild`: what it appends to `vBits` and `vHash`. -/
def traverseAndBuild (vTxid : List H) (vMatch : List Bool) : Nat → Nat → List Bool × List H
  | 0, pos => ([parentOfMatch vMatch 0 pos], [calcHash sha vTxid 0 pos])
  | height + 1, pos =>
    if !parentOfMatch vMatch (height + 1) pos then ([false], [calcHash sha vTxid (height + 1) pos])
    else
      let left := traverseAndBuild vTxid vMatch height (pos * 2)
      let right :=
        if pos * 2 + 1 < calcTreeWidth vTxid.length height then
          traverseAndBuild vTxid vMatch height (pos * 2 + 1)
        else ([], [])
      (true :: (left.1 ++ right.1), left.2 ++ right.2)

/-- The constructor `CPartialMerkleTree(vTxid, vMatch)`. -/
def ofMatches (vTxid : List H) (vMatch : List Bool) : CPartialMerkleTree H :=
  let built := traverseAndBuild sha vTxid vMatch (growHeight vTxid.length 0) 0
  { nTransactions := UInt32.ofNat vTxid.length, vBits := built.1, vHash := built.2, fBad := false }

/-- The end of `TraverseAndExtract` at a leaf, or at a node without a match
below: the next hash is taken. -/
def takeHash (tree : CPartialMerkleTree H) (fMatch : Bool) (state : ExtractState H) :
    H × ExtractState H :=
  match tree.vHash[state.nHashUsed]? with
  | none => (sha.zero, { state with fBad := true })
  | some hash =>
    (hash, { state with
      nHashUsed := state.nHashUsed + 1
      vMatch := if fMatch then state.vMatch ++ [hash] else state.vMatch })

def traverseAndExtract (tree : CPartialMerkleTree H) :
    Nat → Nat → ExtractState H → H × ExtractState H
  | 0, _, state =>
    match tree.vBits[state.nBitsUsed]? with
    | none => (sha.zero, { state with fBad := true })
    | some fParentOfMatch =>
      tree.takeHash sha fParentOfMatch state.useBit
  | height + 1, pos, state =>
    match tree.vBits[state.nBitsUsed]? with
    | none => (sha.zero, { state with fBad := true })
    | some false => tree.takeHash sha false state.useBit
    | some true =>
      let left := tree.traverseAndExtract height (pos * 2) state.useBit
      if pos * 2 + 1 < calcTreeWidth tree.nTransactions.toNat height then
        let right := tree.traverseAndExtract height (pos * 2 + 1) left.2
        (sha.nodeHash left.1 right.1, right.2)
      else (sha.nodeHash left.1 left.1, left.2)

/-- What `ExtractMatches` starts from. -/
def extractStart (tree : CPartialMerkleTree H) : ExtractState H := ⟨0, 0, [], tree.fBad⟩

/-- `ExtractMatches`: the hash it returns, which is zero when it fails, and
`vMatch`. -/
def extractMatches (tree : CPartialMerkleTree H) : H × List H :=
  let nTransactions := tree.nTransactions.toNat
  if nTransactions = 0 then (sha.zero, [])
  else if nTransactions > MAX_BLOCK_SIZE / 60 then (sha.zero, [])
  else if tree.vHash.length > nTransactions then (sha.zero, [])
  else if tree.vBits.length < tree.vHash.length then (sha.zero, [])
  else
    let extracted := tree.traverseAndExtract sha (growHeight nTransactions 0) 0 tree.extractStart
    if extracted.2.fBad then (sha.zero, extracted.2.vMatch)
    else if (extracted.2.nBitsUsed + 7) / 8 ≠ (tree.vBits.length + 7) / 8 then
      (sha.zero, extracted.2.vMatch)
    else if extracted.2.nHashUsed ≠ tree.vHash.length then (sha.zero, extracted.2.vMatch)
    else (extracted.1, extracted.2.vMatch)

/-- Serialization of `CPartialMerkleTree`. -/
def serialize (tree : CPartialMerkleTree H) : Preimage H :=
  feedLE 4 tree.nTransactions.toNat ++ (feed (putCompactSize tree.vHash.length) ++
    (tree.vHash.map .digest ++ feed (putVec putByte (BitBytes.pack tree.vBits))))

/-- Deserialization of `CPartialMerkleTree`. -/
def deserialize (data : Preimage H) : Option (CPartialMerkleTree H × Preimage H) :=
  (fromStream (getLE 4) data).bind fun nTransactions =>
  (fromStream getCompactSize nTransactions.2).bind fun nSize =>
  (getDigests nSize.1 nSize.2).bind fun vHash =>
  (fromStream (getVec getByte) vHash.2).map fun vBytes =>
    ({ nTransactions := UInt32.ofNat nTransactions.1, vBits := BitBytes.unpack vBytes.1
       vHash := vHash.1, fBad := false }, vBytes.2)

end CPartialMerkleTree

end MaryJaneCoin
