import MaryJaneCoin.Spv.MatchProof
import MaryJaneCoin.Wallet.InvolvingMe

/-!
# Merkle branches

`BuildMerkleTree` keeps the nodes of all levels in one array, the transactions first.
`GetMerkleBranch` reads the sibling of one node on each level out of it, at an offset that
grows by the size of the level, and `CheckMerkleBranch` climbs along the siblings again.
-/

namespace MaryJaneCoin

open List Option Function

namespace CBlock

section

variable {H : Type} (c : Consensus H)

/-- The inner loop of `BuildMerkleTree`: the nodes above a level of `nSize` nodes that starts
at `j`.  It is `none` when a node would be read that is not there. -/
def pushLevel (j nSize i : Nat) (vMerkleTree : List H) : Option (List H) :=
  if i < nSize then do
    let left ← vMerkleTree[j + i]?
    let right ← vMerkleTree[j + min (i + 1) (nSize - 1)]?
    pushLevel j nSize (i + 2) (vMerkleTree ++ [c.nodeHash left right])
  else some vMerkleTree
termination_by nSize - i

/-- The outer loop of `BuildMerkleTree`. -/
def pushLevels (j nSize : Nat) (vMerkleTree : List H) : Option (List H) :=
  if 1 < nSize then do
    let vMerkleTree ← pushLevel c j nSize 0 vMerkleTree
    pushLevels (j + nSize) ((nSize + 1) / 2) vMerkleTree
  else some vMerkleTree
termination_by nSize

/-- `vMerkleTree` as `BuildMerkleTree` leaves it. -/
def fillMerkleTree (block : CBlock H) : Option (List H) :=
  pushLevels c 0 block.vtx.length (block.txids c)

/-- A node of the array at an index that may be negative. -/
def nodeAt (vMerkleTree : List H) (k : Int) : Option H :=
  if k < 0 then none else vMerkleTree[k.toNat]?

/-- `nIndex ^ 1`. -/
def sibling (nIndex : Int) : Int := if nIndex % 2 = 0 then nIndex + 1 else nIndex - 1

/-- The loop of `GetMerkleBranch`. -/
def branchNodes (vMerkleTree : List H) (j nSize : Nat) (nIndex : Int) : Option (List H) :=
  if 1 < nSize then do
    let otherside ← nodeAt vMerkleTree (j + min (sibling nIndex) (nSize - 1))
    let above ← branchNodes vMerkleTree (j + nSize) ((nSize + 1) / 2) (nIndex / 2)
    some (otherside :: above)
  else some []
termination_by nSize

/-- `GetMerkleBranch` of a block that holds the array `vMerkleTree`, which is empty until the
tree is built. -/
def getMerkleBranchIn (block : CBlock H) (vMerkleTree : List H) (nIndex : Int) :
    Option (List H) := do
  let vMerkleTree ← if vMerkleTree.isEmpty then block.fillMerkleTree c else some vMerkleTree
  branchNodes vMerkleTree 0 block.vtx.length nIndex

/-- The loop of `CheckMerkleBranch`. -/
def climb : H → List H → Int → H
  | hash, [], _ => hash
  | hash, otherside :: above, nIndex =>
    climb (if nIndex % 2 = 1 then c.nodeHash otherside hash else c.nodeHash hash otherside) above
      (nIndex / 2)

def checkMerkleBranch (hash : H) (vMerkleBranch : List H) (nIndex : Int) : H :=
  if nIndex = -1 then c.zero else climb c hash vMerkleBranch nIndex

end

variable {H : Type} {c : Consensus H}

def merkleNodes (combine : H → H → H) (level : List H) : List H :=
  if 1 < level.length then level ++ merkleNodes combine (merkleLevel combine level) else level
termination_by level.length
decreasing_by
  rw [length_merkleLevel]
  omega

def levelsAbove (nSize : Nat) : Nat :=
  if 1 < nSize then levelsAbove ((nSize + 1) / 2) + 1 else 0
termination_by nSize

variable {level : List H}

theorem getLast?_merkleNodes (zero : H) {combine : H → H → H} (hne : level ≠ []) :
    (merkleNodes combine level).getLast? = some (merkleRoot combine zero level) := by
  induction level using merkleRoot.induct combine with
  | case1 level hle =>
    obtain ⟨node, rest, rfl⟩ := exists_cons_of_ne_nil hne
    obtain rfl : rest = [] := length_eq_zero_iff.mp (by simpa using hle)
    rw [merkleRoot_of_length_le hle, merkleNodes, if_neg (Nat.not_lt.mpr hle)]
    rfl
  | case2 level hgt ih =>
    have hlt := Nat.not_le.mp hgt
    have hlast := ih (merkleLevel_ne_nil hne)
    rw [merkleRoot_of_lt_length hlt, merkleNodes, if_pos hlt, getLast?_append, hlast]
    rfl

/-- **One level.**  The nodes below stay, those of the next level are added. -/
theorem pushLevel_eq (below before after added : List H) :
    pushLevel c below.length (before ++ after).length before.length (below ++ (before ++ after) ++ added) =
      some (below ++ (before ++ after) ++ (added ++ merkleLevel c.nodeHash after)) := by
  induction after using merkleLevel.induct generalizing before added with
  | case1 =>
    rw [pushLevel, if_neg (by simp)]
    simp [merkleLevel]
  | case2 a =>
    rw [pushLevel, if_pos (by simp)]
    have hodd : min (before.length + 1) ((before ++ [a]).length - 1) = before.length := by simp
    have hleft : (below ++ (before ++ [a]) ++ added)[below.length + before.length]? = some a := by
      simp
    rw [hodd, hleft]
    simp only [bind_eq_bind, bind_some]
    rw [pushLevel, if_neg (by simp)]
    simp [merkleLevel]
  | case3 a b rest ih =>
    rw [pushLevel, if_pos (by simp)]
    have heven : min (before.length + 1) ((before ++ a :: b :: rest).length - 1) =
        before.length + 1 := by
      simp
    have hleft : (below ++ (before ++ a :: b :: rest) ++ added)[below.length + before.length]? =
        some a := by
      simp
    have hright : (below ++ (before ++ a :: b :: rest) ++ added)[below.length +
        (before.length + 1)]? = some b := by
      simp
    rw [heven, hleft, hright]
    simp only [bind_eq_bind, bind_some]
    have hnext := ih (before ++ [a, b]) (added ++ [c.nodeHash a b])
    simp only [append_assoc, cons_append, nil_append, length_append,
      length_cons, length_nil, merkleLevel] at hnext ⊢
    exact hnext

theorem pushLevels_eq (level below : List H) : pushLevels c below.length level.length
      (below ++ level) = some (below ++ merkleNodes c.nodeHash level) := by
  induction level using merkleRoot.induct c.nodeHash generalizing below with
  | case1 level hle =>
    rw [pushLevels, if_neg (Nat.not_lt.mpr hle), merkleNodes, if_neg (Nat.not_lt.mpr hle)]
  | case2 level hgt ih =>
    have hlt := Nat.not_le.mp hgt
    have hlevel := pushLevel_eq (c := c) below [] level []
    simp only [nil_append, append_nil, length_nil] at hlevel
    have hrest := ih (below ++ level)
    rw [length_append, length_merkleLevel] at hrest
    rw [pushLevels, if_pos hlt, hlevel, merkleNodes, if_pos hlt]
    simp only [bind_eq_bind, bind_some]
    rw [hrest, append_assoc]

theorem fillMerkleTree_eq (block : CBlock H) :
    block.fillMerkleTree c = some (merkleNodes c.nodeHash (block.txids c)) := by
  have hlevels := pushLevels_eq (c := c) (block.txids c) []
  rw [length_nil, nil_append, nil_append] at hlevels
  rw [fillMerkleTree, ← hlevels, txids, length_map]

variable {vMerkleTree : List H}

theorem length_branchNodes {j nSize : Nat} {nIndex : Int}
    {branch : List H} (h : branchNodes vMerkleTree j nSize nIndex = some branch) :
    branch.length = levelsAbove nSize := by
  induction nSize using levelsAbove.induct generalizing j nIndex branch with
  | case1 nSize hlt ih =>
    rw [branchNodes, if_pos hlt] at h
    obtain ⟨otherside, -, habove⟩ := bind_eq_some_iff.mp h
    obtain ⟨above, hrec, hbranch⟩ := bind_eq_some_iff.mp habove
    rw [← Option.some.inj hbranch, length_cons, ih hrec, levelsAbove.eq_1 nSize, if_pos hlt]
  | case2 nSize hge =>
    rw [branchNodes, if_neg hge] at h
    rw [← Option.some.inj h, levelsAbove, if_neg hge]
    rfl

/-- The node that `GetMerkleBranch` reads beside a node of a level. -/
def beside (level : List H) (pos : Nat) (node : H) : H :=
  if pos % 2 = 1 then level[pos - 1]?.getD node else level[pos + 1]?.getD node

variable {pos : Nat} {node : H}

theorem nodeAt_sibling {below level above : List H} (hnode : level[pos]? = some node) :
    nodeAt (below ++ level ++ above) (below.length + min (sibling pos) (level.length - 1)) =
      some (beside level pos node) := by
  obtain ⟨hpos, rfl⟩ := List.getElem?_eq_some_iff.mp hnode
  have hread : ∀ {k : Int} {i : Nat} (hi : i < level.length), k = below.length + i →
      nodeAt (below ++ level ++ above) k = some level[i] := by
    intro k i hi hk
    rw [nodeAt, if_neg (by omega), hk]
    have htoNat : ((below.length : Int) + i).toNat = below.length + i := by omega
    rw [htoNat, append_assoc, getElem?_append_right (Nat.le_add_right _ _),
      Nat.add_sub_cancel_left, getElem?_append_left hi, getElem?_eq_getElem hi]
  rw [beside]
  by_cases hodd : pos % 2 = 1
  · have hleft : pos - 1 < level.length := by omega
    rw [if_pos hodd, getElem?_eq_getElem hleft, getD_some]
    refine hread hleft ?_
    rw [sibling, if_neg (by omega)]
    omega
  · rw [if_neg hodd, sibling, if_pos (by omega)]
    by_cases hlast : pos + 1 < level.length
    · rw [getElem?_eq_getElem hlast, getD_some]
      refine hread hlast ?_
      omega
    · rw [getElem?_eq_none (Nat.le_of_not_lt hlast), getD_none]
      refine hread hpos ?_
      omega

theorem climb_step (hnode : level[pos]? = some node) : (merkleLevel c.nodeHash level)[pos / 2]? =
      some (if (pos : Int) % 2 = 1 then c.nodeHash (beside level pos node) node
        else c.nodeHash node (beside level pos node)) := by
  rw [getElem?_merkleLevel, beside]
  by_cases hodd : pos % 2 = 1
  · have hright : pos / 2 * 2 + 1 = pos := by omega
    have hleft : pos / 2 * 2 = pos - 1 := by omega
    have hlt := (List.getElem?_eq_some_iff.mp hnode).1
    rw [if_pos (by omega), if_pos hodd, hright, hleft, hnode,
      getElem?_eq_getElem (show pos - 1 < level.length by omega)]
    rfl
  · have hleft : pos / 2 * 2 = pos := by omega
    rw [if_neg (by omega), if_neg hodd, hleft, hnode]
    rfl

theorem beside_eq (zero : H) (hnode : level[pos]? = some node) :
    beside level pos node = level[min (pos ^^^ 1) (level.length - 1)]?.getD zero := by
  obtain ⟨hpos, rfl⟩ := List.getElem?_eq_some_iff.mp hnode
  rw [beside]
  by_cases hodd : pos % 2 = 1
  · rw [if_pos hodd, Nat.xor_one_of_odd (Nat.odd_iff.mpr hodd), Nat.min_eq_left (by omega),
      getElem?_eq_getElem (by omega)]
    rfl
  · rw [if_neg hodd, Nat.xor_one_of_even (Nat.even_iff.mpr (by omega))]
    by_cases hlast : pos + 1 < level.length
    · rw [Nat.min_eq_left (by omega), getElem?_eq_getElem hlast]
      rfl
    · have hpos' : level.length - 1 = pos := by omega
      rw [Nat.min_eq_right (by omega), getElem?_eq_none (by omega), hpos', hnode]
      rfl

/-- **Completeness.**  The branch of a node exists, and it is the one of the levels. -/
theorem branchNodes_eq (level below : List H) (hnode : level[pos]? = some node) :
    branchNodes (below ++ merkleNodes c.nodeHash level) below.length level.length pos =
      some (merkleBranch c.nodeHash c.zero level pos) := by
  induction level using merkleRoot.induct c.nodeHash generalizing below pos node with
  | case1 level hle => rw [branchNodes, if_neg (Nat.not_lt.mpr hle), merkleBranch, if_pos hle]
  | case2 level hgt ih =>
    have hlt := Nat.not_le.mp hgt
    have habove := ih (below ++ level) (climb_step (c := c) hnode)
    rw [length_append, length_merkleLevel, append_assoc] at habove
    rw [branchNodes, if_pos hlt, merkleNodes, if_pos hlt, ← append_assoc, nodeAt_sibling hnode, append_assoc]
    have hhalf : (pos : Int) / 2 = (pos / 2 : Nat) := by omega
    rw [hhalf, habove, merkleBranch.eq_1 _ _ level, if_neg hgt, ← beside_eq c.zero hnode]
    rfl

theorem climb_merkleBranch (level : List H) (hnode : level[pos]? = some node) :
    climb c node (merkleBranch c.nodeHash c.zero level pos) pos = merkleRoot c.nodeHash c.zero level := by
  induction level using merkleRoot.induct c.nodeHash generalizing pos node with
  | case1 level hle =>
    obtain ⟨hpos, rfl⟩ := List.getElem?_eq_some_iff.mp hnode
    rw [merkleBranch, if_pos hle, merkleRoot_of_length_le hle, climb, headD_eq_head?_getD, head?_eq_getElem?]
    obtain rfl : pos = 0 := by omega
    rw [getElem?_eq_getElem hpos, getD_some]
  | case2 level hgt ih =>
    rw [merkleBranch, if_neg hgt, ← beside_eq c.zero hnode, climb,
      merkleRoot_of_lt_length (Nat.not_le.mp hgt), ← ih (climb_step (c := c) hnode)]
    rfl

/-- **Soundness.**  What climbs to the root along a branch of the right length is a node of the
level, whatever the branch and the index are. -/
theorem mem_of_climb (hinj : Injective2 c.nodeHash) (level : List H) (hne : level ≠ [])
    {x : H} {branch : List H} {nIndex : Int} (hlength : branch.length = levelsAbove level.length)
    (hroot : climb c x branch nIndex = merkleRoot c.nodeHash c.zero level) : x ∈ level := by
  induction level using merkleRoot.induct c.nodeHash generalizing x branch nIndex with
  | case1 level hle =>
    obtain ⟨node, rest, rfl⟩ := exists_cons_of_ne_nil hne
    rw [levelsAbove, if_neg (Nat.not_lt.mpr hle)] at hlength
    rw [eq_nil_of_length_eq_zero hlength, climb, merkleRoot_of_length_le hle] at hroot
    rw [hroot]
    exact mem_cons_self
  | case2 level hgt ih =>
    have hlt := Nat.not_le.mp hgt
    rw [levelsAbove, if_pos hlt, ← length_merkleLevel c.nodeHash] at hlength
    obtain ⟨otherside, above, rfl⟩ := exists_cons_of_length_eq_add_one hlength
    rw [climb, merkleRoot_of_lt_length hlt] at hroot
    have hmem := ih (merkleLevel_ne_nil hne) (Nat.succ.inj hlength) hroot
    obtain ⟨left, hleft, right, hright, hnode⟩ := mem_merkleLevel hmem
    split at hnode
    · rw [(hinj hnode).2]
      exact hright
    · rw [(hinj hnode).1]
      exact hleft

theorem getMerkleBranchIn_built {block : CBlock H}
    (hbuilt : vMerkleTree = [] ∨ block.fillMerkleTree c = some vMerkleTree) (nIndex : Int) :
    block.getMerkleBranchIn c vMerkleTree nIndex =
      branchNodes (merkleNodes c.nodeHash (block.txids c)) 0 (block.txids c).length nIndex := by
  have hfill := fillMerkleTree_eq (c := c) block
  have hlength : (block.txids c).length = block.vtx.length := length_map _
  rw [getMerkleBranchIn, hlength]
  cases hbuilt with
  | inl hempty =>
    rw [hempty, isEmpty_nil, if_pos rfl, hfill]
    rfl
  | inr hfilled =>
    have hnodes := Option.some.inj (hfilled.symm.trans hfill)
    rw [hfill, hnodes, ite_self]
    rfl

/-- The branch that a wallet transaction keeps is the one that is read out of the array. -/
theorem getMerkleBranchIn_eq {block : CBlock H}
    (hbuilt : vMerkleTree = [] ∨ block.fillMerkleTree c = some vMerkleTree) {i : Nat}
    {tx : CTransaction H} (htx : block.vtx[i]? = some tx) :
    block.getMerkleBranchIn c vMerkleTree i = some (block.getMerkleBranch c i) := by
  have hid : (block.txids c)[i]? = some (tx.getHash c.toSha256) := by
    rw [txids, getElem?_map, htx, map_some]
  exact (getMerkleBranchIn_built hbuilt i).trans (branchNodes_eq (block.txids c) [] hid)

/-- **Merkle branches.**  For a transaction of a block the branch is found without a read
outside of the array and leads to the root that `BuildMerkleTree` returns, the last node of the
array.  With an injective node hash a branch of that length that leads to the root, at any index
but the mark `-1`, starts at a transaction of the block; at the mark the result is zero. -/
theorem merkleBranch_exact (block : CBlock H) (hne : block.vtx ≠ []) (vMerkleTree : List H)
    (hbuilt : vMerkleTree = [] ∨ block.fillMerkleTree c = some vMerkleTree) : (∃ nodes,
    block.fillMerkleTree c = some nodes ∧ nodes.getLast? = some (block.buildMerkleTree c)) ∧
    (∀ (i : Nat) (tx : CTransaction H), block.vtx[i]? = some tx →
      ∃ branch, block.getMerkleBranchIn c vMerkleTree i = some branch ∧
        checkMerkleBranch c (tx.getHash c.toSha256) branch i = block.buildMerkleTree c) ∧
    (Function.Injective2 c.nodeHash → ∀ (x : H) (branch : List H) (nIndex : Int),
      (∃ i own, block.getMerkleBranchIn c vMerkleTree i = some own ∧ branch.length = own.length) →
        nIndex ≠ -1 → checkMerkleBranch c x branch nIndex = block.buildMerkleTree c → x ∈
    block.txids c) ∧ ∀ (x : H) (branch : List H), checkMerkleBranch c x branch (-1) = c.zero := by
  have hids : block.txids c ≠ [] := fun h => hne (map_eq_nil_iff.mp h)
  refine ⟨⟨_, fillMerkleTree_eq block, getLast?_merkleNodes c.zero hids⟩, ?_, ?_, ?_⟩
  · intro i tx htx
    have hid : (block.txids c)[i]? = some (tx.getHash c.toSha256) := by
      rw [txids, getElem?_map, htx, map_some]
    have hroot := climb_merkleBranch (c := c) (block.txids c) hid
    refine ⟨_, getMerkleBranchIn_eq hbuilt htx, ?_⟩
    rw [checkMerkleBranch, if_neg (by omega)]
    exact hroot
  · intro hinj x branch nIndex hown hmark hroot
    obtain ⟨i, own, hbranch, hlength⟩ := hown
    rw [getMerkleBranchIn_built hbuilt] at hbranch
    rw [checkMerkleBranch, if_neg hmark] at hroot
    exact mem_of_climb hinj (block.txids c) hids (hlength.trans (length_branchNodes hbranch)) hroot
  · intro x branch
    rw [checkMerkleBranch, if_pos rfl]

/-- A block with an odd number of transactions. -/
def oddBlock : CBlock (List Nat) :=
  { sampleGenesis with vtx := [0, 1, 2].map fun height => sampleCoinbase height [⟨0, []⟩] }

theorem merkleBranch_exact_odd : ∃ branch, oddBlock.getMerkleBranchIn sampleConsensus [] 2 = some branch ∧
      checkMerkleBranch sampleConsensus ((sampleCoinbase 2 [⟨0, []⟩]).getHash transparent) branch 2 =
        oddBlock.buildMerkleTree sampleConsensus ∧
      (sampleCoinbase 2 [⟨0, []⟩]).getHash transparent ∈ oddBlock.txids sampleConsensus := by
  obtain ⟨-, hcomplete, hsound, -⟩ := merkleBranch_exact (c := sampleConsensus) oddBlock
    (by decide) [] (.inl rfl)
  obtain ⟨branch, hbranch, hroot⟩ := hcomplete 2 (sampleCoinbase 2 [⟨0, []⟩]) rfl
  exact ⟨branch, hbranch, hroot, hsound (Sha256.nodeHash_injective Node.transparent_injective) _
    branch 2 ⟨2, branch, hbranch, rfl⟩ (by decide) hroot⟩

/-- The hash of the genesis transaction as the zero of the hashes. -/
def zeroTxid : Consensus (List Nat) :=
  { sampleConsensus with zero := (sampleCoinbase 0 [⟨0, []⟩]).getHash transparent }

/-- **The mark leads to a root of zero** from every hash. -/
theorem mark_reaches_zero_root : Function.Injective2 zeroTxid.nodeHash ∧
      (∀ tx : CTransaction (List Nat), NodeHash.IsLeaf zeroTxid.nodeHash (tx.getHash zeroTxid.toSha256)) ∧
      sampleGenesis.vtx ≠ [] ∧ sampleGenesis.getMerkleBranchIn zeroTxid [] 0 = some [] ∧
      checkMerkleBranch zeroTxid [] [] (-1) = sampleGenesis.buildMerkleTree zeroTxid ∧
      [] ∉ sampleGenesis.txids zeroTxid :=
  ⟨Sha256.nodeHash_injective Node.transparent_injective,
    Sha256.getHash_isLeaf Node.transparent_injective, by decide, by decide +kernel,
    by decide +kernel, by decide +kernel⟩

end CBlock

end MaryJaneCoin
