import MaryJaneCoin.Lib.HashTree
import MaryJaneCoin.Chain.Identity

/-!
# What the merkle root commits to

`BuildMerkleTree` pairs an odd node at the end of a level with itself, so a list
and the same list with its end repeated share a root.  Repetition is what the
`uniqueTx` set of `CheckBlock` refuses: a level without repetition is followed
by one without repetition, and such levels can be read back from the one above.
-/

namespace MaryJaneCoin

open NodeHash List Function Node

namespace Sha256

variable {H : Type} {sha : Sha256 H}

/-- `Hash(left, right)` of two nodes of a merkle tree. -/
def nodeHash (sha : Sha256 H) (left right : H) : H :=
  sha.sha256d [.digest left, .digest right]

theorem nodeHash_injective (hinj : Injective sha.sha256) : Injective2 sha.nodeHash := by
  intro left left' right right' heq
  have hnodes := sha256d_injective hinj heq
  simpa using hnodes

theorem getHash_isLeaf (hinj : Injective sha.sha256) (tx : CTransaction H) :
    IsLeaf sha.nodeHash (tx.getHash sha) := by
  intro left right heq
  have hdata := sha256d_injective hinj heq
  rw [CTransaction.serialize, putInt32, Codec.putLE, feed, map_cons, cons_append] at hdata
  cases (List.cons.inj hdata).1

end Sha256

section

variable {H : Type} {combine : H → H → H} {zero : H}

variable {level : List H}

theorem mem_merkleLevel {node : H} (h : node ∈ merkleLevel combine level) :
    ∃ left ∈ level, ∃ right ∈ level, node = combine left right := by
  induction level using merkleLevel.induct with
  | case1 => cases h
  | case2 a =>
    exact ⟨a, mem_cons_self, a, mem_cons_self, mem_singleton.mp h⟩
  | case3 a b rest ih =>
    rw [merkleLevel, List.mem_cons] at h
    cases h with
    | inl hnode => exact ⟨a, by simp, b, by simp, hnode⟩
    | inr hmem =>
      obtain ⟨left, hleft, right, hright, hnode⟩ := ih hmem
      exact ⟨left, by simp [hleft], right, by simp [hright], hnode⟩

/-- A level without repetition is followed by one without repetition. -/
theorem nodup_merkleLevel (hinj : Injective2 combine)
    (hnodup : level.Nodup) : (merkleLevel combine level).Nodup := by
  induction level using merkleLevel.induct with
  | case1 => exact nodup_nil
  | case2 a => exact nodup_singleton _
  | case3 a b rest ih =>
    obtain ⟨ha, hrest⟩ := nodup_cons.mp hnodup
    refine nodup_cons.mpr ⟨?_, ih (nodup_cons.mp hrest).2⟩
    intro hmem
    obtain ⟨left, hleft, right, _, hnode⟩ := mem_merkleLevel hmem
    rw [← (hinj hnode).1] at hleft
    exact ha (mem_cons_of_mem _ hleft)

/-- A level without repetition is determined by the one above it: where one list
ends in an odd node, the other one would have to repeat it. -/
theorem merkleLevel_injective (hinj : Injective2 combine) {level level' : List H}
    (hnodup : level.Nodup) (hnodup' : level'.Nodup)
    (heq : merkleLevel combine level = merkleLevel combine level') : level = level' := by
  induction level using merkleLevel.induct generalizing level' with
  | case1 =>
    cases level' using merkleLevel.induct with
    | case1 => rfl
    | case2 a' => cases heq
    | case3 a' b' rest' => cases heq
  | case2 a =>
    cases level' using merkleLevel.induct with
    | case1 => cases heq
    | case2 a' => rw [(hinj (List.cons.inj heq).1).1]
    | case3 a' b' rest' =>
      -- both children of the first node are `a`
      obtain ⟨ha, hb⟩ := hinj (List.cons.inj heq).1
      rw [← ha, ← hb] at hnodup'
      exact absurd mem_cons_self (nodup_cons.mp hnodup').1
  | case3 a b rest ih =>
    cases level' using merkleLevel.induct with
    | case1 => cases heq
    | case2 a' =>
      obtain ⟨ha, hb⟩ := hinj (List.cons.inj heq).1
      rw [ha, hb] at hnodup
      exact absurd mem_cons_self (nodup_cons.mp hnodup).1
    | case3 a' b' rest' =>
      obtain ⟨hnode, hnodes⟩ := List.cons.inj heq
      obtain ⟨ha, hb⟩ := hinj hnode
      rw [ha, hb, ih (nodup_cons.mp (nodup_cons.mp hnodup).2).2
        (nodup_cons.mp (nodup_cons.mp hnodup').2).2 hnodes]

theorem hasHeight_merkleLevel {k : Nat} (hheight : ∀ node ∈ level, HasHeight combine k node) :
    ∀ node ∈ merkleLevel combine level, HasHeight combine (k + 1) node := by
  intro node hmem
  obtain ⟨left, hleft, right, _, hnode⟩ := mem_merkleLevel hmem
  rw [hnode]
  exact .node right (hheight left hleft)

theorem merkleRoot_of_length_le (h : level.length ≤ 1) :
    merkleRoot combine zero level = level.headD zero := by
  rw [merkleRoot, if_pos h]

theorem merkleRoot_of_lt_length (h : 1 < level.length) :
    merkleRoot combine zero level = merkleRoot combine zero (merkleLevel combine level) := by
  rw [merkleRoot, if_neg (Nat.not_le.mpr h)]

theorem merkleLevel_ne_nil (h : level ≠ []) : merkleLevel combine level ≠ [] := by
  have hpos := length_pos_iff.mpr h
  rw [← length_pos_iff, length_merkleLevel]
  omega

theorem hasHeight_merkleRoot (zero : H) (level : List H) {k : Nat} (hne : level ≠ [])
    (hheight : ∀ node ∈ level, HasHeight combine k node) :
    ∃ d, HasHeight combine (k + d) (merkleRoot combine zero level) ∧ (1 < level.length → 0 < d) := by
  induction level using merkleRoot.induct combine generalizing k with
  | case1 level hle =>
    obtain ⟨node, rest, rfl⟩ := exists_cons_of_ne_nil hne
    rw [merkleRoot_of_length_le hle]
    exact ⟨0, hheight node mem_cons_self, fun hlt => absurd hle (Nat.not_le.mpr hlt)⟩
  | case2 level hgt ih =>
    obtain ⟨d, hroot, _⟩ := ih (merkleLevel_ne_nil hne) (hasHeight_merkleLevel hheight)
    rw [merkleRoot_of_lt_length (Nat.not_le.mp hgt)]
    rw [Nat.add_assoc] at hroot
    exact ⟨1 + d, hroot, fun _ => by omega⟩

/-- **Two levels of one height without repetition share a root only if they are
equal.** -/
theorem merkleRoot_injective (hinj : Injective2 combine) (level : List H) {k : Nat}
    {level' : List H} (hne : level ≠ []) (hne' : level' ≠ [])
    (hheight : ∀ node ∈ level, HasHeight combine k node) (hheight' : ∀ node ∈ level',
    HasHeight combine k node) (hnodup : level.Nodup) (hnodup' : level'.Nodup)
    (heq : merkleRoot combine zero level = merkleRoot combine zero level') : level = level' := by
  induction level using merkleRoot.induct combine generalizing k level' with
  | case1 level hle =>
    obtain ⟨node, rest, rfl⟩ := exists_cons_of_ne_nil hne
    obtain rfl : rest = [] := length_eq_zero_iff.mp (by simpa using hle)
    rw [merkleRoot_of_length_le hle] at heq
    obtain ⟨d, hroot, hhigher⟩ := hasHeight_merkleRoot zero level' hne' hheight'
    have hsame : k = k + d := (hheight node mem_cons_self).unique hinj hroot heq
    have hle' : level'.length ≤ 1 := by
      by_contra hgt
      have := hhigher (Nat.not_le.mp hgt)
      omega
    obtain ⟨node', rest', rfl⟩ := exists_cons_of_ne_nil hne'
    obtain rfl : rest' = [] := length_eq_zero_iff.mp (by simpa using hle')
    rw [merkleRoot_of_length_le hle'] at heq
    exact congrArg (fun a => [a]) heq
  | case2 level hgt ih =>
    rw [merkleRoot_of_lt_length (Nat.not_le.mp hgt)] at heq
    have hheights := hasHeight_merkleLevel hheight
    by_cases hle' : level'.length ≤ 1
    · obtain ⟨node', rest', rfl⟩ := exists_cons_of_ne_nil hne'
      obtain ⟨d, hroot, _⟩ := hasHeight_merkleRoot zero _ (merkleLevel_ne_nil hne) hheights
      rw [merkleRoot_of_length_le hle'] at heq
      have hsame := hroot.unique hinj (hheight' node' mem_cons_self) heq
      omega
    · rw [merkleRoot_of_lt_length (Nat.not_le.mp hle')] at heq
      exact merkleLevel_injective hinj hnodup hnodup'
        (ih (merkleLevel_ne_nil hne) (merkleLevel_ne_nil hne') hheights
          (hasHeight_merkleLevel hheight') (nodup_merkleLevel hinj hnodup)
          (nodup_merkleLevel hinj hnodup') heq)

end

namespace CBlock

variable {H : Type} [DecidableEq H] {c : Consensus H} {block : CBlock H} {adjustedTime : Int}
  {fCheckPOW fCheckSig : Bool}

/-- The transaction hashes, in the order of the block. -/
def txids (c : Consensus H) (block : CBlock H) : List H :=
  block.vtx.map (CTransaction.getHash c.toSha256)

theorem checkBlock_unique {fCheckMerkleRoot : Bool}
    (h : block.checkBlock c adjustedTime fCheckPOW fCheckMerkleRoot fCheckSig) :
    block.txids c ≠ [] ∧ (block.txids c).Nodup := by
  obtain ⟨coinbase, rest, hshape⟩ := checkBlock_shape h
  refine ⟨?_, hshape.distinct⟩
  rw [txids, hshape.vtx]
  exact cons_ne_nil _ _

theorem checkBlock_merkle (h : block.checkBlock c adjustedTime fCheckPOW true fCheckSig) :
    block.hashMerkleRoot = merkleRoot c.nodeHash c.zero (block.txids c) := by
  simp only [checkBlock, Bool.and_eq_true, Bool.not_true, Bool.false_or, beq_iff_eq] at h
  exact h.2

omit [DecidableEq H] in
theorem txids_height (hleaf : ∀ tx : CTransaction H, IsLeaf c.nodeHash (tx.getHash c.toSha256)) :
    ∀ txid ∈ block.txids c, HasHeight c.nodeHash 0 txid := by
  intro txid hmem
  obtain ⟨tx, _, rfl⟩ := mem_map.mp hmem
  exact .leaf (hleaf tx)

/-- **Merkle commitment.**  If the node hash is injective on pairs and is never
a txid, two blocks that pass `CheckBlock` with the same merkle root have the
same transactions hashes in the same order.  A block whose list repeats its own
end, as the pairing of an odd node does, never passes. -/
theorem merkle_commitment (hinj : Function.Injective2 c.nodeHash)
    (hleaf : ∀ tx : CTransaction H, IsLeaf c.nodeHash (tx.getHash c.toSha256)) :
    (∀ (block block' : CBlock H) (adjustedTime adjustedTime' : Int)
      (fCheckPOW fCheckPOW' fCheckSig fCheckSig' : Bool),
      block.checkBlock c adjustedTime fCheckPOW true fCheckSig →
      block'.checkBlock c adjustedTime' fCheckPOW' true fCheckSig' →
      block.hashMerkleRoot = block'.hashMerkleRoot → block.txids c = block'.txids c) ∧
    ∀ (block : CBlock H) (k : Nat) (adjustedTime : Int)
      (fCheckPOW fCheckMerkleRoot fCheckSig : Bool), k < block.vtx.length →
      ({ block with vtx := block.vtx ++ block.vtx.drop k } : CBlock H).checkBlock c adjustedTime
        fCheckPOW fCheckMerkleRoot fCheckSig = false := by
  constructor
  · intro block block' _ _ _ _ _ _ hcheck hcheck' hroot
    obtain ⟨hne, hnodup⟩ := checkBlock_unique hcheck
    obtain ⟨hne', hnodup'⟩ := checkBlock_unique hcheck'
    rw [checkBlock_merkle hcheck, checkBlock_merkle hcheck'] at hroot
    exact merkleRoot_injective hinj _ hne hne' (txids_height hleaf) (txids_height hleaf) hnodup
      hnodup' hroot
  · intro block k _ _ _ _ hlt
    rw [← Bool.not_eq_true]
    intro hcheck
    have hnodup := (checkBlock_unique hcheck).2
    rw [txids, map_append, nodup_append] at hnodup
    -- the first transaction of the repeated end stands in both parts
    have hfirst : block.vtx[k] ∈ block.vtx.drop k := by
      rw [drop_eq_getElem_cons hlt]
      exact mem_cons_self
    exact hnodup.2.2 _ (mem_map_of_mem (getElem_mem hlt)) _
      (mem_map_of_mem hfirst) rfl

/-- The theorem at a block of three transactions, and at the list that repeats the last of them
under the same root. -/
theorem merkle_commitment_chained : chainedBlock.txids sampleConsensus =
        ({ chainedBlock with nNonce := 1 } : CBlock (List Nat)).txids sampleConsensus ∧
      ({ chainedBlock with vtx := chainedBlock.vtx ++ chainedBlock.vtx.drop 2 } :
        CBlock (List Nat)).buildMerkleTree sampleConsensus = chainedBlock.hashMerkleRoot ∧
      ({ chainedBlock with vtx := chainedBlock.vtx ++ chainedBlock.vtx.drop 2 } :
        CBlock (List Nat)).checkBlock sampleConsensus 1000000 true true true = false := by
  have hcommit := merkle_commitment (c := sampleConsensus)
    (Sha256.nodeHash_injective transparent_injective)
    (Sha256.getHash_isLeaf transparent_injective)
  have hchecks : chainedBlock.checkBlock sampleConsensus 1000000 true true true ∧
      ({ chainedBlock with nNonce := 1 } : CBlock (List Nat)).checkBlock sampleConsensus 1000000
        true true true ∧ 2 < chainedBlock.vtx.length := by decide +kernel
  exact ⟨hcommit.1 _ _ _ _ _ _ _ _ hchecks.1 hchecks.2.1 rfl, by decide +kernel,
    hcommit.2 chainedBlock 2 _ _ _ _ hchecks.2.2⟩

end CBlock

end MaryJaneCoin
