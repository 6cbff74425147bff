import MaryJaneCoin.Lib.HashTree
import MaryJaneCoin.Mw.MmrPosition

/-!
# What a Merkle mountain range stores

After any sequence of appends the node vector holds, at the position of every
complete node `(h, j)`, the digest of the perfect tree over the leaves
`j * 2 ^ h, …, (j + 1) * 2 ^ h - 1` (`CMMR.Represents`).  The step lemma
follows the merge loop of `Append`; the run lemma is an induction over the
appended list.  `Rewind` is the inverse: it cuts the vector back to exactly
the nodes of the shorter range.
-/

namespace MaryJaneCoin

open Popcount HashTree List

variable {H : Type} (hash : MMRHash H)

/-- The perfect tree above the leaves of node `(h, j)`. -/
def perfectTree (leaves : List H) : Nat → Nat → MTree H
  | 0, j => .leaf (leaves.getD j hash.zero)
  | h + 1, j => .node (perfectTree leaves h (2 * j)) (perfectTree leaves h (2 * j + 1))

/-- Digest of a tree under the two tagged hashes. -/
def MMRHash.digest (t : MTree H) : H :=
  t.digest hash.hashLeaf hash.hashParent

theorem perfectTree_append (leaves more : List H) : ∀ h j, (j + 1) * 2 ^ h ≤ leaves.length →
      perfectTree hash (leaves ++ more) h j = perfectTree hash leaves h j := by
  intro h
  induction h with
  | zero =>
    intro j hj
    have hlt : j < leaves.length := by omega
    simp [perfectTree, getD_eq_getElem?_getD, getElem?_append_left hlt]
  | succ h ih =>
    intro j hj
    have hexp : (j + 1) * 2 ^ (h + 1) = (2 * j + 1 + 1) * 2 ^ h := by ring
    have hmono : (2 * j + 1) * 2 ^ h ≤ (2 * j + 1 + 1) * 2 ^ h := Nat.mul_le_mul_right _ (by omega)
    simp only [perfectTree]
    rw [ih (2 * j) (by omega), ih (2 * j + 1) (by omega)]

theorem digest_perfectTree_succ (leaves : List H) (h j : Nat) :
    hash.digest (perfectTree hash leaves (h + 1) j) =
      hash.hashParent (hash.digest (perfectTree hash leaves h (2 * j)))
        (hash.digest (perfectTree hash leaves h (2 * j + 1))) := rfl

theorem leaves_perfectTree (leaves : List H) : ∀ h j, (j + 1) * 2 ^ h ≤ leaves.length →
      (perfectTree hash leaves h j).leaves = (leaves.drop (j * 2 ^ h)).take (2 ^ h) := by
  intro h
  induction h with
  | zero =>
    intro j hj
    have hlt : j < leaves.length := by omega
    rw [Nat.pow_zero, Nat.mul_one, drop_eq_getElem_cons hlt]
    simp only [perfectTree, MTree.leaves, getD_eq_getElem?_getD,
      getElem?_eq_getElem hlt, Option.getD_some, take_succ_cons, take_zero]
  | succ h ih =>
    intro j hj
    have hexp : (j + 1) * 2 ^ (h + 1) = (2 * j + 1 + 1) * 2 ^ h := by ring
    have hmono : (2 * j + 1) * 2 ^ h ≤ (2 * j + 1 + 1) * 2 ^ h := Nat.mul_le_mul_right _ (by omega)
    have hstart : j * 2 ^ (h + 1) = 2 * j * 2 ^ h := by ring
    have hmid : (2 * j + 1) * 2 ^ h = 2 ^ h + 2 * j * 2 ^ h := by ring
    have hwidth : 2 ^ (h + 1) = 2 ^ h + 2 ^ h := by ring
    simp only [perfectTree, MTree.leaves]
    rw [ih (2 * j) (by omega), ih (2 * j + 1) (by omega), hstart, hmid, hwidth, take_add, drop_drop]
    congr 3
    omega

/-- The node vector has the length that `nodeCountForLeaves` predicts.  This
part of well-formedness does not depend on what was hashed. -/
def CMMR.SizeOk (mmr : CMMR H) : Prop :=
  mmr.vNodes.length = nodeCountForLeaves mmr.nLeaves

/-- `mmr` is the range built from `leaves`. -/
structure CMMR.Represents (mmr : CMMR H) (leaves : List H) : Prop where
  size : mmr.nLeaves = leaves.length
  count : mmr.SizeOk
  nodes : ∀ h j, (j + 1) * 2 ^ h ≤ leaves.length →
    mmr.vNodes[nodePos h j]? = some (hash.digest (perfectTree hash leaves h j))

theorem nodePos_zero_eq_count (n : Nat) : nodePos 0 n = nodeCountForLeaves n := nodePos_zero n

variable {n k idx : Nat}

/-- Where the merge loop stops, the vector has the next predicted length. -/
theorem nodePos_succ_eq_count (hrun : (idx + 1) * 2 ^ k = n + 1)
    (heven : idx % 2 ≠ 1) : nodePos k idx + 1 = nodeCountForLeaves (n + 1) := by
  obtain ⟨i, rfl⟩ : ∃ i, idx = 2 * i := ⟨idx / 2, by omega⟩
  have hpos := nodePos_add k (2 * i)
  have hcount : popcount (n + 1) = popcount i + 1 := by
    rw [← hrun, popcount_mul_two_pow, popcount_two_mul_add_one]
  have hexp : (2 * i + 1) * 2 ^ (k + 1) = 2 * ((2 * i + 1) * 2 ^ k) := by ring
  have hle := popcount_le (n + 1)
  rw [popcount_two_mul] at hpos
  simp only [nodeCountForLeaves, hcount]
  omega

theorem mergeLoop_extends {vNodes : List H}
    (hrun : (idx + 1) * 2 ^ k = n + 1) (hlen : vNodes.length = nodePos k idx + 1) :
    (∃ pushed, CMMR.mergeLoop hash k idx vNodes = vNodes ++ pushed) ∧
      (CMMR.mergeLoop hash k idx vNodes).length = nodeCountForLeaves (n + 1) := by
  induction idx using Nat.strongRecOn generalizing k vNodes with
  | ind idx ih =>
    rw [CMMR.mergeLoop]
    by_cases hodd : idx % 2 = 1
    · obtain ⟨i, rfl⟩ : ∃ i, idx = 2 * i + 1 := ⟨idx / 2, by omega⟩
      have hhalf : (2 * i + 1) / 2 = i := by omega
      have hrun' : (i + 1) * 2 ^ (k + 1) = n + 1 := by rw [← hrun]; ring
      simp only [if_pos hodd, hhalf]
      generalize hash.hashParent _ _ = parent
      have hlen' : (vNodes ++ [parent]).length = nodePos (k + 1) i + 1 := by
        simp [hlen, nodePos_parent]
      obtain ⟨⟨pushed, hpushed⟩, hcount⟩ := ih i (by omega) hrun' hlen'
      exact ⟨⟨parent :: pushed, by simp [hpushed]⟩, hcount⟩
    · rw [if_neg hodd]
      exact ⟨⟨[], by simp⟩, by rw [hlen, nodePos_succ_eq_count hrun hodd]⟩

/-- **Step lemma of `Append`.**  The loop has reached node `(k, idx)`, the last
complete one of its height; everything up to it is stored.  It ends with all
complete nodes of the longer range stored. -/
theorem mergeLoop_nodes {vNodes leaves : List H}
    (hrun : (idx + 1) * 2 ^ k = n + 1) (hlen : vNodes.length = nodePos k idx + 1)
    (hstored : ∀ h j, (j + 1) * 2 ^ h ≤ n ∨ (h ≤ k ∧ (j + 1) * 2 ^ h = n + 1) →
      vNodes[nodePos h j]? = some (hash.digest (perfectTree hash leaves h j))) :
    ∀ h j, (j + 1) * 2 ^ h ≤ n + 1 → (CMMR.mergeLoop hash k idx vNodes)[nodePos h j]? =
        some (hash.digest (perfectTree hash leaves h j)) := by
  induction idx using Nat.strongRecOn generalizing k vNodes with
  | ind idx ih =>
    intro h j hj
    rw [CMMR.mergeLoop]
    by_cases hodd : idx % 2 = 1
    · obtain ⟨i, rfl⟩ : ∃ i, idx = 2 * i + 1 := ⟨idx / 2, by omega⟩
      have hhalf : (2 * i + 1) / 2 = i := by omega
      have hrun' : (i + 1) * 2 ^ (k + 1) = n + 1 := by rw [← hrun]; ring
      have hpos : 1 ≤ 2 ^ k := Nat.two_pow_pos k
      -- the two children of the new parent are already in the vector
      have hright := hstored k (2 * i + 1) (Or.inr ⟨le_rfl, hrun⟩)
      have hleftLe : (2 * i + 1) * 2 ^ k ≤ n := by
        have hexp : (2 * i + 1 + 1) * 2 ^ k = (2 * i + 1) * 2 ^ k + 2 ^ k := by ring
        omega
      have hleft := hstored k (2 * i) (Or.inl hleftLe)
      have hrightIdx : vNodes.length - 1 = nodePos k (2 * i + 1) := by omega
      have hleftIdx : nodePos k (2 * i + 1) - (2 ^ (k + 1) - 1) = nodePos k (2 * i) := by
        have := nodePos_right_sibling k i
        omega
      simp only [if_pos hodd, hhalf, hrightIdx, hleftIdx, getD_eq_getElem?_getD, hright,
        hleft, Option.getD_some]
      apply ih i (by omega) hrun' (by simp [hlen, nodePos_parent]) ?_ h j hj
      intro h' j' hcase
      by_cases hnew : h' = k + 1 ∧ (j' + 1) * 2 ^ h' = n + 1
      · -- the parent itself
        obtain ⟨rfl, hj'⟩ := hnew
        have hji : j' = i := by
          have heq : (j' + 1) * 2 ^ (k + 1) = (i + 1) * 2 ^ (k + 1) := by omega
          have := Nat.eq_of_mul_eq_mul_right (Nat.two_pow_pos (k + 1)) heq
          omega
        subst hji
        rw [nodePos_parent, ← hlen, getElem?_concat_length, digest_perfectTree_succ]
      · have hold : vNodes[nodePos h' j']? =
            some (hash.digest (perfectTree hash leaves h' j')) := by
          apply hstored
          rcases hcase with hle | ⟨hle, heq⟩
          · exact Or.inl hle
          · exact Or.inr ⟨by
              by_contra hgt
              exact hnew ⟨by omega, heq⟩, heq⟩
        rw [getElem?_append_left (List.getElem?_eq_some_iff.mp hold).1]
        exact hold
    · rw [if_neg hodd]
      apply hstored
      by_cases hle : (j + 1) * 2 ^ h ≤ n
      · exact Or.inl hle
      · -- a node closed by the last leaf cannot be higher than the loop got
        have heq : (j + 1) * 2 ^ h = n + 1 := by omega
        refine Or.inr ⟨?_, heq⟩
        by_contra hgt
        obtain ⟨d, rfl⟩ : ∃ d, h = k + (d + 1) := ⟨h - k - 1, by omega⟩
        have hexp : (j + 1) * 2 ^ (k + (d + 1)) = (2 * ((j + 1) * 2 ^ d)) * 2 ^ k := by ring
        have hcancel : idx + 1 = 2 * ((j + 1) * 2 ^ d) :=
          Nat.eq_of_mul_eq_mul_right (Nat.two_pow_pos k) (by omega)
        omega

namespace CMMR

variable {mmr : CMMR H}

/-- `Append` keeps the vector a prefix and its length predicted. -/
theorem append_extends (hok : mmr.SizeOk) (leaf : H) : (∃ pushed,
    (mmr.append hash leaf).vNodes = mmr.vNodes ++ pushed) ∧ (mmr.append hash leaf).SizeOk := by
  have hlen : (mmr.vNodes ++ [hash.hashLeaf leaf]).length = nodePos 0 mmr.nLeaves + 1 := by
    rw [length_append, hok, nodePos_zero_eq_count]
    rfl
  obtain ⟨⟨pushed, hpushed⟩, hcount⟩ := mergeLoop_extends hash (n := mmr.nLeaves) (k := 0) (by simp) hlen
  exact ⟨⟨hash.hashLeaf leaf :: pushed, by simp [append, hpushed]⟩, hcount⟩

theorem Represents.append {leaves : List H} (hrep : mmr.Represents hash leaves)
    (leaf : H) : (mmr.append hash leaf).Represents hash (leaves ++ [leaf]) := by
  refine ⟨by simp [CMMR.append, hrep.size], (append_extends hash hrep.count leaf).2, ?_⟩
  intro h j hj
  rw [length_append, length_singleton] at hj
  show (mergeLoop hash 0 mmr.nLeaves (mmr.vNodes ++ [hash.hashLeaf leaf]))[nodePos h j]? = _
  refine mergeLoop_nodes hash (n := leaves.length) (by simp [hrep.size]) ?_ ?_ h j hj
  · rw [length_append, hrep.count, nodePos_zero_eq_count]
    rfl
  · intro h' j' hcase
    rcases hcase with hle | ⟨hzero, heq⟩
    · have hold := hrep.nodes h' j' hle
      rw [getElem?_append_left (List.getElem?_eq_some_iff.mp hold).1, hold,
        perfectTree_append hash leaves [leaf] h' j' hle]
    · have hh : h' = 0 := by omega
      subst hh
      have hj' : j' = leaves.length := by simpa using heq
      have hcount := hrep.count
      rw [SizeOk, hrep.size, ← nodePos_zero_eq_count] at hcount
      subst hj'
      rw [← hcount, getElem?_concat_length]
      simp [perfectTree, MMRHash.digest, MTree.digest]

theorem represents_empty : (empty : CMMR H).Represents hash [] := by
  refine ⟨rfl, by simp [SizeOk, empty, nodeCountForLeaves], ?_⟩
  intro h j hj
  have hpos : 0 < (j + 1) * 2 ^ h := Nat.mul_pos (Nat.succ_pos j) (Nat.two_pow_pos h)
  simp only [length_nil] at hj
  omega

/-- **Run lemma of `Append`.**  Any sequence of appends to the empty range
represents exactly the appended list. -/
theorem represents_appendAll (leaves : List H) : (appendAll hash empty leaves).Represents hash leaves := by
  suffices hgen : ∀ (more done : List H) (mmr : CMMR H), mmr.Represents hash done →
      (appendAll hash mmr more).Represents hash (done ++ more) by
    simpa using hgen leaves [] empty (represents_empty hash)
  intro more
  induction more with
  | nil => intro done mmr hrep; simpa [appendAll] using hrep
  | cons leaf more ih =>
    intro done mmr hrep
    have := ih (done ++ [leaf]) (mmr.append hash leaf) (hrep.append hash leaf)
    simpa [appendAll] using this

theorem rewind_of_prefix {old new : CMMR H} {pushed : List H} (hold : old.SizeOk)
    (hvec : new.vNodes = old.vNodes ++ pushed) (hle : old.nLeaves ≤ new.nLeaves)
    (hsame : old.nLeaves = new.nLeaves → pushed = []) : new.rewind old.nLeaves = some old := by
  rw [rewind, if_neg (by omega)]
  by_cases heq : old.nLeaves = new.nLeaves
  · rw [if_pos heq]
    have hpushed := hsame heq
    cases old
    cases new
    simp_all
  · have hcount : nodeCountForLeaves old.nLeaves = old.vNodes.length := hold.symm
    rw [if_neg heq, hcount, if_neg (by simp [hvec]), hvec, take_left]

theorem appendAll_extends (hok : mmr.SizeOk) (leaves : List H) :
    (∃ pushed, (mmr.appendAll hash leaves).vNodes = mmr.vNodes ++ pushed) ∧
      (mmr.appendAll hash leaves).SizeOk ∧
      (mmr.appendAll hash leaves).nLeaves = mmr.nLeaves + leaves.length := by
  induction leaves generalizing mmr with
  | nil => exact ⟨⟨[], by simp [appendAll]⟩, hok, rfl⟩
  | cons leaf leaves ih =>
    obtain ⟨⟨first, hfirst⟩, hok'⟩ := append_extends hash hok leaf
    obtain ⟨⟨pushed, hpushed⟩, hok'', hcount⟩ := ih hok'
    refine ⟨⟨first ++ pushed, ?_⟩, hok'', ?_⟩
    · rw [← append_assoc, ← hfirst, ← hpushed]
      rfl
    · have hone : (mmr.append hash leaf).nLeaves = mmr.nLeaves + 1 := rfl
      rw [length_cons, appendAll, foldl_cons]
      rw [appendAll] at hcount
      omega

theorem rewind_appendAll (hok : mmr.SizeOk) (leaves : List H) :
    (mmr.appendAll hash leaves).rewind mmr.nLeaves = some mmr := by
  obtain ⟨⟨pushed, hpushed⟩, _, hcount⟩ := appendAll_extends hash hok leaves
  refine rewind_of_prefix hok hpushed (by omega) ?_
  intro hsame
  have hnil : leaves = [] := length_eq_zero_iff.mp (by omega)
  subst hnil
  simpa [appendAll] using hpushed

theorem SizeOk.rewind {mmr mmr' : CMMR H} (hok : mmr.SizeOk) {nTargetLeaves : Nat}
    (hrewind : mmr.rewind nTargetLeaves = some mmr') : mmr'.SizeOk := by
  simp only [CMMR.rewind] at hrewind
  split at hrewind
  · cases hrewind
  · split at hrewind
    · exact Option.some.inj hrewind ▸ hok
    · split at hrewind
      · cases hrewind
      · rename_i hcount
        rw [← Option.some.inj hrewind, SizeOk, length_take]
        exact Nat.min_eq_left (Nat.le_of_not_lt hcount)

end CMMR

/-!
## Rewinding a mountain range

`Append` and `Rewind` in any order.  What a range stands for is a list of leaves: `Append`
puts one behind it and `Rewind` cuts it off, and the range is at any time the one that its
list gives, node by node.
-/

/-- A call that changes a range. -/
inductive MmrCall (H : Type) where
  | append (leaf : H)
  | rewind (nTargetLeaves : Nat)

namespace CMMR

variable {H : Type} (hash : MMRHash H)

/-- The range after a call; where `Rewind` returns `false` it is as it was. -/
def perform (mmr : CMMR H) : MmrCall H → CMMR H
  | .append leaf => mmr.append hash leaf
  | .rewind nTargetLeaves => (mmr.rewind nTargetLeaves).getD mmr

/-- The leaves behind a call. -/
def leavesAfter (leaves : List H) : MmrCall H → List H
  | .append leaf => leaves ++ [leaf]
  | .rewind nTargetLeaves => leaves.take nTargetLeaves

theorem appendAll_append (front back : List H) :
    appendAll hash empty (front ++ back) = appendAll hash (appendAll hash empty front) back :=
  foldl_append

theorem nLeaves_appendAll (leaves : List H) : (appendAll hash empty leaves).nLeaves = leaves.length :=
  (represents_appendAll hash leaves).size

/-- **Rewinding to some of the leaves** gives the range of these leaves. -/
theorem rewind_take (leaves : List H) {nTargetLeaves : Nat} (hle : nTargetLeaves ≤ leaves.length) :
    (appendAll hash empty leaves).rewind nTargetLeaves =
      some (appendAll hash empty (leaves.take nTargetLeaves)) := by
  have hkept := represents_appendAll hash (leaves.take nTargetLeaves)
  have hsize : (appendAll hash empty (leaves.take nTargetLeaves)).nLeaves = nTargetLeaves := by
    rw [nLeaves_appendAll, length_take, Nat.min_eq_left hle]
  have hundo := rewind_appendAll hash hkept.count (leaves.drop nTargetLeaves)
  rwa [← appendAll_append, take_append_drop, hsize] at hundo

/-- More leaves than there are: nothing is cut off. -/
theorem rewind_refused (leaves : List H) {nTargetLeaves : Nat} (hlt : leaves.length < nTargetLeaves) :
    (appendAll hash empty leaves).rewind nTargetLeaves = none := by
  rw [rewind, nLeaves_appendAll, if_pos hlt]

/-- **One call** on the range of a list gives the range of the list behind the call. -/
theorem perform_appendAll (leaves : List H) (call : MmrCall H) :
    perform hash (appendAll hash empty leaves) call = appendAll hash empty (leavesAfter leaves call) := by
  cases call with
  | append leaf => exact (appendAll_append hash leaves [leaf]).symm
  | rewind nTargetLeaves =>
    rw [perform, leavesAfter]
    rcases Nat.lt_or_ge leaves.length nTargetLeaves with hlt | hle
    · rw [rewind_refused hash leaves hlt, take_of_length_le hlt.le, Option.getD_none]
    · rw [rewind_take hash leaves hle, Option.getD_some]

/-- **A run of calls** keeps the range that of its leaves. -/
theorem run_appendAll (calls : List (MmrCall H)) (leaves : List H) :
    calls.foldl (perform hash) (appendAll hash empty leaves) =
      appendAll hash empty (calls.foldl leavesAfter leaves) := by
  induction calls generalizing leaves with
  | nil => rfl
  | cons call calls ih =>
    rw [foldl_cons, foldl_cons, perform_appendAll]
    exact ih _

/-- **Rewinding is exact.**  After all leaves were appended, `Rewind` to the first ones
succeeds and leaves the range of a fresh one that got only these; and after any calls the
number of nodes is the one that `NodeCountForLeaves` gives. -/
theorem rewind_exact : (∀ (leaves : List H) (nTargetLeaves : Nat), nTargetLeaves ≤ leaves.length →
      (appendAll hash empty leaves).rewind nTargetLeaves =
        some (appendAll hash empty (leaves.take nTargetLeaves))) ∧ ∀ calls : List (MmrCall H),
      (calls.foldl (perform hash) empty).vNodes.length =
        nodeCountForLeaves (calls.foldl (perform hash) empty).nLeaves := by
  refine ⟨fun leaves _ hle => rewind_take hash leaves hle, fun calls => ?_⟩
  have hrun := run_appendAll hash calls []
  rw [show (empty : CMMR H) = appendAll hash empty [] from rfl, hrun]
  exact (represents_appendAll hash _).count

/-- Digests that are added up. -/
def summing : MMRHash Nat := ⟨id, Nat.add, 0⟩

theorem rewind_exact_summing :
    (appendAll summing empty [5, 6, 7]).rewind 2 = some (appendAll summing empty [5, 6]) :=
  (rewind_exact summing).1 [5, 6, 7] 2 (by decide)

end CMMR

end MaryJaneCoin
