import MaryJaneCoin.Mw.MmrRoot

/-!
# The addresses of a Merkle mountain range

Where `Append` puts the nodes, and what `LeafIndexToPos`, `GetHeight`, `IsLeftSibling` and
`GetPeaks` say about it.
-/

namespace MaryJaneCoin

open Popcount List Nat

/-- Node `(h, j)` is complete: all of its leaves have been appended. -/
def Complete (n h j : Nat) : Prop := (j + 1) * 2 ^ h ≤ n

/-- The complete node has no complete parent. -/
def Maximal (n h j : Nat) : Prop := Complete n h j ∧ ¬Complete n (h + 1) (j / 2)

variable {n h j : Nat}

theorem complete_iff : Complete n h j ↔ j < n / 2 ^ h :=
  (Nat.le_div_iff_mul_le (Nat.two_pow_pos h)).symm

/-- There is one maximal node of a height at most: it ends where the bit of the height stands. -/
theorem maximal_iff : Maximal n h j ↔ n / 2 ^ h % 2 = 1 ∧ j + 1 = n / 2 ^ h := by
  have hhalf : n / 2 ^ (h + 1) = n / 2 ^ h / 2 := by rw [Nat.pow_succ, Nat.div_div_eq_div_mul]
  rw [Maximal, complete_iff, complete_iff, hhalf]
  omega

theorem nodePos_last_leaf (h j : Nat) : nodePos 0 ((j + 1) * 2 ^ h - 1) ≤ nodePos h j := by
  induction h generalizing j with
  | zero => simp
  | succ h ih =>
    have hexp : (j + 1) * 2 ^ (h + 1) = (2 * j + 1 + 1) * 2 ^ h := by ring
    rw [hexp, nodePos_parent]
    exact le_succ_of_le (ih (2 * j + 1))

theorem popcount_succ_le (j : Nat) : popcount (j + 1) ≤ popcount j + 1 := by
  have hstep := nodePos_lt_succ 0 j
  have hj := nodePos_add 0 j
  have hj' := nodePos_add 0 (j + 1)
  omega

/-- A node stands before all leaves that come after its own. -/
theorem nodePos_lt_next (h j : Nat) : nodePos h j < nodePos 0 ((j + 1) * 2 ^ h) := by
  have hnode := nodePos_add h j
  have hnext := nodePos_add 0 ((j + 1) * 2 ^ h)
  have hcount := popcount_succ_le j
  have hexp : (j + 1) * 2 ^ (h + 1) = 2 * ((j + 1) * 2 ^ h) := by ring
  rw [popcount_mul_two_pow] at hnext
  omega

theorem nodePos_lt_iff : nodePos h j < nodePos 0 n ↔ Complete n h j := by
  constructor
  · intro hlt
    by_contra hnot
    rw [Complete] at hnot
    have hlast := nodePos_last_leaf h j
    have hmono := (nodePos_strictMono 0).monotone (show n ≤ (j + 1) * 2 ^ h - 1 by omega)
    omega
  · intro hcomplete
    exact Nat.lt_of_lt_of_le (nodePos_lt_next h j) ((nodePos_strictMono 0).monotone hcomplete)

theorem mem_mountains {k offset remaining h j : Nat} (hdvd : 2 ^ k ∣ offset)
    (hlt : remaining < 2 ^ k) : (h, j) ∈ mountains k offset remaining ↔
      h < k ∧ remaining / 2 ^ h % 2 = 1 ∧ j + 1 = (offset + remaining) / 2 ^ h := by
  induction k generalizing offset remaining with
  | zero => simp [mountains]
  | succ k ih =>
    obtain ⟨-, -, -, hdvd', hdvd''⟩ := aligned_round hdvd
    have hpow : 2 ^ (k + 1) = 2 * 2 ^ k := by ring
    rw [mountains]
    by_cases hbit : 2 ^ k ≤ remaining
    · have hsum : offset + 2 ^ k + (remaining - 2 ^ k) = offset + remaining := by omega
      have hleft : remaining - 2 ^ k < 2 ^ k := by omega
      rw [if_pos hbit, List.mem_cons, ih hdvd'' hleft, hsum, Prod.mk.injEq]
      by_cases hh : h = k
      · -- The bit of this height is set.
        subst hh
        have hone : remaining / 2 ^ h = 1 := Nat.div_eq_of_lt_le (by omega) (by omega)
        obtain ⟨q, rfl⟩ := hdvd'
        have hquot : (2 ^ h * q + remaining) / 2 ^ h = q + 1 := by
          rw [mul_add_div (Nat.two_pow_pos h), hone]
        rw [hquot, hone, Nat.mul_div_cancel_left _ (Nat.two_pow_pos h)]
        omega
      · -- The bits of the lower heights are those of what is left.
        have hodd : h < k → (remaining - 2 ^ k) / 2 ^ h % 2 = remaining / 2 ^ h % 2 := by
          intro hlow
          obtain ⟨d, rfl⟩ : ∃ d, k = h + (d + 1) := ⟨k - h - 1, by omega⟩
          have hexp : 2 ^ (h + (d + 1)) = 2 ^ h * (2 * 2 ^ d) := by ring
          obtain ⟨left, rfl⟩ := Nat.exists_eq_add_of_le (hexp ▸ hbit)
          rw [hexp, Nat.add_sub_cancel_left, mul_add_div (Nat.two_pow_pos h), mul_add_mod]
        have hlt' : h < k + 1 ↔ h < k := by omega
        rw [hlt']
        constructor
        · rintro (⟨rfl, -⟩ | ⟨hlow, hset, hj⟩)
          · exact absurd rfl hh
          · exact ⟨hlow, hodd hlow ▸ hset, hj⟩
        · rintro ⟨hlow, hset, hj⟩
          exact .inr ⟨hlow, (hodd hlow).symm ▸ hset, hj⟩
    · have hzero : remaining / 2 ^ k = 0 := div_eq_of_lt (by omega)
      rw [if_neg hbit, ih hdvd' (by omega)]
      constructor
      · rintro ⟨hlow, hrest⟩
        exact ⟨by omega, hrest⟩
      · rintro ⟨hlow, hset, hj⟩
        refine ⟨?_, hset, hj⟩
        by_contra hnot
        obtain rfl : h = k := by omega
        omega

theorem mem_mountains_zero (hlt : n < 2 ^ 64) : (h, j) ∈ mountains 64 0 n ↔ Maximal n h j := by
  rw [mem_mountains (Nat.dvd_zero _) hlt, maximal_iff, Nat.zero_add, and_iff_right_of_imp]
  rintro ⟨hset, -⟩
  by_contra hhigh
  have hle : 2 ^ 64 ≤ 2 ^ h := Nat.pow_le_pow_right (by decide) (Nat.le_of_not_lt hhigh)
  rw [div_eq_of_lt (Nat.lt_of_lt_of_le hlt hle)] at hset
  cases hset

/-- The mountains stand from left to right. -/
theorem mountains_pairwise {k offset remaining : Nat} (hdvd : 2 ^ k ∣ offset) :
    (mountains k offset remaining).Pairwise fun m m' => nodePos m.1 m.2 < nodePos m'.1 m'.2 := by
  induction k generalizing offset remaining with
  | zero => exact List.Pairwise.nil
  | succ k ih =>
    obtain ⟨-, -, -, hdvd', hdvd''⟩ := aligned_round hdvd
    rw [mountains]
    split
    · refine pairwise_cons.mpr ⟨?_, ih hdvd''⟩
      intro m hm
      have hbehind := (mountains_bounds k _ _ hdvd'' m hm).1
      have hend : (offset / 2 ^ k + 1) * 2 ^ k = offset + 2 ^ k := by
        rw [Nat.add_mul, Nat.div_mul_cancel hdvd', Nat.one_mul]
      have hnext := nodePos_lt_next k (offset / 2 ^ k)
      have hpos := Nat.two_pow_pos m.1
      have hwidth : (m.2 + 1) * 2 ^ m.1 = m.2 * 2 ^ m.1 + 2 ^ m.1 := by ring
      have hmono := (nodePos_strictMono 0).monotone
        (show (offset / 2 ^ k + 1) * 2 ^ k ≤ (m.2 + 1) * 2 ^ m.1 - 1 by omega)
      exact Nat.lt_of_lt_of_le hnext (Nat.le_trans hmono (nodePos_last_leaf m.1 m.2))
    · exact ih hdvd'

namespace CMMR

variable {H : Type} (hash : MMRHash H) (leaves : List H)

/-- After the leaves are appended, node `(h, j)` stands at a position. -/
structure Stored (nPos h j : Nat) : Prop where
  complete : Complete leaves.length h j
  position : nPos = nodePos h j
  node : (appendAll hash empty leaves).vNodes[nPos]? = some (hash.digest (perfectTree hash leaves h j))

variable {leaves}

theorem stored_of_complete {h j : Nat} (hcomplete : Complete leaves.length h j) :
    Stored hash leaves (nodePos h j) h j :=
  ⟨hcomplete, rfl, (represents_appendAll hash leaves).nodes h j hcomplete⟩

/-- What has been appended so far ends where the next leaf goes. -/
theorem length_appendAll (leaves : List H) :
    (appendAll hash empty leaves).vNodes.length = leafIndexToPos leaves.length := by
  have hrep := represents_appendAll hash leaves
  rw [hrep.count, hrep.size, ← nodePos_zero_eq_count, nodePos_zero]

/-- **The functions on positions describe what `Append` has built.**  A leaf goes to its place
behind the nodes before it and stays there; every position is that of a node, of the height that
`GetHeight` gives, and a left child exactly when `IsLeftSibling` says so; and `GetPeaks` lists the
maximal nodes from left to right. -/
theorem addresses (leaves : List H) (hfew : leaves.length < 2 ^ 62) : (∀ (i : Nat) (hi : i < leaves.length),
      (appendAll hash empty (leaves.take i)).vNodes.length = leafIndexToPos i ∧
        (appendAll hash empty leaves).vNodes[leafIndexToPos i]? = some (hash.hashLeaf leaves[i])) ∧
    (∀ nPos < (appendAll hash empty leaves).vNodes.length, ∃ h j, Stored hash leaves nPos h j) ∧
    (∀ nPos h j, Stored hash leaves nPos h j →
      getHeight nPos = h ∧ (isLeftSibling nPos = true ↔ ∃ parent, j = 2 * parent)) ∧
    (appendAll hash empty leaves).getPeaks.Pairwise (· < ·) ∧
    ∀ nPos, nPos ∈ (appendAll hash empty leaves).getPeaks ↔
      ∃ h j, Stored hash leaves nPos h j ∧ ¬Complete leaves.length (h + 1) (j / 2) := by
  have hrep := represents_appendAll hash leaves
  refine ⟨?_, ?_, ?_, ?_, ?_⟩
  · intro i hi
    constructor
    · rw [length_appendAll, List.length_take_of_le (Nat.le_of_lt hi)]
    · have hleaf := hrep.nodes 0 i (by omega)
      rw [nodePos_zero] at hleaf
      rw [hleaf, perfectTree, List.getD_eq_getElem _ _ hi]
      rfl
  · intro nPos hlt
    obtain ⟨j, hj⟩ := exists_nodePos_of_getHeight nPos
    rw [length_appendAll, ← nodePos_zero] at hlt
    generalize getHeight nPos = h at hj
    subst hj
    exact ⟨h, j, stored_of_complete hash (nodePos_lt_iff.mp hlt)⟩
  · rintro _ h j ⟨-, rfl, -⟩
    refine ⟨getHeight_nodePos h j, ?_⟩
    rw [isLeftSibling_nodePos, decide_eq_true_eq]
    exact ⟨fun heven => ⟨j / 2, by omega⟩, by rintro ⟨parent, rfl⟩; omega⟩
  · rw [hrep.getPeaks_eq, List.pairwise_map]
    exact mountains_pairwise (Nat.dvd_zero _)
  · intro nPos
    have hwide : leaves.length < 2 ^ 64 := Nat.lt_trans hfew (by decide)
    rw [hrep.getPeaks_eq, List.mem_map]
    constructor
    · rintro ⟨⟨h, j⟩, hmem, rfl⟩
      obtain ⟨hcomplete, htop⟩ := (mem_mountains_zero hwide).mp hmem
      exact ⟨h, j, stored_of_complete hash hcomplete, htop⟩
    · rintro ⟨h, j, ⟨hcomplete, rfl, -⟩, htop⟩
      exact ⟨(h, j), (mem_mountains_zero hwide).mpr ⟨hcomplete, htop⟩, rfl⟩

/-- Three leaves: the last node is a leaf of its own. -/
theorem addresses_three : (appendAll symbolic empty [.raw 5, .raw 6, .raw 7]).getPeaks.Pairwise (· < ·) :=
  (addresses symbolic [.raw 5, .raw 6, .raw 7] (by decide)).2.2.2.1

end CMMR

end MaryJaneCoin
