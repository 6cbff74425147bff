import MaryJaneCoin.Mw.Mmr

/-!
# Node positions in a Merkle mountain range

The `j`-th node of height `h` covers the leaves `j * 2 ^ h` to
`(j + 1) * 2 ^ h - 1` and is pushed right after the last of them, so its
position has a closed form.  This file proves that `getHeight` and
`isLeftSibling`, which the source computes by stripping perfect trees from
the position, agree with that addressing: `getHeight` inverts `nodePos`, and a
node is a left sibling exactly when its index is even.
-/

namespace MaryJaneCoin

open Popcount

/-- Position of the `j`-th node of height `h`. -/
def nodePos (h j : Nat) : Nat :=
  (j + 1) * 2 ^ (h + 1) - 2 - popcount j

/-- The defining equation without truncated subtraction. -/
theorem nodePos_add (h j : Nat) : nodePos h j + popcount j + 2 = (j + 1) * 2 ^ (h + 1) := by
  have hle := popcount_le j
  have hpow : 2 ^ (h + 1) = 2 * 2 ^ h := by ring
  have hpos : 1 ≤ 2 ^ h := Nat.two_pow_pos h
  have hmul : (j + 1) * 2 ≤ (j + 1) * 2 ^ (h + 1) := Nat.mul_le_mul_left _ (by omega)
  simp only [nodePos]
  omega

/-- A leaf sits where `leafIndexToPos` says. -/
theorem nodePos_zero (j : Nat) : nodePos 0 j = leafIndexToPos j := by
  have h := nodePos_add 0 j
  have hle := popcount_le j
  simp only [leafIndexToPos]
  omega

theorem nodePos_right_sibling (h i : Nat) :
    nodePos h (2 * i + 1) = nodePos h (2 * i) + (2 ^ (h + 1) - 1) := by
  have hl := nodePos_add h (2 * i)
  have hr := nodePos_add h (2 * i + 1)
  have hpos : 1 ≤ 2 ^ (h + 1) := Nat.two_pow_pos (h + 1)
  have hexp : (2 * i + 1 + 1) * 2 ^ (h + 1) = (2 * i + 1) * 2 ^ (h + 1) + 2 ^ (h + 1) := by ring
  simp only [popcount_two_mul, popcount_two_mul_add_one] at hl hr
  omega

/-- A parent is pushed right behind its right child. -/
theorem nodePos_parent (h i : Nat) : nodePos (h + 1) i = nodePos h (2 * i + 1) + 1 := by
  have hp := nodePos_add (h + 1) i
  have hr := nodePos_add h (2 * i + 1)
  have hexp : (i + 1) * 2 ^ (h + 1 + 1) = (2 * i + 1 + 1) * 2 ^ (h + 1) := by ring
  simp only [popcount_two_mul_add_one] at hr
  omega

/-- Nodes of one height appear in order, with at least a subtree between
consecutive ones. -/
theorem nodePos_lt_succ (h j : Nat) : nodePos h j + (2 ^ (h + 1) - 1) ≤ nodePos h (j + 1) := by
  have hj := nodePos_add h j
  have hj' := nodePos_add h (j + 1)
  have hpos : 1 ≤ 2 ^ (h + 1) := Nat.two_pow_pos (h + 1)
  have hexp : (j + 1 + 1) * 2 ^ (h + 1) = (j + 1) * 2 ^ (h + 1) + 2 ^ (h + 1) := by ring
  have hcount : popcount (j + 1) ≤ popcount j + 1 := by
    induction j using Nat.strongRecOn with
    | ind j ih =>
      rcases Nat.even_or_odd' j with ⟨i, rfl | rfl⟩
      · simp
      · have hnext : 2 * i + 1 + 1 = 2 * (i + 1) := by ring
        have := ih i (by omega) (nodePos_add h i) (nodePos_add h (i + 1)) (by ring)
        rw [hnext, popcount_two_mul, popcount_two_mul_add_one]
        omega
  omega

theorem nodePos_strictMono (h : Nat) : StrictMono (nodePos h) := by
  apply strictMono_nat_of_lt_succ
  intro j
  have hstep := nodePos_lt_succ h j
  have hpow : 2 ^ (h + 1) = 2 * 2 ^ h := by ring
  have hpos : 1 ≤ 2 ^ h := Nat.two_pow_pos h
  omega

/-- `allOnesBelow` is determined by its bracket. -/
theorem allOnesBelow_eq {n b : Nat} (hlo : 2 ^ b - 1 ≤ n) (hhi : n < 2 ^ (b + 1) - 1)
    (hn : n ≠ 0) : allOnesBelow n = 2 ^ b - 1 := by
  have hpow : 2 ^ (b + 1) = 2 * 2 ^ b := by ring
  have hpos : 0 < 2 ^ b := Nat.two_pow_pos b
  simp only [allOnesBelow, if_neg hn]
  by_cases hfull : n = 2 ^ b - 1
  · -- `n` is all ones already: its bit length is `b` and the first test succeeds
    cases b with
    | zero => simp_all
    | succ b =>
      have hpow' : 2 ^ (b + 1) = 2 * 2 ^ b := by ring
      have hpos' : 0 < 2 ^ b := Nat.two_pow_pos b
      have hlen : bitLength n = b + 1 := bitLength_eq (by omega) (by omega)
      rw [hlen, if_pos (by omega)]
  · have hlen : bitLength n = b + 1 := bitLength_eq (by omega) (by omega)
    rw [hlen, if_neg (by omega), Nat.add_sub_cancel]

/-- Stripping the leading tree: `j` with leading bit `2 ^ b` loses that bit. -/
theorem nodePos_strip {h b i : Nat} (hi : i < 2 ^ b) :
    nodePos h (2 ^ b + i) = nodePos h i + (2 ^ (b + h + 1) - 1) := by
  have hbig := nodePos_add h (2 ^ b + i)
  have hsmall := nodePos_add h i
  have hone : popcount 1 = 1 := by
    have := popcount_two_mul_add_one 0
    simpa using this
  have hcount : popcount (2 ^ b + i) = popcount i + 1 := by
    have := popcount_aligned_add 1 i b hi
    rw [Nat.one_mul, hone] at this
    omega
  have hexp : (2 ^ b + i + 1) * 2 ^ (h + 1) = 2 ^ (b + h + 1) + (i + 1) * 2 ^ (h + 1) := by ring
  have hpos : 1 ≤ 2 ^ (b + h + 1) := Nat.two_pow_pos _
  omega

theorem allOnesBelow_nodePos {h b i : Nat} (hi : i < 2 ^ b) :
    allOnesBelow (nodePos h (2 ^ b + i) + 1) = 2 ^ (b + h + 1) - 1 := by
  have hstrip := nodePos_strip (h := h) hi
  have hsmall := nodePos_add h i
  have hpow : 2 ^ (b + h + 1 + 1) = 2 * 2 ^ (b + h + 1) := by ring
  have hpos : 1 ≤ 2 ^ (b + h + 1) := Nat.two_pow_pos _
  have hbound : (i + 1) * 2 ^ (h + 1) ≤ 2 ^ b * 2 ^ (h + 1) := Nat.mul_le_mul_right _ (by omega)
  have hexp : 2 ^ b * 2 ^ (h + 1) = 2 ^ (b + h + 1) := by ring
  exact allOnesBelow_eq (by omega) (by omega) (by omega)

/-- **`GetHeight` is right.**  The node addressed by `(h, j)` has height `h`. -/
theorem getHeight_nodePos (h j : Nat) : getHeight (nodePos h j) = h := by
  induction j using Nat.strongRecOn with
  | ind j ih =>
    by_cases hj : j = 0
    · -- the first node of height `h` closes the first perfect tree
      have hpos := nodePos_add h 0
      have hpow : 2 ^ (h + 1) = 2 * 2 ^ h := by ring
      have hone : 1 ≤ 2 ^ h := Nat.two_pow_pos h
      have hval : nodePos h 0 + 1 = 2 ^ (h + 1) - 1 := by
        simp only [popcount_zero] at hpos
        omega
      have hall : allOnesBelow (2 ^ (h + 1) - 1) = 2 ^ (h + 1) - 1 :=
        allOnesBelow_eq (b := h + 1) le_rfl (by rw [Nat.pow_succ 2 (h + 1)]; omega) (by omega)
      have hlen : bitLength (2 ^ (h + 1) - 1) = h + 1 := bitLength_eq (by omega) (by omega)
      rw [hj, getHeight, hval, getHeightLoop, if_neg (by omega), if_pos hall.symm, hlen, Nat.add_sub_cancel]
    · obtain ⟨b, hlo, hhi⟩ := exists_bracket hj
      obtain ⟨i, rfl⟩ : ∃ i, j = 2 ^ b + i := ⟨j - 2 ^ b, by omega⟩
      have hpow : 2 ^ (b + 1) = 2 * 2 ^ b := by ring
      have hi : i < 2 ^ b := by omega
      have hstrip := nodePos_strip (h := h) hi
      have hall := allOnesBelow_nodePos (h := h) hi
      have hpos : 1 ≤ 2 ^ (b + h + 1) := Nat.two_pow_pos _
      have hrest : nodePos h (2 ^ b + i) + 1 - (2 ^ (b + h + 1) - 1) = nodePos h i + 1 := by
        omega
      rw [getHeight, getHeightLoop, if_neg (by omega), hall, if_neg (by omega), hrest]
      exact ih i (by have := Nat.two_pow_pos b; omega)

/-- Putting a perfect tree of `2 ^ c - 1` nodes in front of a shorter prefix
keeps every node of that prefix addressed. -/
theorem nodePos_prepend {h i c : Nat} (hlt : nodePos h i + 2 ≤ 2 ^ c) :
    ∃ j, nodePos h i + (2 ^ c - 1) = nodePos h j := by
  have hzero := nodePos_add h 0
  simp only [popcount_zero, Nat.zero_add, Nat.one_mul] at hzero
  have hmono := (nodePos_strictMono h).monotone
  have hpow : 2 ^ (h + 1) ≤ 2 ^ c := by
    have := hmono (Nat.zero_le i)
    omega
  obtain ⟨b, rfl⟩ : ∃ b, c = b + h + 1 := by
    have := (Nat.pow_le_pow_iff_right (a := 2) (by decide)).mp hpow
    exact ⟨c - h - 1, by omega⟩
  have hi : i < 2 ^ b := by
    by_contra hnot
    have hge := hmono (Nat.le_of_not_lt hnot)
    have hstrip := nodePos_strip (h := h) (b := b) (i := 0) (Nat.two_pow_pos b)
    rw [Nat.add_zero] at hstrip
    omega
  exact ⟨2 ^ b + i, (nodePos_strip hi).symm⟩

/-- When a position does not close a perfect tree, the leading tree found by
`allOnesBelow` brackets it. -/
theorem allOnesBelow_bracket {n : Nat} (hn : n ≠ 0) (hfull : n ≠ allOnesBelow n) :
    ∃ c, allOnesBelow n = 2 ^ c - 1 ∧ 2 ^ c ≤ n ∧ n + 1 < 2 ^ (c + 1) := by
  obtain ⟨c, hlo, hhi⟩ := exists_bracket hn
  have hlt : n < 2 ^ (c + 1) - 1 := by
    by_contra hnot
    apply hfull
    have hval : n = 2 ^ (c + 1) - 1 := by omega
    rw [hval]
    exact (allOnesBelow_eq (b := c + 1) le_rfl (by rw [Nat.pow_succ 2 (c + 1)]; omega) (by omega)).symm
  exact ⟨c, allOnesBelow_eq (by omega) hlt hn, hlo, by omega⟩

theorem exists_nodePos_of_getHeight (p : Nat) : ∃ j, p = nodePos (getHeight p) j := by
  induction p using Nat.strongRecOn with
  | ind p ih =>
    by_cases hfull : p + 1 = allOnesBelow (p + 1)
    · refine ⟨0, ?_⟩
      have hheight : getHeight p = bitLength (p + 1) - 1 := by
        rw [getHeight, getHeightLoop, if_neg (by omega), if_pos hfull]
      obtain ⟨b, hlo, hhi⟩ := exists_bracket (n := p + 1) (by omega)
      have hlen : bitLength (p + 1) = b + 1 := bitLength_eq hlo hhi
      have hpow : 2 ^ (b + 1) = 2 * 2 ^ b := by ring
      have hval : p + 1 = 2 ^ (b + 1) - 1 := by
        by_contra hne
        have := allOnesBelow_eq (n := p + 1) (b := b) (by omega) (by omega) (by omega)
        omega
      have hnode := nodePos_add b 0
      simp only [popcount_zero] at hnode
      rw [hheight, hlen, Nat.add_sub_cancel]
      omega
    · obtain ⟨c, hall, hlo, hhi⟩ := allOnesBelow_bracket (n := p + 1) (by omega) hfull
      have hpow : 2 ^ (c + 1) = 2 * 2 ^ c := by ring
      have hpos : 1 < 2 ^ c := by
        have := allOnesBelow_pos (n := p + 1) (by omega)
        omega
      -- `q` is the position inside what follows the leading tree
      obtain ⟨q, hq⟩ : ∃ q, p + 1 = q + (2 ^ c - 1) + 1 := ⟨p - (2 ^ c - 1), by omega⟩
      have hheight : getHeight p = getHeight q := by
        rw [getHeight, getHeightLoop, if_neg (by omega), if_neg hfull, hall, getHeight]
        congr 1
        omega
      obtain ⟨i, hi⟩ := ih q (by omega)
      obtain ⟨j, hj⟩ := nodePos_prepend (h := getHeight q) (i := i) (c := c) (by omega)
      exact ⟨j, by rw [hheight]; omega⟩

/-- **`IsLeftSibling` is right.**  Left siblings are the nodes of even index. -/
theorem isLeftSibling_nodePos (h j : Nat) : isLeftSibling (nodePos h j) = decide (j % 2 = 0) := by
  simp only [isLeftSibling, getHeight_nodePos, beq_eq_decide]
  rcases Nat.even_or_odd' j with ⟨i, rfl | rfl⟩
  · rw [← nodePos_right_sibling, getHeight_nodePos]
    simp
  · -- the position one subtree to the right lies strictly between two
    -- consecutive nodes of height `h`
    have hgap : nodePos h (2 * i + 1) + (2 ^ (h + 1) - 1) < nodePos h (2 * i + 1 + 1) := by
      have hnext : 2 * i + 1 + 1 = 2 * (i + 1) := by ring
      have hstep := nodePos_lt_succ (h + 1) i
      have hpar := nodePos_parent h i
      have hpar' := nodePos_parent h (i + 1)
      have hsib := nodePos_right_sibling h (i + 1)
      have hpow : 2 ^ (h + 1 + 1) = 2 * 2 ^ (h + 1) := by ring
      have hpos : 1 ≤ 2 ^ (h + 1) := Nat.two_pow_pos _
      rw [hnext]
      omega
    have hne : getHeight (nodePos h (2 * i + 1) + (2 ^ (h + 1) - 1)) ≠ h := by
      intro hheight
      obtain ⟨k, hk⟩ := exists_nodePos_of_getHeight (nodePos h (2 * i + 1) + (2 ^ (h + 1) - 1))
      rw [hheight] at hk
      have hpow : 2 ^ (h + 1) = 2 * 2 ^ h := by ring
      have hpos : 1 ≤ 2 ^ h := Nat.two_pow_pos h
      have hlo : 2 * i + 1 < k := (nodePos_strictMono h).lt_iff_lt.mp (by omega)
      have hhi : k < 2 * i + 1 + 1 := (nodePos_strictMono h).lt_iff_lt.mp (by omega)
      omega
    simp [hne]

end MaryJaneCoin
