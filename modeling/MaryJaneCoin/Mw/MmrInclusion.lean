import MaryJaneCoin.Mw.MmrRoot

/-!
# Which inclusion proofs of a Merkle mountain range verify

`GetProof` climbs from the leaf to the top of its mountain and then lists the
other peaks: those to the right one by one from the outside in, those to the
left from the inside out.  `GetRoot` however hashes the peaks to the right
into one bag first.  The two agree when at most one peak lies to the right,
and, with ideal hashing, in no other case (`CMMR.verifyProof_getProof`).
-/

namespace MaryJaneCoin

open Popcount HashTree List Nat

/-- Number of set bits of the leaf count below the highest bit in which it
differs from the leaf index. -/
def rightPeakCount (nLeaves nLeafIndex : Nat) : Nat :=
  popcount (nLeaves % 2 ^ Nat.log2 (nLeaves ^^^ nLeafIndex))

/-- There are as many mountains as set bits. -/
theorem mountains_length (k : Nat) : ∀ offset remaining, remaining < 2 ^ k →
    (mountains k offset remaining).length = popcount remaining := by
  induction k with
  | zero =>
    intro offset remaining hlt
    have : remaining = 0 := by simpa using hlt
    simp [mountains, this]
  | succ h ih =>
    intro offset remaining hlt
    have hpow : 2 ^ (h + 1) = 2 * 2 ^ h := by ring
    simp only [mountains]
    by_cases hbit : 2 ^ h ≤ remaining
    · have hsplit : remaining = 1 * 2 ^ h + (remaining - 2 ^ h) := by omega
      rw [if_pos hbit, length_cons, ih _ _ (by omega)]
      conv_rhs => rw [hsplit, popcount_aligned_add 1 _ h (by omega), popcount_one]
      omega
    · rw [if_neg hbit]
      exact ih _ _ (by omega)

/-- The highest bit in which `n` and `i` differ, from the shape of the two. -/
theorem log2_xor_eq {a h r s : Nat} (hr : r < 2 ^ h) (hs : s < 2 ^ h) :
    Nat.log2 ((a * 2 ^ (h + 1) + (2 ^ h + r)) ^^^ (a * 2 ^ (h + 1) + s)) = h := by
  have hpow : 2 ^ (h + 1) = 2 * 2 ^ h := by ring
  generalize hn : a * 2 ^ (h + 1) + (2 ^ h + r) = n
  generalize hi : a * 2 ^ (h + 1) + s = i
  have hnhigh : n / 2 ^ (h + 1) = a := by
    rw [← hn, Nat.add_comm, add_mul_div_right _ _ (Nat.two_pow_pos _),
      div_eq_of_lt (by omega), Nat.zero_add]
  have hihigh : i / 2 ^ (h + 1) = a := by
    rw [← hi, Nat.add_comm, add_mul_div_right _ _ (Nat.two_pow_pos _),
      div_eq_of_lt (by omega), Nat.zero_add]
  have hnbit : n / 2 ^ h = 2 * a + 1 := by
    have hexp : n = (2 * a + 1) * 2 ^ h + r := by rw [← hn]; ring
    rw [hexp, Nat.add_comm, add_mul_div_right _ _ (Nat.two_pow_pos _), div_eq_of_lt hr, Nat.zero_add]
  have hibit : i / 2 ^ h = 2 * a := by
    have hexp : i = 2 * a * 2 ^ h + s := by rw [← hi]; ring
    rw [hexp, Nat.add_comm, add_mul_div_right _ _ (Nat.two_pow_pos _), div_eq_of_lt hs, Nat.zero_add]
  have hbit : (n ^^^ i).testBit h = true := by
    rw [testBit_xor, testBit_eq_decide_div_mod_eq, testBit_eq_decide_div_mod_eq, hnbit, hibit]
    have h1 : (2 * a + 1) % 2 = 1 := by omega
    have h2 : 2 * a % 2 = 0 := by omega
    simp [h1, h2]
  have hlow : 2 ^ h ≤ n ^^^ i := ge_two_pow_of_testBit hbit
  have hhigh : n ^^^ i < 2 ^ (h + 1) := by
    have hshift : (n ^^^ i) / 2 ^ (h + 1) = 0 := by
      rw [← shiftRight_eq_div_pow, shiftRight_xor_distrib, shiftRight_eq_div_pow,
        shiftRight_eq_div_pow, hnhigh, hihigh, Nat.xor_self]
    exact (div_eq_zero_iff_lt (Nat.two_pow_pos _)).mp hshift
  have hne : n ^^^ i ≠ 0 := by
    have := Nat.two_pow_pos h
    omega
  exact (log2_eq_iff hne).mpr ⟨hlow, hhigh⟩

theorem exists_mountain (k : Nat) : ∀ offset remaining i counter, 2 ^ k ∣ offset →
    remaining < 2 ^ k → offset ≤ i → i < offset + remaining →
    ∃ left h right, mountains k offset remaining = left ++ (h, i / 2 ^ h) :: right ∧
      myPeakIdxLoop i k remaining offset counter = some (counter + left.length) ∧
      right.length = rightPeakCount (offset + remaining) i ∧ h < k := by
  induction k with
  | zero => intro offset remaining i counter _ hlt hlo hhi; simp at hlt; omega
  | succ h ih =>
    intro offset remaining i counter hdvd hlt hlo hhi
    obtain ⟨a, hoff, hdiv, hdvd', hdvd''⟩ := aligned_round hdvd
    have hpow : 2 ^ (h + 1) = 2 * 2 ^ h := by ring
    simp only [mountains, myPeakIdxLoop]
    by_cases hbit : 2 ^ h ≤ remaining
    · by_cases hmine : i < offset + 2 ^ h
      · -- the leaf is below the mountain of this round
        have hidx : i / 2 ^ h = offset / 2 ^ h := by
          have hi : i = i - offset + 2 * a * 2 ^ h := by
            have : 2 * a * 2 ^ h = a * 2 ^ (h + 1) := by ring
            omega
          rw [hdiv, hi, add_mul_div_right _ _ (Nat.two_pow_pos h),
            div_eq_of_lt (by omega), Nat.zero_add]
        refine ⟨[], h, mountains h (offset + 2 ^ h) (remaining - 2 ^ h), ?_, ?_, ?_, by omega⟩
        · rw [if_pos hbit, hidx]
          rfl
        · rw [if_pos hbit, if_pos ⟨hlo, hmine⟩]
          rfl
        · have hn : offset + remaining = a * 2 ^ (h + 1) + (2 ^ h + (remaining - 2 ^ h)) := by
            omega
          have hi : i = a * 2 ^ (h + 1) + (i - offset) := by omega
          have hlog : Nat.log2 ((offset + remaining) ^^^ i) = h := by
            rw [hn, hi]
            exact log2_xor_eq (by omega) (by omega)
          have hmod : (offset + remaining) % 2 ^ h = remaining - 2 ^ h := by
            have hexp : offset + remaining = remaining - 2 ^ h + 2 ^ h * (2 * a + 1) := by
              rw [hn]; ring
            rw [hexp, add_mul_mod_self_left, mod_eq_of_lt (by omega)]
          rw [rightPeakCount, hlog, hmod, mountains_length h _ _ (by omega)]
      · obtain ⟨left, g, right, hms, hidx, hcount, hg⟩ := ih (offset + 2 ^ h) (remaining - 2 ^ h) i
          (counter + 1) hdvd'' (by omega) (by omega) (by omega)
        refine ⟨(h, offset / 2 ^ h) :: left, g, right, ?_, ?_, ?_, by omega⟩
        · rw [if_pos hbit, hms]
          rfl
        · rw [if_pos hbit, if_neg (by omega), hidx, length_cons]
          congr 1
          omega
        · rw [hcount]
          congr 1
          omega
    · obtain ⟨left, g, right, hms, hidx, hcount, hg⟩ := ih offset remaining i counter hdvd' (by omega) hlo hhi
      exact ⟨left, g, right, by rw [if_neg hbit, hms], by rw [if_neg hbit, hidx], hcount, by omega⟩

/-- Node addresses are determined by positions. -/
theorem nodePos_inj {h h' j j' : Nat} (heq : nodePos h j = nodePos h' j') : h = h' ∧ j = j' := by
  have hh : h = h' := by
    rw [← getHeight_nodePos h j, heq, getHeight_nodePos]
  subst hh
  exact ⟨rfl, (nodePos_strictMono h).injective heq⟩

theorem mountain_unique (k : Nat) : ∀ offset remaining i, 2 ^ k ∣ offset →
    ∀ h h', (h, i / 2 ^ h) ∈ mountains k offset remaining →
      (h', i / 2 ^ h') ∈ mountains k offset remaining → h = h' := by
  induction k with
  | zero => intro offset remaining i _ h h' hm; simp [mountains] at hm
  | succ g ih =>
    intro offset remaining i hdvd h h' hm hm'
    obtain ⟨a, hoff, hdiv, hdvd', hdvd''⟩ := aligned_round hdvd
    simp only [mountains] at hm hm'
    -- a mountain further right does not cover the leaves of the first one
    have hlater : ∀ e, i / 2 ^ g = offset / 2 ^ g →
        (e, i / 2 ^ e) ∉ mountains g (offset + 2 ^ g) (remaining - 2 ^ g) := by
      intro e hidx hmem
      have hbound := (mountains_bounds g _ _ hdvd'' _ hmem).1
      have hle : i / 2 ^ e * 2 ^ e ≤ i := div_mul_le_self i (2 ^ e)
      have hlt : i < (i / 2 ^ g + 1) * 2 ^ g := by
        rw [Nat.add_mul, Nat.one_mul, Nat.mul_comm]
        have := div_add_mod i (2 ^ g)
        have := mod_lt i (Nat.two_pow_pos g)
        omega
      have hfst : offset / 2 ^ g * 2 ^ g = offset := Nat.div_mul_cancel hdvd'
      rw [hidx, Nat.add_mul, hfst] at hlt
      simp only at hbound
      omega
    split at hm
    · rename_i hbit
      rw [if_pos hbit] at hm'
      rcases List.mem_cons.mp hm with heq | hm
      · rcases List.mem_cons.mp hm' with heq' | hm'
        · exact (Prod.mk.inj heq).1.trans (Prod.mk.inj heq').1.symm
        · obtain ⟨rfl, hidx⟩ := Prod.mk.inj heq
          exact absurd hm' (hlater h' hidx)
      · rcases List.mem_cons.mp hm' with heq' | hm'
        · obtain ⟨rfl, hidx⟩ := Prod.mk.inj heq'
          exact absurd hm (hlater h hidx)
        · exact ih _ _ i hdvd'' h h' hm hm'
    · rename_i hbit
      rw [if_neg hbit] at hm'
      exact ih _ _ i hdvd' h h' hm hm'

variable {H : Type} {hash : MMRHash H}

namespace CMMR

/-- **Step lemma of the climb.**  From node `(k, i / 2 ^ k)` the climb reaches
the top of the mountain, and its siblings hash up to that top. -/
theorem climbLoop_spec {mmr : CMMR H} {leaves : List H} (hrep : mmr.Represents hash leaves)
    {i h : Nat} (hm : (h, i / 2 ^ h) ∈ mountains 64 0 leaves.length) : ∀ d k fuel, k + d = h →
      d < fuel → (climbLoop mmr.vNodes mmr.getPeaks fuel (nodePos k (i / 2 ^ k))).foldl
          (verifyStep hash) (hash.digest (perfectTree hash leaves k (i / 2 ^ k))) =
        hash.digest (perfectTree hash leaves h (i / 2 ^ h)) := by
  have hpeaks := hrep.getPeaks_eq
  have htop := (mountains_bounds 64 0 leaves.length (Nat.dvd_zero _) _ hm).2
  intro d
  induction d with
  | zero =>
    intro k fuel hk hfuel
    have hkh : k = h := by omega
    subst hkh
    obtain ⟨fuel, rfl⟩ : ∃ f, fuel = f + 1 := ⟨fuel - 1, by omega⟩
    have hmem : nodePos k (i / 2 ^ k) ∈ mmr.getPeaks := by
      rw [hpeaks]
      exact mem_map.mpr ⟨_, hm, rfl⟩
    rw [climbLoop, if_pos hmem]
    rfl
  | succ d ih =>
    intro k fuel hk hfuel
    obtain ⟨fuel, rfl⟩ : ∃ f, fuel = f + 1 := ⟨fuel - 1, by omega⟩
    -- a node below the top is no peak: its mountain would cover the leaf twice
    have hnotmem : nodePos k (i / 2 ^ k) ∉ mmr.getPeaks := by
      rw [hpeaks]
      intro hmem
      obtain ⟨⟨h', j'⟩, hm', hpos⟩ := mem_map.mp hmem
      obtain ⟨hh, hj⟩ := nodePos_inj (h := h') (j := j') hpos
      rw [hj, ← hh] at hm'
      have := mountain_unique 64 0 leaves.length i (Nat.dvd_zero _) h h' hm hm'
      omega
    have hhalf : i / 2 ^ (k + 1) = i / 2 ^ k / 2 := by
      rw [Nat.pow_succ, Nat.div_div_eq_div_mul]
    -- the sibling belongs to the same mountain, so it is stored
    have hinside : (i / 2 ^ (k + 1) + 1) * 2 ^ (k + 1) ≤ leaves.length := by
      have hexp : 2 ^ h = 2 ^ d * 2 ^ (k + 1) := by rw [← hk]; ring
      have hidx : i / 2 ^ (k + 1) / 2 ^ d = i / 2 ^ h := by
        rw [hexp, Nat.mul_comm, Nat.div_div_eq_div_mul]
      have hlt : i / 2 ^ (k + 1) + 1 ≤ (i / 2 ^ h + 1) * 2 ^ d := by
        rw [← hidx]
        exact lt_mul_of_div_lt (lt_succ_self _) (Nat.two_pow_pos d)
      calc (i / 2 ^ (k + 1) + 1) * 2 ^ (k + 1)
          ≤ (i / 2 ^ h + 1) * 2 ^ d * 2 ^ (k + 1) := Nat.mul_le_mul_right _ hlt
        _ = (i / 2 ^ h + 1) * 2 ^ h := by rw [hexp]; ring
        _ ≤ leaves.length := by simpa using htop
    have ih' := ih (k + 1) fuel (by omega) (by omega)
    rw [hhalf] at ih' hinside
    rw [climbLoop, if_neg hnotmem]
    simp only [getHeight_nodePos, isLeftSibling_nodePos]
    generalize i / 2 ^ k = c at ih' hinside ⊢
    rcases even_or_odd' c with ⟨e, rfl | rfl⟩
    · have hdiv : 2 * e / 2 = e := by omega
      rw [hdiv] at ih' hinside
      have hsib := hrep.nodes k (2 * e + 1) (by
        have hexp : (e + 1) * 2 ^ (k + 1) = (2 * e + 1 + 1) * 2 ^ k := by ring
        omega)
      have hpar : nodePos k (2 * e) + (2 ^ (k + 1) - 1) + 1 = nodePos (k + 1) e := by
        rw [nodePos_parent, nodePos_right_sibling]
      rw [if_pos (by simp), ← nodePos_right_sibling, hsib]
      simp only [foldl_cons, verifyStep]
      rw [nodePos_right_sibling, hpar, ← digest_perfectTree_succ]
      simpa using ih'
    · have hdiv : (2 * e + 1) / 2 = e := by omega
      rw [hdiv] at ih' hinside
      have hsib := hrep.nodes k (2 * e) (by
        have hexp : (e + 1) * 2 ^ (k + 1) = (2 * e + 1 + 1) * 2 ^ k := by ring
        have hmono : (2 * e + 1) * 2 ^ k ≤ (2 * e + 1 + 1) * 2 ^ k := Nat.mul_le_mul_right _ (by omega)
        omega)
      have hback : nodePos k (2 * e + 1) - (2 ^ (k + 1) - 1) = nodePos k (2 * e) := by
        rw [nodePos_right_sibling]
        omega
      rw [if_neg (by simp), hback, hsib]
      simp only [foldl_cons, verifyStep]
      rw [← nodePos_parent]
      rw [digest_perfectTree_succ] at ih'
      simpa using ih'

theorem foldl_verifyStep_right (current : H) (siblings : List H) :
    (siblings.map fun d => (d, false)).foldl (verifyStep hash) current =
      siblings.foldl hash.hashParent current := by
  induction siblings generalizing current with
  | nil => rfl
  | cons d siblings ih => exact ih (hash.hashParent current d)

theorem foldl_verifyStep_left (current : H) (siblings : List H) :
    (siblings.reverse.map fun d => (d, true)).foldl (verifyStep hash) current =
      siblings.foldr hash.hashParent current := by
  induction siblings with
  | nil => rfl
  | cons d siblings ih =>
    rw [reverse_cons, map_append, foldl_append, ih]
    rfl

/-- Looking up stored addresses drops none of them. -/
theorem filterMap_stored {vNodes : List H} (value : Nat × Nat → H) (flag : Bool)
    (ms : List (Nat × Nat)) (hstored : ∀ m ∈ ms, vNodes[nodePos m.1 m.2]? = some (value m)) :
    (ms.map fun m => nodePos m.1 m.2).filterMap (fun peak =>
        (vNodes[peak]?).map fun node => (node, flag)) = (ms.map value).map fun d => (d, flag) := by
  induction ms with
  | nil => rfl
  | cons m ms ih =>
    simp only [map_cons, filterMap_cons, hstored m mem_cons_self,
      Option.map_some, ih (fun m' hm' => hstored m' (mem_cons_of_mem _ hm'))]

/-- The other peaks of a proof are all looked up. -/
theorem peakBranch_eq (vNodes : List H) (value : Nat × Nat → H) (left right : List (Nat × Nat))
    (mine : Nat × Nat) (hstored : ∀ m ∈ left ++ mine :: right, vNodes[nodePos m.1 m.2]? = some (value m)) :
    peakBranch vNodes ((left ++ mine :: right).map fun m => nodePos m.1 m.2) left.length =
      ((right.map value).reverse.map fun d => (d, false)) ++
        ((left.map value).reverse.map fun d => (d, true)) := by
  have hdrop : (left ++ mine :: right).drop (left.length + 1) = right := by
    rw [← drop_drop, drop_left, drop_succ_cons, drop_zero]
  have hright : ∀ m ∈ right.reverse, vNodes[nodePos m.1 m.2]? = some (value m) := by
    intro m hm
    exact hstored m (mem_append_right _ (mem_cons_of_mem _ (mem_reverse.mp hm)))
  have hleft : ∀ m ∈ left.reverse, vNodes[nodePos m.1 m.2]? = some (value m) := by
    intro m hm
    exact hstored m (mem_append_left _ (mem_reverse.mp hm))
  simp only [peakBranch, ← map_drop, ← map_take, hdrop, take_left,
    ← map_reverse, filterMap_stored value false _ hright, filterMap_stored value true _ hleft]

theorem Represents.foldl_getProof {mmr : CMMR H} {leaves : List H}
    (hrep : mmr.Represents hash leaves) {i h : Nat} {left right : List (Nat × Nat)}
    (hi : i < leaves.length) (hh : h < 64)
    (hms : mountains 64 0 leaves.length = left ++ (h, i / 2 ^ h) :: right)
    (hidx : myPeakIdxLoop i 64 leaves.length 0 0 = some left.length) :
    ((mmr.getProof i).vBranch.zip (mmr.getProof i).vSide).foldl (verifyStep hash)
        (hash.hashLeaf (leaves.getD i hash.zero)) =
      (left.map fun m => hash.digest (perfectTree hash leaves m.1 m.2)).foldr hash.hashParent
        ((right.map fun m => hash.digest (perfectTree hash leaves m.1 m.2)).reverse.foldl
          hash.hashParent (hash.digest (perfectTree hash leaves h (i / 2 ^ h)))) := by
  have hmem : (h, i / 2 ^ h) ∈ mountains 64 0 leaves.length := by simp [hms]
  have hbranch := peakBranch_eq mmr.vNodes
    (fun m => hash.digest (perfectTree hash leaves m.1 m.2)) left right (h, i / 2 ^ h)
    (fun m hm => hrep.peak_stored (hms ▸ hm))
  have hpos : leafIndexToPos i = nodePos 0 i := (nodePos_zero i).symm
  have hinside : leafIndexToPos i < mmr.vNodes.length := by
    have hleaf := hrep.nodes 0 i (by rw [Nat.pow_zero, Nat.mul_one]; exact hi)
    rw [hpos]
    exact (List.getElem?_eq_some_iff.mp hleaf).1
  have hpeaks := hrep.getPeaks_eq
  rw [hms] at hpeaks
  rw [← hpeaks] at hbranch
  -- with a single peak both lists of other peaks are empty, so the guard changes nothing
  have hguard : (if mmr.getPeaks.length > 1 then peakBranch mmr.vNodes mmr.getPeaks left.length
      else []) = peakBranch mmr.vNodes mmr.getPeaks left.length := by
    split
    · rfl
    · rename_i hsingle
      rw [hpeaks] at hsingle
      have hleft : left = [] := length_eq_zero_iff.mp (by simp at hsingle; omega)
      have hright : right = [] := length_eq_zero_iff.mp (by simp at hsingle; omega)
      rw [hbranch, hleft, hright]
      rfl
  have hclimb := climbLoop_spec hrep hmem h 0 64 (by omega) hh
  rw [Nat.pow_zero, Nat.div_one] at hclimb
  simp only [getProof, hrep.size, if_neg (not_le.mpr hi), ge_iff_le, if_neg (not_le.mpr hinside),
    hidx, zip_map', Prod.mk.eta, map_id']
  rw [hguard, hbranch, hpos, foldl_append, foldl_append,
    ← foldl_verifyStep_left, ← foldl_verifyStep_right, ← hclimb]
  rfl

theorem foldl_eq_bagDigest (current : H) {right : List H} (hle : right.length ≤ 1) :
    right.reverse.foldl hash.hashParent current = bagDigest hash current right := by
  match right, hle with
  | [], _ => rfl
  | [_], _ => rfl

/-- From two right peaks on they never agree: the first right peak would have
to be a tree that contains itself. -/
theorem length_le_one_of_foldl_eq (hideal : Ideal hash.hashLeaf hash.hashParent) (current : H)
    (right : List (MTree H)) (heq : (right.map hash.digest).reverse.foldl hash.hashParent current =
      bagDigest hash current (right.map hash.digest)) : right.length ≤ 1 := by
  match right, heq with
  | [], _ => simp
  | [_], _ => simp
  | t :: u :: rest, heq =>
    simp only [map_cons, reverse_cons, foldl_append, foldl_cons, foldl_nil, bagDigest] at heq
    have hself : hash.digest t = hash.digest (.node t (MTree.bag u rest)) := by
      rw [(hideal.node_inj heq).2, ← digest_bag]
      rfl
    exact absurd (hideal.digest_inj hself) (MTree.ne_node_left _ _)

/-- The left peaks hide nothing. -/
theorem foldr_hashParent_inj (hideal : Ideal hash.hashLeaf hash.hashParent) (left : List H)
    {a b : H} (heq : left.foldr hash.hashParent a = left.foldr hash.hashParent b) : a = b := by
  induction left with
  | nil => exact heq
  | cons d left ih => exact ih (hideal.node_inj heq).2

/-- **When a generated inclusion proof verifies.**  At most one peak to the
right of the leaf's mountain is enough, for any hash functions; with ideal
hashing it is also necessary. -/
theorem verifyProof_getProof [DecidableEq H] (L : List H) (i : Nat) (hi : i < L.length)
    (hlen : L.length < 2 ^ 62) : (rightPeakCount L.length i ≤ 1 →
      verifyProof hash ((appendAll hash empty L).getRoot hash) L[i]
        ((appendAll hash empty L).getProof i) = true) ∧ (Ideal hash.hashLeaf hash.hashParent →
      verifyProof hash ((appendAll hash empty L).getRoot hash) L[i]
        ((appendAll hash empty L).getProof i) = true → rightPeakCount L.length i ≤ 1) := by
  have hrep := represents_appendAll hash L
  obtain ⟨left, h, right, hms, hidx, hcount, hh⟩ := exists_mountain 64 0 L.length i 0
    (Nat.dvd_zero _) (by omega) (Nat.zero_le i) (by omega)
  rw [Nat.zero_add] at hidx hcount
  have hfold := hrep.foldl_getProof hi hh hms hidx
  obtain ⟨m, ms, hcons⟩ : ∃ m ms, left ++ (h, i / 2 ^ h) :: right = m :: ms := exists_cons_of_ne_nil (by simp)
  have hroot := hrep.getRoot_eq (hms.trans hcons)
  rw [bagDigest_append hash _ (left.map fun m => hash.digest (perfectTree hash L m.1 m.2))
    (hash.digest (perfectTree hash L h (i / 2 ^ h)))
    (right.map fun m => hash.digest (perfectTree hash L m.1 m.2)) _ (by
      rw [← map_cons (f := fun m : Nat × Nat => hash.digest (perfectTree hash L m.1 m.2)),
        ← hcons, map_append, map_cons])] at hroot
  have hleaf : L.getD i hash.zero = L[i] := by
    rw [getD_eq_getElem?_getD, getElem?_eq_getElem hi, Option.getD_some]
  have hsides : ((appendAll hash empty L).getProof i).vBranch.length =
      ((appendAll hash empty L).getProof i).vSide.length := by
    simp only [getProof]
    split
    · rfl
    · split
      · rfl
      · simp
  rw [hleaf] at hfold
  rw [verifyProof, if_neg (not_not.mpr hsides), hfold, hroot, ← hcount]
  constructor
  · intro hle
    rw [foldl_eq_bagDigest _ (by rwa [length_map])]
    exact beq_self_eq_true _
  · intro hideal hverify
    have heq := foldr_hashParent_inj hideal _ (beq_iff_eq.mp hverify)
    have htrees := length_le_one_of_foldl_eq hideal
      (hash.digest (perfectTree hash L h (i / 2 ^ h)))
      (right.map fun m => perfectTree hash L m.1 m.2) (by rw [map_map]; exact heq)
    rwa [length_map] at htrees

/-- Of seven leaves the fifth has one peak to its right, so its proof verifies
under symbolic hashing. -/
theorem verifyProof_getProof_fifth_of_seven : rightPeakCount 7 4 = 1 ∧ verifyProof symbolic
      ((appendAll symbolic empty ((List.range 7).map .raw)).getRoot symbolic) (.raw 4)
      ((appendAll symbolic empty ((List.range 7).map .raw)).getProof 4) = true := by
  have hcount : rightPeakCount 7 4 = 1 := by decide +kernel
  exact ⟨hcount, (@verifyProof_getProof _ symbolic _ ((List.range 7).map .raw) 4
    (by decide) (by decide)).1 hcount.le⟩

/-- The first of seven leaves has two peaks to its right: the proof that
`GetProof` returns for it is refused by `VerifyProof`. -/
theorem getProof_first_of_seven_rejected : verifyProof symbolic
      ((appendAll symbolic empty ((List.range 7).map .raw)).getRoot symbolic) (.raw 0)
      ((appendAll symbolic empty ((List.range 7).map .raw)).getProof 0) = false := by
  decide +kernel

end CMMR

end MaryJaneCoin
