import MaryJaneCoin.Mw.MmrForest

/-!
# Peaks, root and binding of a Merkle mountain range

`GetPeaks` lists the mountains of the range, one for every set bit of the leaf
count from the highest down, and `GetRoot` bags them from the right.  Hence
the root is the digest of one hash tree (`CMMR.getRoot_represents`): the
mountains joined by a right-leaning spine, whose leaves are exactly the
appended list.  With ideal hashing that makes the root a binding commitment
to the list, and it makes every accepted proof a proof of membership, although
`VerifyProof` checks neither the index nor the length of the branch.
-/

namespace MaryJaneCoin

open Popcount HashTree List

/-- The mountains of a range as node addresses `(h, j)`, left to right.  As in
`getPeaksLoop`, the first argument is the number of bits still to look at;
`offset` counts the leaves already covered. -/
def mountains : Nat → Nat → Nat → List (Nat × Nat)
  | 0, _, _ => []
  | h + 1, offset, remaining =>
    if 2 ^ h ≤ remaining then
      (h, offset / 2 ^ h) :: mountains h (offset + 2 ^ h) (remaining - 2 ^ h)
    else mountains h offset remaining

theorem aligned_round {h offset : Nat} (hdvd : 2 ^ (h + 1) ∣ offset) :
    ∃ a, offset = a * 2 ^ (h + 1) ∧ offset / 2 ^ h = 2 * a ∧ 2 ^ h ∣ offset ∧ 2 ^ h ∣ offset + 2 ^ h := by
  obtain ⟨a, rfl⟩ := hdvd
  have hsplit : 2 ^ (h + 1) * a = 2 ^ h * (2 * a) := by ring
  refine ⟨a, by ring, ?_, ?_, ?_⟩
  · rw [hsplit, Nat.mul_div_cancel_left _ (Nat.two_pow_pos h)]
  · exact hsplit ▸ Nat.dvd_mul_right _ _
  · exact Nat.dvd_add (hsplit ▸ Nat.dvd_mul_right _ _) dvd_rfl

theorem popcount_one : popcount 1 = 1 := by
  have := popcount_two_mul_add_one 0
  simpa using this

theorem getPeaksLoop_eq (k : Nat) : ∀ offset remaining, 2 ^ k ∣ offset →
    getPeaksLoop k remaining (nodeCountForLeaves offset) =
      (mountains k offset remaining).map fun m => nodePos m.1 m.2 := by
  induction k with
  | zero => intro offset remaining _; rfl
  | succ h ih =>
    intro offset remaining hdvd
    obtain ⟨a, hoff, hdiv, hdvd', hdvd''⟩ := aligned_round hdvd
    simp only [getPeaksLoop, mountains]
    by_cases hbit : 2 ^ h ≤ remaining
    · have hpow : 2 ^ (h + 1) = 2 * 2 ^ h := by ring
      have hpos : 1 ≤ 2 ^ h := Nat.two_pow_pos h
      have hnode := nodePos_add h (2 * a)
      have hexp : (2 * a + 1) * 2 ^ (h + 1) = 2 * (a * 2 ^ (h + 1)) + 2 ^ (h + 1) := by ring
      have hcount : popcount offset = popcount a := by rw [hoff, popcount_mul_two_pow]
      have hcount' : popcount (offset + 2 ^ h) = popcount a + 1 := by
        have hone : popcount (2 ^ h) = 1 := by
          have := popcount_mul_two_pow 1 h
          rwa [Nat.one_mul, popcount_one] at this
        rw [hoff, popcount_aligned_add a (2 ^ h) (h + 1) (by omega), hone]
      have hle := popcount_le offset
      have hle' := popcount_le (offset + 2 ^ h)
      rw [popcount_two_mul] at hnode
      have hpeak : nodeCountForLeaves offset + (2 ^ (h + 1) - 1) - 1 = nodePos h (2 * a) := by
        simp only [nodeCountForLeaves]
        omega
      have hnext : nodeCountForLeaves offset + (2 ^ (h + 1) - 1) =
          nodeCountForLeaves (offset + 2 ^ h) := by
        simp only [nodeCountForLeaves]
        omega
      rw [if_pos hbit, if_pos hbit, hpeak, hnext, ih _ _ hdvd'', hdiv, map_cons]
    · rw [if_neg hbit, if_neg hbit, ih _ _ hdvd']

theorem mountains_bounds (k : Nat) : ∀ offset remaining, 2 ^ k ∣ offset → ∀ m ∈ mountains k offset remaining,
      offset ≤ m.2 * 2 ^ m.1 ∧ (m.2 + 1) * 2 ^ m.1 ≤ offset + remaining := by
  induction k with
  | zero => intro offset remaining _ m hm; simp [mountains] at hm
  | succ h ih =>
    intro offset remaining hdvd m hm
    obtain ⟨a, hoff, hdiv, hdvd', hdvd''⟩ := aligned_round hdvd
    simp only [mountains] at hm
    split at hm
    · rcases List.mem_cons.mp hm with rfl | hm
      · have hfst : offset / 2 ^ h * 2 ^ h = offset := Nat.div_mul_cancel hdvd'
        refine ⟨hfst.ge, ?_⟩
        show (offset / 2 ^ h + 1) * 2 ^ h ≤ offset + remaining
        rw [Nat.add_mul, hfst]
        omega
      · have := ih _ _ hdvd'' m hm
        omega
    · exact ih _ _ hdvd' m hm

/-- Together the mountains cover the whole range, in order. -/
theorem mountains_leaves {H : Type} (hash : MMRHash H) (leaves : List H) (k : Nat) :
    ∀ offset remaining, 2 ^ k ∣ offset → remaining < 2 ^ k → offset + remaining ≤ leaves.length →
      ((mountains k offset remaining).map fun m => perfectTree hash leaves m.1 m.2).flatMap
        MTree.leaves = (leaves.drop offset).take remaining := by
  induction k with
  | zero =>
    intro offset remaining _ hlt _
    have : remaining = 0 := by simpa using hlt
    simp [mountains, this]
  | succ h ih =>
    intro offset remaining hdvd hlt hle
    obtain ⟨a, hoff, hdiv, hdvd', hdvd''⟩ := aligned_round hdvd
    have hpow : 2 ^ (h + 1) = 2 * 2 ^ h := by ring
    simp only [mountains]
    by_cases hbit : 2 ^ h ≤ remaining
    · have hfst : offset / 2 ^ h * 2 ^ h = offset := Nat.div_mul_cancel hdvd'
      have hcover : (offset / 2 ^ h + 1) * 2 ^ h ≤ leaves.length := by
        rw [Nat.add_mul, hfst]
        omega
      have hsplit : remaining = 2 ^ h + (remaining - 2 ^ h) := by omega
      rw [if_pos hbit, map_cons, flatMap_cons, ih _ _ hdvd'' (by omega) (by omega),
        leaves_perfectTree hash leaves h _ hcover, hfst]
      conv_rhs => rw [hsplit, take_add, drop_drop]
    · rw [if_neg hbit]
      exact ih _ _ hdvd' (by omega) hle

theorem mountains_ne_nil (k : Nat) : ∀ offset remaining, 0 < remaining → remaining < 2 ^ k →
    mountains k offset remaining ≠ [] := by
  induction k with
  | zero => intro offset remaining hpos hlt; simp at hlt; omega
  | succ h ih =>
    intro offset remaining hpos hlt
    simp only [mountains]
    by_cases hbit : 2 ^ h ≤ remaining
    · simp [if_pos hbit]
    · rw [if_neg hbit]
      exact ih _ _ hpos (by omega)

variable {H : Type} (hash : MMRHash H)

/-- Right-to-left bagging of digests. -/
def bagDigest (first : H) : List H → H
  | [] => first
  | next :: rest => hash.hashParent first (bagDigest next rest)

theorem digest_bag (first : MTree H) (rest : List (MTree H)) : hash.digest (MTree.bag first rest) =
    bagDigest hash (hash.digest first) (rest.map hash.digest) := by
  induction rest generalizing first with
  | nil => rfl
  | cons next rest ih =>
    simp only [MTree.bag, map_cons, bagDigest]
    rw [← ih next]
    rfl

theorem bagDigest_append (first : H) (left : List H) (peak : H) (right : List H)
    (all : List H) (hall : first :: all = left ++ peak :: right) :
    bagDigest hash first all = left.foldr hash.hashParent (bagDigest hash peak right) := by
  induction left generalizing first all with
  | nil =>
    obtain ⟨rfl, rfl⟩ := List.cons.inj hall
    rfl
  | cons d left ih =>
    obtain ⟨rfl, htail⟩ := List.cons.inj hall
    cases all with
    | nil => simp at htail
    | cons next all =>
      rw [foldr_cons, ← ih next all htail]
      rfl

/-- The bagging loop starts from the last peak and works backwards. -/
theorem bagDigest_reverse {α : Type} (value : α → H) {first last : α} {more rest : List α}
    (hrev : (first :: more).reverse = last :: rest) :
    (rest.map value).foldl (fun bag d => hash.hashParent d bag) (value last) =
      bagDigest hash (value first) (more.map value) := by
  induction more generalizing first last rest with
  | nil =>
    obtain ⟨rfl, rfl⟩ := List.cons.inj hrev
    rfl
  | cons next more ih =>
    obtain ⟨last', rest', hrev'⟩ : ∃ last' rest', (next :: more).reverse = last' :: rest' :=
      exists_cons_of_ne_nil (by simp)
    rw [reverse_cons, hrev', cons_append] at hrev
    obtain ⟨rfl, rfl⟩ := List.cons.inj hrev
    rw [map_append, foldl_append, ih hrev']
    rfl

/-- The bagging loop of `GetRoot`, run over addresses whose digests are
stored. -/
theorem bagLoop_eq {vNodes : List H} (value : Nat × Nat → H) (bag : H) (ms : List (Nat × Nat))
    (hstored : ∀ m ∈ ms, vNodes[nodePos m.1 m.2]? = some (value m)) :
    (ms.map fun m => nodePos m.1 m.2).foldlM (fun bag peak =>
        (vNodes[peak]?).map fun node => hash.hashParent node bag) bag =
      some ((ms.map value).foldl (fun bag d => hash.hashParent d bag) bag) := by
  induction ms generalizing bag with
  | nil => rfl
  | cons m ms ih =>
    simp only [map_cons, List.foldlM_cons, foldl_cons,
      hstored m mem_cons_self, Option.map_some, Option.bind_eq_bind, Option.bind_some]
    exact ih _ (fun m' hm' => hstored m' (mem_cons_of_mem _ hm'))

/-- Symbolic digests: hashing builds terms, so it is ideal by construction. -/
inductive Digest where
  | zero
  | raw (n : Nat)
  | leaf (d : Digest)
  | parent (l r : Digest)
deriving DecidableEq

/-- The symbolic hashes. -/
def symbolic : MMRHash Digest := ⟨.leaf, .parent, .zero⟩

theorem symbolic_ideal : Ideal symbolic.hashLeaf symbolic.hashParent where
  leaf_inj h := Digest.leaf.inj h
  node_inj h := Digest.parent.inj h
  disjoint h := Digest.noConfusion h

namespace CMMR

variable {hash}

variable {leaves : List H} {mmr : CMMR H}

theorem Represents.getPeaks_eq (hrep : mmr.Represents hash leaves) :
    mmr.getPeaks = (mountains 64 0 leaves.length).map fun m => nodePos m.1 m.2 := by
  have hloop := getPeaksLoop_eq 64 0 leaves.length (Nat.dvd_zero _)
  have hzero : nodeCountForLeaves 0 = 0 := by simp [nodeCountForLeaves]
  rw [hzero] at hloop
  rw [getPeaks, hrep.size, hloop]
  split
  · rename_i hnil
    rw [hnil, ← map_nil]
    congr 1
  · rfl

theorem Represents.peak_stored
    (hrep : mmr.Represents hash leaves) {m : Nat × Nat} (hm : m ∈ mountains 64 0 leaves.length) :
    mmr.vNodes[nodePos m.1 m.2]? = some (hash.digest (perfectTree hash leaves m.1 m.2)) := by
  have hbounds := mountains_bounds 64 0 leaves.length (Nat.dvd_zero _) m hm
  exact hrep.nodes m.1 m.2 (by omega)

/-- **The root is the digest of the bagged mountains.** -/
theorem Represents.getRoot_eq
    (hrep : mmr.Represents hash leaves) {m : Nat × Nat} {ms : List (Nat × Nat)}
    (hms : mountains 64 0 leaves.length = m :: ms) :
    mmr.getRoot hash = bagDigest hash (hash.digest (perfectTree hash leaves m.1 m.2))
      (ms.map fun m => hash.digest (perfectTree hash leaves m.1 m.2)) := by
  have hne : leaves.length ≠ 0 := by
    intro hzero
    rw [hzero] at hms
    cases hms
  -- walk the reversed list: its head is the bag, the rest is hashed on
  obtain ⟨last, rest, hrev⟩ : ∃ last rest, (m :: ms).reverse = last :: rest := exists_cons_of_ne_nil (by simp)
  have hlast : last ∈ mountains 64 0 leaves.length := by
    rw [hms, ← mem_reverse, hrev]
    exact mem_cons_self
  have hrest : ∀ m' ∈ rest, m' ∈ mountains 64 0 leaves.length := by
    intro m' hm'
    rw [hms, ← mem_reverse, hrev]
    exact mem_cons_of_mem _ hm'
  simp only [getRoot, hrep.size, if_neg hne]
  rw [hrep.getPeaks_eq, hms, ← map_reverse, hrev, map_cons]
  simp only [hrep.peak_stored hlast]
  rw [bagLoop_eq hash (fun m => hash.digest (perfectTree hash leaves m.1 m.2)) _ rest
    (fun m' hm' => hrep.peak_stored (hrest m' hm')), Option.getD_some]
  exact bagDigest_reverse hash (fun m => hash.digest (perfectTree hash leaves m.1 m.2)) hrev

theorem Represents.exists_root_tree
    (hrep : mmr.Represents hash leaves) (hne : leaves ≠ []) (hlen : leaves.length < 2 ^ 63) :
    ∃ t : MTree H, mmr.getRoot hash = hash.digest t ∧ t.leaves = leaves := by
  have hpos : 0 < leaves.length := length_pos_iff.mpr hne
  obtain ⟨m, ms, hms⟩ := exists_cons_of_ne_nil
    (mountains_ne_nil 64 0 leaves.length hpos (by omega))
  refine ⟨MTree.bag (perfectTree hash leaves m.1 m.2)
    (ms.map fun m => perfectTree hash leaves m.1 m.2), ?_, ?_⟩
  · rw [hrep.getRoot_eq hms, digest_bag, map_map]
    rfl
  · have hcover := mountains_leaves hash leaves 64 0 leaves.length (Nat.dvd_zero _)
      (by omega) (by omega)
    rw [hms] at hcover
    rw [MTree.leaves_bag]
    simpa using hcover

theorem verifyProof_eq_true [DecidableEq H] {root leafHash : H} {proof : CMMRProof H}
    (h : verifyProof hash root leafHash proof = true) :
    (proof.vBranch.zip proof.vSide).foldl (climbStep hash.hashParent) (hash.hashLeaf leafHash) = root := by
  simp only [verifyProof] at h
  split at h
  · simp at h
  · exact beq_iff_eq.mp h

theorem getRoot_nil : (appendAll hash empty []).getRoot hash = hash.zero := rfl

theorem digest_ne_zero (hleaf : ∀ a, hash.hashLeaf a ≠ hash.zero) (hparent : ∀ a b,
    hash.hashParent a b ≠ hash.zero) (t : MTree H) : hash.digest t ≠ hash.zero := by
  cases t with
  | leaf value => exact hleaf value
  | node left right => exact hparent _ _

/-- **MMR binding.**  With ideal hashing that never yields zero, equal roots
come from equal leaf lists, and an accepted proof, whatever its index, branch
and sides, is for a leaf of the list.  The length bound is the one below which
the 64-bit positions of the source are exact. -/
theorem mmr_root_binding [DecidableEq H] (hideal : Ideal hash.hashLeaf hash.hashParent)
    (hleaf : ∀ a, hash.hashLeaf a ≠ hash.zero) (hparent : ∀ a b, hash.hashParent a b ≠ hash.zero) :
    (∀ L M : List H, L.length < 2 ^ 63 → M.length < 2 ^ 63 →
      (appendAll hash empty L).getRoot hash = (appendAll hash empty M).getRoot hash → L = M) ∧
    (∀ (L : List H) (x : H) (p : CMMRProof H), L.length < 2 ^ 63 →
      verifyProof hash ((appendAll hash empty L).getRoot hash) x p = true → x ∈ L) := by
  have hnonzero := digest_ne_zero hleaf hparent
  constructor
  · intro L M hL hM hroot
    by_cases hLnil : L = []
    · by_cases hMnil : M = []
      · rw [hLnil, hMnil]
      · obtain ⟨t, ht, _⟩ := (represents_appendAll hash M).exists_root_tree hMnil hM
        rw [hLnil, getRoot_nil, ht] at hroot
        exact absurd hroot.symm (hnonzero t)
    · obtain ⟨s, hs, hsL⟩ := (represents_appendAll hash L).exists_root_tree hLnil hL
      by_cases hMnil : M = []
      · rw [hMnil, getRoot_nil, hs] at hroot
        exact absurd hroot (hnonzero s)
      · obtain ⟨t, ht, htM⟩ := (represents_appendAll hash M).exists_root_tree hMnil hM
        rw [hs, ht] at hroot
        have hst : s = t := hideal.digest_inj hroot
        rw [← hsL, ← htM, hst]
  · intro L x p hL hverify
    have hclimb := verifyProof_eq_true hverify
    by_cases hLnil : L = []
    · -- against the zero root no climb succeeds
      rw [hLnil, getRoot_nil] at hclimb
      exfalso
      rcases eq_nil_or_concat (p.vBranch.zip p.vSide) with hnil | ⟨path, step, hlast⟩
      · rw [hnil] at hclimb
        exact hleaf x hclimb
      · rw [hlast, concat_eq_append, foldl_append] at hclimb
        simp only [foldl_cons, foldl_nil, climbStep] at hclimb
        split at hclimb
        · exact hparent _ _ hclimb
        · exact hparent _ _ hclimb
    · obtain ⟨t, ht, htL⟩ := (represents_appendAll hash L).exists_root_tree hLnil hL
      rw [ht] at hclimb
      rw [← htL]
      exact hideal.mem_leaves_of_climb hclimb

/-- The theorem at symbolic digests: the roots over `[5, 6, 7]` and `[5, 6]`
differ, and a one-step proof of `5` under the second root is a proof of
membership. -/
theorem mmr_root_binding_symbolic : (appendAll symbolic empty [.raw 5, .raw 6, .raw 7]).getRoot symbolic ≠
      (appendAll symbolic empty [.raw 5, .raw 6]).getRoot symbolic ∧
    Digest.raw 5 ∈ [Digest.raw 5, Digest.raw 6] := by
  obtain ⟨hinj, hmem⟩ := mmr_root_binding symbolic_ideal
    (fun _ => Digest.noConfusion) (fun _ _ => Digest.noConfusion)
  refine ⟨fun heq => ?_, ?_⟩
  · exact absurd (hinj _ _ (by decide) (by decide) heq) (by decide)
  · exact hmem [.raw 5, .raw 6] (.raw 5) ⟨0, [.leaf (.raw 6)], [false]⟩ (by decide)
      (by decide +kernel)

end CMMR

end MaryJaneCoin
