import MaryJaneCoin.Spv.PartialMerkleTree

/-!
# What a partial merkle tree proves

What the constructor builds is read back exactly, also through serialization,
where the bits are padded to whole bytes.  Conversely every node that
`TraverseAndExtract` computes is a node of the true tree when its root is, so a
matched hash is one of the leaves.
-/

namespace MaryJaneCoin

open Codec List Option

section

variable {H : Type} {combine : H → H → H}

/-- A node of the next level and its two children. -/
theorem getElem?_merkleLevel (level : List H) (pos : Nat) :
    (merkleLevel combine level)[pos]? = level[pos * 2]?.map fun left =>
      combine left (level[pos * 2 + 1]?.getD left) := by
  induction level using merkleLevel.induct generalizing pos with
  | case1 => simp [merkleLevel]
  | case2 a => cases pos <;> simp [merkleLevel, Nat.succ_mul]
  | case3 a b rest ih =>
    cases pos with
    | zero => simp [merkleLevel]
    | succ pos => simp [merkleLevel, ih, Nat.succ_mul]

theorem leadingBytes_feed (bytes : Bytes) (data : Preimage H) :
    leadingBytes (feed bytes ++ data) = bytes ++ leadingBytes data := by
  induction bytes with
  | nil => rfl
  | cons b bytes ih => exact congrArg (b :: ·) ih

theorem fromStream_feed {α : Type} {put : α → Bytes} {get : Get α} {valid : α → Prop}
    (hreads : Reads put get valid) {a : α} (data : Preimage H) (hvalid : valid a) :
    fromStream get (feed (put a) ++ data) = some (a, data) := by
  rw [fromStream, leadingBytes_feed, hreads a _ hvalid, map_some, length_append, Nat.add_sub_cancel]
  rw [show (put a).length = (feed (put a) : Preimage H).length from (length_map _).symm, drop_left]

theorem getDigests_map (digests : List H) (data : Preimage H) :
    getDigests digests.length (digests.map .digest ++ data) = some (digests, data) := by
  induction digests with
  | nil => rfl
  | cons h digests ih =>
    rw [length_cons, map_cons, cons_append, getDigests, ih, map_some]

end

theorem reads_compactSize : Reads putCompactSize getCompactSize (· ≤ MAX_SIZE) := by
  intro n rest hle
  rw [getCompactSize_put rest (Nat.lt_of_le_of_lt hle (by decide)), if_neg (Nat.not_lt.mpr hle)]

namespace CPartialMerkleTree

variable {H : Type} {sha : Sha256 H} {vTxid : List H} {vMatch : List Bool}
  {tree : CPartialMerkleTree H}

variable {nTransactions height pos : Nat}

/-- A node exists when the leaves below it start inside the list. -/
theorem lt_calcTreeWidth :
    pos < calcTreeWidth nTransactions height ↔ pos * 2 ^ height < nTransactions := by
  have hpos := Nat.two_pow_pos height
  rw [calcTreeWidth, Nat.lt_iff_add_one_le, Nat.le_div_iff_mul_le hpos, Nat.succ_mul]
  omega

theorem left_lt_calcTreeWidth (h : pos < calcTreeWidth nTransactions (height + 1)) :
    pos * 2 < calcTreeWidth nTransactions height := by
  rw [calcTreeWidth_succ] at h
  omega

theorem length_levels (height : Nat) :
    ((merkleLevel sha.nodeHash)^[height] vTxid).length = calcTreeWidth vTxid.length height := by
  induction height with
  | zero => rw [calcTreeWidth_zero, Function.iterate_zero_apply]
  | succ height ih => rw [Function.iterate_succ_apply', length_merkleLevel, ih, calcTreeWidth_succ]

variable (sha vTxid) in
theorem getElem?_levels (height : Nat) : ∀ pos, pos < calcTreeWidth vTxid.length height →
      ((merkleLevel sha.nodeHash)^[height] vTxid)[pos]? = some (calcHash sha vTxid height pos) := by
  induction height with
  | zero =>
    intro pos hpos
    rw [calcTreeWidth_zero] at hpos
    simp [calcHash, hpos]
  | succ height ih =>
    intro pos hpos
    rw [Function.iterate_succ_apply', getElem?_merkleLevel, ih _ (left_lt_calcTreeWidth hpos),
      map_some, calcHash]
    congr 2
    split
    · rename_i hright
      rw [ih _ hright, getD_some]
    · rename_i hright
      rw [getElem?_eq_none (by rw [length_levels]; exact Nat.le_of_not_lt hright), getD_none]

/-- **The top of the implicit tree is the merkle root.** -/
theorem merkleRoot_eq_calcHash (hne : vTxid ≠ []) : merkleRoot sha.nodeHash sha.zero vTxid =
      calcHash sha vTxid (growHeight vTxid.length 0) 0 := by
  have hpos := length_pos_iff.mpr hne
  suffices hlevel : ∀ height, merkleRoot sha.nodeHash sha.zero
      ((merkleLevel sha.nodeHash)^[height] vTxid) =
        calcHash sha vTxid (growHeight vTxid.length height) 0 from hlevel 0
  intro height
  induction height using growHeight.induct vTxid.length with
  | case1 height hwide ih =>
    rw [merkleRoot_of_lt_length (by rw [length_levels]; exact hwide), growHeight, if_pos hwide,
      ← ih, Function.iterate_succ_apply']
  | case2 height hnarrow =>
    rw [growHeight, if_neg hnarrow, merkleRoot_of_length_le (by rw [length_levels]; omega)]
    have hfirst := getElem?_levels sha vTxid height 0
      (lt_calcTreeWidth.mpr (by rwa [Nat.zero_mul]))
    rw [headD_eq_head?_getD, head?_eq_getElem?, hfirst, getD_some]

/-- The top node exists. -/
theorem root_lt_calcTreeWidth (hne : vTxid ≠ []) (height : Nat) : 0 < calcTreeWidth vTxid.length height :=
  lt_calcTreeWidth.mpr (by rw [Nat.zero_mul]; exact length_pos_iff.mpr hne)

variable (tree) in
/-- What serialization gives back: the bits padded to whole bytes. -/
theorem deserialize_serialize (hhash : tree.vHash.length ≤ MAX_SIZE)
    (hbits : tree.vBits.length ≤ MAX_SIZE) (rest : Preimage H) :
    deserialize (tree.serialize ++ rest) = some ({ tree with
        vBits := tree.vBits ++ List.replicate ((tree.vBits.length + 7) / 8 * 8 - tree.vBits.length) false
        fBad := false }, rest) := by
  have hbytes : (BitBytes.pack tree.vBits).length ≤ MAX_SIZE := by
    rw [BitBytes.length_pack]
    omega
  have hsmall : tree.nTransactions.toNat < 256 ^ 4 := tree.nTransactions.toNat_lt
  rw [deserialize, serialize, feedLE, append_assoc, append_assoc, append_assoc,
    fromStream_feed (reads_LE 4) _ hsmall, bind_some,
    fromStream_feed reads_compactSize _ hhash, bind_some, getDigests_map, bind_some,
    fromStream_feed (reads_vec reads_byte) _ ⟨hbytes, fun _ _ => trivial⟩, map_some,
    BitBytes.unpack_pack, UInt32.ofNat_toNat]

section Build

/-- The matched hashes below a node. -/
def matchedBelow (vTxid : List H) (vMatch : List Bool) (height pos : Nat) : List H :=
  ((((vTxid.zip vMatch).drop (pos * 2 ^ height)).take (2 ^ height)).filter Prod.snd).map Prod.fst

variable {α : Type}

/-- The leaves below a node are those below its children. -/
theorem leaves_succ (leaves : List α) (height pos : Nat) :
    (leaves.drop (pos * 2 ^ (height + 1))).take (2 ^ (height + 1)) =
      (leaves.drop (pos * 2 * 2 ^ height)).take (2 ^ height) ++
        (leaves.drop ((pos * 2 + 1) * 2 ^ height)).take (2 ^ height) := by
  have hstart : pos * 2 ^ (height + 1) = pos * 2 * 2 ^ height := by
    rw [Nat.pow_succ, Nat.mul_comm (2 ^ height), Nat.mul_assoc]
  have hcount : 2 ^ (height + 1) = 2 ^ height + 2 ^ height := Nat.two_pow_succ height
  rw [hstart, hcount, take_add, drop_drop, ← Nat.succ_mul]

theorem matchedBelow_succ (height pos : Nat) : matchedBelow vTxid vMatch (height + 1) pos =
      matchedBelow vTxid vMatch height (pos * 2) ++ matchedBelow vTxid vMatch height (pos * 2 + 1) := by
  rw [matchedBelow, leaves_succ, filter_append, map_append, matchedBelow, matchedBelow]

/-- Below a node that does not exist there is nothing. -/
theorem matchedBelow_outside {height pos : Nat}
    (h : ¬pos < calcTreeWidth vTxid.length height) : matchedBelow vTxid vMatch height pos = [] := by
  rw [lt_calcTreeWidth, Nat.not_lt] at h
  rw [matchedBelow, drop_eq_nil_of_le (by rw [length_zip]; omega), take_nil]
  rfl

theorem matchedBelow_unmatched {height pos : Nat} (h : parentOfMatch vMatch height pos = false) :
    matchedBelow vTxid vMatch height pos = [] := by
  rw [matchedBelow, map_eq_nil_iff, filter_eq_nil_iff]
  rintro ⟨txid, fMatch⟩ hmem hmatch
  rw [zip_eq_zipWith, drop_zipWith, take_zipWith, ← zip_eq_zipWith] at hmem
  have hany : parentOfMatch vMatch height pos = true := any_eq_true.mpr ⟨fMatch, (of_mem_zip hmem).2, hmatch⟩
  rw [h] at hany
  cases hany

variable (sha) in
theorem matchedBelow_leaf {pos : Nat} (hlen : vMatch.length = vTxid.length)
    (hpos : pos < vTxid.length) : matchedBelow vTxid vMatch 0 pos =
      if parentOfMatch vMatch 0 pos then [calcHash sha vTxid 0 pos] else [] := by
  have hflag : pos < vMatch.length := by omega
  have hpair : pos < (vTxid.zip vMatch).length := by rw [length_zip]; omega
  rw [matchedBelow, parentOfMatch, Nat.pow_zero, Nat.mul_one, drop_eq_getElem_cons hpair,
    drop_eq_getElem_cons hflag, take_succ_cons, take_zero, take_succ_cons,
    take_zero, getElem_zip, calcHash, getElem?_eq_getElem hpos, getD_some]
  cases hmatch : vMatch[pos] <;> simp

theorem getElem?_of_drop {l rest : List α} {a : α} {n : Nat}
    (h : l.drop n = a :: rest) : l[n]? = some a := by
  rw [← Nat.add_zero n, ← getElem?_drop, h, getElem?_cons_zero]

theorem takeHash_eq {hash : H} {rest : List H} {state : ExtractState H} (fMatch : Bool)
    (h : tree.vHash.drop state.nHashUsed = hash :: rest) :
    tree.takeHash sha fMatch state.useBit = (hash, { state with
      nBitsUsed := state.nBitsUsed + 1
      nHashUsed := state.nHashUsed + 1
      vMatch := state.vMatch ++ if fMatch then [hash] else [] }) := by
  have hhead : tree.vHash[state.useBit.nHashUsed]? = some hash := getElem?_of_drop h
  rw [takeHash, hhead]
  cases fMatch <;> simp [ExtractState.useBit]

/-- The cursors and matches after a subtree of the builder has been read. -/
def ExtractState.after (state : ExtractState H) (built : List Bool × List H) (matched : List H) :
    ExtractState H where
  nBitsUsed := state.nBitsUsed + built.1.length
  nHashUsed := state.nHashUsed + built.2.length
  vMatch := state.vMatch ++ matched
  fBad := state.fBad

theorem drop_of_append {l xs rest : List α} {n : Nat} (h : l.drop n = xs ++ rest) :
    l.drop (n + xs.length) = rest := by
  rw [← drop_drop, h, drop_left]

theorem drop_of_cons {l rest : List α} {a : α} {n : Nat} (h : l.drop n = a :: rest) :
    l.drop (n + 1) = rest := by
  rw [← drop_drop, h, drop_one, tail_cons]

/-- **The extractor reads what the builder wrote.**  By induction on the height;
the cursors stand at the part the builder appended for the node. -/
theorem traverseAndExtract_build (htransactions : tree.nTransactions.toNat = vTxid.length)
    (hlen : vMatch.length = vTxid.length) (height : Nat) :
    ∀ (pos : Nat) (state : ExtractState H) (restBits : List Bool) (restHash : List H),
      pos < calcTreeWidth vTxid.length height → tree.vBits.drop state.nBitsUsed =
      (traverseAndBuild sha vTxid vMatch height pos).1 ++ restBits →
      tree.vHash.drop state.nHashUsed = (traverseAndBuild sha vTxid vMatch height pos).2 ++
      restHash → tree.traverseAndExtract sha height pos state = (calcHash sha vTxid height pos,
          ExtractState.after state (traverseAndBuild sha vTxid vMatch height pos)
            (matchedBelow vTxid vMatch height pos)) := by
  induction height with
  | zero =>
    intro pos state restBits restHash hpos hbits hhash
    rw [calcTreeWidth_zero] at hpos
    rw [traverseAndBuild] at hbits hhash
    rw [traverseAndExtract, getElem?_of_drop hbits]
    simp only
    rw [takeHash_eq _ hhash, traverseAndBuild, matchedBelow_leaf sha hlen hpos]
    rfl
  | succ height ih =>
    intro pos state restBits restHash hpos hbits hhash
    rw [traverseAndBuild] at hbits hhash ⊢
    cases hmatch : parentOfMatch vMatch (height + 1) pos with
    | false =>
      simp only [hmatch, Bool.not_false, if_true] at hbits hhash ⊢
      rw [traverseAndExtract, getElem?_of_drop hbits, matchedBelow_unmatched hmatch]
      simp only
      rw [takeHash_eq _ hhash]
      rfl
    | true =>
      simp only [hmatch, Bool.not_true, Bool.false_eq_true, if_false, cons_append]
        at hbits hhash ⊢
      rw [traverseAndExtract, getElem?_of_drop hbits, htransactions]
      simp only
      -- behind the bit of the node stand the bits of its children
      have hchildren := drop_of_cons hbits
      rw [append_assoc] at hchildren hhash
      rw [ih (pos * 2) state.useBit _ _ (left_lt_calcTreeWidth hpos) hchildren hhash]
      by_cases hright : pos * 2 + 1 < calcTreeWidth vTxid.length height
      · simp only [if_pos hright] at hchildren hhash ⊢
        rw [ih (pos * 2 + 1) (ExtractState.after state.useBit _ _) _ _ hright
          (drop_of_append hchildren) (drop_of_append hhash), calcHash, if_pos hright,
          matchedBelow_succ]
        simp [ExtractState.after, ExtractState.useBit, Nat.add_assoc, Nat.add_comm]
      · simp only [if_neg hright]
        rw [calcHash, if_neg hright, matchedBelow_succ, matchedBelow_outside hright]
        simp [ExtractState.after, ExtractState.useBit, Nat.add_assoc, Nat.add_comm]

section Lengths

variable (sha vTxid vMatch)

/-- Every hash comes with a bit. -/
theorem length_build_le (height : Nat) : ∀ pos, (traverseAndBuild sha vTxid vMatch height pos).2.length ≤
      (traverseAndBuild sha vTxid vMatch height pos).1.length := by
  induction height with
  | zero => intro pos; exact Nat.le_refl 1
  | succ height ih =>
    intro pos
    rw [traverseAndBuild]
    split
    · exact Nat.le_refl 1
    · have hleft := ih (pos * 2)
      have hright := ih (pos * 2 + 1)
      split
      · simp only [length_append, length_cons]
        omega
      · simp only [length_append, length_cons, length_nil]
        omega

/-- Every hash stands for at least one leaf. -/
theorem length_hashes_le (height : Nat) : ∀ pos, pos < calcTreeWidth vTxid.length height →
      (traverseAndBuild sha vTxid vMatch height pos).2.length ≤
        ((vTxid.drop (pos * 2 ^ height)).take (2 ^ height)).length := by
  have hone {height pos : Nat} (hpos : pos < calcTreeWidth vTxid.length height) :
      1 ≤ ((vTxid.drop (pos * 2 ^ height)).take (2 ^ height)).length := by
    have := lt_calcTreeWidth.mp hpos
    have := Nat.two_pow_pos height
    rw [length_take, length_drop]
    omega
  induction height with
  | zero => intro pos hpos; exact hone hpos
  | succ height ih =>
    intro pos hpos
    rw [traverseAndBuild]
    split
    · exact hone hpos
    · have hleft := ih (pos * 2) (left_lt_calcTreeWidth hpos)
      rw [leaves_succ, length_append, length_append]
      split
      · rename_i hright
        exact Nat.add_le_add hleft (ih _ hright)
      · exact Nat.add_le_add hleft (Nat.zero_le _)

theorem length_bits_lt (height : Nat) :
    ∀ pos, (traverseAndBuild sha vTxid vMatch height pos).1.length < 2 ^ (height + 1) := by
  induction height with
  | zero => intro pos; exact Nat.lt_add_one 1
  | succ height ih =>
    intro pos
    have hcount : 2 ^ (height + 1 + 1) = 2 ^ (height + 1) + 2 ^ (height + 1) := Nat.two_pow_succ (height + 1)
    have hleft := ih (pos * 2)
    have hright := ih (pos * 2 + 1)
    rw [traverseAndBuild]
    split
    · simp only [length_cons, length_nil]
      omega
    · split
      · simp only [length_append, length_cons]
        omega
      · simp only [length_append, length_cons, length_nil]
        omega

end Lengths

/-- The loop for the height stops at the first level with one node. -/
theorem growHeight_spec (nTransactions nHeight : Nat) : nTransactions ≤
      2 ^ growHeight nTransactions nHeight ∧ (growHeight nTransactions nHeight = nHeight ∨
        2 ^ growHeight nTransactions nHeight < 2 * nTransactions) := by
  induction nHeight using growHeight.induct nTransactions with
  | case1 nHeight hwide ih =>
    rw [growHeight, if_pos hwide]
    refine ⟨ih.1, Or.inr ?_⟩
    have hless := lt_calcTreeWidth.mp hwide
    rcases ih.2 with hstop | hbound
    · rw [hstop, Nat.pow_succ]
      omega
    · exact hbound
  | case2 nHeight hnarrow =>
    rw [growHeight, if_neg hnarrow]
    have hmore := mt lt_calcTreeWidth.mpr hnarrow
    exact ⟨by omega, Or.inl rfl⟩

theorem matchedBelow_root : matchedBelow vTxid vMatch (growHeight vTxid.length 0) 0 =
      ((vTxid.zip vMatch).filter Prod.snd).map Prod.fst := by
  have hall := (growHeight_spec vTxid.length 0).1
  rw [matchedBelow, Nat.zero_mul, drop_zero, take_of_length_le]
  rw [length_zip]
  omega

/-- **A built tree proves its matches.**  Serialized and read back, it gives the
merkle root and the matched hashes in their order. -/
theorem extractMatches_build (hne : vTxid ≠ []) (hmax : vTxid.length ≤ MAX_BLOCK_SIZE / 60)
    (hlen : vMatch.length = vTxid.length) : (deserialize
    (ofMatches sha vTxid vMatch).serialize).map (fun read => read.1.extractMatches sha) =
      some (merkleRoot sha.nodeHash sha.zero vTxid, ((vTxid.zip vMatch).filter Prod.snd).map Prod.fst) := by
  have hpos := length_pos_iff.mpr hne
  have hmax' : vTxid.length ≤ 16666 := hmax
  have htransactions : (UInt32.ofNat vTxid.length).toNat = vTxid.length := by
    rw [UInt32.toNat_ofNat']
    omega
  have hheight := (growHeight_spec vTxid.length 0).2
  have hbits := length_bits_lt sha vTxid vMatch (growHeight vTxid.length 0) 0
  have hpairs := length_build_le sha vTxid vMatch (growHeight vTxid.length 0) 0
  have hleaves :=
    length_hashes_le sha vTxid vMatch (growHeight vTxid.length 0) 0 (root_lt_calcTreeWidth hne _)
  rw [length_take, Nat.zero_mul, drop_zero] at hleaves
  have hfew : 2 ^ growHeight vTxid.length 0 ≤ 40000 := by
    rcases hheight with hzero | hbound
    · rw [hzero]
      decide
    · omega
  rw [Nat.pow_succ] at hbits
  have hread := deserialize_serialize (ofMatches sha vTxid vMatch)
    (show _ ≤ 0x02000000 by simp only [ofMatches]; omega)
    (show _ ≤ 0x02000000 by simp only [ofMatches]; omega) []
  rw [append_nil] at hread
  rw [hread, map_some, extractMatches]
  simp only [ofMatches, extractStart, htransactions]
  rw [if_neg (Nat.ne_of_gt hpos), if_neg (Nat.not_lt.mpr hmax), if_neg (by omega),
    if_neg (by rw [length_append]; omega)]
  rw [traverseAndExtract_build htransactions hlen _ _ ⟨0, 0, [], false⟩ _ []
    (root_lt_calcTreeWidth hne _) rfl (append_nil _).symm]
  simp only [ExtractState.after, matchedBelow_root, nil_append, Nat.zero_add, length_append, length_replicate]
  rw [if_neg Bool.false_ne_true, if_neg (by omega), if_neg (by simp), merkleRoot_eq_calcHash hne]

end Build

section Soundness

variable {state : ExtractState H}

theorem takeHash_fBad {fMatch : Bool}
    (h : (tree.takeHash sha fMatch state.useBit).2.fBad = false) : state.fBad = false := by
  unfold takeHash at h
  split at h
  · cases h
  · exact h

theorem takeHash_unmatched {txid : H}
    (h : txid ∈ (tree.takeHash sha false state.useBit).2.vMatch) : txid ∈ state.vMatch := by
  unfold takeHash at h
  split at h
  · exact h
  · exact h

theorem takeHash_sound {fMatch : Bool} {hash txid : H}
    (hgood : (tree.takeHash sha fMatch state.useBit).2.fBad = false)
    (hnode : (tree.takeHash sha fMatch state.useBit).1 = hash) (hleaf : hash ∈ vTxid)
    (hmem : txid ∈ (tree.takeHash sha fMatch state.useBit).2.vMatch) :
    txid ∈ state.vMatch ∨ txid ∈ vTxid := by
  unfold takeHash at hgood hnode hmem
  split at hmem
  · exact Or.inl hmem
  · rename_i taken htaken
    simp only [htaken] at hnode
    cases fMatch with
    | false => exact Or.inl hmem
    | true =>
      rw [if_pos rfl] at hmem
      rcases mem_append.mp hmem with hbefore | hnew
      · exact Or.inl hbefore
      · rw [mem_singleton.mp hnew, hnode]
        exact Or.inr hleaf

/-- A failure is never taken back. -/
theorem traverseAndExtract_fBad (height : Nat) : ∀ (pos : Nat) (state : ExtractState H),
      (tree.traverseAndExtract sha height pos state).2.fBad = false → state.fBad = false := by
  induction height with
  | zero =>
    intro pos state h
    unfold traverseAndExtract at h
    split at h
    · cases h
    · exact takeHash_fBad h
  | succ height ih =>
    intro pos state h
    unfold traverseAndExtract at h
    split at h
    · cases h
    · exact takeHash_fBad h
    · simp only at h
      split at h
      · exact ih _ state.useBit (ih _ _ h)
      · exact ih _ state.useBit h

/-- **A node that agrees with the true tree has true leaves below it.**  The
children of a node agree when the node does, since the node hash is injective. -/
theorem traverseAndExtract_sound (hinj : Function.Injective2 sha.nodeHash)
    (htransactions : tree.nTransactions.toNat = vTxid.length) (height : Nat) :
    ∀ (pos : Nat) (state : ExtractState H), pos < calcTreeWidth vTxid.length height →
      (tree.traverseAndExtract sha height pos state).2.fBad = false →
      (tree.traverseAndExtract sha height pos state).1 = calcHash sha vTxid height pos →
      ∀ txid ∈ (tree.traverseAndExtract sha height pos state).2.vMatch,
        txid ∈ state.vMatch ∨ txid ∈ vTxid := by
  induction height with
  | zero =>
    intro pos state hpos hgood hnode txid hmem
    rw [calcTreeWidth_zero] at hpos
    have hleaf : calcHash sha vTxid 0 pos ∈ vTxid := by
      rw [calcHash, getElem?_eq_getElem hpos, getD_some]
      exact getElem_mem hpos
    unfold traverseAndExtract at hgood hnode hmem
    split at hmem
    · exact Or.inl hmem
    · rename_i fParentOfMatch hbit
      simp only [hbit] at hgood hnode
      exact takeHash_sound hgood hnode hleaf hmem
  | succ height ih =>
    intro pos state hpos hgood hnode txid hmem
    unfold traverseAndExtract at hgood hnode hmem
    split at hmem
    · exact Or.inl hmem
    · rename_i hbit
      simp only [hbit] at hgood hnode
      exact Or.inl (takeHash_unmatched hmem)
    · rename_i hbit
      simp only [hbit, htransactions, calcHash] at hgood hnode hmem
      have hleft := ih (pos * 2) state.useBit (left_lt_calcTreeWidth hpos)
      by_cases hright : pos * 2 + 1 < calcTreeWidth vTxid.length height
      · simp only [if_pos hright] at hgood hnode hmem
        obtain ⟨hl, hr⟩ := hinj hnode
        rcases ih (pos * 2 + 1) _ hright hgood hr txid hmem with hbefore | hin
        · exact hleft (traverseAndExtract_fBad _ _ _ hgood) hl txid hbefore
        · exact Or.inr hin
      · simp only [if_neg hright] at hgood hnode hmem
        exact hleft hgood (hinj hnode).1 txid hmem

/-- `ExtractMatches` fails with the zero hash, or returns what the walk found. -/
theorem extractMatches_cases (sha : Sha256 H) (tree : CPartialMerkleTree H) :
    (tree.extractMatches sha).1 = sha.zero ∨ tree.nTransactions.toNat ≠ 0 ∧
        (tree.traverseAndExtract sha (growHeight tree.nTransactions.toNat 0) 0
          tree.extractStart).2.fBad = false ∧ tree.extractMatches sha =
          ((tree.traverseAndExtract sha (growHeight tree.nTransactions.toNat 0) 0 tree.extractStart).1,
            (tree.traverseAndExtract sha (growHeight tree.nTransactions.toNat 0) 0
              tree.extractStart).2.vMatch) := by
  unfold extractMatches
  simp only
  split_ifs with hzero hmax hhash hbits hbad hused hall
  any_goals exact Or.inl rfl
  exact Or.inr ⟨hzero, by simpa using hbad, rfl⟩

/-- **What an arbitrary tree can show.**  A successful extraction of the merkle
root only matches leaves. -/
theorem extractMatches_sound (hinj : Function.Injective2 sha.nodeHash)
    (htransactions : tree.nTransactions.toNat = vTxid.length)
    (hsuccess : merkleRoot sha.nodeHash sha.zero vTxid ≠ sha.zero)
    (hroot : (tree.extractMatches sha).1 = merkleRoot sha.nodeHash sha.zero vTxid) :
    ∀ txid ∈ (tree.extractMatches sha).2, txid ∈ vTxid := by
  intro txid hmem
  rcases extractMatches_cases sha tree with hfail | ⟨hsome, hgood, hresult⟩
  · exact absurd (hroot.symm.trans hfail) hsuccess
  · rw [htransactions] at hsome hgood hresult
    have hne : vTxid ≠ [] := ne_nil_of_length_pos (Nat.pos_of_ne_zero hsome)
    rw [hresult] at hroot hmem
    rw [merkleRoot_eq_calcHash hne] at hroot
    rcases traverseAndExtract_sound hinj htransactions _ _ _ (root_lt_calcTreeWidth hne _) hgood
      hroot txid hmem with hstart | hin
    · cases hstart
    · exact hin

end Soundness

/-- **Partial merkle trees.**  What the constructor builds proves exactly its
matches, also through serialization.  Under an injective node hash an arbitrary
tree for as many transactions that gives the merkle root, which is not the zero
hash of a failure, matches transactions only. -/
theorem partial_merkle_tree (sha : Sha256 H) : (∀ (vTxid : List H) (vMatch : List Bool),
      vTxid ≠ [] → vTxid.length ≤ MAX_BLOCK_SIZE / 60 → vMatch.length = vTxid.length → (deserialize
      (ofMatches sha vTxid vMatch).serialize).map (fun read => read.1.extractMatches sha) =
        some (merkleRoot sha.nodeHash sha.zero vTxid,
    ((vTxid.zip vMatch).filter Prod.snd).map Prod.fst)) ∧ (Function.Injective2 sha.nodeHash →
      ∀ (vTxid : List H) (tree : CPartialMerkleTree H), tree.nTransactions.toNat = vTxid.length →
        merkleRoot sha.nodeHash sha.zero vTxid ≠ sha.zero →
        (tree.extractMatches sha).1 = merkleRoot sha.nodeHash sha.zero vTxid →
        ∀ txid ∈ (tree.extractMatches sha).2, txid ∈ vTxid) :=
  ⟨fun _ _ => extractMatches_build, fun hinj _ _ => extractMatches_sound hinj⟩

theorem partial_merkle_tree_second :
    (deserialize (ofMatches transparent [[1], [2], [3]] [false, true, false]).serialize).map
        (fun read => read.1.extractMatches transparent) =
      some (merkleRoot transparent.nodeHash transparent.zero [[1], [2], [3]], [[2]]) ∧
    ∀ txid ∈ ((ofMatches transparent [[1], [2], [3]] [false, true, false]).extractMatches
      transparent).2, txid ∈ [[1], [2], [3]] := by
  have hproof := partial_merkle_tree transparent
  exact ⟨hproof.1 _ _ (by decide) (by decide) rfl,
    hproof.2 (Sha256.nodeHash_injective Node.transparent_injective) _ _ (by decide +kernel)
      (by decide +kernel) (by decide +kernel)⟩

/-- **The zero hash is a root.**  A list that consists of the zero hash has it
for its merkle root, so a tree with bits left over, which fails, returns that
root together with the hash it has matched before. -/
theorem failure_returns_zero_root : Function.Injective2 transparent.nodeHash ∧
      ∃ tree : CPartialMerkleTree (List Nat), tree.nTransactions.toNat = [transparent.zero].length ∧
        (tree.extractMatches transparent).1 =
          merkleRoot transparent.nodeHash transparent.zero [transparent.zero] ∧
        ∃ txid ∈ (tree.extractMatches transparent).2, txid ∉ [transparent.zero] :=
  ⟨Sha256.nodeHash_injective Node.transparent_injective,
    ⟨1, List.replicate 16 true, [[1]], false⟩, by decide +kernel, by decide +kernel, [1],
    by decide +kernel, by decide⟩

end CPartialMerkleTree

end MaryJaneCoin
