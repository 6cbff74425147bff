import MaryJaneCoin.Chain.IndexPath
import MaryJaneCoin.Chain.LedgerFresh

/-!
# What a path of the block index stands for

The `pnext` links along a path, and the transaction index that connecting its
blocks one after the other gives.  The genesis block is never connected, so the
path of the genesis block stands for the empty index.
-/

namespace MaryJaneCoin

open Std List

namespace Node

variable {H : Type} [Ord H] [TransOrd H]

/-- The `pnext` links along a path. -/
def linksOf : PIndex H → ExtTreeMap H H
  | [] => ∅
  | pindex :: pprev => link (linksOf pprev) (pindex, pprev)

/-- The block index in order, with a best chain in it that `pnext` links. -/
structure InOrder (s : Node H) : Prop where
  path : ∀ hash path, s.mapBlockIndex[hash]? = some path →
    Indexed s.mapBlockIndex path ∧ path.head?.map CBlockIndex.hash = some hash
  best : Indexed s.mapBlockIndex s.pindexBest
  links : s.pnext = linksOf s.pindexBest

theorem InOrder.indexed {s : Node H} {pindex : CBlockIndex H} {pprev : PIndex H} {hash : H}
    (h : s.InOrder) (hlook : s.mapBlockIndex[hash]? = some (pindex :: pprev)) :
    Indexed s.mapBlockIndex (pindex :: pprev) ∧ pindex.hash = hash :=
  (h.path hash _ hlook).imp_right Option.some.inj

/-- The hashes that `pnext` leads to from this one on. -/
def follow (pnext : ExtTreeMap H H) : Nat → H → List H
  | 0, hash => [hash]
  | n + 1, hash =>
    match pnext[hash]? with
    | none => [hash]
    | some next => hash :: follow pnext n next

variable [LawfulEqOrd H] {mapBlockIndex : ExtTreeMap H (PIndex H)} {path pfork pprev : PIndex H}
  {pindex : CBlockIndex H}

omit [LawfulEqOrd H] in
/-- An entry has a hash that no entry below it has. -/
theorem Indexed.hash_ne {lower : CBlockIndex H} {rest : PIndex H}
    (h : Indexed mapBlockIndex (pindex :: pprev)) (hbelow : lower :: rest <:+ pprev) :
    lower.hash ≠ pindex.hash := by
  intro heq
  have hlook := (h lower rest (hbelow.trans (suffix_cons _ _))).1
  rw [heq, (h pindex pprev suffix_rfl).1] at hlook
  have hlength := hbelow.length_le
  rw [← Option.some.inj hlook, length_cons] at hlength
  omega

/-- Links start at the entries below the last one. -/
theorem mem_linksOf {hash : H} (h : hash ∈ linksOf (pindex :: pprev)) :
    ∃ lower rest, lower :: rest <:+ pprev ∧ lower.hash = hash := by
  induction pprev generalizing pindex with
  | nil => simp [linksOf, link] at h
  | cons prev rest ih =>
    rw [linksOf, link, ExtTreeMap.mem_insert] at h
    rcases h with heq | hmem
    · exact ⟨prev, rest, suffix_rfl, LawfulEqCmp.eq_of_compare heq⟩
    · obtain ⟨lower, rest', hsuffix, hhash⟩ := ih hmem
      exact ⟨lower, rest', hsuffix.trans (suffix_cons _ _), hhash⟩

/-- The last entry has no `pnext`. -/
theorem Indexed.not_mem_linksOf (h : Indexed mapBlockIndex (pindex :: pprev)) :
    pindex.hash ∉ linksOf (pindex :: pprev) := by
  intro hmem
  obtain ⟨lower, rest, hsuffix, hhash⟩ := mem_linksOf hmem
  exact h.hash_ne hsuffix hhash

theorem Indexed.unlink_linksOf (h : Indexed mapBlockIndex (pindex :: pprev)) :
    unlink (linksOf (pindex :: pprev)) (pindex, pprev) = linksOf pprev := by
  cases pprev with
  | nil => rfl
  | cons prev rest =>
    exact FinMap.erase_insert _ (h.suffix (suffix_cons _ _)).not_mem_linksOf

theorem Indexed.getElem?_linksOf {next : CBlockIndex H} (h : Indexed mapBlockIndex path)
    (hsuffix : next :: pindex :: pprev <:+ path) : (linksOf path)[pindex.hash]? = some next.hash := by
  induction path with
  | nil => simp at hsuffix
  | cons top below ih =>
    rcases suffix_cons_iff.mp hsuffix with heq | hbelow
    · cases heq
      exact ExtTreeMap.getElem?_insert_self
    · have hindexed := h.suffix (suffix_cons top below)
      cases below with
      | nil => simp at hbelow
      | cons prev rest =>
        have hunder : pindex :: pprev <:+ rest := by
          rcases suffix_cons_iff.mp hbelow with heq | hunder
          · cases heq
            exact suffix_rfl
          · exact (suffix_cons _ _).trans hunder
        rw [linksOf, link, FinMap.getElem?_insert_ne _ _ (hindexed.hash_ne hunder).symm]
        exact ih hindexed hbelow

/-- **The links lead from an entry exactly to the end of the path.** -/
theorem Indexed.follow_linksOf {above : PIndex H} {n : Nat} (h : Indexed mapBlockIndex path)
    (hpath : path = above ++ pindex :: pprev) (hn : above.length ≤ n) :
      follow (linksOf path) n pindex.hash = pindex.hash :: above.reverse.map CBlockIndex.hash := by
  induction above using List.reverseRecOn generalizing n pindex pprev with
  | nil =>
    have hend : (linksOf path)[pindex.hash]? = none := by
      rw [hpath] at h ⊢
      exact ExtTreeMap.getElem?_eq_none h.not_mem_linksOf
    cases n with
    | zero => rfl
    | succ n => rw [follow, hend]; rfl
  | append_singleton above next ih =>
    rw [append_assoc, singleton_append] at hpath
    rw [length_append, length_singleton] at hn
    have hnext := h.getElem?_linksOf (hpath ▸ suffix_append above (next :: pindex :: pprev))
    cases n with
    | zero => omega
    | succ n =>
      have hrest := ih hpath (Nat.le_of_succ_le_succ hn)
      rw [follow, hnext]
      simp only [hrest, reverse_append, reverse_singleton, singleton_append, map_cons]

variable [DecidableEq H]

theorem Indexed.foldl_unlink (h : Indexed mapBlockIndex path) (hsuffix : pfork <:+ path) :
    (downTo pfork path).foldl unlink (linksOf path) = linksOf pfork := by
  induction path with
  | nil => rw [suffix_nil.mp hsuffix]; rfl
  | cons pindex pprev ih =>
    rcases suffix_cons_iff.mp hsuffix with rfl | hbelow
    · rw [downTo_self]
      rfl
    · rw [downTo_cons _ hbelow, foldl_cons, h.unlink_linksOf]
      exact ih (h.suffix (suffix_cons _ _)) hbelow

omit [LawfulEqOrd H] in
/-- `Reorganize` links up from the fork. -/
theorem foldl_link (hsuffix : pfork <:+ path) :
    (downTo pfork path).reverse.foldl link (linksOf pfork) = linksOf path := by
  induction path with
  | nil => rw [suffix_nil.mp hsuffix]; rfl
  | cons pindex pprev ih =>
    rcases suffix_cons_iff.mp hsuffix with rfl | hbelow
    · rw [downTo_self]
      rfl
    · rw [downTo_cons _ hbelow, reverse_cons, foldl_append, ih hbelow]
      rfl

end Node

namespace Ledger

variable {H : Type} [Ord H] [TransOrd H] [DecidableEq H]

/-- The transaction index after connecting the blocks of a path. -/
def ofPath (c : Consensus H) (files : Nat → Nat → Option (CBlock H)) :
    PIndex H → Option (TxIndexMap H)
  | [] => none
  | [_] => some ∅
  | pindex :: prev :: rest =>
    (ofPath c files (prev :: rest)).bind fun index =>
      (files pindex.nFile pindex.nBlockPos).bind fun block =>
        connectBlock c.toSha256 block pindex index

/-- The transactions of the block of an entry. -/
def vtxOf (files : Nat → Nat → Option (CBlock H)) (pindex : CBlockIndex H) :
    List (CTransaction H) :=
  ((files pindex.nFile pindex.nBlockPos).map CBlock.vtx).getD []

/-- The transactions of the blocks of a path, oldest first. -/
def txsOf (files : Nat → Nat → Option (CBlock H)) : PIndex H → List (CTransaction H)
  | [] => []
  | [_] => []
  | pindex :: prev :: rest => txsOf files (prev :: rest) ++ vtxOf files pindex

omit [Ord H] [TransOrd H] in
theorem txsOf_downTo (files : Nat → Nat → Option (CBlock H)) {path pfork : PIndex H}
    (hne : pfork ≠ []) (hsuffix : pfork <:+ path) : txsOf files path = txsOf files pfork ++
      (downTo pfork path).reverse.flatMap fun entry => vtxOf files entry.1 := by
  induction path with
  | nil => exact absurd (suffix_nil.mp hsuffix) hne
  | cons pindex pprev ih =>
    rcases suffix_cons_iff.mp hsuffix with rfl | hbelow
    · rw [downTo_self, reverse_nil, flatMap_nil, append_nil]
    · cases pprev with
      | nil => exact absurd (suffix_nil.mp hbelow) hne
      | cons prev rest =>
        rw [txsOf, ih hbelow, downTo_cons _ hbelow, reverse_cons, flatMap_append,
          flatMap_singleton, append_assoc]

/-- The index is that of a path whose blocks were checked when they were
connected. -/
inductive Chained (c : Consensus H) (files : Nat → Nat → Option (CBlock H)) :
    PIndex H → TxIndexMap H → Prop
  | genesis (pindex : CBlockIndex H) : Chained c files [pindex] ∅
  | connect {pindex prev : CBlockIndex H} {rest : PIndex H} {block : CBlock H}
      {coinbase : CTransaction H} {others : List (CTransaction H)} {index index' : TxIndexMap H}
      (hprev : Chained c files (prev :: rest) index)
      (hfile : files pindex.nFile pindex.nBlockPos = some block)
      (hshape : block.Shape c coinbase others) (htagged : coinbase.Tagged pindex.nHeight)
      (hheight : pindex.nHeight = prev.nHeight + 1)
      (hconnect : connectBlock c.toSha256 block pindex index = some index') :
      Chained c files (pindex :: prev :: rest) index'

variable {c : Consensus H} {files files' : Nat → Nat → Option (CBlock H)} {path : PIndex H}
  {index : TxIndexMap H}

theorem Chained.ofPath (h : Chained c files path index) : ofPath c files path = some index := by
  induction h with
  | genesis pindex => rfl
  | connect _ hfile _ _ _ hconnect ih =>
    rw [Ledger.ofPath, ih, Option.bind_some, hfile, Option.bind_some, hconnect]

/-- New blocks do not change what a path stands for. -/
theorem Chained.extend (h : Chained c files path index) (hext : FilesExtend files files') :
    Chained c files' path index := by
  induction h with
  | genesis pindex => exact .genesis pindex
  | connect _ hfile hshape htagged hheight hconnect ih =>
    exact .connect ih (hext _ _ _ hfile) hshape htagged hheight hconnect

/-- Nor its transactions. -/
theorem Chained.txsOf_extend (h : Chained c files path index) (hext : FilesExtend files files') :
    txsOf files' path = txsOf files path := by
  induction h with
  | genesis pindex => rfl
  | connect _ hfile _ _ _ _ ih =>
    rw [txsOf, txsOf, ih, vtxOf, vtxOf, hfile, hext _ _ _ hfile]

theorem Chained.ne_nil (h : Chained c files path index) : path ≠ [] := by
  cases h with
  | genesis pindex => exact cons_ne_nil _ _
  | connect _ _ _ _ _ _ => exact cons_ne_nil _ _

variable [LawfulEqOrd H]

theorem Chained.connected (hinj : Function.Injective c.sha256) (h : Chained c files path index) :
    ∃ pindex pprev, path = pindex :: pprev ∧ Connected c index (txsOf files path) pindex.nHeight := by
  induction h with
  | genesis pindex => exact ⟨pindex, [], rfl, connected_empty c _⟩
  | connect _ hfile hshape htagged hheight hconnect ih =>
    obtain ⟨prev, rest, hpath, hconnected⟩ := ih
    cases hpath
    refine ⟨_, _, rfl, ?_⟩
    rw [txsOf, vtxOf, hfile]
    exact (hconnected.block hinj hshape htagged (by omega) hconnect).2

/-- **Inversion.**  The last block of a path was connected to what the path
before it stands for, and its transactions were new. -/
theorem Chained.last (hinj : Function.Injective c.sha256) {pindex prev : CBlockIndex H}
    {rest : PIndex H} (h : Chained c files (pindex :: prev :: rest) index) :
    ∃ block before, files pindex.nFile pindex.nBlockPos = some block ∧ Chained c files (prev :: rest) before ∧
      FreshTxs c.toSha256 pindex.nFile pindex.nBlockPos (block.firstTxPos pindex.nBlockPos) block.vtx before ∧
      connectBlock c.toSha256 block pindex before = some index := by
  cases h with
  | connect hprev hfile hshape htagged hheight hconnect =>
    obtain ⟨_, _, hpath, hconnected⟩ := hprev.connected hinj
    cases hpath
    exact ⟨_, _, hfile, hprev, (hconnected.block hinj hshape htagged (by omega) hconnect).1, hconnect⟩

omit [LawfulEqOrd H] in
theorem Chained.suffix {pfork : PIndex H} (h : Chained c files path index) (hne : pfork ≠ [])
    (hsuffix : pfork <:+ path) : ∃ before, Chained c files pfork before := by
  induction h with
  | genesis pindex =>
    rcases suffix_cons_iff.mp hsuffix with rfl | hnil
    · exact ⟨∅, .genesis pindex⟩
    · exact absurd (suffix_nil.mp hnil) hne
  | connect hprev hfile hshape htagged hheight hconnect ih =>
    rcases suffix_cons_iff.mp hsuffix with rfl | hbelow
    · exact ⟨_, .connect hprev hfile hshape htagged hheight hconnect⟩
    · exact ih hbelow

variable {o : COutPoint H} {tx : CTransaction H}

theorem Chained.marked (hinj : Function.Injective c.sha256) (h : Chained c files path index)
    (htx : tx ∈ txsOf files path) (ho : o ∈ spends c.toSha256 tx) : Marked index o := by
  obtain ⟨_, _, _, hconnected⟩ := h.connected hinj
  unfold spends at ho
  split at ho
  · cases ho
  · rename_i hcoinbase
    obtain ⟨txin, htxin, rfl⟩ := mem_map.mp ho
    exact hconnected.spent tx htx (by simpa using hcoinbase) txin htxin

theorem Chained.spends_entered (hinj : Function.Injective c.sha256)
    (h : Chained c files path index) (htx : tx ∈ txsOf files path) (ho : o ∈ spends c.toSha256 tx) :
    ∃ prev ∈ txsOf files path, prev.getHash c.toSha256 = o.hash := by
  obtain ⟨txindex, _, hlook, _⟩ := h.marked hinj htx ho
  obtain ⟨_, _, _, hconnected⟩ := h.connected hinj
  exact hconnected.entered _ ((FinMap.mem_iff_exists _ _).mpr ⟨txindex, hlook⟩)

omit [DecidableEq H] in
/-- A row of marks is only made where there are none. -/
theorem not_marked_of_foldlM_spend {pos : CDiskTxPos} {ps : List (COutPoint H)}
    {index' : TxIndexMap H} (h : ps.foldlM (spend pos) index = some index')
    (ho : o ∈ ps) : ¬ Marked index o := by
  induction ps generalizing index with
  | nil => cases ho
  | cons p ps ih =>
    intro hmarked
    obtain ⟨mid, hmid, hrest⟩ := OptionLoop.foldlM_cons h
    rcases List.mem_cons.mp ho with rfl | ho
    · obtain ⟨txindex, pos', hlook, hspent⟩ := hmarked
      obtain ⟨txindex', hlook', hfree, _⟩ := spend_eq_some.mp hmid
      rw [hlook] at hlook'
      cases hlook'
      rw [hspent] at hfree
      cases hfree
    · exact ih hrest ho (hmarked.spend hmid)

/-- **New transactions spend what was not spent before them.** -/
theorem not_marked_of_connectTxs {nFile nBlockPos nTxPos : Nat} {txs : List (CTransaction H)}
    {index' : TxIndexMap H} (hfresh : FreshTxs c.toSha256 nFile nBlockPos nTxPos txs index)
    (h : connectTxs c.toSha256 nFile nBlockPos nTxPos txs index = some index') (htx : tx ∈ txs)
    (ho : o ∈ spends c.toSha256 tx) : ¬ Marked index o := by
  induction txs generalizing nTxPos index with
  | nil => cases htx
  | cons first txs ih =>
    obtain ⟨mid, hmid, hrest⟩ := Option.bind_eq_some_iff.mp h
    obtain ⟨spent, hspent, hview⟩ := Option.map_eq_some_iff.mp hmid
    rcases List.mem_cons.mp htx with rfl | htx
    · exact not_marked_of_foldlM_spend hspent ho
    · intro hmarked
      obtain ⟨_, hkept, hkeys⟩ := foldlM_spend_marked hspent
      refine ih (hfresh.2 mid hmid) hrest htx ?_
      rw [← hview]
      exact (hkept o hmarked).insert _ fun hmem => hfresh.1 ((hkeys _).mp hmem)

/-- **What a block above a fork spends, no transaction below the fork spends.** -/
theorem Chained.not_spent_below (hinj : Function.Injective c.sha256) {pfork : PIndex H}
    (h : Chained c files path index) (hne : pfork ≠ []) (hsuffix : pfork <:+ path)
    {entry : CBlockIndex H × PIndex H} (hentry : entry ∈ downTo pfork path)
    (htx : tx ∈ vtxOf files entry.1) (ho : o ∈ spends c.toSha256 tx) {other : CTransaction H}
    (hother : other ∈ txsOf files pfork) : o ∉ spends c.toSha256 other := by
  intro ho'
  obtain ⟨habove, hbelow⟩ := mem_downTo hsuffix hentry
  obtain ⟨reached, hreached⟩ := h.suffix (cons_ne_nil _ _) habove
  cases hpprev : entry.2 with
  | nil => exact hne (suffix_nil.mp (hpprev ▸ hbelow))
  | cons prev rest =>
    rw [hpprev] at hreached hbelow
    obtain ⟨block, before, hfile, hbefore, hfresh, hconnect⟩ := hreached.last hinj
    rw [vtxOf, hfile] at htx
    have hlower : other ∈ txsOf files (prev :: rest) := by
      rw [txsOf_downTo files hne hbelow]
      exact mem_append_left _ hother
    exact not_marked_of_connectTxs hfresh hconnect htx ho (hbefore.marked hinj hlower ho')

end Ledger

end MaryJaneCoin
