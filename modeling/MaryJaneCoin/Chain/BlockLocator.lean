import MaryJaneCoin.Chain.CheckpointFinality
import MaryJaneCoin.Chain.StakeSeen

/-!
# Block locators

`CBlockLocator` of `main.h`.  A locator has the hashes of a block and of blocks below it, first
each one and then with steps that double.  Another node takes the first one that is on its own
best chain: that block is at most about twice as far down as the place where the chains part.

The steps and distances are natural numbers here.  A path has fewer than `2 ^ 31` blocks, as
`nHeight` is an `int`, and what `Set` walks and `GetDistanceBack` returns stays
below that. -/

namespace MaryJaneCoin

open Std List Option Nat Function

structure CBlockLocator (H : Type) where
  vHave : List H

namespace CBlockLocator

variable {H : Type}

/-- The loop of `Set`.  Of the `nStep` links down the first one leads to `pprev`. -/
def setLoop (vHave : List H) (nStep : Nat) : PIndex H → List H
  | [] => vHave
  | pindex :: pprev =>
    let vHave := vHave ++ [pindex.hash]
    setLoop vHave (if vHave.length > 10 then nStep * 2 else nStep) (pprev.drop (nStep - 1))
termination_by path => path.length
decreasing_by
  rw [List.length_drop, List.length_cons]
  omega

def set (hashGenesisBlock : H) (pindex : PIndex H) : CBlockLocator H :=
  ⟨setLoop [] 1 pindex ++ [hashGenesisBlock]⟩

variable [Ord H] [TransOrd H] [DecidableEq H]

def mainChainEntry (s : Node H) (hash : H) : Option (PIndex H) :=
  match s.mapBlockIndex[hash]? with
  | some (pindex :: pprev) => if s.isInMainChain pindex pprev then some (pindex :: pprev) else none
  | _ => none

/-- The loop of `GetDistanceBack`. -/
def distanceLoop (s : Node H) : List H → Nat → Nat → Nat
  | [], nDistance, _ => nDistance
  | hash :: vHave, nDistance, nStep =>
    if (mainChainEntry s hash).isSome then nDistance
    else
      let nDistance := nDistance + nStep
      distanceLoop s vHave nDistance (if nDistance > 10 then nStep * 2 else nStep)

def getDistanceBack (locator : CBlockLocator H) (s : Node H) : Nat := distanceLoop s locator.vHave 0 1

def getBlockIndex (locator : CBlockLocator H) (s : Node H) : PIndex H :=
  (locator.vHave.findSome? (mainChainEntry s)).getD s.pindexGenesisBlock

/-- How far down the entry with this number stands. -/
def depth : Nat → Nat
  | 0 => 0
  | e + 1 => depth e + 2 ^ (e - 10)

theorem depth_small {e : Nat} (he : e ≤ 10) : depth e = e := by
  induction e with
  | zero => rfl
  | succ e ih =>
    rw [depth, ih (by omega), Nat.sub_eq_zero_of_le (by omega), Nat.pow_zero]

theorem depth_large (k : Nat) : depth (10 + k) = 9 + 2 ^ k := by
  induction k with
  | zero => rfl
  | succ k ih =>
    rw [← Nat.add_assoc, depth, ih, Nat.add_sub_cancel_left, Nat.pow_succ]
    omega

theorem depth_lt (e : Nat) : depth e < depth (e + 1) := Nat.lt_add_of_pos_right (Nat.pow_pos (by decide))

theorem depth_mono : Monotone depth := monotone_nat_of_le_succ fun e => (depth_lt e).le

theorem le_depth (e : Nat) : e ≤ depth e := by
  induction e with
  | zero => exact Nat.zero_le _
  | succ e ih => exact Nat.lt_of_le_of_lt ih (depth_lt e)

/-- The step behind an entry doubles from the eleventh entry on. -/
theorem next_step (e : Nat) : (if e + 1 > 10 then 2 ^ (e - 10) * 2 else 2 ^ (e - 10)) = 2 ^ (e + 1 - 10) := by
  split
  · rw [← Nat.pow_succ]
    congr 1
    omega
  · rw [Nat.sub_eq_zero_of_le (by omega), Nat.sub_eq_zero_of_le (by omega)]

/-- `GetDistanceBack` doubles its step at the same entries as `Set`. -/
theorem depth_gt_iff (e : Nat) : depth (e + 1) > 10 ↔ e + 1 > 10 := by
  constructor
  · intro h
    by_contra hsmall
    rw [depth_small (Nat.not_lt.mp hsmall)] at h
    exact hsmall h
  · intro h
    exact Nat.lt_of_lt_of_le h (le_depth _)

/-- **The first entry at or below a depth** is not much further down. -/
theorem first_depth (d : Nat) :
    ∃ e, d ≤ depth e ∧ (∀ e' < e, depth e' < d) ∧ depth e ≤ max d (2 * d - 9) := by
  have hex : ∃ e, d ≤ depth e := ⟨d, le_depth d⟩
  refine ⟨Nat.find hex, Nat.find_spec hex, fun e' he' => Nat.not_le.mp (Nat.find_min hex he'), ?_⟩
  rcases Nat.lt_or_ge 10 (Nat.find hex) with hlarge | hsmall
  swap
  · -- Each block is an entry here.
    have hdepth := depth_small hsmall
    cases hfind : Nat.find hex with
    | zero => exact Nat.zero_le _
    | succ e =>
      have hbefore := Nat.find_min hex (show e < Nat.find hex by omega)
      rw [hfind] at hsmall hdepth
      rw [depth_small (by omega)] at hbefore
      omega
  · obtain ⟨k, hk⟩ := Nat.exists_eq_add_of_le hlarge
    have hbefore := Nat.find_min hex (show 10 + k < Nat.find hex by omega)
    rw [depth_large] at hbefore
    have hdepth : depth (Nat.find hex) = 9 + 2 ^ (k + 1) := by
      rw [hk, ← depth_large]
      congr 1
      omega
    rw [hdepth, Nat.pow_succ]
    omega

section

omit [Ord H] [TransOrd H] [DecidableEq H]

/-- **The entries of `Set`** are the hashes at these depths. -/
theorem getElem?_setLoop {path : PIndex H} {vHave : List H} (below : PIndex H)
    {e : Nat} (hbelow : below = path.drop (depth e))
    (hlength : vHave.length = e)
    (hsofar : ∀ i < e, vHave[i]? = (path.map CBlockIndex.hash)[depth i]?) (i : Nat) :
    (setLoop vHave (2 ^ (e - 10)) below)[i]? = (path.map CBlockIndex.hash)[depth i]? := by
  induction hn : below.length using Nat.strong_induction_on generalizing below vHave e with
  | _ n ih =>
    cases below with
    | nil =>
      rw [setLoop]
      rcases Nat.lt_or_ge i e with hi | hi
      · exact hsofar i hi
      · have hend : path.length ≤ depth e := drop_eq_nil_iff.mp hbelow.symm
        rw [getElem?_eq_none (by omega), getElem?_eq_none]
        rw [length_map]
        exact hend.trans (depth_mono hi)
    | cons pindex pprev =>
      have hhere : path[depth e]? = some pindex := by
        rw [← head?_drop, ← hbelow]
        rfl
      have hnext : pprev.drop (2 ^ (e - 10) - 1) = path.drop (depth (e + 1)) := by
        rw [depth, ← drop_drop, ← hbelow]
        obtain ⟨k, hk⟩ := Nat.exists_eq_add_of_lt (Nat.pow_pos (n := e - 10) (show 0 < 2 by decide))
        rw [hk, Nat.zero_add, Nat.add_sub_cancel, drop_succ_cons]
      have hpushed : (vHave ++ [pindex.hash]).length = e + 1 := by
        rw [length_append, hlength]
        rfl
      rw [setLoop, hpushed, next_step]
      refine ih _ ?_ (pprev.drop (2 ^ (e - 10) - 1)) hnext hpushed ?_ rfl
      · rw [length_drop, ← hn, length_cons]
        omega
      · intro i hi
        rcases Nat.lt_succ_iff_lt_or_eq.mp hi with hlt | heq
        · rw [getElem?_append_left (by omega)]
          exact hsofar i hlt
        · rw [heq, ← hlength, getElem?_concat_length, hlength, getElem?_map, hhere]
          rfl

theorem getElem?_entries (path : PIndex H) (i : Nat) :
    (setLoop [] 1 path)[i]? = (path.map CBlockIndex.hash)[depth i]? :=
  getElem?_setLoop (e := 0) path rfl rfl (fun i hi => absurd hi (Nat.not_lt_zero i)) i

end

/-- **The distance** that `GetDistanceBack` returns is the depth of the entry that it stops at. -/
theorem distanceLoop_eq {s : Node H} {vHave : List H} {hash : H} {e i : Nat}
    (hi : vHave[i]? = some hash) (hmain : (mainChainEntry s hash).isSome = true)
    (hbefore : ∀ j < i, ∀ other ∈ vHave[j]?, (mainChainEntry s other).isSome = false) :
    distanceLoop s vHave (depth e) (2 ^ (e - 10)) = depth (e + i) := by
  induction vHave generalizing e i with
  | nil => cases hi
  | cons first rest ih =>
    cases i with
    | zero =>
      cases hi
      rw [distanceLoop, if_pos hmain, Nat.add_zero]
    | succ i =>
      have hfirst := hbefore 0 (succ_pos i) first rfl
      have hdepth : depth e + 2 ^ (e - 10) = depth (e + 1) := rfl
      rw [distanceLoop, if_neg (Bool.eq_false_iff.mp hfirst), hdepth]
      simp only [depth_gt_iff, next_step]
      rw [ih hi fun j hj => hbefore (j + 1) (succ_lt_succ hj)]
      congr 1
      omega

end CBlockLocator

namespace Node

variable {H : Type} [Ord H] [TransOrd H] {s t : Node H} {path : PIndex H}
    {pindex : CBlockIndex H} {pprev : PIndex H}

/-- The block index is a tree with this root, and has the best chain in it that `pnext` links. -/
structure BlockTree (hashGenesisBlock : H) (s : Node H) : Prop where
  inOrder : s.InOrder
  root : ∀ (hash : H) (path : PIndex H), s.mapBlockIndex[hash]? = some path →
    path.getLast?.map CBlockIndex.hash = some hashGenesisBlock
  genesis : ∃ first, s.pindexGenesisBlock = [first] ∧ [first] <:+ s.pindexBest

/-- A block that is in both trees has one parent: its hash is also that of the parent's hash. -/
def SameParents (s t : Node H) : Prop :=
  ∀ (hash : H) (pindex pindex' : CBlockIndex H) (pprev pprev' : PIndex H),
    s.mapBlockIndex[hash]? = some (pindex :: pprev) → t.mapBlockIndex[hash]? =
    some (pindex' :: pprev') → pprev.head?.map CBlockIndex.hash = pprev'.head?.map CBlockIndex.hash

/-- The block with this hash is on the best chain. -/
def OnBestChain (s : Node H) (hash : H) : Prop :=
  ∃ pindex pprev, pindex :: pprev <:+ s.pindexBest ∧ pindex.hash = hash

/-- The highest block of the path that is on the best chain of the node lies `d` blocks below the
top. -/
def ForkDepth (s : Node H) (path : PIndex H) (d : Nat) : Prop :=
  (∃ hash ∈ (path.map CBlockIndex.hash)[d]?, s.OnBestChain hash) ∧
    ∀ k < d, ∀ hash ∈ (path.map CBlockIndex.hash)[k]?, ¬s.OnBestChain hash

variable [LawfulEqOrd H] [DecidableEq H]

theorem InOrder.isInMainChain_of_suffix (h : s.InOrder)
    (hsuffix : pindex :: pprev <:+ s.pindexBest) : s.isInMainChain pindex pprev = true := by
  rw [isInMainChain, Bool.or_eq_true, decide_eq_true_eq]
  rcases Nat.lt_or_ge (pprev.length + 1) s.pindexBest.length with hbelow | htop
  · left
    obtain ⟨above, habove⟩ := hsuffix
    have hne : above ≠ [] := by
      rintro rfl
      rw [← habove] at hbelow
      exact Nat.lt_irrefl _ hbelow
    have hnext : above.getLast hne :: pindex :: pprev <:+ s.pindexBest := by
      refine ⟨above.dropLast, ?_⟩
      rw [← singleton_append, ← append_assoc, dropLast_append_getLast hne, habove]
    rw [h.links, ExtTreeMap.contains_iff_mem]
    exact (FinMap.mem_iff_exists _ _).mpr ⟨_, h.best.getElem?_linksOf hnext⟩
  · exact .inr (hsuffix.eq_of_length_le htop)

/-- **What the lookup of a locator finds** are the hashes of the best chain. -/
theorem InOrder.mainChainEntry_iff (h : s.InOrder) {hash : H} :
    CBlockLocator.mainChainEntry s hash = some path ↔
      path <:+ s.pindexBest ∧ path.head?.map CBlockIndex.hash = some hash := by
  constructor
  · intro hfound
    rw [CBlockLocator.mainChainEntry] at hfound
    split at hfound
    · next pindex pprev hlook =>
        split at hfound
        · next hmain =>
            cases hfound
            exact ⟨h.suffix_of_isInMainChain hlook hmain, (h.path hash _ hlook).2⟩
        · cases hfound
    · cases hfound
  · rintro ⟨hsuffix, hhash⟩
    cases path with
    | nil => cases hhash
    | cons pindex pprev =>
      have hlook := (h.best pindex pprev hsuffix).1
      rw [Option.some.inj hhash] at hlook
      rw [CBlockLocator.mainChainEntry, hlook]
      exact if_pos (h.isInMainChain_of_suffix hsuffix)

theorem InOrder.isSome_mainChainEntry (h : s.InOrder) {hash : H} :
    (CBlockLocator.mainChainEntry s hash).isSome = true ↔ s.OnBestChain hash := by
  rw [isSome_iff_exists]
  constructor
  · rintro ⟨path, hfound⟩
    obtain ⟨hsuffix, hhash⟩ := h.mainChainEntry_iff.mp hfound
    cases path with
    | nil => cases hhash
    | cons pindex pprev => exact ⟨pindex, pprev, hsuffix, Option.some.inj hhash⟩
  · rintro ⟨pindex, pprev, hsuffix, hhash⟩
    exact ⟨pindex :: pprev, h.mainChainEntry_iff.mpr ⟨hsuffix, congrArg some hhash⟩⟩

omit [LawfulEqOrd H] [DecidableEq H] in
/-- **Below a block of the best chain** the blocks are on it as well. -/
theorem SameParents.onBestChain_succ (hsame : SameParents s t)
    (ht : t.InOrder) (hindexed : Indexed s.mapBlockIndex path)
    {k : Nat} {hash parent : H} (hhash : (path.map CBlockIndex.hash)[k]? = some hash)
    (hparent : (path.map CBlockIndex.hash)[k + 1]? = some parent) (hmain : t.OnBestChain hash) :
    t.OnBestChain parent := by
  obtain ⟨pindex', pprev', hsuffix, rfl⟩ := hmain
  rw [getElem?_map, map_eq_some_iff] at hhash hparent
  obtain ⟨pindex, hpindex, hhash⟩ := hhash
  obtain ⟨prev, hprev, rfl⟩ := hparent
  have hdrop : path.drop k = pindex :: path.drop (k + 1) := by
    rw [← head?_drop] at hpindex
    rw [← tail_drop]
    exact (cons_head?_tail hpindex).symm
  have hlook := (hindexed pindex _ (hdrop ▸ drop_suffix k path)).1
  rw [hhash] at hlook
  have hheads := hsame _ _ _ _ _ hlook (ht.best _ _ hsuffix).1
  rw [head?_drop, hprev] at hheads
  cases pprev' with
  | nil => cases hheads
  | cons prev' rest =>
    exact ⟨prev', rest, (suffix_cons _ _).trans hsuffix, (Option.some.inj hheads).symm⟩

omit [Ord H] [TransOrd H] [LawfulEqOrd H] [DecidableEq H] in
theorem findSome?_at {α β : Type} {f : α → Option β} {items : List α} {i : Nat} {a : α} {b : β}
    (hi : items[i]? = some a) (hf : f a = some b)
    (hbefore : ∀ j < i, ∀ other ∈ items[j]?, f other = none) : items.findSome? f = some b := by
  induction items generalizing i with
  | nil => cases hi
  | cons first rest ih =>
    cases i with
    | zero =>
      cases hi
      rw [findSome?_cons, hf]
    | succ i =>
      rw [findSome?_cons, hbefore 0 (succ_pos i) first rfl]
      exact ih hi fun j hj => hbefore (j + 1) (succ_lt_succ hj)

variable {hashGenesisBlock hash : H}

section

omit [LawfulEqOrd H] [DecidableEq H]

theorem BlockTree.genesis_hash (h : BlockTree hashGenesisBlock s) : ∃ first,
    s.pindexGenesisBlock = [first] ∧ [first] <:+ s.pindexBest ∧ first.hash = hashGenesisBlock := by
  obtain ⟨first, hfirst, hsuffix⟩ := h.genesis
  refine ⟨first, hfirst, hsuffix, ?_⟩
  have hroot := h.root first.hash [first] (h.inOrder.best first [] hsuffix).1
  exact Option.some.inj hroot

/-- **The chains part somewhere.** -/
theorem BlockTree.exists_forkDepth (hs : BlockTree hashGenesisBlock s) (ht : BlockTree hashGenesisBlock t)
    (hlook : s.mapBlockIndex[hash]? = some path) : ∃ d, t.ForkDepth path d := by
  classical
  obtain ⟨first, -, hsuffix, hfirst⟩ := ht.genesis_hash
  have hroot := hs.root hash path hlook
  rw [getLast?_eq_getElem?, ← getElem?_map] at hroot
  have hex : ∃ k, ∃ hash ∈ (path.map CBlockIndex.hash)[k]?, t.OnBestChain hash :=
    ⟨_, _, hroot, first, [], hsuffix, hfirst⟩
  refine ⟨Nat.find hex, Nat.find_spec hex, fun k hk hash hhash hmain => ?_⟩
  exact Nat.find_min hex hk ⟨hash, hhash, hmain⟩

theorem BlockTree.onBestChain_of_le (hs : BlockTree hashGenesisBlock s) (ht : BlockTree hashGenesisBlock t)
    (hsame : SameParents s t) (hlook : s.mapBlockIndex[hash]? = some path)
    {d k : Nat} (hfork : t.ForkDepth path d)
    (hk : d ≤ k) {other : H} (hother : (path.map CBlockIndex.hash)[k]? = some other) :
        t.OnBestChain other := by
  have hindexed := (hs.inOrder.path hash path hlook).1
  induction k, hk using le_induction generalizing other with
  | base =>
    obtain ⟨found, hfound, hmain⟩ := hfork.1
    cases hother.symm.trans hfound
    exact hmain
  | succ k _ ih =>
    have hlt : k < (path.map CBlockIndex.hash).length :=
      lt_of_succ_lt (List.getElem?_eq_some_iff.mp hother).1
    have hbefore := getElem?_eq_getElem hlt
    exact hsame.onBestChain_succ ht.inOrder hindexed hbefore hother (ih hbefore)

end

/-- **A locator finds the fork.**  Built from a block of one tree and looked up in another, it gives
a block of the best chain there that is the block or an ancestor of it: genesis, or one that is not
much further down than the place where the chains part.  `GetDistanceBack` gives its depth, unless
only the appended hash of genesis was found. -/
theorem locator_finds_fork (hs : BlockTree hashGenesisBlock s) (ht : BlockTree hashGenesisBlock t)
    (hsame : SameParents s t) (hlook : s.mapBlockIndex[hash]? = some path) :
    let locator := CBlockLocator.set hashGenesisBlock path
    ∃ (found : CBlockIndex H) (below : PIndex H) (k d : Nat),
      locator.getBlockIndex t = found :: below ∧ found :: below <:+ t.pindexBest ∧
      (path.map CBlockIndex.hash)[k]? = some found.hash ∧ t.ForkDepth path d ∧
      (found :: below = t.pindexGenesisBlock ∨ k ≤ max d (2 * d - 9)) ∧
      ((∃ hash ∈ locator.vHave.dropLast, t.OnBestChain hash) → locator.getDistanceBack t = k) := by
  intro locator
  obtain ⟨d, hfork⟩ := hs.exists_forkDepth ht hlook
  obtain ⟨e, hle, hbefore, hnear⟩ := CBlockLocator.first_depth d
  set entries := CBlockLocator.setLoop [] 1 path with hentries
  have hvHave : locator.vHave = entries ++ [hashGenesisBlock] := rfl
  have hentry : ∀ i, entries[i]? = (path.map CBlockIndex.hash)[CBlockLocator.depth i]? :=
    CBlockLocator.getElem?_entries path
  -- What stands in front of the entry `e` lies above the fork.
  have habove : ∀ j < e, ∀ other ∈ entries[j]?, ¬t.OnBestChain other := by
    intro j hj other hother
    rw [hentry] at hother
    exact hfork.2 _ (hbefore j hj) other hother
  have hnone : ∀ {other : H}, ¬t.OnBestChain other → CBlockLocator.mainChainEntry t other = none := by
    intro other hnot
    rw [← ht.inOrder.isSome_mainChainEntry] at hnot
    exact Option.not_isSome_iff_eq_none.mp hnot
  rcases Nat.lt_or_ge (CBlockLocator.depth e) path.length with hinside | hpast
  · -- The entry `e` is the first one that is on the best chain.
    have hlt : CBlockLocator.depth e < (path.map CBlockIndex.hash).length := by
      rw [length_map]
      exact hinside
    set other := (path.map CBlockIndex.hash)[CBlockLocator.depth e] with hdef
    have hother : (path.map CBlockIndex.hash)[CBlockLocator.depth e]? = some other := getElem?_eq_getElem hlt
    have hmain := hs.onBestChain_of_le ht hsame hlook hfork hle hother
    obtain ⟨found, below, hsuffix, hfound⟩ := hmain
    have hresult : CBlockLocator.mainChainEntry t other = some (found :: below) :=
      ht.inOrder.mainChainEntry_iff.mpr ⟨hsuffix, congrArg some hfound⟩
    have hat : entries[e]? = some other := (hentry e).trans hother
    have hlength : e < entries.length := (List.getElem?_eq_some_iff.mp hat).1
    have hplace : ∀ {j : Nat}, j ≤ e → (entries ++ [hashGenesisBlock])[j]? = entries[j]? := fun hj =>
      getElem?_append_left (Nat.lt_of_le_of_lt hj hlength)
    refine ⟨found, below, CBlockLocator.depth e, d, ?_, hsuffix, hother.trans
      (congrArg some hfound.symm), hfork, .inr hnear, fun _ => ?_⟩
    · rw [CBlockLocator.getBlockIndex, hvHave, findSome?_at ((hplace (Nat.le_refl e)).trans hat) hresult]
      · rfl
      · intro j hj before hin
        rw [hplace hj.le] at hin
        exact hnone (habove j hj before hin)
    · rw [CBlockLocator.getDistanceBack, hvHave]
      have hdistance := CBlockLocator.distanceLoop_eq (s := t) (e := 0)
        ((hplace (Nat.le_refl e)).trans hat) (by rw [hresult]; rfl) (fun j hj before hin => by
          rw [hplace hj.le] at hin
          rw [hnone (habove j hj before hin)]
          rfl)
      rw [Nat.zero_add] at hdistance
      exact hdistance
  · -- Only the appended hash of genesis is left.
    obtain ⟨first, hgenesis, hsuffix, hfirst⟩ := ht.genesis_hash
    have hall : ∀ other ∈ entries, ¬t.OnBestChain other := by
      intro other hother
      obtain ⟨i, hi⟩ := mem_iff_getElem?.mp hother
      refine habove i ?_ other hi
      rw [hentry] at hi
      have hi := (List.getElem?_eq_some_iff.mp hi).1
      rw [length_map] at hi
      by_contra hnot
      exact absurd (CBlockLocator.depth_mono (Nat.not_lt.mp hnot)) (by omega)
    have hroot := hs.root hash path hlook
    rw [getLast?_eq_getElem?, ← getElem?_map] at hroot
    refine ⟨first, [], _, d, ?_, hsuffix, hroot.trans (congrArg some hfirst.symm),
      hfork, .inl hgenesis.symm, ?_⟩
    · have hresult : CBlockLocator.mainChainEntry t hashGenesisBlock = some [first] :=
        ht.inOrder.mainChainEntry_iff.mpr ⟨hsuffix, congrArg some hfirst⟩
      have hnoentry : entries.findSome? (CBlockLocator.mainChainEntry t) = none :=
        findSome?_eq_none_iff.mpr fun other hother => hnone (hall other hother)
      rw [CBlockLocator.getBlockIndex, hvHave, findSome?_append, hnoentry, Option.none_or,
        findSome?_cons, hresult]
      rfl
    · rintro ⟨other, hother, hmain⟩
      rw [hvHave, dropLast_concat] at hother
      exact absurd hmain (hall other hother)

variable {c : Consensus H} {first : CBlock H}

theorem Reachable.root (h : Reachable c first s) :
    ∀ (hash : H) (path : PIndex H), s.mapBlockIndex[hash]? = some path →
      path.getLast?.map CBlockIndex.hash = some (first.getHash c) := by
  induction h with
  | genesis =>
    intro hash path hlook
    obtain ⟨-, rfl⟩ := lookup_genesis hlook
    rfl
  | @index s written env block pindexPrev pprev nFile nBlockPos hs hprev hrules hwritten ih =>
    obtain ⟨-, -, hframe⟩ := writeToDisk_some hwritten
    have hindex : written.mapBlockIndex = s.mapBlockIndex := by rw [hframe]
    rw [← hindex] at hprev
    rw [← hindex] at ih
    intro hash path hlook
    rcases lookup_storeIndex hlook with hold | ⟨-, hpath⟩
    · exact ih hash path hold
    · rw [hpath, hprev, getD_some, getLast?_cons_cons]
      exact ih _ _ hprev
  | switch hs hlook hfile hroot hsecondaries ih =>
    rw [(stakesFollow_setBestChain _ _ _ _ _).mapBlockIndex]
    exact ih

/-- **The block index of a reachable node** is a tree. -/
theorem Reachable.blockTree (hinj : Injective c.sha256) (h : Reachable c first s) :
    BlockTree (first.getHash c) s where
  inOrder := ⟨(h.tipInv hinj).index.path, (h.tipInv hinj).tip.indexed, (h.tipInv hinj).tip.links⟩
  root := h.root
  genesis := (h.tipInv hinj).genesis

omit [LawfulEqOrd H] [DecidableEq H] in
theorem BlockTree.singleton {hashGenesisBlock : H} (h : BlockTree hashGenesisBlock s)
    (hlook : s.mapBlockIndex[hashGenesisBlock]? = some path) : path.length = 1 := by
  have hroot := h.root _ _ hlook
  obtain ⟨last, hlast, hhash⟩ := map_eq_some_iff.mp hroot
  obtain ⟨above, rfl⟩ := getLast?_eq_some_iff.mp hlast
  have hself := ((h.inOrder.path _ _ hlook).1 last [] (suffix_append _ _)).1
  rw [hhash, hlook] at hself
  rw [Option.some.inj hself]
  rfl

/-- **Two nodes with the same genesis block** have the same parents of the blocks that both have. -/
theorem Reachable.sameParents (hinj : Injective c.sha256) (hhash : Injective c.hash9)
    (hs : Reachable c first s) (ht : Reachable c first t) : SameParents s t := by
  intro hash pindex pindex' pprev pprev' hlook hlook'
  obtain ⟨-, rfl⟩ := (hs.blockTree hinj).inOrder.indexed hlook
  obtain ⟨-, hsame⟩ := (ht.blockTree hinj).inOrder.indexed hlook'
  obtain ⟨block, hstored⟩ := (hs.tipInv hinj).index.stored pindex pprev hlook
  obtain ⟨block', hstored'⟩ := (ht.tipInv hinj).index.stored pindex' pprev' (hsame ▸ hlook')
  have hheader :=
    CBlock.header_eq_of_getHash_eq hhash (hstored.hash.trans (hsame.symm.trans hstored'.hash.symm))
  have hroot := (hs.blockTree hinj).root _ _ hlook
  have hroot' := (ht.blockTree hinj).root _ _ hlook'
  cases pprev with
  | nil =>
    have hgenesis : pindex.hash = first.getHash c := Option.some.inj hroot
    rw [hgenesis] at hlook'
    have hlength := (ht.blockTree hinj).singleton hlook'
    rw [length_eq_zero_iff.mp (Nat.succ.inj hlength)]
  | cons prev rest =>
    cases pprev' with
    | nil =>
      have hgenesis : pindex'.hash = first.getHash c := Option.some.inj hroot'
      rw [← hsame, hgenesis] at hlook
      cases (hs.blockTree hinj).singleton hlook
    | cons prev' rest' =>
      rw [head?_cons, head?_cons, map_some, map_some, ← (hstored.prev prev rfl).1,
        ← (hstored'.prev prev' rfl).1, congrArg CBlockHeader.hashPrevBlock hheader]

/-- The first four blocks of the chain, and a fifth one that is not on it. -/
def forkedNode : Node (List Nat) :=
  let s := acceptAll sampleConsensus (genesis sampleConsensus sampleGenesis) (fundedChain.take 4)
  acceptAll sampleConsensus s (sampleChain 5 s.hashBestChain [[sampleCoinbase 5 [⟨0, [OP_1]⟩]]])

/-- A node with eleven blocks asks one that left its chain behind the fourth. -/
theorem locator_finds_fork_forked : ∃ found below k d,
    (CBlockLocator.set (sampleGenesis.getHash sampleConsensus) fundedNode.pindexBest).getBlockIndex
        forkedNode = found :: below ∧ found :: below <:+ forkedNode.pindexBest ∧
      (fundedNode.pindexBest.map CBlockIndex.hash)[k]? = some found.hash ∧
      forkedNode.ForkDepth fundedNode.pindexBest d ∧
      (found :: below = forkedNode.pindexGenesisBlock ∨ k ≤ max d (2 * d - 9)) := by
  have hfunded : Reachable sampleConsensus sampleGenesis fundedNode :=
    Reachable.genesis.acceptAll (by decide +kernel)
  have hforked : Reachable sampleConsensus sampleGenesis forkedNode :=
    (Reachable.genesis.acceptAll (by decide +kernel)).acceptAll (by decide +kernel)
  have hlook : fundedNode.mapBlockIndex[fundedNode.hashBestChain]? = some fundedNode.pindexBest := by
    decide +kernel
  obtain ⟨found, below, k, d, hfound, hsuffix, hk, hdepth, hnear, -⟩ := locator_finds_fork
    (hfunded.blockTree transparent_injective) (hforked.blockTree transparent_injective)
    (hfunded.sameParents transparent_injective transparent_injective hforked) hlook
  exact ⟨found, below, k, d, hfound, hsuffix, hk, hdepth, hnear⟩

end Node

end MaryJaneCoin
