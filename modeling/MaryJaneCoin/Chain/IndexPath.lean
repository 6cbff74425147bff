import MaryJaneCoin.Chain.BestChain

/-!
# Paths in the block index

A path is in the index when each of its entries is found there, under its hash
and with the rest of the path behind it, and heights count down by one.  For
such paths the fork search finds the last common entry, and the two lists of
`Reorganize` are what stands above it.
-/

namespace MaryJaneCoin

open Std List

section

variable {H : Type}

variable {nHeight : Nat}

theorem lowerTo_suffix {path lowered : PIndex H}
    (h : lowerTo nHeight path = some lowered) : lowered <:+ path := by
  induction path with
  | nil => cases h
  | cons plonger pprev ih =>
    rw [lowerTo] at h
    split at h
    · exact (ih h).trans (suffix_cons _ _)
    · rw [Option.some.inj h]

variable [DecidableEq H]

/-- An entry above the fork stands in the path, and the fork stands below it. -/
theorem mem_downTo {pfork path : PIndex H} (h : pfork <:+ path) {entry : CBlockIndex H × PIndex H}
    (hmem : entry ∈ downTo pfork path) : entry.1 :: entry.2 <:+ path ∧ pfork <:+ entry.2 := by
  induction path with
  | nil => cases hmem
  | cons pindex pprev ih =>
    rw [downTo] at hmem
    split at hmem
    · cases hmem
    · rename_i hne
      rcases suffix_cons_iff.mp h with heq | hsuffix
      · exact absurd heq.symm hne
      · rcases List.mem_cons.mp hmem with rfl | hmem
        · exact ⟨suffix_rfl, hsuffix⟩
        · obtain ⟨hentry, hfork⟩ := ih hsuffix hmem
          exact ⟨hentry.trans (suffix_cons _ _), hfork⟩

theorem downTo_self (path : PIndex H) : downTo path path = [] := by
  cases path with
  | nil => rfl
  | cons pindex pprev => rw [downTo, if_pos rfl]

theorem downTo_cons {pfork pprev : PIndex H} (pindex : CBlockIndex H) (h : pfork <:+ pprev) :
    downTo pfork (pindex :: pprev) = (pindex, pprev) :: downTo pfork pprev := by
  rw [downTo, if_neg]
  intro heq
  have hlength := h.length_le
  rw [← heq, length_cons] at hlength
  omega

variable {plonger path pfork : PIndex H}

theorem findFork_suffix (h : findFork plonger path = some pfork) :
    pfork <:+ path ∧ pfork <:+ plonger := by
  induction path generalizing plonger with
  | nil => cases h
  | cons pindex pprev ih =>
    rw [findFork] at h
    split at h
    · rename_i heq
      cases h
      exact ⟨suffix_rfl, heq ▸ suffix_rfl⟩
    · split at h
      · cases h
      · rename_i lowered hlowered
        split at h
        · rename_i heq
          cases h
          exact ⟨suffix_rfl, heq ▸ lowerTo_suffix hlowered⟩
        · obtain ⟨hpath, hlower⟩ := ih h
          exact ⟨hpath.trans (suffix_cons _ _), hlower.trans (lowerTo_suffix hlowered)⟩

theorem findFork_ne_nil (h : findFork plonger path = some pfork) : pfork ≠ [] := by
  induction path generalizing plonger with
  | nil => cases h
  | cons pindex pprev ih =>
    rw [findFork] at h
    split at h
    · cases h
      exact cons_ne_nil _ _
    · split at h
      · cases h
      · split at h
        · cases h
          exact cons_ne_nil _ _
        · exact ih h

theorem postpone_eq (nBestTrust : Nat) (pindex : CBlockIndex H) (pprev : PIndex H) :
    let postponed := postpone nBestTrust pindex pprev
    let intermediate := postponed.2.1 :: postponed.2.2
    intermediate <:+ pindex :: pprev ∧ postponed.1 = downTo intermediate (pindex :: pprev) := by
  induction pprev generalizing pindex with
  | nil => exact ⟨suffix_rfl, (downTo_self _).symm⟩
  | cons prev rest ih =>
    simp only [postpone]
    split
    · obtain ⟨hsuffix, hlist⟩ := ih prev
      refine ⟨hsuffix.trans (suffix_cons _ _), ?_⟩
      rw [downTo_cons _ hsuffix, hlist]
    · exact ⟨suffix_rfl, (downTo_self _).symm⟩

end

namespace Node

variable {H : Type} [Ord H] [TransOrd H]

def Indexed (mapBlockIndex : ExtTreeMap H (PIndex H)) (path : PIndex H) : Prop :=
  ∀ pindex pprev, pindex :: pprev <:+ path →
    mapBlockIndex[pindex.hash]? = some (pindex :: pprev) ∧
      ∀ prev ∈ pprev.head?, pindex.nHeight = prev.nHeight + 1

variable {mapBlockIndex : ExtTreeMap H (PIndex H)} {path pfork : PIndex H}

theorem indexed_nil (mapBlockIndex : ExtTreeMap H (PIndex H)) : Indexed mapBlockIndex [] := by
  intro pindex pprev hsuffix
  simp at hsuffix

theorem Indexed.cons {pindex : CBlockIndex H} (h : Indexed mapBlockIndex path)
    (hlook : mapBlockIndex[pindex.hash]? = some (pindex :: path))
    (hheight : ∀ prev ∈ path.head?, pindex.nHeight = prev.nHeight + 1) :
    Indexed mapBlockIndex (pindex :: path) := by
  intro pindex' pprev hsuffix
  rcases suffix_cons_iff.mp hsuffix with heq | hsuffix
  · cases heq
    exact ⟨hlook, hheight⟩
  · exact h pindex' pprev hsuffix

theorem Indexed.suffix (h : Indexed mapBlockIndex path) (hsuffix : pfork <:+ path) :
    Indexed mapBlockIndex pfork :=
  fun pindex pprev hentry => h pindex pprev (hentry.trans hsuffix)

theorem Indexed.insert [LawfulEqOrd H] {hash : H} (added : PIndex H)
    (h : Indexed mapBlockIndex path) (hnew : hash ∉ mapBlockIndex) :
    Indexed (mapBlockIndex.insert hash added) path := by
  intro pindex pprev hsuffix
  obtain ⟨hlook, hheight⟩ := h pindex pprev hsuffix
  refine ⟨?_, hheight⟩
  have hne : hash ≠ pindex.hash := by
    intro heq
    exact hnew (heq ▸ (FinMap.mem_iff_exists _ _).mpr ⟨_, hlook⟩)
  rw [FinMap.getElem?_insert_ne _ _ hne, hlook]

theorem indexed_insert [LawfulEqOrd H] {pindex prev : CBlockIndex H} {rest : PIndex H}
    (h : ∀ hash path, mapBlockIndex[hash]? = some path →
      Indexed mapBlockIndex path ∧ path.head?.map CBlockIndex.hash = some hash)
    (hnew : pindex.hash ∉ mapBlockIndex)
    (hprev : mapBlockIndex[prev.hash]? = some (prev :: rest))
    (hheight : pindex.nHeight = prev.nHeight + 1) :
    let added := mapBlockIndex.insert pindex.hash (pindex :: prev :: rest)
    ∀ hash path, added[hash]? = some path →
      Indexed added path ∧ path.head?.map CBlockIndex.hash = some hash := by
  intro added hash path hlook
  have hbelow := (h _ _ hprev).1.insert (pindex :: prev :: rest) hnew
  have hadded : Indexed added (pindex :: prev :: rest) := by
    refine hbelow.cons ExtTreeMap.getElem?_insert_self fun prev' hmem => ?_
    cases hmem
    exact hheight
  by_cases heq : pindex.hash = hash
  · subst heq
    rw [ExtTreeMap.getElem?_insert_self] at hlook
    cases hlook
    exact ⟨hadded, rfl⟩
  · rw [FinMap.getElem?_insert_ne _ _ heq] at hlook
    exact (h hash path hlook).imp_left fun hpath => hpath.insert _ hnew

variable [DecidableEq H]

end Node

end MaryJaneCoin
