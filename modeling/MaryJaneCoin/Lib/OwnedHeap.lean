import MaryJaneCoin.Lib.FinMap

/-!
# A heap with an owning map and a referring multimap

Values are allocated on a heap.  A map owns them under a name, and a multimap
refers to them under a key; both hold pointers.  A pointer is a number that is
never given out again, so a reference that outlives its value can be told from
one to a later value.  A multimap is the list of its entries in the order of
their insertion, which is the order of those with equal keys.

The invariant names the dangling references: the operations are used in an order
in which some come and go.
-/

open Std

structure OwnedHeap (K V : Type) [Ord K] where
  next : Nat
  heap : ExtTreeMap Nat V
  owner : ExtTreeMap K Nat
  refs : List (K × Nat)

namespace OwnedHeap

open List

variable {K V : Type} [Ord K]

def empty : OwnedHeap K V := ⟨0, ∅, ∅, []⟩

variable [TransOrd K]

/-- Allocate a value, own it and refer to it. -/
def alloc (s : OwnedHeap K V) (name key : K) (v : V) : OwnedHeap K V where
  next := s.next + 1
  heap := s.heap.insert s.next v
  owner := s.owner.insert name s.next
  refs := s.refs ++ [(key, s.next)]

/-- Give up a name and free the value. -/
def free (s : OwnedHeap K V) (name : K) (p : Nat) : OwnedHeap K V :=
  { s with heap := s.heap.erase p, owner := s.owner.erase name }

section

variable [DecidableEq K]

omit [TransOrd K]

/-- The references under a key. -/
def refsUnder (s : OwnedHeap K V) (key : K) : List Nat :=
  (s.refs.filter fun ref => ref.1 = key).map Prod.snd

/-- Erase all references under a key. -/
def dropRefs (s : OwnedHeap K V) (key : K) : OwnedHeap K V :=
  { s with refs := s.refs.filter fun ref => ref.1 ≠ key }

/-- Erase one reference. -/
def dropRef (s : OwnedHeap K V) (key : K) (p : Nat) : OwnedHeap K V :=
  { s with refs := s.refs.erase (key, p) }

theorem mem_refsUnder {s : OwnedHeap K V} {key : K} {p : Nat} : p ∈ s.refsUnder key ↔ (key, p) ∈ s.refs := by
  simp [refsUnder]

theorem nodup_refsUnder {s : OwnedHeap K V} (h : s.refs.Nodup) (key : K) : (s.refsUnder key).Nodup := by
  refine List.Nodup.map_on ?_ (h.filter _)
  intro x hx y hy heq
  have hkx : x.1 = key := of_decide_eq_true (mem_filter.mp hx).2
  have hky : y.1 = key := of_decide_eq_true (mem_filter.mp hy).2
  exact Prod.ext (hkx.trans hky.symm) heq

theorem length_dropRefs (s : OwnedHeap K V) (key : K) :
    (s.dropRefs key).refs.length + (s.refsUnder key).length = s.refs.length := by
  have hsplit := length_eq_length_filter_add (fun ref : K × Nat => decide (ref.1 = key)) (l := s.refs)
  simp only [dropRefs, refsUnder, length_map, decide_not, ne_eq]
  omega

end

/-- **Invariant.**  The owned values are those on the heap, under their names;
the references are those to the values on the heap, under their keys, and the
dangling ones. -/
structure Inv (name key : V → K) (s : OwnedHeap K V) (dangling : Set (K × Nat)) : Prop where
  owner : ∀ k p, s.owner[k]? = some p ↔ ∃ v, s.heap[p]? = some v ∧ name v = k
  refs : ∀ k p, (k, p) ∈ s.refs ↔ (∃ v, s.heap[p]? = some v ∧ key v = k) ∨ (k, p) ∈ dangling
  dead : ∀ k p, (k, p) ∈ dangling → s.heap[p]? = none
  fresh : ∀ p ≥ s.next, s.heap[p]? = none ∧ ∀ k, (k, p) ∉ dangling
  nodup : s.refs.Nodup

variable {name key : V → K} {s : OwnedHeap K V} {dangling : Set (K × Nat)} {v : V} {p : Nat} {k : K}

theorem inv_empty : Inv name key (empty : OwnedHeap K V) ∅ where
  owner := by simp [empty]
  refs := by simp [empty]
  dead := by simp
  fresh := by simp [empty]
  nodup := by simp [empty]

theorem Inv.refsUnder [DecidableEq K] (h : Inv name key s dangling) (hkey : ∀ p,
    (k, p) ∉ dangling) : p ∈ s.refsUnder k ↔ ∃ v, s.heap[p]? = some v ∧ key v = k := by
  rw [mem_refsUnder, h.refs]
  simp [hkey p]

theorem Inv.name_inj {p' : Nat} {v' : V} (h : Inv name key s dangling)
    (hp : s.heap[p]? = some v) (hp' : s.heap[p']? = some v') (heq : name v = name v') : p = p' := by
  have hown := (h.owner (name v) p).mpr ⟨v, hp, rfl⟩
  rw [(h.owner (name v) p').mpr ⟨v', hp', heq.symm⟩] at hown
  exact (Option.some.inj hown).symm

variable [LawfulEqOrd K]

/-- **Allocation** of a value with a new name. -/
theorem Inv.alloc (h : Inv name key s dangling) (hnew : name v ∉ s.owner) :
    Inv name key (s.alloc (name v) (key v) v) dangling := by
  have hfree := h.fresh s.next le_rfl
  refine ⟨?_, ?_, ?_, ?_, ?_⟩
  · intro k p
    simp only [OwnedHeap.alloc]
    by_cases hk : name v = k
    · subst hk
      rw [ExtTreeMap.getElem?_insert_self]
      constructor
      · intro heq
        cases heq
        exact ⟨v, ExtTreeMap.getElem?_insert_self, rfl⟩
      · rintro ⟨v', hv', hname⟩
        by_cases hp : s.next = p
        · rw [hp]
        · rw [FinMap.getElem?_insert_ne _ _ hp] at hv'
          have hold := (h.owner (name v) p).mpr ⟨v', hv', hname⟩
          rw [ExtTreeMap.getElem?_eq_none hnew] at hold
          cases hold
    · rw [FinMap.getElem?_insert_ne _ _ hk, h.owner]
      refine exists_congr fun v' => ?_
      by_cases hp : s.next = p
      · subst hp
        rw [ExtTreeMap.getElem?_insert_self, hfree.1]
        grind
      · rw [FinMap.getElem?_insert_ne _ _ hp]
  · intro k p
    simp only [OwnedHeap.alloc, mem_append, mem_singleton, Prod.mk.injEq, h.refs]
    by_cases hp : s.next = p
    · subst hp
      rw [ExtTreeMap.getElem?_insert_self, hfree.1]
      have hout := hfree.2 k
      grind
    · rw [FinMap.getElem?_insert_ne _ _ hp]
      grind
  · intro k p hmem
    have hp : s.next ≠ p := by
      intro heq
      exact hfree.2 k (heq ▸ hmem)
    simp only [OwnedHeap.alloc]
    rw [FinMap.getElem?_insert_ne _ _ hp]
    exact h.dead k p hmem
  · intro p hp
    simp only [OwnedHeap.alloc] at hp ⊢
    rw [FinMap.getElem?_insert_ne _ _ (Nat.ne_of_lt hp)]
    exact h.fresh p (Nat.le_of_succ_le hp)
  · refine nodup_append.mpr ⟨h.nodup, nodup_singleton _, ?_⟩
    intro ref href ref' href' heq
    rw [mem_singleton] at href'
    rw [heq, href', h.refs, hfree.1] at href
    have hout := hfree.2 (key v)
    grind

/-- **Freeing** a value leaves its reference dangling. -/
theorem Inv.free (h : Inv name key s dangling) (hp : s.heap[p]? = some v) :
    Inv name key (s.free (name v) p) (insert (key v, p) dangling) := by
  have hheap : ∀ p', (s.free (name v) p).heap[p']? = if p = p' then none else s.heap[p']? := by
    intro p'
    simp only [OwnedHeap.free]
    by_cases hsame : p = p'
    · subst hsame
      simp
    · rw [FinMap.getElem?_erase_ne _ hsame, if_neg hsame]
  refine ⟨?_, ?_, ?_, ?_, h.nodup⟩
  · intro k p'
    simp only [OwnedHeap.free]
    by_cases hk : name v = k
    · subst hk
      rw [ExtTreeMap.getElem?_erase_self]
      refine ⟨nofun, ?_⟩
      rintro ⟨v', hv', hname⟩
      have hv'' := (hheap p').symm.trans hv'
      split at hv''
      · cases hv''
      · rename_i hne
        exact absurd (h.name_inj hp hv'' hname.symm) hne
    · rw [FinMap.getElem?_erase_ne _ hk, h.owner]
      refine exists_congr fun v' => ?_
      have hsame := hheap p'
      simp only [OwnedHeap.free] at hsame
      rw [hsame]
      grind
  · intro k p'
    rw [hheap]
    show (k, p') ∈ s.refs ↔ _
    rw [h.refs, Set.mem_insert_iff, Prod.mk.injEq]
    grind
  · intro k p' hmem
    rw [hheap]
    rcases Set.mem_insert_iff.mp hmem with heq | hmem
    · rw [if_pos (congrArg Prod.snd heq).symm]
    · rw [h.dead k p' hmem]
      simp
  · intro p' hp'
    obtain ⟨hnone, hout⟩ := h.fresh p' hp'
    rw [hheap, hnone]
    refine ⟨by simp, ?_⟩
    intro k hmem
    rcases Set.mem_insert_iff.mp hmem with heq | hmem
    · rw [(Prod.mk.inj heq).2, hp] at hnone
      cases hnone
    · exact hout k hmem

section

variable [DecidableEq K]

omit [LawfulEqOrd K]

/-- **Erasing the references under a key** that no value has. -/
theorem Inv.dropRefs (h : Inv name key s dangling)
    (hnone : ∀ (p : Nat) (v : V), s.heap[p]? = some v → key v ≠ k) :
    Inv name key (s.dropRefs k) {ref ∈ dangling | ref.1 ≠ k} where
  owner := h.owner
  refs k' p := by
    simp only [OwnedHeap.dropRefs, mem_filter, h.refs, Set.mem_sep_iff]
    have hlive := hnone p
    grind
  dead k p hmem := h.dead k p hmem.1
  fresh p hp := ⟨(h.fresh p hp).1, fun k hmem => (h.fresh p hp).2 k hmem.1⟩
  nodup := h.nodup.filter _

/-- **Erasing a dangling reference.** -/
theorem Inv.dropRef (h : Inv name key s dangling) (hmem : (k, p) ∈ dangling) :
    Inv name key (s.dropRef k p) (dangling \ {(k, p)}) where
  owner := h.owner
  refs k' p' := by
    simp only [OwnedHeap.dropRef, h.nodup.mem_erase_iff, h.refs, Set.mem_sdiff, Set.mem_singleton_iff]
    have hdead := h.dead k p hmem
    grind
  dead k p hmem := h.dead k p hmem.1
  fresh p hp := ⟨(h.fresh p hp).1, fun k hmem => (h.fresh p hp).2 k hmem.1⟩
  nodup := h.nodup.erase _

end

end OwnedHeap
