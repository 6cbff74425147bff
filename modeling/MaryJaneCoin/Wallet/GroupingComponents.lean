import MaryJaneCoin.Lib.Components
import MaryJaneCoin.Wallet.AddressGroupings

/-!
# The groupings are the components

The pointers of `setmap` lead to the set that has the address, after every round.  So each round
makes one set of those that it hits, and the sets that are left are the connected components of
the addresses.
-/

namespace MaryJaneCoin

open Std Components List

def elements (set : AddressSet) : Set CTxDestination := {a | a ∈ set}

/-- The sets that lists stand for. -/
def asSets (groups : Set (List CTxDestination)) : Set (Set CTxDestination) :=
  {c | ∃ group ∈ groups, c = {a | a ∈ group}}

theorem elements_toList (set : AddressSet) : {a | a ∈ set.toList} = elements set :=
  Set.ext fun _ => ExtTreeSet.mem_toList

theorem mem_insertMany {set : AddressSet} {addresses : List CTxDestination} {a : CTxDestination} :
    a ∈ set.insertMany addresses ↔ a ∈ set ∨ a ∈ addresses := by
  rw [ExtTreeSet.mem_insertMany_list, contains_iff_mem]

namespace SetMerging

variable {m : SetMerging} {G : Set (Set CTxDestination)} {grouping : List CTxDestination}
  {a : CTxDestination} {p : Nat}

/-- The sets are the components so far, each known under its elements. -/
structure Inv (m : SetMerging) (G : Set (Set CTxDestination)) : Prop where
  live : ∀ p : Nat, p ∈ m.uniqueGroupings ↔ ∃ set, m.heap[p]? = some set
  fresh : ∀ (p : Nat) (set : AddressSet), m.heap[p]? = some set → p < m.next
  known : ∀ (a : CTxDestination) (p : Nat), m.setmap[a]? = some p ↔ ∃ set, m.heap[p]? = some set ∧ a ∈ set
  sets : ∀ c : Set CTxDestination,
    (∃ (p : Nat) (set : AddressSet), m.heap[p]? = some set ∧ elements set = c ∧ c.Nonempty) ↔
      c ∈ components G
  void : (∃ (p : Nat) (set : AddressSet), m.heap[p]? = some set ∧ elements set = ∅) ↔ ∅ ∈ G

theorem inv_empty : Inv empty ∅ where
  live p := by simp [empty]
  fresh p set h := by simp [empty] at h
  known a p := by simp [empty]
  sets c := by simp [empty, components]
  void := by simp [empty]

theorem mem_hits : p ∈ m.hits grouping ↔ ∃ a ∈ grouping, m.setmap[a]? = some p := by
  refine (CollectLoop.mem_foldl (fun hits : ExtTreeSet Nat => {p | p ∈ hits})
    (fun address => {p | m.setmap[address]? = some p}) (fun hits address p => ?_) grouping ∅ p).trans
    (or_iff_right ExtTreeSet.not_mem_empty)
  cases haddress : m.setmap[address]? with
  | none => simp
  | some hit =>
    simp only [Set.mem_ofPred_eq, ExtTreeSet.mem_insert, Nat.compare_eq_eq, Option.some.injEq]
    exact or_comm

/-- **The sets that were hit** are merged, and their pointers go. -/
theorem absorb_all {hits : List Nat} {m : SetMerging} {merged : AddressSet} (hnodup : hits.Nodup)
    (hlive : ∀ p ∈ hits, ∃ set, m.heap[p]? = some set) :
    ∃ m' merged', hits.foldlM absorb (m, merged) = some (m', merged') ∧ m'.next = m.next ∧
      m'.setmap = m.setmap ∧ (∀ p, m'.heap[p]? = if p ∈ hits then none else m.heap[p]?) ∧
      (∀ p, p ∈ m'.uniqueGroupings ↔ p ∈ m.uniqueGroupings ∧ p ∉ hits) ∧
      ∀ a, a ∈ merged' ↔ a ∈ merged ∨ ∃ p ∈ hits, ∃ set, m.heap[p]? = some set ∧ a ∈ set := by
  induction hits generalizing m merged with
  | nil => exact ⟨m, merged, rfl, rfl, rfl, by simp, by simp, by simp⟩
  | cons hit hits ih =>
    rw [forall_mem_cons] at hlive
    rw [nodup_cons] at hnodup
    obtain ⟨set, hset⟩ := hlive.1
    have hfirst : absorb (m, merged) hit = some
        ({ m with heap := m.heap.erase hit, uniqueGroupings := m.uniqueGroupings.erase hit },
          merged.insertMany set.toList) := by
      rw [absorb, hset]
      rfl
    have hother : ∀ p, (m.heap.erase hit)[p]? = if p = hit then none else m.heap[p]? := by
      intro p
      rw [ExtTreeMap.getElem?_erase]
      by_cases hp : p = hit
      · rw [if_pos hp, if_pos (by simpa using hp.symm)]
      · rw [if_neg hp, if_neg (by simpa using Ne.symm hp)]
    have hstays : ∀ p ∈ hits, (m.heap.erase hit)[p]? = m.heap[p]? := by
      intro p hp
      rw [hother, if_neg]
      rintro rfl
      exact hnodup.1 hp
    obtain ⟨m', merged', hrest, hnext, hsetmap, hheap, hunique, hmerged⟩ :=
      @ih { m with heap := m.heap.erase hit, uniqueGroupings := m.uniqueGroupings.erase hit }
        (merged.insertMany set.toList) hnodup.2
        (fun p hp => (hlive.2 p hp).imp fun set hset => (hstays p hp).trans hset)
    refine ⟨m', merged', ?_, hnext, hsetmap, fun p => ?_, fun p => ?_, fun a => ?_⟩
    · rw [List.foldlM_cons, hfirst]
      exact hrest
    · rw [hheap, hother]
      by_cases hp : p = hit
      · simp [hp]
      · simp [hp]
    · rw [hunique, ExtTreeSet.mem_erase]
      simp only [Nat.compare_eq_eq, List.mem_cons, not_or, ne_eq]
      constructor
      · rintro ⟨⟨hne, hmem⟩, hnot⟩
        exact ⟨hmem, fun h => hne h.symm, hnot⟩
      · rintro ⟨hmem, hne, hnot⟩
        exact ⟨⟨fun h => hne h.symm, hmem⟩, hnot⟩
    · rw [hmerged, mem_insertMany, ExtTreeSet.mem_toList, exists_mem_cons_iff, or_assoc]
      refine or_congr_right (or_congr ?_ ?_)
      · rw [hset]
        simp
      · refine exists_congr fun p => and_congr_right fun hp => ?_
        show (∃ set, (m.heap.erase hit)[p]? = some set ∧ a ∈ set) ↔ _
        rw [hstays p hp]

theorem register_setmap (merged : AddressSet) (a : CTxDestination) :
    (m.register merged).setmap[a]? = if a ∈ merged then some m.next else m.setmap[a]? := by
  have hfold : ∀ (addresses : List CTxDestination) (setmap : ExtTreeMap CTxDestination Nat),
      (addresses.foldl (fun setmap element => setmap.insert element m.next) setmap)[a]? =
        if a ∈ addresses then some m.next else setmap[a]? := by
    intro addresses
    induction addresses with
    | nil => simp
    | cons element addresses ih =>
      intro setmap
      rw [foldl_cons, ih, ExtTreeMap.getElem?_insert]
      by_cases hlater : a ∈ addresses
      · simp [hlater]
      · by_cases hsame : element = a
        · subst hsame
          simp [hlater]
        · rw [if_neg hlater, if_neg (by simpa using hsame), if_neg]
          simpa [hlater] using Ne.symm hsame
  have hmem : a ∈ merged.toList ↔ a ∈ merged := ExtTreeSet.mem_toList
  rw [register, hfold]
  simp only [hmem]

theorem register_heap (merged : AddressSet) (p : Nat) :
    (m.register merged).heap[p]? = if p = m.next then some merged else m.heap[p]? := by
  rw [register, ExtTreeMap.getElem?_insert]
  by_cases hp : p = m.next
  · rw [if_pos hp, if_pos (by simpa using hp.symm)]
  · rw [if_neg hp, if_neg (by simpa using Ne.symm hp)]

/-- What one round makes of the sets: those that were hit are now one, under a new pointer. -/
structure Round (m m' : SetMerging) (grouping : List CTxDestination) (merged : AddressSet) :
    Prop where
  next : m'.next = m.next + 1
  heap : ∀ (p : Nat) (set : AddressSet), m'.heap[p]? = some set ↔
    (p = m.next ∧ set = merged) ∨ (m.heap[p]? = some set ∧ ∀ a ∈ grouping, a ∉ set)
  unique : ∀ p : Nat, p ∈ m'.uniqueGroupings ↔ p = m.next ∨ p ∈ m.uniqueGroupings ∧
    ¬∃ set, m.heap[p]? = some set ∧ ∃ a ∈ grouping, a ∈ set
  setmap : ∀ a : CTxDestination, m'.setmap[a]? = if a ∈ merged then some m.next else m.setmap[a]?
  merged : ∀ a : CTxDestination, a ∈ merged ↔ a ∈ grouping ∨
    ∃ (p : Nat) (set : AddressSet), m.heap[p]? = some set ∧ (∃ b ∈ grouping, b ∈ set) ∧ a ∈ set

theorem Inv.hit_iff (h : Inv m G) (p : Nat) : p ∈ (m.hits grouping).toList ↔
    ∃ set, m.heap[p]? = some set ∧ ∃ a ∈ grouping, a ∈ set := by
  rw [ExtTreeSet.mem_toList, mem_hits]
  constructor
  · rintro ⟨a, ha, hp⟩
    obtain ⟨set, hset, hmem⟩ := (h.known a p).mp hp
    exact ⟨set, hset, a, ha, hmem⟩
  · rintro ⟨set, hset, a, ha, hmem⟩
    exact ⟨a, ha, (h.known a p).mpr ⟨set, hset, hmem⟩⟩

/-- No pointer leads nowhere in a round. -/
theorem Inv.round (h : Inv m G) (grouping : List CTxDestination) :
    ∃ m' merged, m.mergeGrouping grouping = some m' ∧ Round m m' grouping merged := by
  have hnodup : (m.hits grouping).toList.Nodup :=
    ExtTreeSet.distinct_toList.imp fun hne heq => hne (by simp [heq])
  obtain ⟨m', merged, hall, hnext, hsetmap, hheap, hunique, hmerged⟩ :=
    @absorb_all _ m ((∅ : AddressSet).insertMany grouping) hnodup
      fun p hp => ((h.hit_iff p).mp hp).imp fun _ hset => hset.1
  refine ⟨m'.register merged, merged, by rw [SetMerging.mergeGrouping, hall]; rfl, ?_⟩
  refine ⟨congrArg (· + 1) hnext, fun p set => ?_, fun p => ?_, fun a => ?_, fun a => ?_⟩
  · rw [register_heap, hnext, hheap]
    by_cases hp : p = m.next
    · rw [if_pos hp, Option.some.injEq]
      constructor
      · exact fun heq => .inl ⟨hp, heq.symm⟩
      · rintro (⟨-, rfl⟩ | ⟨hset, -⟩)
        · rfl
        · exact absurd (h.fresh p set hset) (by omega)
    · rw [if_neg hp]
      by_cases hhits : p ∈ (m.hits grouping).toList
      · rw [if_pos hhits]
        obtain ⟨set', hset', a, ha, hmem⟩ := (h.hit_iff p).mp hhits
        refine iff_of_false nofun ?_
        rintro (⟨hp', -⟩ | ⟨hset, hfree⟩)
        · exact hp hp'
        · cases hset.symm.trans hset'
          exact hfree a ha hmem
      · rw [if_neg hhits]
        refine ⟨fun hset => .inr ⟨hset, fun a ha hmem => ?_⟩, ?_⟩
        · exact hhits ((h.hit_iff p).mpr ⟨set, hset, a, ha, hmem⟩)
        · rintro (⟨hp', -⟩ | ⟨hset, -⟩)
          · exact absurd hp' hp
          · exact hset
  · show p ∈ m'.uniqueGroupings.insert m'.next ↔ _
    rw [ExtTreeSet.mem_insert, Nat.compare_eq_eq, hnext, hunique, h.hit_iff, eq_comm]
  · rw [register_setmap, hnext, hsetmap]
  · rw [hmerged, mem_insertMany]
    simp only [ExtTreeSet.not_mem_empty, false_or]
    refine or_congr_right (exists_congr fun p => ?_)
    rw [h.hit_iff]
    constructor
    · rintro ⟨⟨set, hset, hb⟩, set', hset', ha⟩
      cases hset.symm.trans hset'
      exact ⟨set, hset, hb, ha⟩
    · rintro ⟨set, hset, hb, ha⟩
      exact ⟨⟨set, hset, hb⟩, set, hset, ha⟩

namespace Round

variable {m' : SetMerging} {merged : AddressSet}

/-- The merged set is the component of the grouping. -/
theorem elements_merged (hround : Round m m' grouping merged) (h : Inv m G) :
    elements merged = joined G {a | a ∈ grouping} := by
  refine Set.ext fun a => (hround.merged a).trans (or_congr_right ?_)
  constructor
  · rintro ⟨p, set, hset, ⟨b, hb, hbset⟩, ha⟩
    exact ⟨elements set, ⟨(h.sets _).mp ⟨p, set, hset, rfl, a, ha⟩, b, hbset, hb⟩, ha⟩
  · rintro ⟨c, ⟨hc, b, hbset, hb⟩, ha⟩
    obtain ⟨p, set, hset, rfl, -⟩ := (h.sets c).mpr hc
    exact ⟨p, set, hset, ⟨b, hb, hbset⟩, ha⟩

theorem live (hround : Round m m' grouping merged) (h : Inv m G) (p : Nat) :
    p ∈ m'.uniqueGroupings ↔ ∃ set, m'.heap[p]? = some set := by
  simp only [hround.heap]
  rw [hround.unique, h.live]
  constructor
  · rintro (rfl | ⟨⟨set, hset⟩, hfree⟩)
    · exact ⟨merged, .inl ⟨rfl, rfl⟩⟩
    · exact ⟨set, .inr ⟨hset, fun a ha hmem => hfree ⟨set, hset, a, ha, hmem⟩⟩⟩
  · rintro ⟨set, ⟨rfl, -⟩ | ⟨hset, hfree⟩⟩
    · exact .inl rfl
    · refine .inr ⟨⟨set, hset⟩, ?_⟩
      rintro ⟨set', hset', a, ha, hmem⟩
      cases hset.symm.trans hset'
      exact hfree a ha hmem

/-- A set that was not hit shares no address with one that was. -/
theorem not_mem_merged (hround : Round m m' grouping merged) (h : Inv m G) {set : AddressSet}
    (hset : m.heap[p]? = some set) (hfree : ∀ b ∈ grouping, b ∉ set) (haset : a ∈ set) :
    a ∉ merged := by
  intro ha
  rcases (hround.merged a).mp ha with hagrouping | ⟨q, set', hset', ⟨b, hb, hbset⟩, haset'⟩
  · exact hfree a hagrouping haset
  · have hsame := ((h.known a p).mpr ⟨set, hset, haset⟩).symm.trans
      ((h.known a q).mpr ⟨set', hset', haset'⟩)
    cases hsame
    cases hset.symm.trans hset'
    exact hfree b hb hbset

theorem known (hround : Round m m' grouping merged) (h : Inv m G) (a : CTxDestination) (p : Nat) :
    m'.setmap[a]? = some p ↔ ∃ set, m'.heap[p]? = some set ∧ a ∈ set := by
  rw [hround.setmap]
  simp only [hround.heap]
  by_cases ha : a ∈ merged
  · rw [if_pos ha, Option.some.injEq]
    constructor
    · rintro rfl
      exact ⟨merged, .inl ⟨rfl, rfl⟩, ha⟩
    · rintro ⟨set, ⟨rfl, -⟩ | ⟨hset, hfree⟩, haset⟩
      · rfl
      · exact absurd ha (hround.not_mem_merged h hset hfree haset)
  · rw [if_neg ha, h.known]
    constructor
    · rintro ⟨set, hset, haset⟩
      exact ⟨set, .inr ⟨hset, fun b hb hbset => ha ((hround.merged a).mpr
        (.inr ⟨p, set, hset, ⟨b, hb, hbset⟩, haset⟩))⟩, haset⟩
    · rintro ⟨set, ⟨-, rfl⟩ | ⟨hset, -⟩, haset⟩
      · exact absurd haset ha
      · exact ⟨set, hset, haset⟩

theorem sets (hround : Round m m' grouping merged) (h : Inv m G) (c : Set CTxDestination) :
    (∃ (p : Nat) (set : AddressSet), m'.heap[p]? = some set ∧ elements set = c ∧ c.Nonempty) ↔
      c ∈ components (insert {a | a ∈ grouping} G) := by
  rw [mem_components_insert_iff, ← hround.elements_merged h, ← h.sets]
  simp only [hround.heap]
  constructor
  · rintro ⟨p, set, ⟨rfl, rfl⟩ | ⟨hset, hfree⟩, rfl, hc⟩
    · exact .inl ⟨rfl, hc⟩
    · refine .inr ⟨⟨p, set, hset, rfl, hc⟩, ?_⟩
      rintro ⟨a, haset, ha⟩
      exact hfree a ha haset
  · rintro (⟨rfl, hc⟩ | ⟨⟨p, set, hset, rfl, hc⟩, hfree⟩)
    · exact ⟨m.next, merged, .inl ⟨rfl, rfl⟩, rfl, hc⟩
    · exact ⟨p, set, .inr ⟨hset, fun a ha haset => hfree ⟨a, haset, ha⟩⟩, rfl, hc⟩

theorem void (hround : Round m m' grouping merged) (h : Inv m G) :
    (∃ (p : Nat) (set : AddressSet), m'.heap[p]? = some set ∧ elements set = ∅) ↔
      ∅ ∈ insert {a | a ∈ grouping} G := by
  rw [Set.mem_insert_iff, ← h.void]
  simp only [hround.heap]
  constructor
  · rintro ⟨p, set, ⟨-, rfl⟩ | ⟨hset, -⟩, hnone⟩
    · refine .inl (Set.eq_empty_of_forall_notMem fun a ha => ?_).symm
      have hmember : a ∈ elements set := (hround.merged a).mpr (.inl ha)
      rw [hnone] at hmember
      exact hmember
    · exact .inr ⟨p, set, hset, hnone⟩
  · rintro (hnone | ⟨p, set, hset, hnone⟩)
    · refine ⟨m.next, merged, .inl ⟨rfl, rfl⟩, ?_⟩
      rw [hround.elements_merged h, ← hnone, joined_empty]
    · refine ⟨p, set, .inr ⟨hset, fun a _ haset => ?_⟩, hnone⟩
      have hmember : a ∈ elements set := haset
      rw [hnone] at hmember
      exact hmember

end Round

/-- **One round of the merging**: no pointer leads nowhere, and the sets go on to be the components
with the grouping. -/
theorem Inv.mergeGrouping (h : Inv m G) (grouping : List CTxDestination) :
    ∃ m', m.mergeGrouping grouping = some m' ∧ Inv m' (insert {a | a ∈ grouping} G) := by
  obtain ⟨m', merged, hmerge, hround⟩ := h.round grouping
  refine ⟨m', hmerge, hround.live h, fun p set hset => ?_, hround.known h, hround.sets h,
    hround.void h⟩
  rw [hround.next]
  rcases (hround.heap p set).mp hset with ⟨rfl, -⟩ | ⟨hset, -⟩
  · exact Nat.lt_succ_self _
  · exact Nat.lt_succ_of_lt (h.fresh p set hset)

/-- **All rounds of the merging.** -/
theorem Inv.mergeGroupings {groupings : List (List CTxDestination)} (h : Inv m G) :
    ∃ m', groupings.foldlM SetMerging.mergeGrouping m = some m' ∧
      Inv m' (asSets {group | group ∈ groupings} ∪ G) := by
  induction groupings generalizing m G with
  | nil => exact ⟨m, rfl, by simpa [asSets] using h⟩
  | cons grouping groupings ih =>
    obtain ⟨mid, hfirst, hmid⟩ := h.mergeGrouping grouping
    obtain ⟨m', hrest, hlast⟩ := ih hmid
    refine ⟨m', by rw [List.foldlM_cons, hfirst]; exact hrest, ?_⟩
    have hsets : asSets {group | group ∈ grouping :: groupings} ∪ G =
        asSets {group | group ∈ groupings} ∪ insert {a | a ∈ grouping} G := by
      refine Set.ext fun c => ?_
      simp only [asSets, Set.mem_union, Set.mem_ofPred_eq, exists_mem_cons_iff, Set.mem_insert_iff]
      rw [or_assoc, or_left_comm]
    rwa [hsets]

/-- **The sets that are left** are read through live pointers. -/
theorem Inv.result (h : Inv m G) : ∃ ret, m.result = some ret ∧ ∀ group, group ∈ ret ↔ ∃ (p : Nat)
    (set : AddressSet), m.heap[p]? = some set ∧ group = set.toList := by
  have hfold : ∀ (pointers : List Nat) (ret : AddressGroups), (∀ p ∈ pointers, ∃ set, m.heap[p]? = some set) →
      ∃ ret', pointers.foldlM (fun ret p => (m.heap[p]?).map fun set => ret.insert set.toList) ret =
        some ret' ∧
        ∀ group, group ∈ ret' ↔ group ∈ ret ∨
          ∃ p ∈ pointers, ∃ set, m.heap[p]? = some set ∧ group = set.toList := by
    intro pointers
    induction pointers with
    | nil => exact fun ret _ => ⟨ret, rfl, by simp⟩
    | cons p pointers ih =>
      intro ret hlive
      rw [forall_mem_cons] at hlive
      obtain ⟨set, hset⟩ := hlive.1
      obtain ⟨ret', hrest, hmem⟩ := ih (ret.insert set.toList) hlive.2
      refine ⟨ret', by rw [List.foldlM_cons, hset]; exact hrest, fun group => ?_⟩
      rw [hmem, ExtTreeSet.mem_insert, exists_mem_cons_iff, hset]
      simp only [Std.compare_eq_iff_eq, Option.some.injEq, exists_eq_left']
      rw [or_assoc, or_left_comm, eq_comm]
  obtain ⟨ret, hret, hmem⟩ := hfold m.uniqueGroupings.toList ∅ fun p hp =>
    (h.live p).mp (ExtTreeSet.mem_toList.mp hp)
  refine ⟨ret, hret, fun group => ?_⟩
  rw [hmem]
  simp only [ExtTreeSet.not_mem_empty, false_or, ExtTreeSet.mem_toList]
  refine exists_congr fun p => ⟨fun h => h.2, fun hp => ⟨?_, hp⟩⟩
  exact (h.live p).mpr (hp.imp fun _ => And.left)

/-- **The second half of the function**: the components of the groupings, and an empty set if one
of the groupings is empty. -/
theorem merge_groupings (groupings : AddressGroups) :
    ∃ ret, ((groupings.toList.foldlM SetMerging.mergeGrouping .empty).bind SetMerging.result) = some ret ∧
      asSets {group | group ∈ ret} = {c | c ∈ components (asSets {group | group ∈ groupings}) ∨
        (c = ∅ ∧ ∅ ∈ asSets {group | group ∈ groupings})} := by
  obtain ⟨m, hm, hinv⟩ := @Inv.mergeGroupings _ _ groupings.toList inv_empty
  have hsame : asSets {group | group ∈ groupings.toList} ∪ ∅ = asSets {group | group ∈ groupings} := by
    rw [Set.union_empty]
    simp only [ExtTreeSet.mem_toList]
  rw [hsame] at hinv
  obtain ⟨ret, hret, hmem⟩ := hinv.result
  refine ⟨ret, by rw [hm]; exact hret, Set.ext fun c => ?_⟩
  rw [Set.mem_ofPred_eq, ← hinv.sets, ← hinv.void]
  constructor
  · rintro ⟨group, hgroup, rfl⟩
    obtain ⟨p, set, hset, rfl⟩ := (hmem group).mp hgroup
    rw [elements_toList]
    rcases (elements set).eq_empty_or_nonempty with hnone | hsome
    · exact .inr ⟨hnone, p, set, hset, hnone⟩
    · exact .inl ⟨p, set, hset, rfl, hsome⟩
  · rintro (⟨p, set, hset, rfl, -⟩ | ⟨rfl, p, set, hset, hnone⟩)
    · exact ⟨set.toList, (hmem _).mpr ⟨p, set, hset, rfl⟩, (elements_toList set).symm⟩
    · exact ⟨set.toList, (hmem _).mpr ⟨p, set, hset, rfl⟩, by rw [elements_toList, hnone]⟩

end SetMerging

end MaryJaneCoin
