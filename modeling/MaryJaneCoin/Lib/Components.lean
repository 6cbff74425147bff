import Mathlib.Data.Set.Lattice

/-!
# Components of a family of sets

Two elements are linked when a set of the family has both.  One more set makes the components
that it hits into one, and leaves the others.
-/

namespace Components

variable {α : Type} {G : Set (Set α)} {g : Set α} {a b x y : α}

/-- A set of the family has both. -/
def Linked (G : Set (Set α)) (a b : α) : Prop := ∃ g ∈ G, a ∈ g ∧ b ∈ g

/-- What is connected to an element. -/
def component (r : α → α → Prop) (a : α) : Set α := {b | Relation.EqvGen r a b}

/-- The components of the elements of the family. -/
def components (G : Set (Set α)) : Set (Set α) :=
  {c | ∃ a ∈ ⋃₀ G, c = component (Linked G) a}

theorem mem_component_self (r : α → α → Prop) (a : α) : a ∈ component r a := .refl a

/-- What is connected is the same element, or both are in the family. -/
theorem eq_or_mem (h : Relation.EqvGen (Linked G) x y) : x = y ∨ x ∈ ⋃₀ G ∧ y ∈ ⋃₀ G := by
  induction h with
  | rel x y hlinked =>
    obtain ⟨g, hg, hx, hy⟩ := hlinked
    exact .inr ⟨⟨g, hg, hx⟩, ⟨g, hg, hy⟩⟩
  | refl x => exact .inl rfl
  | symm x y _ ih => exact ih.imp Eq.symm And.symm
  | trans x y z _ _ ih ih' =>
    rcases ih with rfl | ⟨hx, hy⟩
    · exact ih'
    · rcases ih' with rfl | ⟨-, hz⟩
      · exact .inr ⟨hx, hy⟩
      · exact .inr ⟨hx, hz⟩

/-- What the new set makes one: the set with the components that it hits. -/
def joined (G : Set (Set α)) (g : Set α) : Set α := g ∪ ⋃₀ {c ∈ components G | (c ∩ g).Nonempty}

/-- Elements are connected to one of the new set, or belong to it. -/
theorem mem_joined_iff : x ∈ joined G g ↔ ∃ y ∈ g, Relation.EqvGen (Linked G) x y := by
  constructor
  · rintro (hx | ⟨c, ⟨⟨a, -, rfl⟩, y, hy, hyg⟩, hx⟩)
    · exact ⟨x, hx, .refl x⟩
    · exact ⟨y, hyg, .trans _ _ _ (.symm _ _ hx) hy⟩
  · rintro ⟨y, hy, hxy⟩
    rcases eq_or_mem hxy with rfl | ⟨hx, -⟩
    · exact .inl hy
    · exact .inr ⟨component (Linked G) x, ⟨⟨x, hx, rfl⟩, y, hxy, hy⟩, mem_component_self _ x⟩

theorem joined_closed (hx : x ∈ joined G g) (h : Relation.EqvGen (Linked G) x y) : y ∈ joined G g := by
  obtain ⟨z, hz, hxz⟩ := mem_joined_iff.mp hx
  exact mem_joined_iff.mpr ⟨z, hz, .trans _ _ _ (.symm _ _ h) hxz⟩

/-- **What one more set connects**: what was connected, and what it joins. -/
theorem connected_insert_iff : Relation.EqvGen (Linked (insert g G)) x y ↔
    Relation.EqvGen (Linked G) x y ∨ x ∈ joined G g ∧ y ∈ joined G g := by
  have hlinked : Linked G ≤ Linked (insert g G) := by
    rintro x y ⟨h, hh, hx, hy⟩
    exact ⟨h, Set.mem_insert_of_mem g hh, hx, hy⟩
  have hmono : ∀ x y, Relation.EqvGen (Linked G) x y → Relation.EqvGen (Linked (insert g G)) x y :=
    Relation.EqvGen.mono hlinked
  constructor
  · intro h
    induction h with
    | rel x y hlinked =>
      obtain ⟨h, hh, hx, hy⟩ := hlinked
      rcases hh with rfl | hh
      · exact .inr ⟨.inl hx, .inl hy⟩
      · exact .inl (.rel _ _ ⟨h, hh, hx, hy⟩)
    | refl x => exact .inl (.refl x)
    | symm x y _ ih => exact ih.imp (Relation.EqvGen.symm _ _) And.symm
    | trans x y z _ _ ih ih' =>
      rcases ih with hxy | ⟨hx, hy⟩
      · rcases ih' with hyz | ⟨hy, hz⟩
        · exact .inl (.trans _ _ _ hxy hyz)
        · exact .inr ⟨joined_closed hy (.symm _ _ hxy), hz⟩
      · rcases ih' with hyz | ⟨-, hz⟩
        · exact .inr ⟨hx, joined_closed hy hyz⟩
        · exact .inr ⟨hx, hz⟩
  · rintro (h | ⟨hx, hy⟩)
    · exact hmono x y h
    · obtain ⟨a, ha, hxa⟩ := mem_joined_iff.mp hx
      obtain ⟨b, hb, hyb⟩ := mem_joined_iff.mp hy
      have hab : Relation.EqvGen (Linked (insert g G)) a b := .rel _ _ ⟨g, Set.mem_insert g G, ha, hb⟩
      exact .trans _ _ _ (hmono x a hxa) (.trans _ _ _ hab (.symm _ _ (hmono y b hyb)))

theorem component_of_mem_joined (hx : x ∈ joined G g) : component (Linked (insert g G)) x = joined G g := by
  refine Set.ext fun y => ⟨fun h => ?_, fun hy => connected_insert_iff.mpr (.inr ⟨hx, hy⟩)⟩
  rcases connected_insert_iff.mp h with h | ⟨-, hy⟩
  · exact joined_closed hx h
  · exact hy

theorem component_of_notMem_joined (hx : x ∉ joined G g) :
    component (Linked (insert g G)) x = component (Linked G) x := by
  refine Set.ext fun y => ⟨fun h => ?_, fun h => connected_insert_iff.mpr (.inl h)⟩
  exact (connected_insert_iff.mp h).resolve_right fun hboth => hx hboth.1

theorem component_hit_iff : (component (Linked G) x ∩ g).Nonempty ↔ x ∈ joined G g := by
  rw [mem_joined_iff]
  constructor
  · rintro ⟨y, hxy, hy⟩
    exact ⟨y, hy, hxy⟩
  · rintro ⟨y, hy, hxy⟩
    exact ⟨y, hxy, hy⟩

/-- **One more set**: the components that it hits become one with it, the others stay. -/
theorem components_insert (hg : g.Nonempty) : components (insert g G) =
    insert (joined G g) {c ∈ components G | ¬(c ∩ g).Nonempty} := by
  refine Set.ext fun c => ?_
  constructor
  · rintro ⟨a, ⟨h, hh, ha⟩, rfl⟩
    by_cases hjoined : a ∈ joined G g
    · exact .inl (component_of_mem_joined hjoined)
    · rcases hh with rfl | hh
      · exact absurd (.inl ha) hjoined
      · refine .inr ⟨⟨a, ⟨h, hh, ha⟩, component_of_notMem_joined hjoined⟩, ?_⟩
        rw [component_of_notMem_joined hjoined, component_hit_iff]
        exact hjoined
  · rintro (rfl | ⟨⟨a, ⟨h, hh, ha⟩, rfl⟩, hhit⟩)
    · obtain ⟨a, ha⟩ := hg
      exact ⟨a, ⟨g, Set.mem_insert g G, ha⟩, (component_of_mem_joined (.inl ha)).symm⟩
    · rw [component_hit_iff] at hhit
      exact ⟨a, ⟨h, Set.mem_insert_of_mem g hh, ha⟩, (component_of_notMem_joined hhit).symm⟩

/-- The empty set links nothing. -/
theorem components_insert_empty : components (insert ∅ G) = components G := by
  have hlinked : Linked (insert ∅ G) = Linked G := by
    funext a b
    refine propext ⟨?_, ?_⟩
    · rintro ⟨g, rfl | hg, ha, hb⟩
      · exact ha.elim
      · exact ⟨g, hg, ha, hb⟩
    · rintro ⟨g, hg, ha, hb⟩
      exact ⟨g, Set.mem_insert_of_mem ∅ hg, ha, hb⟩
  rw [components, components, hlinked, Set.sUnion_insert, Set.empty_union]

theorem nonempty_of_mem_components {c : Set α} (h : c ∈ components G) : c.Nonempty := by
  obtain ⟨a, -, rfl⟩ := h
  exact ⟨a, mem_component_self _ a⟩

theorem joined_empty : joined G ∅ = ∅ :=
  Set.eq_empty_of_forall_notMem fun _ hx => (mem_joined_iff.mp hx).elim fun _ h => h.1.elim

/-- **The components with one more set**, which may be empty. -/
theorem mem_components_insert_iff {c : Set α} : c ∈ components (insert g G) ↔
    (c = joined G g ∧ c.Nonempty) ∨ (c ∈ components G ∧ ¬(c ∩ g).Nonempty) := by
  rcases g.eq_empty_or_nonempty with rfl | hg
  · rw [components_insert_empty, joined_empty]
    constructor
    · intro h
      exact .inr ⟨h, fun hhit => hhit.some_mem.2⟩
    · rintro (⟨rfl, h⟩ | ⟨h, -⟩)
      · exact h.some_mem.elim
      · exact h
  · rw [components_insert hg]
    refine or_congr (iff_self_and.mpr ?_) Iff.rfl
    rintro rfl
    exact hg.mono fun _ => .inl

end Components
