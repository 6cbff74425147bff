import Mathlib.Data.List.Nodup
import Mathlib.Data.List.Infix
import Mathlib.Data.List.Count
import Mathlib.Data.List.Perm.Subperm
import Mathlib.Order.Monotone.Basic

/-!
# Making room in a numbering

A row of items of which some have a number and some have not.  Going along the
row, an item without a number takes the next free one; an item with a number is
moved up by as many places as numbers not above its own were given out so far.
Numbers given out are compared with old ones, so an item can be moved up too
little and hit a number that was given out.
-/

namespace ShiftedSlots

open List Nat

/-- The next free number, the numbers given out to items that had none, and the
numbers of all items so far. -/
structure Layout where
  next : Nat
  taken : List Nat
  placed : List Nat

/-- An old number moved up past what was given out. -/
def shifted (taken : List Nat) (p : Nat) : Nat := p + taken.countP (· ≤ p)

/-- One item. -/
def Layout.place (s : Layout) : Option Nat → Layout
  | none => ⟨s.next + 1, s.taken ++ [s.next], s.placed ++ [s.next]⟩
  | some p => ⟨max s.next (shifted s.taken p + 1), s.taken, s.placed ++ [shifted s.taken p]⟩

/-- The whole row. -/
def layout (items : List (Option Nat)) : Layout := items.foldl Layout.place ⟨0, [], []⟩

/-- One above the highest number. -/
def top (items : List (Option Nat)) : Nat :=
  items.foldl (fun t item => item.elim t fun p => max t (p + 1)) 0

/-- How many have no number. -/
def unset (items : List (Option Nat)) : Nat := items.count none

/-- Behind an item without a number, no number falls among those that were given
out before it. -/
def Apart (items : List (Option Nat)) : Prop :=
  ∀ l l' p, items = l ++ none :: l' → some p ∈ l' → top l ≤ p → top l + unset l ≤ p

/-- No number is there twice. -/
def Distinct (items : List (Option Nat)) : Prop := items.Pairwise fun a b => a = b → a = none

/-- Below a number all are there. -/
def Gapless (items : List (Option Nat)) : Prop := ∀ p q, some p ∈ items → q < p → some q ∈ items

variable {items : List (Option Nat)} {p q : Nat}

theorem layout_none : layout (items ++ [none]) =
    ⟨(layout items).next + 1, (layout items).taken ++ [(layout items).next],
      (layout items).placed ++ [(layout items).next]⟩ := by
  rw [layout, foldl_append]
  rfl

theorem layout_some : layout (items ++ [some p]) =
    ⟨max (layout items).next (shifted (layout items).taken p + 1), (layout items).taken,
      (layout items).placed ++ [shifted (layout items).taken p]⟩ := by
  rw [layout, foldl_append]
  rfl

@[simp] theorem top_none : top (items ++ [none]) = top items := by
  rw [top, foldl_append]
  rfl

@[simp] theorem top_some : top (items ++ [some p]) = max (top items) (p + 1) := by
  rw [top, foldl_append]
  rfl

@[simp] theorem unset_none : unset (items ++ [none]) = unset items + 1 := by
  rw [unset, count_append]
  rfl

@[simp] theorem unset_some : unset (items ++ [some p]) = unset items := by
  rw [unset, count_append]
  rfl

theorem top_le_append (l l' : List (Option Nat)) : top l ≤ top (l ++ l') := by
  induction l' using List.reverseRecOn with
  | nil => rw [append_nil]
  | append_singleton l' item ih =>
    rw [← append_assoc]
    cases item with
    | none => rwa [top_none]
    | some q =>
      rw [top_some]
      omega

theorem exists_of_lt_top (hlt : q < top items) : ∃ p, q ≤ p ∧ some p ∈ items := by
  induction items using List.reverseRecOn with
  | nil => cases hlt
  | append_singleton items item ih =>
    cases item with
    | none =>
      obtain ⟨p, hle, hmem⟩ := ih (by rwa [top_none] at hlt)
      exact ⟨p, hle, mem_append_left _ hmem⟩
    | some r =>
      rw [top_some] at hlt
      by_cases hr : q ≤ r
      · exact ⟨r, hr, mem_append_right _ mem_cons_self⟩
      · obtain ⟨p, hle, hmem⟩ := ih (by omega)
        exact ⟨p, hle, mem_append_left _ hmem⟩

/-- Without gaps there are no more places than items. -/
theorem top_add_unset_le (hgapless : Gapless items) : top items + unset items ≤ items.length := by
  have hsub : (List.range (top items)).map some ⊆ items.filter (· ≠ none) := by
    intro item hmem
    obtain ⟨q, hq, rfl⟩ := mem_map.mp hmem
    obtain ⟨p, hle, hp⟩ := exists_of_lt_top (mem_range.mp hq)
    refine mem_filter.mpr ⟨?_, rfl⟩
    rcases Nat.lt_or_eq_of_le hle with hlt | rfl
    · exact hgapless p q hp hlt
    · exact hp
  have hnodup : ((List.range (top items)).map some).Nodup :=
    nodup_range.map fun _ _ heq => Option.some.inj heq
  have hle := (hnodup.subperm hsub).length_le
  rw [length_map, length_range, ← countP_eq_length_filter] at hle
  have hlength := length_eq_countP_add_countP (· = none) (l := items)
  have hcount : unset items = items.countP (· = none) := by
    rw [unset, count_eq_countP]
    exact countP_congr fun item _ => by simp
  have hset : items.countP (· ≠ none) = items.countP fun item => ¬(decide (item = none)) = true := by
    exact countP_congr fun item _ => by simp
  omega

theorem length_taken : (layout items).taken.length = unset items := by
  induction items using List.reverseRecOn with
  | nil => rfl
  | append_singleton items item ih =>
    cases item with
    | none => rw [layout_none, unset_none, length_append, ih, length_singleton]
    | some p => rw [layout_some, unset_some, ih]

theorem length_placed : (layout items).placed.length = items.length := by
  induction items using List.reverseRecOn with
  | nil => rfl
  | append_singleton items item ih =>
    cases item with
    | none => simp [layout_none, ih]
    | some p => simp [layout_some, ih]

theorem le_shifted (taken : List Nat) (p : Nat) : p ≤ shifted taken p := Nat.le_add_right _ _

/-- Moving up keeps the order. -/
theorem shifted_strictMono (taken : List Nat) : StrictMono (shifted taken) := by
  intro p q hlt
  have hcount : taken.countP (· ≤ p) ≤ taken.countP (· ≤ q) := by
    apply countP_mono_left
    intro o _ ho
    have hle := of_decide_eq_true ho
    exact decide_eq_true (by omega)
  rw [shifted, shifted]
  omega

theorem lt_next : (∀ o ∈ (layout items).taken, o < (layout items).next) ∧
    ∀ v ∈ (layout items).placed, v < (layout items).next := by
  induction items using List.reverseRecOn with
  | nil => exact ⟨by simp [layout], by simp [layout]⟩
  | append_singleton items item ih =>
    obtain ⟨htaken, hplaced⟩ := ih
    cases item with
    | none =>
      rw [layout_none]
      refine ⟨fun o ho => ?_, fun v hv => ?_⟩
      · rcases mem_append.mp ho with ho | ho
        · exact lt_succ_of_lt (htaken o ho)
        · exact lt_succ_of_le (Nat.le_of_eq (mem_singleton.mp ho))
      · rcases mem_append.mp hv with hv | hv
        · exact lt_succ_of_lt (hplaced v hv)
        · exact lt_succ_of_le (Nat.le_of_eq (mem_singleton.mp hv))
    | some p =>
      rw [layout_some]
      refine ⟨fun o ho => Nat.lt_of_lt_of_le (htaken o ho) (Nat.le_max_left _ _), fun v hv => ?_⟩
      rcases mem_append.mp hv with hv | hv
      · exact Nat.lt_of_lt_of_le (hplaced v hv) (Nat.le_max_left _ _)
      · rw [mem_singleton.mp hv]
        exact Nat.le_max_right _ _

/-- The next number is bounded by the row. -/
theorem next_le : (layout items).next ≤ top items + unset items := by
  induction items using List.reverseRecOn with
  | nil => exact Nat.zero_le _
  | append_singleton items item ih =>
    cases item with
    | none =>
      rw [layout_none, top_none, unset_none]
      exact succ_le_succ ih
    | some p =>
      have hcount : (layout items).taken.countP (· ≤ p) ≤ unset items :=
        (@length_taken items) ▸ countP_le_length
      rw [layout_some, top_some, unset_some, shifted]
      simp only
      omega

/-- Items with their numbers. -/
def pairs (items : List (Option Nat)) : List (Option Nat × Nat) := items.zip (layout items).placed

theorem pairs_none : pairs (items ++ [none]) = pairs items ++ [(none, (layout items).next)] := by
  rw [pairs, layout_none, zip_append length_placed.symm]
  rfl

theorem pairs_some : pairs (items ++ [some p]) =
    pairs items ++ [(some p, shifted (layout items).taken p)] := by
  rw [pairs, layout_some, zip_append length_placed.symm]
  rfl

/-- What an item gets: items without a number get what was given out, the others
are moved up past all that was given out in the whole row. -/
theorem of_mem_pairs {item : Option Nat} {v : Nat} (hmem : (item, v) ∈ pairs items) :
    item.elim (v ∈ (layout items).taken) fun p => v = shifted (layout items).taken p := by
  induction items using List.reverseRecOn with
  | nil => cases hmem
  | append_singleton items last ih =>
    cases last with
    | none =>
      rw [pairs_none] at hmem
      rw [layout_none]
      rcases mem_append.mp hmem with hmem | hmem
      · cases item with
        | none => exact mem_append_left _ (ih hmem)
        | some p =>
          -- The number given out last is above all that came before.
          have hv : v < (layout items).next := lt_next.2 v (of_mem_zip hmem).2
          have hshift : v = shifted (layout items).taken p := ih hmem
          have hp := le_shifted (layout items).taken p
          have hlast : ¬(layout items).next ≤ p := by omega
          simp only [Option.elim_some]
          rw [hshift, shifted, shifted, countP_append, countP_singleton]
          simp [hlast]
      · cases mem_singleton.mp hmem
        exact mem_append_right _ mem_cons_self
    | some p =>
      rw [pairs_some] at hmem
      rw [layout_some]
      rcases mem_append.mp hmem with hmem | hmem
      · exact ih hmem
      · cases mem_singleton.mp hmem
        rfl

theorem mem_pairs_of_mem_taken {o : Nat} (hmem : o ∈ (layout items).taken) : (none, o) ∈ pairs items := by
  induction items using List.reverseRecOn with
  | nil => cases hmem
  | append_singleton items last ih =>
    cases last with
    | none =>
      rw [layout_none] at hmem
      rw [pairs_none]
      rcases mem_append.mp hmem with hmem | hmem
      · exact mem_append_left _ (ih hmem)
      · rw [mem_singleton.mp hmem]
        exact mem_append_right _ mem_cons_self
    | some p =>
      rw [layout_some] at hmem
      rw [pairs_some]
      exact mem_append_left _ (ih hmem)

theorem exists_mem_pairs {item : Option Nat} (hmem : item ∈ items) : ∃ v, (item, v) ∈ pairs items := by
  have hmap : (pairs items).map Prod.fst = items := map_fst_zip (Nat.le_of_eq length_placed.symm)
  rw [← hmap] at hmem
  obtain ⟨⟨_, v⟩, hpair, rfl⟩ := mem_map.mp hmem
  exact ⟨v, hpair⟩

theorem map_snd_pairs : (pairs items).map Prod.snd = (layout items).placed :=
  map_snd_zip (Nat.le_of_eq length_placed)

theorem exists_mem_pairs_of_placed {v : Nat} (hmem : v ∈ (layout items).placed) :
    ∃ item ∈ items, (item, v) ∈ pairs items := by
  rw [← map_snd_pairs] at hmem
  obtain ⟨⟨item, _⟩, hpair, rfl⟩ := mem_map.mp hmem
  exact ⟨item, (of_mem_zip hpair).1, hpair⟩

/-- What is given out at one place in the row, and behind it. -/
theorem taken_append (l l' : List (Option Nat)) :
    ∃ rest, (layout (l ++ none :: l')).taken = (layout l).taken ++ (layout l).next :: rest ∧
      (layout l).next < (layout (l ++ none :: l')).next ∧ ∀ o ∈ rest, (layout l).next < o := by
  induction l' using List.reverseRecOn with
  | nil =>
    refine ⟨[], ?_, ?_, fun o ho => absurd ho not_mem_nil⟩
    · rw [layout_none]
    · rw [layout_none]
      exact lt_succ_self _
  | append_singleton l' item ih =>
    obtain ⟨rest, htaken, hnext, hrest⟩ := ih
    have hassoc : l ++ none :: (l' ++ [item]) = l ++ none :: l' ++ [item] := by
      rw [append_assoc, cons_append]
    rw [hassoc]
    cases item with
    | none =>
      refine ⟨rest ++ [(layout (l ++ none :: l')).next], ?_, ?_, fun o ho => ?_⟩
      · rw [layout_none, htaken, append_assoc, cons_append]
      · rw [layout_none]
        exact lt_succ_of_lt hnext
      · rcases mem_append.mp ho with ho | ho
        · exact hrest o ho
        · rwa [mem_singleton.mp ho]
    | some p =>
      refine ⟨rest, ?_, ?_, hrest⟩
      · rw [layout_some, htaken]
      · rw [layout_some]
        exact Nat.lt_of_lt_of_le hnext (Nat.le_max_left _ _)

theorem exists_of_mem_taken {o : Nat} (hmem : o ∈ (layout items).taken) :
    ∃ l l', items = l ++ none :: l' ∧ o = (layout l).next := by
  induction items using List.reverseRecOn with
  | nil => cases hmem
  | append_singleton items last ih =>
    cases last with
    | none =>
      rw [layout_none] at hmem
      rcases mem_append.mp hmem with hmem | hmem
      · obtain ⟨l, l', rfl, ho⟩ := ih hmem
        exact ⟨l, l' ++ [none], by rw [append_assoc, cons_append], ho⟩
      · exact ⟨items, [], rfl, mem_singleton.mp hmem⟩
    | some p =>
      rw [layout_some] at hmem
      obtain ⟨l, l', rfl, ho⟩ := ih hmem
      exact ⟨l, l' ++ [some p], by rw [append_assoc, cons_append], ho⟩

theorem Apart.append_left {l l' : List (Option Nat)} (h : Apart (l ++ l')) : Apart l := by
  rintro m m' p rfl hmem htop
  refine h m (m' ++ l') p ?_ (mem_append_left _ hmem) htop
  rw [append_assoc, cons_append]

/-- **Numbers given out stand as far above the numbers before them as there were
items without one.** -/
theorem Apart.next_eq (h : Apart items) : (layout items).next = top items + unset items := by
  have hprefix : ∀ l, l <+: items → (layout l).next = top l + unset l := by
    induction items using List.reverseRecOn with
    | nil =>
      intro l hl
      rw [prefix_nil.mp hl]
      rfl
    | append_singleton items item ih =>
      have hbefore := ih h.append_left
      intro l hl
      rcases prefix_concat_iff.mp hl with rfl | hl
      · have hnext := hbefore items (prefix_refl _)
        cases item with
        | none =>
          rw [layout_none, top_none, unset_none]
          simp only
          omega
        | some p =>
          have hcount : (layout items).taken.countP (· ≤ p) ≤ unset items :=
            (@length_taken items) ▸ countP_le_length
          rw [layout_some, top_some, unset_some, shifted]
          simp only
          by_cases hp : p < top items
          · omega
          · -- A new highest number is moved past all that was given out.
            have hall : (layout items).taken.countP (· ≤ p) = unset items := by
              rw [← length_taken, countP_eq_length]
              intro o ho
              obtain ⟨m, m', rfl, rfl⟩ := exists_of_mem_taken ho
              have hm := hbefore m (prefix_append _ _)
              have hle := top_le_append m (none :: m')
              have hpast := h m (m' ++ [some p]) p (by rw [append_assoc, cons_append])
                (mem_append_right _ mem_cons_self) (by omega)
              exact decide_eq_true (by omega)
            omega
      · exact hbefore l hl
  exact hprefix items (prefix_refl _)

/-- A number that is moved up hits none that was given out. -/
theorem Apart.shifted_notMem (h : Apart (items ++ [some p])) :
    shifted (layout items).taken p ∉ (layout items).taken := by
  intro hmem
  obtain ⟨l, l', hitems, hnext⟩ := exists_of_mem_taken hmem
  have hrow : items ++ [some p] = l ++ none :: (l' ++ [some p]) := by
    rw [hitems, append_assoc, cons_append]
  have hl : (layout l).next = top l + unset l := by
    rw [hrow] at h
    exact h.append_left.next_eq
  obtain ⟨rest, htaken, -, hrest⟩ := taken_append l l'
  rw [← hitems] at htaken
  by_cases htop : top l ≤ p
  · -- The number given out is not above `p`, so it is counted.
    have hle := h l _ p hrow (mem_append_right _ mem_cons_self) htop
    have hpos : 0 < (layout items).taken.countP (· ≤ p) :=
      countP_pos_iff.mpr ⟨(layout l).next, hnext ▸ hmem, decide_eq_true (by omega)⟩
    rw [shifted] at hnext
    omega
  · -- Only what was given out before is counted.
    have hrest0 : rest.countP (· ≤ p) = 0 := by
      rw [countP_eq_zero]
      intro o ho
      have hlt := hrest o ho
      simp only [decide_eq_true_eq]
      omega
    have hnext0 : ¬(layout l).next ≤ p := by omega
    have hcount : (layout items).taken.countP (· ≤ p) ≤ unset l := by
      rw [htaken, countP_append, countP_cons, hrest0, ← length_taken]
      simp only [hnext0, decide_false, Bool.false_eq_true, if_false, Nat.add_zero]
      exact countP_le_length
    rw [shifted] at hnext
    omega

theorem Distinct.append_left {l l' : List (Option Nat)} (h : Distinct (l ++ l')) : Distinct l :=
  (pairwise_append.mp h).1

/-- **All numbers are distinct.** -/
theorem Apart.nodup_placed (h : Apart items) (hdistinct : Distinct items) : (layout items).placed.Nodup := by
  induction items using List.reverseRecOn with
  | nil => exact nodup_nil
  | append_singleton items item ih =>
    have hbefore := ih h.append_left hdistinct.append_left
    cases item with
    | none =>
      rw [layout_none]
      refine nodup_append'.mpr ⟨hbefore, nodup_singleton _, ?_⟩
      intro v hv hlast
      have hlt := lt_next.2 v hv
      rw [mem_singleton.mp hlast] at hlt
      exact Nat.lt_irrefl _ hlt
    | some p =>
      rw [layout_some]
      refine nodup_append'.mpr ⟨hbefore, nodup_singleton _, ?_⟩
      intro v hv hlast
      obtain ⟨old, hold, hpair⟩ := exists_mem_pairs_of_placed hv
      have hget := of_mem_pairs hpair
      rw [mem_singleton.mp hlast] at hget
      cases old with
      | none => exact h.shifted_notMem hget
      | some q =>
        have heq : p = q := (shifted_strictMono _).injective hget
        have hnone := (pairwise_append.mp hdistinct).2.2 (some q) hold (some p)
          mem_cons_self (by rw [heq])
        cases hnone

variable {l : List (Option Nat)}

/-- The first two items without a number. -/
theorem exists_second (hunset : 0 < unset l) (l' : List (Option Nat)) :
    ∃ a b c, l ++ none :: l' = a ++ none :: b ++ none :: c ∧ none ∉ a ∧ none ∉ b ∧ a ++ none :: b <+: l := by
  obtain ⟨a, d, rfl, ha⟩ := eq_append_cons_of_mem (count_pos_iff.mp hunset)
  by_cases hd : none ∈ d
  · obtain ⟨b, e, rfl, hb⟩ := eq_append_cons_of_mem hd
    exact ⟨a, b, e ++ none :: l', by simp, ha, hb, none :: e, by simp⟩
  · exact ⟨a, d, l', by simp, ha, hd, prefix_refl _⟩

theorem unset_eq_zero (hnone : none ∉ l) : unset l = 0 :=
  count_eq_zero.mpr hnone

/-- One item without a number is moved past rightly. -/
theorem apart_of_unset_le (hunset : unset l ≤ 1) : Apart l := by
  rintro m m' p rfl - htop
  have hzero : unset m = 0 := by
    rw [unset, count_append, count_cons_self] at hunset
    rw [unset]
    omega
  omega

/-- **Where no number is missing, only such rows get distinct numbers.** -/
theorem apart_of_nodup_placed (hgapless : Gapless items) (hnodup : (layout items).placed.Nodup) :
    Apart items := by
  rintro l l' p rfl hp htop
  by_contra hlow
  obtain ⟨a, b, c, hrow, ha, hb, tail, rfl⟩ := exists_second (l := l) (by omega) l'
  -- Of the items before the second one without a number, one has none.
  have hunset : unset (a ++ none :: b) = 1 := by
    have ha0 := unset_eq_zero ha
    have hb0 := unset_eq_zero hb
    rw [unset] at ha0 hb0
    rw [unset, count_append, count_cons_self, ha0, hb0]
  have hnext : (layout (a ++ none :: b)).next = top (a ++ none :: b) + 1 := by
    rw [(apart_of_unset_le (Nat.le_of_eq hunset)).next_eq, hunset]
  have hle := top_le_append (a ++ none :: b) tail
  -- The number right above them is there, and it is moved up by one.
  have hmem : some (top (a ++ none :: b)) ∈ a ++ none :: b ++ tail ++ none :: l' := by
    rcases Nat.lt_or_eq_of_le (Nat.le_trans hle htop) with hlt | heq
    · exact hgapless p _ (mem_append_right _ (mem_cons_of_mem _ hp)) hlt
    · rw [heq]
      exact mem_append_right _ (mem_cons_of_mem _ hp)
  obtain ⟨rest, htaken, -, hrest⟩ := taken_append (a ++ none :: b) c
  rw [← hrow, hnext] at htaken
  rw [hnext] at hrest
  have hcount : (layout (a ++ none :: b ++ tail ++ none :: l')).taken.countP
      (· ≤ top (a ++ none :: b)) = 1 := by
    have hall : (layout (a ++ none :: b)).taken.countP (· ≤ top (a ++ none :: b)) = 1 := by
      rw [← hunset, ← length_taken, countP_eq_length]
      intro o ho
      have hlt := lt_next.1 o ho
      rw [hnext] at hlt
      exact decide_eq_true (by omega)
    have hnone : rest.countP (· ≤ top (a ++ none :: b)) = 0 := by
      rw [countP_eq_zero]
      intro o ho
      have hlt := hrest o ho
      simp only [decide_eq_true_eq]
      omega
    have hlast : ¬top (a ++ none :: b) + 1 ≤ top (a ++ none :: b) := by omega
    rw [htaken, countP_append, countP_cons, hall, hnone]
    simp [hlast]
  obtain ⟨v, hv⟩ := exists_mem_pairs hmem
  have hget : v = _ := of_mem_pairs hv
  rw [shifted, hcount] at hget
  -- So it hits the number given out second.
  have hsecond : v ∈ (layout (a ++ none :: b ++ tail ++ none :: l')).taken := by
    rw [htaken, hget]
    exact mem_append_right _ mem_cons_self
  rw [← map_snd_pairs] at hnodup
  cases inj_on_of_nodup_map hnodup hv (mem_pairs_of_mem_taken hsecond) rfl

end ShiftedSlots
