import Mathlib.Algebra.BigOperators.Group.List.Basic
import Mathlib.Data.List.Sublists
import Mathlib.Algebra.GroupWithZero.Nat

/-!
# The complementary knapsack

Items with a weight and a cost are to be kept so that what is left out does not exceed a
capacity, at the lowest cost.  The greatest cost that can be left out is the value of a 0/1
knapsack, computed item by item; going back through the items shows which ones are kept.
-/

namespace Knapsack

open List

variable {α : Type} (weight cost : α → Nat)

/-- The weight or the cost of several items. -/
def total (f : α → Nat) (items : List α) : Nat := (items.map f).sum

theorem total_cons (f : α → Nat) (item : α) (items : List α) :
    total f (item :: items) = f item + total f items := sum_cons

theorem total_append (f : α → Nat) (pre post : List α) :
    total f (pre ++ post) = total f pre + total f post := by
  rw [total, map_append, sum_append]
  rfl

theorem total_reverse (f : α → Nat) (items : List α) : total f items.reverse = total f items := by
  rw [total, map_reverse, sum_reverse]
  rfl

theorem total_perm {f : α → Nat} {items items' : List α} (h : items.Perm items') :
    total f items = total f items' := (h.map f).sum_eq

theorem total_flatten (f : α → Nat) (groups : List (List α)) :
    total f groups.flatten = total (total f) groups := by
  induction groups with
  | nil => rfl
  | cons group groups ih => rw [flatten_cons, total_append, total_cons, ih]

variable {items chosen : List α}

theorem total_le_of_sublist {f : α → Nat} (h : chosen.Sublist items) :
    total f chosen ≤ total f items := by
  induction h with
  | slnil => exact le_rfl
  | cons item _ ih =>
    rw [total_cons]
    exact Nat.le_trans ih (Nat.le_add_left _ _)
  | cons_cons item _ ih =>
    rw [total_cons, total_cons]
    exact Nat.add_le_add_left ih _

/-- The greatest cost of items of a weight up to the capacity. -/
def best : List α → Nat → Nat
  | [], _ => 0
  | item :: items, capacity =>
    if weight item ≤ capacity then
      max (best items capacity) (best items (capacity - weight item) + cost item)
    else best items capacity

/-- Where an item leads back to: to less capacity where leaving it out leaves out more cost. -/
def back (item : α) (items : List α) (capacity : Nat) : Nat :=
  if weight item ≤ capacity ∧ best weight cost items capacity <
      best weight cost items (capacity - weight item) + cost item then
    capacity - weight item
  else capacity

/-- The items that are kept. -/
def keep : List α → Nat → List α
  | [], _ => []
  | item :: items, capacity =>
    if back weight cost item items capacity = capacity then item :: keep items capacity
    else keep items (back weight cost item items capacity)

/-- What is kept along pointers: an item is left out where its pointer moves. -/
def follow : List (α × (Nat → Nat)) → Nat → List α
  | [], _ => []
  | (item, pointer) :: rows, capacity =>
    if pointer capacity = capacity then item :: follow rows capacity
    else follow rows (pointer capacity)

variable {weight cost}

theorem best_le_total (items : List α) (capacity : Nat) :
    best weight cost items capacity ≤ total cost items := by
  induction items generalizing capacity with
  | nil => exact Nat.le_refl 0
  | cons item items ih =>
    have hwhole := ih capacity
    have hrest := ih (capacity - weight item)
    rw [best, total_cons]
    split
    · omega
    · omega

theorem follow_sublist (rows : List (α × (Nat → Nat))) (capacity : Nat) :
    (follow rows capacity).Sublist (rows.map Prod.fst) := by
  induction rows generalizing capacity with
  | nil => exact List.Sublist.refl []
  | cons row rows ih =>
    rw [follow, map_cons]
    split
    · exact (ih _).cons_cons row.1
    · exact (ih _).cons row.1

/-- A pointer stays or goes back by the weight of its item. -/
def PointsBack (weight : α → Nat) (row : α × (Nat → Nat)) : Prop :=
  ∀ capacity, row.2 capacity = capacity ∨
    weight row.1 ≤ capacity ∧ row.2 capacity = capacity - weight row.1

/-- **What is left out** fits into the capacity. -/
theorem total_weight_follow {rows : List (α × (Nat → Nat))}
    (hback : ∀ row ∈ rows, PointsBack weight row) (capacity : Nat) :
    total weight (rows.map Prod.fst) ≤ total weight (follow rows capacity) + capacity := by
  induction rows generalizing capacity with
  | nil => exact Nat.zero_le _
  | cons row rows ih =>
    have hrest := ih fun row hrow => hback row (mem_cons_of_mem _ hrow)
    have hstay := hrest capacity
    have hmove := hrest (row.2 capacity)
    rw [follow, map_cons, total_cons]
    split
    · rw [total_cons]
      omega
    · rename_i hmoves
      obtain hsame | ⟨hfits, heq⟩ := hback row mem_cons_self capacity
      · exact absurd hsame hmoves
      · omega

variable {capacity : Nat}

theorem back_of_leave {item : α} {items : List α} (hfits : weight item ≤ capacity)
    (hmore : best weight cost items capacity < best weight cost items (capacity - weight item) + cost item) :
    back weight cost item items capacity = capacity - weight item := if_pos ⟨hfits, hmore⟩

theorem back_of_keep {item : α} {items : List α}
    (hkeep : ¬(weight item ≤ capacity ∧ best weight cost items capacity <
      best weight cost items (capacity - weight item) + cost item)) :
    back weight cost item items capacity = capacity := if_neg hkeep

theorem back_pointsBack (item : α) (items : List α) :
    PointsBack weight (item, back weight cost item items) := by
  intro capacity
  by_cases hleave : weight item ≤ capacity ∧ best weight cost items capacity <
      best weight cost items (capacity - weight item) + cost item
  · exact .inr ⟨hleave.1, back_of_leave hleave.1 hleave.2⟩
  · exact .inl (back_of_keep hleave)

/-- The pointers of the best choices. -/
def backRows (weight cost : α → Nat) : List α → List (α × (Nat → Nat))
  | [] => []
  | item :: items => (item, back weight cost item items) :: backRows weight cost items

theorem map_fst_backRows (items : List α) : (backRows weight cost items).map Prod.fst = items := by
  induction items with
  | nil => rfl
  | cons item items ih => rw [backRows, map_cons, ih]

theorem backRows_pointsBack {items : List α} {row : α × (Nat → Nat)}
    (hrow : row ∈ backRows weight cost items) : PointsBack weight row := by
  induction items with
  | nil => cases hrow
  | cons item items ih =>
    rw [backRows] at hrow
    cases List.mem_cons.mp hrow with
    | inl heq =>
      rw [heq]
      exact back_pointsBack item items
    | inr hmem => exact ih hmem

theorem follow_backRows (items : List α) (capacity : Nat) :
    follow (backRows weight cost items) capacity = keep weight cost items capacity := by
  induction items generalizing capacity with
  | nil => rfl
  | cons item items ih =>
    rw [backRows, follow, keep, ih, ih]

theorem keep_sublist (items : List α) (capacity : Nat) : (keep weight cost items capacity).Sublist items := by
  have hfollow := follow_sublist (backRows weight cost items) capacity
  rw [follow_backRows, map_fst_backRows] at hfollow
  exact hfollow

/-- **What is kept and the best that is left out** are the cost of all items, where every item
has a weight. -/
theorem total_cost_keep {items : List α} (hpos : ∀ item ∈ items, 0 < weight item) (capacity : Nat) :
    total cost (keep weight cost items capacity) + best weight cost items capacity = total cost items := by
  induction items generalizing capacity with
  | nil => rfl
  | cons item items ih =>
    have hrest := ih fun item hitem => hpos item (mem_cons_of_mem _ hitem)
    have hitem := hpos item mem_cons_self
    have hstay := hrest capacity
    have hmove := hrest (capacity - weight item)
    rw [keep, best, total_cons]
    by_cases hfits : weight item ≤ capacity
    · by_cases hmore : best weight cost items capacity <
          best weight cost items (capacity - weight item) + cost item
      · rw [back_of_leave hfits hmore, if_neg (by omega), if_pos hfits]
        omega
      · rw [back_of_keep fun hleave => hmore hleave.2, if_pos rfl, if_pos hfits, total_cons]
        omega
    · rw [back_of_keep fun hleave => hfits hleave.1, if_pos rfl, if_neg hfits, total_cons]
      omega

/-- No choice that fits leaves out more cost than the best one. -/
theorem le_total_add_best (h : chosen.Sublist items)
    (hfits : total weight items ≤ total weight chosen + capacity) :
    total cost items ≤ total cost chosen + best weight cost items capacity := by
  induction h generalizing capacity with
  | slnil => exact Nat.zero_le _
  | @cons chosen items item hsub ih =>
    have hless := total_le_of_sublist (f := weight) hsub
    rw [total_cons] at hfits
    have hrest : total cost items ≤
        total cost chosen + best weight cost items (capacity - weight item) := ih (by omega)
    rw [total_cons, best, if_pos (by omega)]
    omega
  | @cons_cons chosen items item hsub ih =>
    rw [total_cons, total_cons] at hfits
    have hwhole : total cost items ≤ total cost chosen + best weight cost items capacity := ih (by omega)
    rw [total_cons, total_cons, best]
    split
    · omega
    · omega

/-- **Optimality.**  What is kept has the lowest cost of all choices that fit. -/
theorem keep_optimal (hpos : ∀ item ∈ items, 0 < weight item) (h : chosen.Sublist items)
    (hfits : total weight items ≤ total weight chosen + capacity) :
    total cost (keep weight cost items capacity) ≤ total cost chosen := by
  have hkept : total cost (keep weight cost items capacity) + best weight cost items capacity =
      total cost items := total_cost_keep hpos capacity
  have hmost : total cost items ≤ total cost chosen + best weight cost items capacity :=
    le_total_add_best h hfits
  omega

end Knapsack
