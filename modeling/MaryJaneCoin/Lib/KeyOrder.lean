import Mathlib.Data.List.Chain
import Mathlib.Data.List.Sort
import Mathlib.Data.List.TakeWhile

/-!
# Lists in the order of a key

Elements are compared by a key.  A list whose keys differ has one order, whichever way the
elements come.
-/

namespace KeyOrder

open Std List

variable {α κ : Type} [Ord κ] {key : α → κ} {l l' : List α}

/-- The key of `b` does not come before that of `a`. -/
def ordered (key : α → κ) (a b : α) : Prop := compare (key b) (key a) ≠ .lt

instance (key : α → κ) : DecidableRel (ordered key) :=
  fun _ _ => inferInstanceAs (Decidable (_ ≠ _))

/-- The elements in order; elements of one key stay as they come. -/
def sortOn (key : α → κ) (l : List α) : List α := l.insertionSort (ordered key)

theorem ordered_iff [OrientedOrd κ] {a b : α} : ordered key a b ↔ (compare (key a) (key b)).isLE := by
  have hswap : compare (key b) (key a) = (compare (key a) (key b)).swap := OrientedCmp.eq_swap
  rw [ordered, hswap]
  cases compare (key a) (key b) <;> decide

theorem sortOn_perm (key : α → κ) (l : List α) : (sortOn key l).Perm l :=
  perm_insertionSort (ordered key) l

variable [TransOrd κ]

instance (key : α → κ) : IsTrans α (ordered key) where
  trans a b c hab hbc := by
    rw [ordered_iff] at hab hbc ⊢
    exact TransCmp.isLE_trans hab hbc

instance (key : α → κ) : Std.Total (ordered key) where
  total a b := by
    have hswap : compare (key b) (key a) = (compare (key a) (key b)).swap := OrientedCmp.eq_swap
    rw [ordered_iff, ordered_iff, hswap]
    cases compare (key a) (key b) <;> decide

theorem sortOn_pairwise (key : α → κ) (l : List α) : (sortOn key l).Pairwise (ordered key) :=
  pairwise_insertionSort (ordered key) l

/-- **What sorting leaves alone**: the lists without a descent. -/
theorem sortOn_eq_self_iff : sortOn key l = l ↔ l.IsChain (ordered key) := by
  rw [isChain_iff_pairwise]
  constructor
  · intro hsorted
    rw [← hsorted]
    exact sortOn_pairwise key l
  · exact List.Pairwise.insertionSort_eq

/-- **Distinct keys have one order.** -/
theorem sortOn_eq_of_perm [LawfulEqOrd κ] (hnodup : (l.map key).Nodup) (hperm : l'.Perm l) :
    sortOn key l' = sortOn key l := by
  have hsame : (sortOn key l').Perm (sortOn key l) :=
    ((sortOn_perm key l').trans hperm).trans (sortOn_perm key l).symm
  have hinj := inj_on_of_nodup_map hnodup
  refine hsame.eq_of_pairwise ?_ (sortOn_pairwise key l') (sortOn_pairwise key l)
  intro a b ha hb hab hba
  rw [ordered_iff] at hab hba
  have hkeys : key a = key b := LawfulEqCmp.compare_eq_iff_eq.mp (OrientedCmp.isLE_antisymm hab hba)
  exact hinj (hperm.mem_iff.mp ((sortOn_perm key l').mem_iff.mp ha)) ((sortOn_perm key l).mem_iff.mp hb) hkeys

end KeyOrder

/-!
## Sorting without a promise about ties

A sorting routine puts items in an order that respects a relation, and leaves items that the
relation does not separate in any order.
-/

/-- A sorting routine. -/
structure SortOrder {α : Type} (r : α → α → Prop) where
  sort : List α → List α
  perm : ∀ items, (sort items).Perm items
  sorted : ∀ items, (sort items).Pairwise r

namespace SortOrder

variable {α : Type} {r : α → α → Prop} [DecidableRel r]

/-- Insertion sort. -/
def insertion (htotal : ∀ a b, r a b ∨ r b a) (htrans : ∀ a b c, r a b → r b c → r a c) :
    SortOrder r where
  sort := List.insertionSort r
  perm := List.perm_insertionSort r
  sorted := by
    have : Std.Total r := ⟨htotal⟩
    have : IsTrans α r := ⟨htrans⟩
    exact List.pairwise_insertionSort r

/-- An item in front of the ones that are not separated from it. -/
def inFront [DecidableEq α] (htotal : ∀ a b, r a b ∨ r b a)
    (htrans : ∀ a b c, r a b → r b c → r a c) (first : α) : SortOrder r where
  sort items :=
    if first ∈ items then List.insertionSort r (first :: items.erase first)
    else List.insertionSort r items
  perm items := by
    split
    · rename_i hmem
      exact (List.perm_insertionSort r _).trans (List.perm_cons_erase hmem).symm
    · exact List.perm_insertionSort r items
  sorted items := by
    have : Std.Total r := ⟨htotal⟩
    have : IsTrans α r := ⟨htrans⟩
    split <;> exact List.pairwise_insertionSort r _

/-- **Only items that have to be** are in front of it. -/
theorem sort_inFront [DecidableEq α] {htotal : ∀ a b, r a b ∨ r b a}
    {htrans : ∀ a b c, r a b → r b c → r a c} {first : α} {items : List α} (hmem : first ∈ items) :
    ∃ before behind, (inFront htotal htrans first).sort items = before ++ first :: behind ∧
      ∀ item ∈ before, ¬r first item := by
  have hsort := List.insertionSort_cons_eq_take_drop r first (items.erase first)
  refine ⟨_, _, (if_pos hmem).trans hsort, ?_⟩
  intro item hitem
  have hbehind := List.mem_takeWhile_imp hitem
  exact of_decide_eq_true hbehind

end SortOrder
