import Mathlib.Data.List.Basic

/-!
# Items picked by flags

A list of flags beside a list of items picks the items whose flag is set.
-/

namespace Masked

open List

variable {α : Type}

/-- The items whose flag is set. -/
def picked : List Bool → List α → List α
  | flag :: flags, item :: items => if flag then item :: picked flags items else picked flags items
  | [], _ => []
  | _, [] => []

theorem picked_nil (flags : List Bool) : picked flags ([] : List α) = [] := by
  cases flags <;> rfl

theorem picked_sublist (flags : List Bool) (items : List α) : (picked flags items).Sublist items := by
  induction items generalizing flags with
  | nil => rw [picked_nil]
  | cons item items ih =>
    cases flags with
    | nil => exact nil_sublist _
    | cons flag flags =>
      rw [picked]
      split
      · exact (ih flags).cons_cons item
      · exact (ih flags).cons item

/-- All flags set. -/
theorem picked_true (items : List α) : picked (List.replicate items.length true) items = items := by
  induction items with
  | nil => rfl
  | cons item items ih => rw [length_cons, replicate_succ, picked, if_pos rfl, ih]

/-- No flag set. -/
theorem picked_false (items : List α) (n : Nat) : picked (List.replicate n false) items = [] := by
  induction items generalizing n with
  | nil => exact picked_nil _
  | cons item items ih =>
    cases n with
    | zero => rfl
    | succ n =>
      rw [replicate_succ, picked, if_neg Bool.false_ne_true]
      exact ih n

/-- **One more flag** picks one more item. -/
theorem picked_set {flags : List Bool} {items : List α} {i : Nat} {item : α}
    (hflag : flags[i]? = some false) (hitem : items[i]? = some item) :
    (picked (flags.set i true) items).Perm (item :: picked flags items) := by
  induction items generalizing flags i with
  | nil => cases hitem
  | cons first items ih =>
    cases flags with
    | nil => cases hflag
    | cons flag flags =>
      cases i with
      | zero =>
        cases hflag
        cases hitem
        rw [set_cons_zero, picked, picked, if_pos rfl, if_neg Bool.false_ne_true]
      | succ i =>
        have hrest : (picked (flags.set i true) items).Perm (item :: picked flags items) := ih hflag hitem
        rw [set_cons_succ, picked, picked]
        split
        · exact (hrest.cons first).trans (List.Perm.swap item first _)
        · exact hrest

theorem set_false {flags : List Bool} {i : Nat} (hflag : flags[i]? = some false) :
    flags.set i false = flags := by
  obtain ⟨hlt, hget⟩ := List.getElem?_eq_some_iff.mp hflag
  rw [← hget]
  exact set_getElem_self hlt

end Masked
