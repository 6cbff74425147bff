import Mathlib.Data.List.Basic

/-!
# The first place of a pattern

`search` gives the place of the first copy of a pattern in a list, and the length of the list
where there is none.
-/

namespace FirstMatch

open List Nat

variable {α : Type}

/-- No copy of the pattern starts before a place. -/
def NoneBefore (pattern : List α) (place : Nat) (items : List α) : Prop :=
  ∀ i < place, ¬pattern <+: items.drop i

variable {pattern items behind : List α} {place : Nat}

theorem NoneBefore.tail {a : α} (h : NoneBefore pattern (place + 1) (a :: items)) :
    NoneBefore pattern place items := by
  intro i hi
  exact h (i + 1) (succ_lt_succ hi)

/-- Dropping from the front moves the place. -/
theorem NoneBefore.drop (h : NoneBefore pattern place items) (n : Nat) :
    NoneBefore pattern (place - n) (items.drop n) := by
  intro i hi
  rw [drop_drop]
  exact h (n + i) (by omega)

/-- What is not in a list is not in its front. -/
theorem NoneBefore.of_append (h : NoneBefore pattern place (items ++ behind)) :
    NoneBefore pattern place items := by
  intro i hi hpre
  apply h i hi
  by_cases hle : i ≤ items.length
  · rw [drop_append_of_le_length hle]
    exact hpre.trans (prefix_append _ _)
  · rw [drop_eq_nil_of_le (Nat.le_of_not_le hle), prefix_nil] at hpre
    rw [hpre]
    exact nil_prefix

theorem noneBefore_of_not_isInfix (h : ¬pattern <:+: items) : NoneBefore pattern place items :=
  fun i _ hpre => h (hpre.isInfix.trans (drop_suffix i items).isInfix)

/-- **No copy overlaps the first one** when the first item of the pattern does not come again in
it. -/
theorem noneBefore_append {first : α} {others : List α} (hfirst : first ∉ others)
    (h : ¬first :: others <:+: items) :
    NoneBefore (first :: others) items.length (items ++ (first :: others ++ behind)) := by
  intro i hi hpre
  rw [drop_append_of_le_length (Nat.le_of_lt hi)] at hpre
  have hleft : (items.drop i).length = items.length - i := length_drop
  by_cases hfits : (first :: others).length ≤ (items.drop i).length
  · have hinside := prefix_of_prefix_length_le hpre (prefix_append _ _) hfits
    have hnone : NoneBefore (first :: others) (i + 1) items := noneBefore_of_not_isInfix h
    exact hnone i (lt_succ_self i) hinside
  · -- The copy would reach the first item of the next one.
    have hlt : items.length - i < (first :: others).length := by omega
    obtain ⟨j, hj⟩ : ∃ j, items.length - i = j + 1 := ⟨items.length - i - 1, by omega⟩
    obtain ⟨more, hmore⟩ := hpre
    have hat : (first :: others ++ more)[items.length - i]? = some first := by
      rw [hmore, getElem?_append_right (Nat.le_of_eq hleft), hleft, Nat.sub_self]
      rfl
    rw [getElem?_append_left hlt, hj, getElem?_cons_succ] at hat
    exact hfirst (mem_of_getElem? hat)

variable [DecidableEq α]

/-- The place of the first copy of a pattern, or the end. -/
def search (pattern : List α) : List α → Nat
  | [] => 0
  | a :: items => if pattern.isPrefixOf (a :: items) then 0 else search pattern items + 1

instance (pattern : List α) (place : Nat) (items : List α) : Decidable (NoneBefore pattern place items) :=
  inferInstanceAs (Decidable (∀ i < place, ¬pattern <+: items.drop i))

theorem search_le (pattern items : List α) : search pattern items ≤ items.length := by
  induction items with
  | nil => exact Nat.le_refl 0
  | cons a items ih =>
    rw [search]
    split
    · exact Nat.zero_le _
    · exact succ_le_succ ih

/-- **The first copy is found.** -/
theorem search_eq (hlt : place < items.length) (hnone : NoneBefore pattern place items)
    (hmatch : pattern <+: items.drop place) : search pattern items = place := by
  induction items generalizing place with
  | nil => exact absurd hlt (Nat.not_lt_zero _)
  | cons a items ih =>
    cases place with
    | zero =>
      rw [drop_zero, ← isPrefixOf_iff_prefix] at hmatch
      rw [search, if_pos hmatch]
    | succ place =>
      have hnot : ¬pattern.isPrefixOf (a :: items) = true := by
        rw [ isPrefixOf_iff_prefix]
        exact hnone 0 (succ_pos _)
      rw [search, if_neg hnot, ih (lt_of_succ_lt_succ hlt) hnone.tail hmatch]

theorem search_eq_length (hnone : NoneBefore pattern items.length items) :
    search pattern items = items.length := by
  induction items with
  | nil => rfl
  | cons a items ih =>
    have hnot : ¬pattern.isPrefixOf (a :: items) = true := by
      rw [ isPrefixOf_iff_prefix]
      exact hnone 0 (succ_pos _)
    rw [search, if_neg hnot, ih hnone.tail, length_cons]

end FirstMatch
