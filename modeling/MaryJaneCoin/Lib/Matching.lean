import Mathlib.Data.Fintype.Fin

/-!
# One-to-one assignments by a key

Elements of two families are assigned to each other if their keys agree.  An assignment that uses
nothing twice exists exactly if no key is more frequent in the first family than in
the second. -/

namespace Matching

open Finset

variable {α β κ : Type} [DecidableEq κ]

/-- **Assignments by a key.** -/
theorem exists_injective_iff [Fintype α] [Fintype β] {f : α → κ} {g : β → κ} :
    (∃ assign : α → β, Function.Injective assign ∧ ∀ a, g (assign a) = f a) ↔ ∀ k,
      (Finset.univ.filter fun a => f a = k).card ≤ (Finset.univ.filter fun b => g b = k).card := by
  constructor
  · intro ⟨assign, hinj, hkey⟩ k
    refine card_le_card_of_injOn assign ?_ hinj.injOn
    intro a ha
    simp only [coe_filter, mem_univ, true_and, Set.mem_ofPred_eq] at ha ⊢
    rw [hkey, ha]
  · intro hcard
    have hembed : ∀ k, Nonempty ({a // f a = k} ↪ {b // g b = k}) := by
      intro k
      apply Function.Embedding.nonempty_of_card_le
      rw [Fintype.card_subtype, Fintype.card_subtype]
      exact hcard k
    have embed := fun k => Classical.choice (hembed k)
    refine ⟨fun a => (embed (f a) ⟨a, rfl⟩).1, ?_, fun a => (embed (f a) ⟨a, rfl⟩).2⟩
    intro a a' hsame
    have hkeys : f a = f a' := by
      rw [← (embed (f a) ⟨a, rfl⟩).2, ← (embed (f a') ⟨a', rfl⟩).2]
      exact congrArg g hsame
    have hmove : ∀ k (h : f a = k), (embed (f a) ⟨a, rfl⟩).1 = (embed k ⟨a, h⟩).1 := by
      intro k h
      subst h
      rfl
    have hsub := (hmove _ hkeys).symm.trans hsame
    exact congrArg Subtype.val ((embed (f a')).injective (Subtype.ext hsub))

theorem card_places (key : α → κ) (l : List α) (k : κ) :
    (Finset.univ.filter fun i : Fin l.length => key l[i] = k).card = (l.map key).count k := by
  let places : List.Vector α l.length := ⟨l, rfl⟩
  refine Eq.trans ?_ (Fin.card_filter_univ_eq_vector_get_eq_count k (places.map key))
  congr 1
  apply filter_congr
  intro i _
  have hget : (places.map key).get i = key l[i] := List.Vector.get_map places key i
  rw [hget]

/-- **Assignments between lists.** -/
theorem exists_injective_places_iff {key : α → κ} {key' : β → κ} {l : List α} {l' : List β} :
    (∃ assign : Fin l.length → Fin l'.length, Function.Injective assign ∧
      ∀ i, key' l'[assign i] = key l[i]) ↔ ∀ k, (l.map key).count k ≤ (l'.map key').count k := by
  have hiff := exists_injective_iff (f := fun i : Fin l.length => key l[i])
    (g := fun i : Fin l'.length => key' l'[i])
  simp only [card_places] at hiff
  exact hiff

end Matching

/-!
## Order-preserving assignments

The elements of one list are assigned to elements of another that accept them, in order
and nothing twice.  A scan that takes the first element that accepts finds an assignment
whenever there is one: what it skips is of no use to the elements that are left.
-/

namespace OrderedMatching

open List hiding Vector

variable {α β : Type}

/-- Every element of the first list goes to the first of the second that accepts it,
behind the one before. -/
def greedy (accepts : α → β → Bool) : List α → List β → Bool
  | [], _ => true
  | _ :: _, [] => false
  | a :: as, b :: bs => greedy accepts (if accepts a b then as else a :: as) bs

/-- The places in the second list of all elements of the first, in order. -/
def Assignable (accepts : α → β → Bool) (as : List α) (bs : List β) : Prop :=
  ∃ assign : Fin as.length → Fin bs.length,
    StrictMono assign ∧ ∀ i, accepts (as.get i) (bs.get (assign i)) = true

variable {accepts : α → β → Bool} {as : List α} {bs : List β}

/-- The first element of each list can be left out together. -/
theorem sublistForall₂_tails {R : α → β → Prop} {a : α} {b : β}
    (h : List.SublistForall₂ R (a :: as) (b :: bs)) : List.SublistForall₂ R as bs := by
  cases h with
  | cons _ h => exact h
  | cons_right h =>
    obtain ⟨matched, hmatched, hsub⟩ := sublistForall₂_iff.mp h
    cases hmatched with
    | cons _ hmatched =>
      exact sublistForall₂_iff.mpr ⟨_, hmatched, (sublist_cons_self _ _).trans hsub⟩

/-- **The scan misses no assignment.** -/
theorem greedy_eq_true :
    greedy accepts as bs = true ↔ List.SublistForall₂ (fun a b => accepts a b = true) as bs := by
  induction bs generalizing as with
  | nil =>
    cases as with
    | nil => exact iff_of_true rfl .nil
    | cons a as =>
      refine iff_of_false Bool.false_ne_true ?_
      intro h
      cases h
  | cons b bs ih =>
    cases as with
    | nil => exact iff_of_true rfl .nil
    | cons a as =>
      rw [greedy, ih]
      by_cases haccepts : accepts a b = true
      · rw [if_pos haccepts]
        exact ⟨fun h => .cons haccepts h, sublistForall₂_tails⟩
      · rw [if_neg haccepts]
        refine ⟨fun h => .cons_right h, fun h => ?_⟩
        cases h with
        | cons hfirst _ => exact absurd hfirst haccepts
        | cons_right h => exact h

/-- No assignment from more elements to fewer. -/
theorem greedy_of_length_lt (h : bs.length < as.length) : greedy accepts as bs = false := by
  rw [← Bool.not_eq_true, greedy_eq_true, sublistForall₂_iff]
  rintro ⟨matched, hmatched, hsub⟩
  have hle := hsub.length_le
  rw [← hmatched.length_eq] at hle
  omega

theorem assignable_iff_sublistForall₂ :
    Assignable accepts as bs ↔ List.SublistForall₂ (fun a b => accepts a b = true) as bs := by
  rw [sublistForall₂_iff]
  constructor
  · rintro ⟨assign, hmono, haccepts⟩
    let matched := List.ofFn fun i => bs.get (assign i)
    have hlength : matched.length = as.length := length_ofFn
    refine ⟨matched, forall₂_iff_get.mpr ⟨hlength.symm, fun i hi hi' => ?_⟩, ?_⟩
    · rw [get_ofFn]
      exact haccepts ⟨i, hi⟩
    · apply sublist_iff_exists_fin_orderEmbedding_get_eq.mpr
      refine ⟨OrderEmbedding.ofStrictMono (fun i => assign (i.cast hlength)) ?_, fun i => ?_⟩
      · intro i j hlt
        exact hmono hlt
      · exact get_ofFn _ _
  · rintro ⟨matched, hmatched, hsub⟩
    obtain ⟨hlength, hget⟩ := forall₂_iff_get.mp hmatched
    obtain ⟨place, hplace⟩ := sublist_iff_exists_fin_orderEmbedding_get_eq.mp hsub
    refine ⟨fun i => place (i.cast hlength), fun i j hlt => ?_, fun i => ?_⟩
    · exact place.strictMono hlt
    · rw [← hplace]
      exact hget i.1 i.2 (hlength ▸ i.2)

/-- **The scan finds an assignment exactly if there is one.** -/
theorem greedy_iff_assignable : greedy accepts as bs = true ↔ Assignable accepts as bs :=
  greedy_eq_true.trans assignable_iff_sublistForall₂.symm

end OrderedMatching
