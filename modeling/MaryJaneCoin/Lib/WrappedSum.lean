import Mathlib.Algebra.Order.BigOperators.Group.List
import Mathlib.Algebra.Ring.Int.Defs

/-!
# Sums in 64 bits

A loop that adds up `Int64` values wraps around at 64 bits.  Its result is the
exact sum reduced, so the two agree whenever the exact sum is representable.
-/

namespace WrappedSum

open List Int64

variable {ε : Type} {f : ε → Int64} {items : List ε}

/-- The sum that a loop over `Int64` computes. -/
def wrapped (f : ε → Int64) (items : List ε) : Int64 :=
  items.foldl (fun nTotal item => nTotal + f item) 0

/-- The sum itself. -/
def exact (f : ε → Int64) (items : List ε) : Int := (items.map fun item => (f item).toInt).sum

theorem exact_nil (f : ε → Int64) : exact f [] = 0 := rfl

theorem exact_cons (f : ε → Int64) (item : ε) (items : List ε) :
    exact f (item :: items) = (f item).toInt + exact f items := sum_cons

theorem exact_append (f : ε → Int64) (pre post : List ε) :
    exact f (pre ++ post) = exact f pre + exact f post := by
  rw [exact, map_append, sum_append]
  rfl

theorem exact_perm {items' : List ε} (h : items.Perm items') : exact f items = exact f items' :=
  (h.map _).sum_eq

theorem exact_map {δ : Type} (f : ε → Int64) (key : δ → ε) (items : List δ) :
    exact f (items.map key) = exact (fun item => f (key item)) items := by
  rw [exact, exact, map_map]
  rfl

variable {g : ε → Int64}

theorem exact_congr (h : ∀ item ∈ items, f item = g item) : exact f items = exact g items :=
  congrArg List.sum (map_congr_left fun item hitem => congrArg Int64.toInt (h item hitem))

/-- Two sums over the same items, put together. -/
theorem exact_add {g h : ε → Int64}
    (hadd : ∀ item ∈ items, (h item).toInt = (f item).toInt + (g item).toInt) :
    exact h items = exact f items + exact g items := by
  induction items with
  | nil => rfl
  | cons item items ih =>
    rw [exact_cons, exact_cons, exact_cons, hadd item mem_cons_self,
      ih fun other hother => hadd other (mem_cons_of_mem _ hother)]
    omega

theorem exact_le (hle : ∀ item ∈ items, (f item).toInt ≤ (g item).toInt) :
    exact f items ≤ exact g items := sum_le_sum hle

theorem exact_nonneg (hpos : ∀ item ∈ items, 0 ≤ (f item).toInt) : 0 ≤ exact f items := by
  refine sum_nonneg ?_
  intro value hvalue
  obtain ⟨item, hitem, rfl⟩ := mem_map.mp hvalue
  exact hpos item hitem

theorem exact_le_of_sublist {chosen : List ε} (hsub : chosen.Sublist items)
    (hnonneg : ∀ item ∈ items, 0 ≤ (f item).toInt) : exact f chosen ≤ exact f items := by
  refine List.Sublist.sum_le_sum (hsub.map _) fun value hvalue => ?_
  obtain ⟨item, hitem, rfl⟩ := mem_map.mp hvalue
  exact hnonneg item hitem

theorem eq_of_exact_le {chosen : List ε} (hsub : chosen.Sublist items) (hpos : ∀ item ∈ items,
    0 < (f item).toInt) (hle : exact f items ≤ exact f chosen) : chosen = items := by
  induction hsub with
  | slnil => rfl
  | cons item hsub _ =>
    have hrest := exact_le_of_sublist hsub fun other hother =>
      (hpos other (mem_cons_of_mem _ hother)).le
    have hitem := hpos item mem_cons_self
    rw [exact_cons] at hle
    omega
  | cons_cons item _ ih =>
    rw [exact_cons, exact_cons] at hle
    rw [ih (fun other hother => hpos other (mem_cons_of_mem _ hother)) (by omega)]

theorem exact_eq_zero (hzero : ∀ item ∈ items, f item = 0) : exact f items = 0 := by
  refine sum_eq_zero ?_
  intro value hvalue
  obtain ⟨item, hitem, rfl⟩ := mem_map.mp hvalue
  rw [hzero item hitem, toInt_zero]

theorem foldl_start (f : ε → Int64) (items : List ε) (start : Int64) :
    items.foldl (fun nTotal item => nTotal + f item) start = start + wrapped f items := by
  induction items generalizing start with
  | nil => exact (Int64.add_zero start).symm
  | cons item items ih =>
    rw [wrapped, foldl_cons, foldl_cons, ih, ih (0 + f item), Int64.zero_add, Int64.add_assoc]

theorem wrapped_cons (f : ε → Int64) (item : ε) (items : List ε) :
    wrapped f (item :: items) = f item + wrapped f items := by
  rw [wrapped, foldl_cons, foldl_start, Int64.zero_add]

theorem wrapped_append (f : ε → Int64) (pre post : List ε) :
    wrapped f (pre ++ post) = wrapped f pre + wrapped f post := by
  rw [wrapped, foldl_append, foldl_start, foldl_start, Int64.zero_add]

theorem wrapped_map {δ : Type} (f : ε → Int64) (key : δ → ε) (items : List δ) :
    wrapped f (items.map key) = wrapped (fun item => f (key item)) items := foldl_map

theorem wrapped_congr (h : ∀ item ∈ items, f item = g item) :
    wrapped f items = wrapped g items := by
  induction items with
  | nil => rfl
  | cons item items ih =>
    rw [wrapped_cons, wrapped_cons, h item mem_cons_self,
      ih fun other hother => h other (mem_cons_of_mem _ hother)]

theorem wrapped_perm {items' : List ε} (h : items.Perm items') : wrapped f items = wrapped f items' := by
  induction h with
  | nil => rfl
  | cons item _ ih => rw [wrapped_cons, wrapped_cons, ih]
  | swap a b items =>
    rw [wrapped_cons, wrapped_cons, wrapped_cons, wrapped_cons, ← Int64.add_assoc,
      ← Int64.add_assoc, Int64.add_comm (f a)]
  | trans _ _ ih ih' => exact ih.trans ih'

/-- Two loops over the same items, put together. -/
theorem wrapped_add (f g : ε → Int64) (items : List ε) :
    wrapped f items + wrapped g items = wrapped (fun item => f item + g item) items := by
  induction items with
  | nil => rfl
  | cons item items ih =>
    rw [wrapped_cons, wrapped_cons, wrapped_cons, ← ih]
    ac_rfl

theorem toInt_foldl (f : ε → Int64) (items : List ε) (start : Int64) :
    (items.foldl (fun nTotal item => nTotal + f item) start).toInt =
      (start.toInt + exact f items).bmod (2 ^ 64) := by
  induction items generalizing start with
  | nil =>
    rw [foldl_nil, exact, map_nil, sum_nil, Int.add_zero]
    exact (Int.bmod_eq_of_le start.le_toInt start.toInt_lt).symm
  | cons item items ih =>
    rw [foldl_cons, ih, exact_cons, toInt_add, Int.bmod_add_bmod, Int.add_assoc]

theorem toInt_wrapped (f : ε → Int64) (items : List ε) :
    (wrapped f items).toInt = (exact f items).bmod (2 ^ 64) := by
  rw [wrapped, toInt_foldl, toInt_zero, Int.zero_add]

theorem toInt_wrapped_of_fits (hlow : -2 ^ 63 ≤ exact f items) (hhigh : exact f items < 2 ^ 63) :
    (wrapped f items).toInt = exact f items := by
  rw [toInt_wrapped]
  exact Int.bmod_eq_of_le (by omega) (by omega)

/-- A sum that is not negative wraps exactly when it does not fit. -/
theorem toInt_wrapped_iff_fits (hnonneg : 0 ≤ exact f items) :
    (wrapped f items).toInt = exact f items ↔ exact f items < 2 ^ 63 := by
  constructor
  · intro heq
    rw [← heq]
    exact toInt_lt _
  · exact toInt_wrapped_of_fits (by omega)

/-- A loop that returns zero wrapped around a whole number of times. -/
theorem exact_of_wrapped_eq_zero (h : wrapped f items = 0) :
    exact f items = 2 ^ 64 * (exact f items / 2 ^ 64) := by
  have hzero : (exact f items).bmod (2 ^ 64) = 0 := by
    rw [← toInt_wrapped, h]
    rfl
  have hdvd : (2 ^ 64 : Int) ∣ exact f items := by
    simpa using Int.dvd_of_bmod_eq_zero hzero
  exact (Int.mul_ediv_cancel' hdvd).symm

end WrappedSum
