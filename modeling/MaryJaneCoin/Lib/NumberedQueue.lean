import Mathlib.Order.Lattice.Nat

/-!
# Numbered queues

A queue holds numbers.  A new number goes above all others, and the least one is
the next to be taken.  A queue that is topped up to a given size each time before
its least number is taken never comes back to what it was, unless it was empty
and is empty again after each taking.
-/

namespace NumberedQueue

open Finset

variable {queue : Finset Nat} {size x : Nat}

/-- The number above all others, from one on. -/
def next (queue : Finset Nat) : Nat := queue.sup id + 1

theorem lt_next (h : x ∈ queue) : x < next queue := Nat.lt_succ_of_le (le_sup (f := id) h)

theorem next_notMem : next queue ∉ queue := fun h => Nat.lt_irrefl _ (lt_next h)

def push (queue : Finset Nat) : Finset Nat := insert (next queue) queue

theorem card_push : (push queue).card = queue.card + 1 := card_insert_of_notMem next_notMem

/-- Pushes until the queue has the size. -/
def topUp (size : Nat) (queue : Finset Nat) : Finset Nat := push^[size - queue.card] queue

theorem card_iterate_push (n : Nat) (queue : Finset Nat) : (push^[n] queue).card = queue.card + n := by
  induction n generalizing queue with
  | zero => rfl
  | succ n ih => rw [Function.iterate_succ_apply, ih, card_push]; omega

theorem card_topUp : (topUp size queue).card = max queue.card size := by
  rw [topUp, card_iterate_push]
  omega

/-- What is pushed goes above everything that was there. -/
theorem mem_iterate_push {n : Nat} (h : x ∈ push^[n] queue) : x ∈ queue ∨ ∀ y ∈ queue, y < x := by
  induction n generalizing queue with
  | zero => exact .inl h
  | succ n ih =>
    rw [Function.iterate_succ_apply] at h
    rcases ih h with hmem | habove
    · rcases mem_insert.mp hmem with rfl | hold
      · exact .inr fun y hy => lt_next hy
      · exact .inl hold
    · exact .inr fun y hy => habove y (mem_insert_of_mem hy)

theorem subset_iterate_push (n : Nat) : queue ⊆ push^[n] queue := by
  induction n generalizing queue with
  | zero => exact Finset.Subset.refl queue
  | succ n ih =>
    rw [Function.iterate_succ_apply]
    exact (subset_insert _ _).trans ih

/-- The queue topped up, without its least number. -/
def drain (size : Nat) (queue : Finset Nat) : Finset Nat :=
  if h : (topUp size queue).Nonempty then (topUp size queue).erase ((topUp size queue).min' h)
  else topUp size queue

theorem drain_of_nonempty {topped : Finset Nat} (htop : topped = topUp size queue)
    (hne : topped.Nonempty) : drain size queue = topped.erase (topped.min' hne) := by
  subst htop
  rw [drain, dif_pos hne]

theorem drain_of_empty (hempty : topUp size queue = ∅) : drain size queue = ∅ := by
  rw [drain]
  split
  · rename_i hne
    exact absurd hempty hne.ne_empty
  · exact hempty

theorem card_drain : (drain size queue).card = max queue.card size - 1 := by
  rw [drain]
  split
  · rw [card_erase_of_mem (min'_mem _ _), card_topUp]
  · rename_i hempty
    rw [not_nonempty_iff_eq_empty] at hempty
    have hcard : (topUp size queue).card = 0 := by rw [hempty, card_empty]
    rw [hcard]
    rw [card_topUp] at hcard
    omega

theorem drain_eq_empty : drain size queue = ∅ ↔ queue.card ≤ 1 ∧ size ≤ 1 := by
  rw [← card_eq_zero, card_drain]
  omega

theorem drain_above {bound : Nat} (habove : ∀ x ∈ queue, bound < x)
    (hempty : queue = ∅ → size ≤ 1) : ∀ x ∈ drain size queue, bound < x := by
  intro x hx
  rcases queue.eq_empty_or_nonempty with rfl | ⟨y, hy⟩
  · rw [drain_eq_empty.mpr ⟨by rw [card_empty]; omega, hempty rfl⟩] at hx
    exact absurd hx (notMem_empty x)
  · have htop : x ∈ topUp size queue := by
      rw [drain] at hx
      split at hx
      · exact mem_of_mem_erase hx
      · exact hx
    rcases mem_iterate_push htop with hmem | hlt
    · exact habove x hmem
    · exact (habove y hy).trans (hlt y hy)

/-- The least number is gone after the first taking. -/
theorem drain_above_min (hne : queue.Nonempty) : ∀ x ∈ drain size queue, queue.min' hne < x := by
  have hsub : queue ⊆ topUp size queue := subset_iterate_push _
  intro x hx
  rw [drain, dif_pos (hne.mono hsub), mem_erase] at hx
  rcases mem_iterate_push hx.2 with hmem | hlt
  · refine lt_of_le_of_ne (min'_le _ x hmem) fun heq => hx.1 ?_
    -- The least of the old numbers is the least of all.
    refine le_antisymm ?_ (min'_le _ x hx.2)
    refine le_min' _ _ x fun y hy => ?_
    rcases mem_iterate_push hy with hold | hnew
    · exact heq ▸ min'_le _ y hold
    · exact Nat.le_of_lt (hnew x hmem)
  · exact hlt _ (min'_mem _ _)

/-- **A drained queue does not come back.** -/
theorem iterate_drain_eq {n : Nat} (h : (drain size)^[n + 1] queue = queue) : queue = ∅ ∧ size ≤ 1 := by
  rcases queue.eq_empty_or_nonempty with rfl | hne
  · refine ⟨rfl, ?_⟩
    rw [Function.iterate_succ_apply'] at h
    exact (drain_eq_empty.mp h).2
  · have hrun : (∀ x ∈ (drain size)^[n + 1] queue, queue.min' hne < x) := by
      have hinv : ∀ n, (∀ x ∈ (drain size)^[n + 1] queue, queue.min' hne < x) ∧
          ((drain size)^[n + 1] queue = ∅ → size ≤ 1) := by
        intro n
        induction n with
        | zero => exact ⟨drain_above_min hne, fun hempty => (drain_eq_empty.mp hempty).2⟩
        | succ n ih =>
          rw [Function.iterate_succ_apply']
          exact ⟨drain_above ih.1 ih.2, fun hempty => (drain_eq_empty.mp hempty).2⟩
      exact (hinv n).1
    rw [h] at hrun
    exact absurd (hrun _ (min'_mem queue hne)) (Nat.lt_irrefl _)

end NumberedQueue
