/-!
# Loops without a bound

A round leads to the next state or ends the loop with a result.  `run` makes a
number of rounds; a loop ends in a result when some number of rounds is enough.
A measure that falls shows that a loop ends, an invariant that always allows a
further round that it does not.
-/

namespace WhileLoop

variable {σ ρ : Type} (step : σ → σ ⊕ ρ)

/-- The result after at most so many rounds. -/
def run : Nat → σ → Option ρ
  | 0, _ => none
  | fuel + 1, s =>
    match step s with
    | .inl s' => run fuel s'
    | .inr r => some r

/-- The loop ends in a result. -/
def Ends (s : σ) (r : ρ) : Prop := ∃ fuel, run step fuel s = some r

/-- The loop ends in a result after a round that came to this. -/
def EndsAfter (round : σ ⊕ ρ) (r : ρ) : Prop :=
  match round with
  | .inl s => Ends step s r
  | .inr r' => r' = r

variable {step} {s s' : σ} {r r' : ρ}

/-- A loop ends where its first round leads. -/
theorem ends_iff : Ends step s r ↔ EndsAfter step (step s) r := by
  constructor
  · intro ⟨fuel, hrun⟩
    cases fuel with
    | zero => cases hrun
    | succ fuel =>
      unfold run at hrun
      split at hrun
      · rename_i hstep
        rw [hstep]
        exact ⟨fuel, hrun⟩
      · rename_i hstep
        rw [hstep]
        exact Option.some.inj hrun
  · intro h
    cases hstep : step s with
    | inl s' =>
      rw [hstep] at h
      obtain ⟨fuel, hrun⟩ := h
      refine ⟨fuel + 1, ?_⟩
      rw [run, hstep]
      exact hrun
    | inr r' =>
      rw [hstep] at h
      refine ⟨1, ?_⟩
      rw [run, hstep]
      exact congrArg some h

/-- One round does not change where a loop ends. -/
theorem ends_iff_of_inl (h : step s = .inl s') : Ends step s r ↔ Ends step s' r := by
  rw [ends_iff, h, EndsAfter]

/-- More rounds change nothing. -/
theorem run_mono {fuel fuel' : Nat} (hle : fuel ≤ fuel') (h : run step fuel s = some r) :
    run step fuel' s = some r := by
  induction fuel generalizing s fuel' with
  | zero => cases h
  | succ fuel ih =>
    obtain ⟨more, rfl⟩ := Nat.exists_eq_add_of_le hle
    rw [Nat.add_right_comm]
    unfold run at h ⊢
    split
    · rename_i hstep
      rw [hstep] at h
      exact ih (Nat.le_add_right fuel more) h
    · rename_i hstep
      rw [hstep] at h
      exact h

theorem Ends.unique (h : Ends step s r) (h' : Ends step s r') : r = r' := by
  obtain ⟨fuel, hrun⟩ := h
  obtain ⟨fuel', hrun'⟩ := h'
  have hmost := run_mono (Nat.le_max_left fuel fuel') hrun
  rw [run_mono (Nat.le_max_right fuel fuel') hrun'] at hmost
  exact (Option.some.inj hmost).symm

/-- **A loop whose rounds let a measure fall ends.** -/
theorem exists_ends (measure : σ → Nat) (hfalls : ∀ s s', step s = .inl s' → measure s' < measure s)
    (s : σ) : ∃ r, Ends step s r := by
  induction hn : measure s using Nat.strongRecOn generalizing s with
  | ind n ih =>
    cases hstep : step s with
    | inr r => exact ⟨r, ends_iff.mpr (hstep ▸ rfl)⟩
    | inl s' =>
      obtain ⟨r, hends⟩ := ih _ (hn ▸ hfalls s s' hstep) s' rfl
      exact ⟨r, (ends_iff_of_inl hstep).mpr hends⟩

/-- **A loop that can always make another round does not end.** -/
theorem not_ends (inv : σ → Prop) (hstep : ∀ s, inv s → ∃ s', step s = .inl s' ∧ inv s')
    (hs : inv s) : ¬Ends step s r := by
  rintro ⟨fuel, hrun⟩
  induction fuel generalizing s with
  | zero => cases hrun
  | succ fuel ih =>
    obtain ⟨s', hnext, hinv⟩ := hstep s hs
    rw [run, hnext] at hrun
    exact ih hinv hrun

end WhileLoop
