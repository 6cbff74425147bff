import Mathlib.Data.List.Basic

/-!
# Loops that stop early and keep what they did

A loop over a state whose steps return a flag: the first step that returns
`false` ends it, with the state that step left behind.
-/

namespace EarlyExit

open List

variable {σ ε : Type}

/-- Run `step` over `items` until it returns `false`. -/
def loop (step : σ → ε → Bool × σ) : σ → List ε → Bool × σ
  | s, [] => (true, s)
  | s, item :: items =>
    if (step s item).1 then loop step (step s item).2 items else (false, (step s item).2)

/-- The items whose step returned `true`. -/
def passed (step : σ → ε → Bool × σ) : σ → List ε → List ε
  | _, [] => []
  | s, item :: items =>
    if (step s item).1 then item :: passed step (step s item).2 items else []

theorem eq_of_fst {result : Bool × σ} (h : result.1 = true) : result = (true, result.2) :=
  Prod.ext h rfl

variable {step : σ → ε → Bool × σ} {s t : σ}

variable {items : List ε}

theorem loop_cons_true {item : ε} : loop step s (item :: items) = (true, t) ↔
      ∃ mid, step s item = (true, mid) ∧ loop step mid items = (true, t) := by
  rw [loop]
  constructor
  · intro h
    split at h
    · rename_i hflag
      exact ⟨(step s item).2, Prod.ext hflag rfl, h⟩
    · cases h
  · intro ⟨mid, hstep, hrest⟩
    rw [hstep, if_pos rfl]
    exact hrest

theorem loop_singleton (s : σ) (item : ε) : loop step s [item] = step s item := by
  rw [loop]
  split
  · rename_i hflag
    exact Prod.ext hflag.symm rfl
  · rename_i hflag
    exact Prod.ext (by simpa using hflag) rfl

theorem loop_append (s : σ) (pre post : List ε) : loop step s (pre ++ post) =
      if (loop step s pre).1 then loop step (loop step s pre).2 post else loop step s pre := by
  induction pre generalizing s with
  | nil => rfl
  | cons item pre ih =>
    rw [cons_append, loop, loop]
    split
    · exact ih _
    · rfl

theorem loop_append_true {pre post : List ε} : loop step s (pre ++ post) = (true, t) ↔
      ∃ mid, loop step s pre = (true, mid) ∧ loop step mid post = (true, t) := by
  rw [loop_append]
  constructor
  · intro h
    split at h
    · rename_i hflag
      exact ⟨_, Prod.ext hflag rfl, h⟩
    · rename_i hflag
      rw [h] at hflag
      exact absurd rfl hflag
  · intro ⟨mid, hpre, hpost⟩
    rw [hpre, if_pos rfl]
    exact hpost

/-- **Invariant rule.**  What every step keeps, whether it fails or not, the
loop keeps. -/
theorem loop_invariant (inv : σ → Prop) (hstep : ∀ item ∈ items, ∀ s, inv s → inv (step s item).2)
    (hs : inv s) : inv (loop step s items).2 := by
  induction items generalizing s with
  | nil => exact hs
  | cons item items ih =>
    have hnext := hstep item mem_cons_self s hs
    rw [loop]
    split
    · exact ih (fun i hi => hstep i (mem_cons_of_mem _ hi)) hnext
    · exact hnext

theorem passed_of_loop_true (h : (loop step s items).1 = true) : passed step s items = items := by
  induction items generalizing s with
  | nil => rfl
  | cons item items ih =>
    rw [loop] at h
    rw [passed]
    split at h
    · rename_i hflag
      rw [if_pos hflag, ih h]
    · cases h

end EarlyExit

/-!
## Sweeps

A pass visits places one after the other and repairs each of them.  A visit may stop the pass,
and then it leaves a state too.
-/

namespace Sweep

variable {κ σ : Type} {visit : σ → κ → Except σ σ}

/-- The state that is left, also where the pass stops. -/
def left : Except σ σ → σ
  | .ok s => s
  | .error s => s

variable {places : List κ} {s s' : σ}

/-- A pass that ends made its first visit. -/
theorem foldlM_cons {place : κ} (h : (place :: places).foldlM visit s = .ok s') :
    ∃ mid, visit s place = .ok mid ∧ places.foldlM visit mid = .ok s' := by
  rw [List.foldlM_cons] at h
  cases hvisit : visit s place with
  | error mid =>
    rw [hvisit] at h
    cases h
  | ok mid =>
    rw [hvisit] at h
    exact ⟨mid, rfl, h⟩

/-- The first visit stops the pass, or the rest of it follows. -/
theorem left_cons (place : κ) (places : List κ) (s : σ) :
    left ((place :: places).foldlM visit s) = match visit s place with
      | .error mid => mid
      | .ok mid => left (places.foldlM visit mid) := by
  rw [List.foldlM_cons]
  cases visit s place with
  | error mid => rfl
  | ok mid => rfl

/-- **Run rule.**  What every visit does to the state, a pass does. -/
theorem rel_of_pass {R : σ → σ → Prop} (hrefl : ∀ s, R s s) (htrans : ∀ s t u, R s t → R t u →
    R s u) (hvisit : ∀ s place s', visit s place = .ok s' → R s s')
    (h : places.foldlM visit s = .ok s') : R s s' := by
  induction places generalizing s with
  | nil =>
    cases h
    exact hrefl _
  | cons place places ih =>
    obtain ⟨mid, hfirst, hrest⟩ := foldlM_cons h
    exact htrans _ _ _ (hvisit s place mid hfirst) (ih hrest)

theorem visit_of_pass {R : σ → σ → Prop} (hrefl : ∀ s, R s s) (htrans : ∀ s t u, R s t → R t u →
    R s u) (hvisit : ∀ s place s', visit s place = .ok s' → R s s') {place : κ}
    (h : places.foldlM visit s = .ok s') (hplace : place ∈ places) :
    ∃ before after, R s before ∧ visit before place = .ok after ∧ R after s' := by
  induction places generalizing s with
  | nil => exact (List.not_mem_nil hplace).elim
  | cons first places ih =>
    obtain ⟨mid, hfirst, hrest⟩ := foldlM_cons h
    rcases List.mem_cons.mp hplace with rfl | hlater
    · exact ⟨s, mid, hrefl s, hfirst, rel_of_pass hrefl htrans hvisit hrest⟩
    · obtain ⟨before, after, hbefore, hthere, hafter⟩ := ih hrest hlater
      exact ⟨before, after, htrans _ _ _ (hvisit s first mid hfirst) hbefore, hthere, hafter⟩

/-- **A pass settles what it visits**, when a visit settles its place and unsettles none. -/
theorem settled_of_pass {inv : σ → Prop} {Settled : κ → σ → Prop}
    (hinv : ∀ s place s', inv s → visit s place = .ok s' → inv s')
    (hsettles : ∀ s place s', inv s → visit s place = .ok s' → Settled place s')
    (hkeeps : ∀ s place s' other, inv s → visit s place = .ok s' →
      Settled other s → Settled other s') (hs : inv s) (h : places.foldlM visit s = .ok s') :
    inv s' ∧ (∀ place ∈ places, Settled place s') ∧ ∀ other, Settled other s → Settled other s' := by
  induction places generalizing s with
  | nil =>
    cases h
    exact ⟨hs, fun _ hplace => (List.not_mem_nil hplace).elim, fun _ => id⟩
  | cons place places ih =>
    obtain ⟨mid, hvisit, hrest⟩ := foldlM_cons h
    obtain ⟨hinv', hall, hkept⟩ := ih (hinv s place mid hs hvisit) hrest
    refine ⟨hinv', fun later hlater => ?_, fun other hother =>
      hkept other (hkeeps s place mid other hs hvisit hother)⟩
    rcases List.mem_cons.mp hlater with rfl | hlater
    · exact hkept _ (hsettles s _ mid hs hvisit)
    · exact hall later hlater

theorem pass_of_fixed {s : σ} (h : ∀ place ∈ places, visit s place = .ok s) :
    places.foldlM visit s = .ok s := by
  induction places with
  | nil => rfl
  | cons place places ih =>
    rw [List.foldlM_cons, h place List.mem_cons_self]
    exact ih fun later hlater => h later (List.mem_cons_of_mem _ hlater)

end Sweep
