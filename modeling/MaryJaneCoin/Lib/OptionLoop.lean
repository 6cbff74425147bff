import Mathlib.Data.List.Basic
import Mathlib.Data.List.Induction
import Mathlib.Data.Set.Insert

/-!
# Loops that may fail

A loop `items.foldlM step` over `Option` stops at the first step that fails.
The rules here say what a finished loop did: it took every step, and what no
step touches is as it was.
-/

namespace OptionLoop

open List

variable {σ ε ρ : Type} {step : σ → ε → Option σ}

variable {items : List ε} {s t : σ}

/-- A finished loop took its first step. -/
theorem foldlM_cons {item : ε} (h : (item :: items).foldlM step s = some t) :
    ∃ mid, step s item = some mid ∧ items.foldlM step mid = some t := by
  simpa [Option.bind_eq_some_iff] using h

/-- A finished loop passed every point of its list. -/
theorem foldlM_append {pre post : List ε} (h : (pre ++ post).foldlM step s = some t) :
    ∃ mid, pre.foldlM step s = some mid ∧ post.foldlM step mid = some t := by
  simpa [List.foldlM_append, Option.bind_eq_some_iff] using h

/-- A finished loop took every step. -/
theorem foldlM_mem {item : ε} (h : items.foldlM step s = some t)
    (hitem : item ∈ items) : ∃ before after, step before item = some after := by
  obtain ⟨pre, post, rfl⟩ := append_of_mem hitem
  obtain ⟨before, -, hrest⟩ := foldlM_append h
  obtain ⟨after, hstep, -⟩ := foldlM_cons hrest
  exact ⟨before, after, hstep⟩

/-- **Frame rule.**  What no step changes, the loop does not change. -/
theorem foldlM_frame (look : σ → ρ)
    (hframe : ∀ item ∈ items, ∀ s s', step s item = some s' → look s' = look s)
    (h : items.foldlM step s = some t) : look t = look s := by
  induction items generalizing s with
  | nil => cases h; rfl
  | cons item items ih =>
    obtain ⟨mid, hmid, hrest⟩ := foldlM_cons h
    rw [ih (fun i hi => hframe i (mem_cons_of_mem _ hi)) hrest, hframe item mem_cons_self s mid hmid]

/-- **Invariant rule.**  What every step keeps, the loop keeps. -/
theorem foldlM_invariant (inv : σ → Prop)
    (hstep : ∀ item ∈ items, ∀ s s', inv s → step s item = some s' → inv s')
    (h : items.foldlM step s = some t) (hs : inv s) : inv t := by
  induction items generalizing s with
  | nil => cases h; exact hs
  | cons item items ih =>
    obtain ⟨mid, hmid, hrest⟩ := foldlM_cons h
    exact ih (fun i hi => hstep i (mem_cons_of_mem _ hi)) hrest
      (hstep item mem_cons_self s mid hs hmid)

/-- A loop whose steps succeed at least where other ones do. -/
theorem foldlM_mono {step' : σ → ε → Option σ}
    (hstep : ∀ item s s', step s item = some s' → step' s item = some s')
    (h : items.foldlM step s = some t) : items.foldlM step' s = some t := by
  induction items generalizing s with
  | nil => exact h
  | cons item items ih =>
    obtain ⟨mid, hmid, hrest⟩ := foldlM_cons h
    rw [List.foldlM_cons, hstep item s mid hmid]
    exact ih hrest

/-- A loop all of whose steps succeed finishes. -/
theorem foldlM_isSome (hstep : ∀ item ∈ items, ∀ s, ∃ s', step s item = some s') (s : σ) :
    ∃ t, items.foldlM step s = some t := by
  induction items generalizing s with
  | nil => exact ⟨s, rfl⟩
  | cons item items ih =>
    obtain ⟨mid, hmid⟩ := hstep item mem_cons_self s
    obtain ⟨t, ht⟩ := ih (fun i hi => hstep i (mem_cons_of_mem _ hi)) mid
    exact ⟨t, by simpa [hmid] using ht⟩

/-- A loop whose steps have a bound on their depth.  When each step succeeds for
every bound that is great enough, so does the loop. -/
theorem foldlM_eventually {step : Nat → σ → ε → Option σ} (inv : σ → Prop)
    (hstep : ∀ item ∈ items, ∀ s, inv s →
      ∃ depth₀ s', (∀ depth ≥ depth₀, step depth s item = some s') ∧ inv s') {s : σ} (hs : inv s) :
    ∃ depth₀ t, (∀ depth ≥ depth₀, items.foldlM (step depth) s = some t) ∧ inv t := by
  induction items generalizing s with
  | nil => exact ⟨0, s, fun _ _ => rfl, hs⟩
  | cons item items ih =>
    obtain ⟨depth₁, mid, hfirst, hmid⟩ := hstep item mem_cons_self s hs
    obtain ⟨depth₂, t, hrest, ht⟩ := ih (fun i hi => hstep i (mem_cons_of_mem _ hi)) hmid
    refine ⟨max depth₁ depth₂, t, ?_, ht⟩
    intro depth hdepth
    rw [List.foldlM_cons, hfirst depth (Nat.le_trans (Nat.le_max_left _ _) hdepth)]
    exact hrest depth (Nat.le_trans (Nat.le_max_right _ _) hdepth)

/-- The loop with the state that it got to, and whether it finished. -/
def reach (step : σ → ε → Option σ) : List ε → σ → Bool × σ
  | [], s => (true, s)
  | item :: items, s =>
    match step s item with
    | none => (false, s)
    | some s' => reach step items s'

/-- The loop finishes with the state that it got to. -/
theorem foldlM_eq_reach (items : List ε) (s : σ) : items.foldlM step s =
      if (reach step items s).1 then some (reach step items s).2 else none := by
  induction items generalizing s with
  | nil => rfl
  | cons item items ih =>
    rw [List.foldlM_cons, reach]
    cases hstep : step s item with
    | none => rfl
    | some s' => exact ih s'

/-- What the loop got to is what it gives on some of the first items. -/
theorem exists_prefix_of_reach (items : List ε) (s : σ) :
    ∃ pre post, items = pre ++ post ∧ pre.foldlM step s = some (reach step items s).2 := by
  induction items generalizing s with
  | nil => exact ⟨[], [], rfl, rfl⟩
  | cons item items ih =>
    rw [reach]
    cases hstep : step s item with
    | none => exact ⟨[], item :: items, rfl, rfl⟩
    | some s' =>
      obtain ⟨pre, post, rfl, hloop⟩ := ih s'
      refine ⟨item :: pre, post, rfl, ?_⟩
      rw [List.foldlM_cons, hstep]
      exact hloop

theorem mapM_eq {α β : Type} (f : α → Option β) (l : List α) :
    l.mapM f = if l.all fun a => (f a).isSome then some (l.filterMap f) else none := by
  induction l with
  | nil => rfl
  | cons a l ih =>
    rw [mapM_cons, ih, all_cons, filterMap_cons]
    cases f a with
    | none => rfl
    | some b =>
      cases l.all fun a => (f a).isSome with
      | false => rfl
      | true => rfl

/-- Collecting by index gives the list whose elements are found there. -/
theorem mapM_range {f : Nat → Option ρ} (values : List ρ) (hf : ∀ i v, values[i]? = some v →
    f i = some v) : (List.range values.length).mapM f = some values := by
  induction values using List.reverseRecOn with
  | nil => rfl
  | append_singleton values v ih =>
    have hinit : (List.range values.length).mapM f = some values := by
      apply ih
      intro i w hw
      refine hf i w ?_
      rw [getElem?_append_left (List.getElem?_eq_some_iff.mp hw).1]
      exact hw
    have hlast : f values.length = some v := hf _ _ getElem?_concat_length
    rw [length_append, length_singleton, range_succ, mapM_append, hinit]
    simp [hlast]

end OptionLoop

/-!
## Computations that may fail

What a computation in `Except` did, when it returned a result.
-/

namespace Fallible

variable {α β ε δ : Type}

/-- A computation that returns did its first part. -/
theorem bind_eq_ok {first : Except ε α} {next : α → Except ε β} {result : β} :
    first >>= next = .ok result ↔ ∃ a, first = .ok a ∧ next a = .ok result := by
  cases first with
  | error =>
    constructor
    · intro h
      cases h
    · rintro ⟨_, h, _⟩
      cases h
  | ok a =>
    constructor
    · exact fun h => ⟨a, rfl, h⟩
    · rintro ⟨_, hfirst, h⟩
      cases hfirst
      exact h

/-- A computation that returns passed its check. -/
theorem ite_error_eq_ok {p : Prop} [Decidable p] {e : ε} {rest : Except ε α} {result : α} :
    (if p then .error e else rest) = .ok result ↔ ¬ p ∧ rest = .ok result := by
  split
  · rename_i hp
    constructor
    · intro h
      cases h
    · exact fun h => absurd hp h.1
  · rename_i hp
    exact ⟨fun h => ⟨hp, h⟩, fun h => h.2⟩

theorem mapError_eq_ok {f : ε → δ} {computed : Except ε α} {result : α} :
    computed.mapError f = .ok result ↔ computed = .ok result := by
  cases computed with
  | error =>
    constructor
    · intro h
      cases h
    · intro h
      cases h
  | ok a =>
    constructor
    · intro h
      cases h
      rfl
    · intro h
      cases h
      rfl

theorem toOption_eq_some {computed : Except ε α} {result : α} :
    computed.toOption = some result ↔ computed = .ok result := by
  cases computed with
  | error =>
    constructor
    · intro h
      cases h
    · intro h
      cases h
  | ok a =>
    constructor
    · intro h
      cases h
      rfl
    · intro h
      cases h
      rfl

end Fallible

/-!
## Loops that collect

Each item of a list adds elements to what the state shows, whatever the state is.  Where an item
may fail, that does not depend on the state either.
-/

namespace CollectLoop

open List

variable {σ ι α ε : Type} (look : σ → Set α) (adds : ι → Set α)

/-- **A loop shows what it began with and what its items add.** -/
theorem mem_foldl {step : σ → ι → σ} (hstep : ∀ s item x, x ∈ look (step s item) ↔ x ∈ look s ∨
    x ∈ adds item) (items : List ι) (s : σ) (x : α) :
    x ∈ look (items.foldl step s) ↔ x ∈ look s ∨ ∃ item ∈ items, x ∈ adds item := by
  induction items generalizing s with
  | nil => simp
  | cons item items ih =>
    rw [foldl_cons, ih, hstep, exists_mem_cons_iff, or_assoc]

/-- What a loop comes to that may stop: all items are good and it collects them, or it stops. -/
def Collects (good : ι → Prop) (s : σ) (items : List ι) (r : Except ε σ) : Prop :=
  ((∀ item ∈ items, good item) ∧
    ∃ t, r = .ok t ∧ ∀ x, x ∈ look t ↔ x ∈ look s ∨ ∃ item ∈ items, x ∈ adds item) ∨
  ((∃ item ∈ items, ¬good item) ∧ ∃ e, r = .error e)

/-- **A loop that may stop**: from what one step does. -/
theorem foldlM_collects (good : ι → Prop) {step : σ → ι → Except ε σ} (hok : ∀ s item, good item →
    ∃ t, step s item = .ok t ∧ ∀ x, x ∈ look t ↔ x ∈ look s ∨ x ∈ adds item)
    (hstop : ∀ s item, ¬good item → ∃ e, step s item = .error e) (items : List ι) (s : σ) :
    Collects look adds good s items (items.foldlM step s) := by
  induction items generalizing s with
  | nil => exact .inl ⟨by simp, s, rfl, by simp⟩
  | cons item items ih =>
    by_cases hgood : good item
    · obtain ⟨mid, hmid, hadded⟩ := hok s item hgood
      have hnext : (item :: items).foldlM step s = items.foldlM step mid := by
        rw [List.foldlM_cons, hmid]
        rfl
      rw [hnext]
      rcases ih mid with ⟨hall, t, ht, hlook⟩ | ⟨hbad, hstopped⟩
      · refine .inl ⟨forall_mem_cons.mpr ⟨hgood, hall⟩, t, ht, fun x => ?_⟩
        rw [hlook, hadded, exists_mem_cons_iff, or_assoc]
      · exact .inr ⟨(exists_mem_cons_iff _ _ _).mpr (.inr hbad), hstopped⟩
    · obtain ⟨e, he⟩ := hstop s item hgood
      refine .inr ⟨⟨item, mem_cons_self, hgood⟩, e, ?_⟩
      rw [List.foldlM_cons, he]
      rfl

end CollectLoop
