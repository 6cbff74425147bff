import Mathlib.Algebra.Order.BigOperators.Group.Finset
import Mathlib.Tactic.Ring
import Std.Data.ExtTreeMap.Lemmas
import Std.Data.ExtTreeSet.Lemmas

/-!
# Loops over finite maps and sets

What `std::map` and `std::set` hold after a loop of insertions or erasures,
for the extensional tree maps of the standard library.
-/

namespace FinMap

open Std List ExtTreeMap

variable {α β : Type} [Ord α] [TransOrd α]

theorem mem_iff_exists (m : ExtTreeMap α β) (k : α) : k ∈ m ↔ ∃ v, m[k]? = some v := by
  rw [mem_iff_isSome_getElem?, Option.isSome_iff_exists]

variable [LawfulEqOrd α]

theorem exists_bound (m : ExtTreeMap α β) (f : α → Nat) : ∃ bound, ∀ k ∈ m, f k < bound := by
  refine ⟨(m.keys.map f).max?.getD 0 + 1, ?_⟩
  intro k hk
  have hmem : f k ∈ m.keys.map f := mem_map_of_mem (ExtTreeMap.mem_keys.mpr hk)
  exact Nat.lt_succ_of_le (le_max?_getD_of_mem hmem)

variable {m : ExtTreeMap α β} {γ : Type}

/-- A map whose keys are in another one is no larger. -/
theorem size_le_of_subset {m' : ExtTreeMap α γ} (hsub : ∀ k ∈ m, k ∈ m') : m.size ≤ m'.size := by
  rw [← length_keys, ← length_keys]
  refine (List.Nodup.subperm nodup_keys ?_).length_le
  intro k hk
  exact ExtTreeMap.mem_keys.mpr (hsub k (ExtTreeMap.mem_keys.mp hk))

variable {k : α}

/-- A map is smaller when a key is missing. -/
theorem size_lt_of_subset {m' : ExtTreeMap α γ}
    (hsub : ∀ k ∈ m, k ∈ m') (hk : k ∈ m') (hout : k ∉ m) : m.size < m'.size := by
  have hle : m.size ≤ (m'.erase k).size := by
    refine size_le_of_subset fun a ha => ?_
    rw [mem_erase]
    refine ⟨?_, hsub a ha⟩
    intro heq
    exact hout (LawfulEqCmp.eq_of_compare heq ▸ ha)
  rw [size_erase, if_pos (ExtTreeMap.contains_iff_mem.mpr hk)] at hle
  have hpos : 0 < m'.size := by
    rw [← length_keys]
    exact length_pos_of_mem (ExtTreeMap.mem_keys.mpr hk)
  omega

theorem getElem?_insert_ne (m : ExtTreeMap α β) {k a : α} (v : β) (hne : k ≠ a) :
    (m.insert k v)[a]? = m[a]? := by
  rw [ExtTreeMap.getElem?_insert, if_neg (by simpa using hne)]

theorem getElem?_erase_ne (m : ExtTreeMap α β) {k a : α} (hne : k ≠ a) : (m.erase k)[a]? = m[a]? := by
  rw [getElem?_erase, if_neg (by simpa using hne)]

/-- Insertions under different keys commute. -/
theorem insert_comm (m : ExtTreeMap α β) {k k' : α} (v v' : β) (hne : k ≠ k') :
    (m.insert k v).insert k' v' = (m.insert k' v').insert k v := by
  apply ExtTreeMap.ext_getElem?
  intro a
  simp only [ExtTreeMap.getElem?_insert]
  grind

/-- The last insertion under a key counts. -/
theorem insert_insert (m : ExtTreeMap α β) (k : α) (v w : β) : (m.insert k v).insert k w = m.insert k w := by
  apply ExtTreeMap.ext_getElem?
  intro a
  simp only [ExtTreeMap.getElem?_insert]
  grind

theorem insert_of_getElem? {v : β} (h : m[k]? = some v) : m.insert k v = m := by
  apply ExtTreeMap.ext_getElem?
  intro a
  rw [ExtTreeMap.getElem?_insert]
  split
  · rename_i heq
    rw [← LawfulEqCmp.eq_of_compare heq, h]
  · rfl

theorem eq_empty_iff : m = ∅ ↔ ∀ k : α, m[k]? = none := by
  constructor
  · rintro rfl k
    exact getElem?_empty
  · intro hnone
    refine ExtTreeMap.ext_getElem? fun k => ?_
    rw [hnone, getElem?_empty]

theorem erase_insert_self (m : ExtTreeMap α β) (k : α) (v : β) : (m.insert k v).erase k = m.erase k := by
  apply ExtTreeMap.ext_getElem?
  intro a
  rw [getElem?_erase, getElem?_erase, ExtTreeMap.getElem?_insert]
  split <;> rfl

theorem erase_of_notMem (hnew : k ∉ m) : m.erase k = m := by
  apply ExtTreeMap.ext_getElem?
  intro a
  rw [getElem?_erase]
  split
  · rename_i heq
    rw [← LawfulEqCmp.eq_of_compare heq, ExtTreeMap.getElem?_eq_none hnew]
  · rfl

theorem erase_insert (v : β) (hnew : k ∉ m) : (m.insert k v).erase k = m := by
  rw [erase_insert_self, erase_of_notMem hnew]

theorem getElem?_foldl_insert (key : γ → α) (value : γ → β) (items : List γ)
    (m : ExtTreeMap α β) (k : α) : ((∀ x ∈ items, key x ≠ k) ∧ (items.foldl
        (fun m x => m.insert (key x) (value x)) m)[k]? = m[k]?) ∨ ∃ x ∈ items, key x = k ∧
        (items.foldl (fun m x => m.insert (key x) (value x)) m)[k]? = some (value x) := by
  induction items generalizing m with
  | nil => exact Or.inl ⟨by simp, rfl⟩
  | cons x items ih =>
    rcases ih (m.insert (key x) (value x)) with ⟨hne, hlook⟩ | ⟨y, hy, hkey, hlook⟩
    · by_cases hx : key x = k
      · refine Or.inr ⟨x, mem_cons_self, hx, ?_⟩
        rw [foldl_cons, hlook, ← hx, getElem?_insert_self]
      · refine Or.inl ⟨?_, ?_⟩
        · intro y hy
          rcases List.mem_cons.mp hy with rfl | hy
          · exact hx
          · exact hne y hy
        · rw [foldl_cons, hlook, getElem?_insert_ne m _ hx]
    · exact Or.inr ⟨y, mem_cons_of_mem _ hy, hkey, hlook⟩

/-- A loop of erasures. -/
theorem getElem?_foldl_erase (keys : List α) (m : ExtTreeMap α β) (k : α) :
    (k ∈ keys → (keys.foldl (fun m key => m.erase key) m)[k]? = none) ∧
      (k ∉ keys → (keys.foldl (fun m key => m.erase key) m)[k]? = m[k]?) := by
  induction keys generalizing m with
  | nil => simp
  | cons key keys ih =>
    obtain ⟨hin, hout⟩ := ih (m.erase key)
    constructor
    · intro hmem
      by_cases hk : k ∈ keys
      · exact hin hk
      · have heq : k = key := (List.mem_cons.mp hmem).resolve_right hk
        rw [foldl_cons, hout hk, heq, getElem?_erase_self]
    · intro hmem
      rw [List.mem_cons, not_or] at hmem
      rw [foldl_cons, hout hmem.2, getElem?_erase_ne m (Ne.symm hmem.1)]

theorem mem_foldl_insert (key : γ → α) (items : List γ) (s : ExtTreeSet α) (k : α) :
    k ∈ items.foldl (fun s item => s.insert (key item)) s ↔ k ∈ s ∨ k ∈ items.map key := by
  induction items generalizing s with
  | nil => simp
  | cons item items ih =>
    rw [foldl_cons, ih, ExtTreeSet.mem_insert, LawfulEqCmp.compare_eq_iff_eq, map_cons,
      List.mem_cons, or_comm (a := key item = k), or_assoc, eq_comm]

theorem mem_foldl_erase (keys : List α) (s : ExtTreeSet α) (k : α) :
    k ∈ keys.foldl (fun s key => s.erase key) s ↔ k ∈ s ∧ k ∉ keys := by
  induction keys generalizing s with
  | nil => simp
  | cons key keys ih =>
    rw [foldl_cons, ih, ExtTreeSet.mem_erase, List.mem_cons, not_or]
    constructor
    · rintro ⟨⟨hne, hs⟩, hk⟩
      exact ⟨hs, fun heq => hne (by simp [heq]), hk⟩
    · rintro ⟨hs, hne, hk⟩
      exact ⟨⟨by simpa using Ne.symm hne, hs⟩, hk⟩

/-- An insertion moves out of a loop of erasures of other keys. -/
theorem foldl_erase_insert (keys : List α) (m : ExtTreeMap α β) (v : β) (hk : k ∉ keys) :
    keys.foldl (fun m key => m.erase key) (m.insert k v) =
      (keys.foldl (fun m key => m.erase key) m).insert k v := by
  induction keys generalizing m with
  | nil => rfl
  | cons key keys ih =>
    rw [List.mem_cons, not_or] at hk
    have hswap : (m.insert k v).erase key = (m.erase key).insert k v := by
      apply ExtTreeMap.ext_getElem?
      intro a
      by_cases hkey : key = a
      · subst hkey
        rw [getElem?_erase_self, getElem?_insert_ne _ _ hk.1, getElem?_erase_self]
      · rw [getElem?_erase_ne _ hkey]
        by_cases hka : k = a
        · subst hka
          rw [getElem?_insert_self, getElem?_insert_self]
        · rw [getElem?_insert_ne _ _ hka, getElem?_insert_ne _ _ hka, getElem?_erase_ne _ hkey]
    rw [foldl_cons, foldl_cons, hswap, ih _ hk.2]

/-- A loop of insertions and a loop of erasures of other keys commute. -/
theorem foldl_erase_foldl_insert (key : γ → α) (value : γ → β) (items : List γ)
    (keys : List α) (m : ExtTreeMap α β) (hdisjoint : ∀ x ∈ items, key x ∉ keys) :
    keys.foldl (fun m k => m.erase k) (items.foldl (fun m x => m.insert (key x) (value x)) m) =
      items.foldl (fun m x => m.insert (key x) (value x)) (keys.foldl (fun m k => m.erase k) m) := by
  induction items generalizing m with
  | nil => rfl
  | cons x items ih =>
    rw [foldl_cons, foldl_cons, ih _ fun y hy => hdisjoint y (mem_cons_of_mem _ hy),
      foldl_erase_insert _ _ _ (hdisjoint x mem_cons_self)]

/-- When the written keys are distinct, each holds what was written to it. -/
theorem getElem?_foldl_insert_of_mem (key : γ → α) (value : γ → β) {items : List γ}
    (m : ExtTreeMap α β) (hnodup : (items.map key).Nodup) {x : γ} (hx : x ∈ items) :
    (items.foldl (fun m x => m.insert (key x) (value x)) m)[key x]? = some (value x) := by
  rcases getElem?_foldl_insert key value items m (key x) with ⟨hne, _⟩ | ⟨y, hy, hkey, hlook⟩
  · exact absurd rfl (hne x hx)
  · rw [hlook, inj_on_of_nodup_map hnodup hy hx hkey]

/-- A map with the entries of another one written over it. -/
def overlay (m changes : ExtTreeMap α β) : ExtTreeMap α β :=
  changes.toList.foldl (fun m entry => m.insert entry.1 entry.2) m

theorem getElem?_overlay (m changes : ExtTreeMap α β) (k : α) :
    (overlay m changes)[k]? = changes[k]?.or m[k]? := by
  unfold overlay
  rcases getElem?_foldl_insert Prod.fst Prod.snd changes.toList m k with
    ⟨hne, hlook⟩ | ⟨entry, hmem, hkey, hlook⟩
  · have hnone : changes[k]? = none := by
      cases hv : changes[k]? with
      | none => rfl
      | some v =>
        have hmem : (k, v) ∈ changes.toList := mem_toList_iff_getElem?_eq_some.mpr hv
        exact absurd rfl (hne _ hmem)
    rw [hlook, hnone, Option.none_or]
  · have hsome : changes[k]? = some entry.2 := by
      rw [← hkey]
      exact mem_toList_iff_getElem?_eq_some.mp hmem
    rw [hlook, hsome, Option.some_or]

@[simp] theorem overlay_empty (m : ExtTreeMap α β) : overlay m ∅ = m := by
  apply ExtTreeMap.ext_getElem?
  intro k
  rw [getElem?_overlay, getElem?_empty, Option.none_or]

/-- Writing a change and then laying it over a map is writing to the result. -/
theorem overlay_insert (m changes : ExtTreeMap α β) (k : α) (v : β) :
    overlay m (changes.insert k v) = (overlay m changes).insert k v := by
  apply ExtTreeMap.ext_getElem?
  intro a
  by_cases hk : k = a
  · subst hk
    rw [getElem?_overlay, getElem?_insert_self, getElem?_insert_self, Option.some_or]
  · rw [getElem?_overlay, getElem?_insert_ne _ _ hk, getElem?_insert_ne _ _ hk, getElem?_overlay]

/-- Insertions of new keys are insertions. -/
theorem insertIfNew_of_notMem (v : β) (hnew : k ∉ m) : m.insertIfNew k v = m.insert k v := by
  apply ExtTreeMap.ext_getElem?
  intro a
  simp only [getElem?_insertIfNew, ExtTreeMap.getElem?_insert, hnew, not_false_eq_true, and_true]

theorem foldl_insertIfNew (entries : List (α × β)) (m : ExtTreeMap α β)
    (hnodup : (entries.map Prod.fst).Nodup) (hnew : ∀ entry ∈ entries, entry.1 ∉ m) :
    entries.foldl (fun m entry => m.insertIfNew entry.1 entry.2) m =
      entries.foldl (fun m entry => m.insert entry.1 entry.2) m := by
  induction entries generalizing m with
  | nil => rfl
  | cons entry entries ih =>
    obtain ⟨hhead, htail⟩ := nodup_cons.mp hnodup
    rw [foldl_cons, foldl_cons, insertIfNew_of_notMem _ (hnew entry mem_cons_self)]
    refine ih _ htail fun later hlater hmem => ?_
    rcases mem_insert.mp hmem with heq | hmem
    · exact hhead (LawfulEqCmp.eq_of_compare heq ▸ mem_map_of_mem hlater)
    · exact hnew later (mem_cons_of_mem _ hlater) hmem

/-- **A map is rebuilt from its entries**, by insertions that keep what is there. -/
theorem foldl_insertIfNew_toList (m : ExtTreeMap α β) :
    m.toList.foldl (fun m entry => m.insertIfNew entry.1 entry.2) ∅ = m := by
  have hnodup : (m.toList.map Prod.fst).Nodup := by
    rw [map_fst_toList_eq_keys]
    exact nodup_keys
  rw [foldl_insertIfNew _ _ hnodup fun _ _ => not_mem_empty]
  apply ExtTreeMap.ext_getElem?
  intro k
  have hoverlay := getElem?_overlay ∅ m k
  rw [getElem?_empty, Option.or_none] at hoverlay
  exact hoverlay

end FinMap

/-!
## Pending writes

A batch is a list of writes and deletions, latest last.  `lastOp` is what it has to
say about a key, and laying it over a map looks just there (`getElem?_applyBatch`).
-/

namespace WriteBatch

open Std

variable {α β : Type}

inductive BatchOp (α β : Type) where
  | put (key : α) (value : β)
  | delete (key : α)

/-- What an operation makes of a key: nothing, a value, or no value. -/
def BatchOp.effect [DecidableEq α] (key : α) : BatchOp α β → Option (Option β)
  | .put k value => if k = key then some (some value) else none
  | .delete k => if k = key then some none else none

/-- What the last operation on a key makes of it. -/
def lastOp [DecidableEq α] (key : α) (batch : List (BatchOp α β)) : Option (Option β) :=
  batch.foldl (fun last op => (op.effect key).or last) none

theorem lastOp_concat [DecidableEq α] (key : α) (batch : List (BatchOp α β)) (op : BatchOp α β) :
    lastOp key (batch ++ [op]) = (op.effect key).or (lastOp key batch) := by
  simp [lastOp]

variable [Ord α] [TransOrd α]

/-- One operation on a map. -/
def BatchOp.apply (m : ExtTreeMap α β) : BatchOp α β → ExtTreeMap α β
  | .put key value => m.insert key value
  | .delete key => m.erase key

def applyBatch (m : ExtTreeMap α β) (batch : List (BatchOp α β)) : ExtTreeMap α β :=
  batch.foldl BatchOp.apply m

variable [LawfulEqOrd α] [DecidableEq α]

theorem BatchOp.getElem?_apply (m : ExtTreeMap α β) (op : BatchOp α β) (key : α) :
    (op.apply m)[key]? = (op.effect key).getD m[key]? := by
  cases op with
  | put k value =>
    rw [apply, effect]
    by_cases hk : k = key
    · rw [if_pos hk, hk, ExtTreeMap.getElem?_insert_self]
      rfl
    · rw [if_neg hk, FinMap.getElem?_insert_ne m value hk]
      rfl
  | delete k =>
    rw [apply, effect]
    by_cases hk : k = key
    · rw [if_pos hk, hk, ExtTreeMap.getElem?_erase_self]
      rfl
    · rw [if_neg hk, FinMap.getElem?_erase_ne m hk]
      rfl

/-- **A batch over a map.** -/
theorem getElem?_applyBatch (m : ExtTreeMap α β) (batch : List (BatchOp α β)) (key : α) :
    (applyBatch m batch)[key]? = (lastOp key batch).getD m[key]? := by
  induction batch using List.reverseRecOn with
  | nil => rfl
  | append_singleton batch op ih =>
    have hstep : applyBatch m (batch ++ [op]) = op.apply (applyBatch m batch) := by
      simp [applyBatch]
    rw [hstep, op.getElem?_apply, lastOp_concat, ih]
    cases op.effect key with
    | none => rfl
    | some value => rfl

end WriteBatch

/-!
## Totals over finite maps

Every value of a map has a weight; the total is the sum of the weights of its
values.  Writing to a key changes the total by the difference of the two
weights at that key.
-/

namespace MapSum

open Std List Finset

variable {α β : Type} [Ord α] [TransOrd α]

/-- The weight at a key, zero when the key is absent. -/
def weightAt (weight : β → Int) (m : ExtTreeMap α β) (k : α) : Int :=
  (m[k]?.map weight).getD 0

/-- The sum of the weights of all values. -/
def total [DecidableEq α] (weight : β → Int) (m : ExtTreeMap α β) : Int :=
  ∑ k ∈ m.keys.toFinset, weightAt weight m k

variable {m : ExtTreeMap α β}

theorem weightAt_eq_zero (weight : β → Int) {k : α} (hk : k ∉ m) : weightAt weight m k = 0 := by
  rw [weightAt, ExtTreeMap.getElem?_eq_none hk, Option.map_none, Option.getD_none]

variable [DecidableEq α]

theorem total_nonneg {weight : β → Int}
    (hweight : ∀ (k : α) (v : β), m[k]? = some v → 0 ≤ weight v) : 0 ≤ total weight m := by
  apply Finset.sum_nonneg
  intro k _
  rw [weightAt]
  cases hv : m[k]? with
  | none => rfl
  | some v => exact hweight k v hv

theorem total_congr {weight weight' : β → Int}
    (hweight : ∀ (k : α) (v : β), m[k]? = some v → weight v = weight' v) :
    total weight m = total weight' m := by
  apply sum_congr rfl
  intro k _
  rw [weightAt, weightAt]
  cases hv : m[k]? with
  | none => rfl
  | some v => rw [Option.map_some, Option.map_some, hweight k v hv]

variable [LawfulEqOrd α]

theorem total_eq_sum (weight : β → Int) {s : Finset α}
    (hs : ∀ k ∈ m, k ∈ s) : total weight m = ∑ k ∈ s, weightAt weight m k := by
  apply sum_subset
  · intro k hk
    exact hs k (ExtTreeMap.mem_keys.mp (mem_toFinset.mp hk))
  · intro k _ hk
    exact weightAt_eq_zero weight fun hmem => hk (mem_toFinset.mpr (ExtTreeMap.mem_keys.mpr hmem))

@[simp] theorem total_empty (weight : β → Int) : total weight (∅ : ExtTreeMap α β) = 0 := by
  rw [total_eq_sum weight (s := ∅) fun k hk => absurd hk ExtTreeMap.not_mem_empty, sum_empty]

/-- Writing to a key replaces its weight. -/
theorem total_insert (weight : β → Int) (m : ExtTreeMap α β) (k : α) (v : β) :
    total weight (m.insert k v) = total weight m - weightAt weight m k + weight v := by
  have hkeys : ∀ a ∈ m, a ∈ insert k m.keys.toFinset := by
    intro a ha
    exact Finset.mem_insert_of_mem (mem_toFinset.mpr (ExtTreeMap.mem_keys.mpr ha))
  have hkeys' : ∀ a ∈ m.insert k v, a ∈ insert k m.keys.toFinset := by
    intro a ha
    rcases ExtTreeMap.mem_insert.mp ha with heq | ha
    · rw [Std.LawfulEqOrd.compare_eq_iff_eq] at heq
      exact heq ▸ Finset.mem_insert_self _ _
    · exact hkeys a ha
  have hself : weightAt weight (m.insert k v) k = weight v := by
    rw [weightAt, ExtTreeMap.getElem?_insert_self, Option.map_some, Option.getD_some]
  have hrest : ∑ a ∈ (insert k m.keys.toFinset).erase k, weightAt weight (m.insert k v) a =
      ∑ a ∈ (insert k m.keys.toFinset).erase k, weightAt weight m a := by
    apply sum_congr rfl
    intro a ha
    rw [weightAt, weightAt, FinMap.getElem?_insert_ne _ _ (ne_of_mem_erase ha).symm]
  have hmem : k ∈ insert k m.keys.toFinset := Finset.mem_insert_self _ _
  rw [total_eq_sum weight hkeys, total_eq_sum weight hkeys',
    ← add_sum_erase _ _ hmem, ← add_sum_erase _ _ hmem, hself, hrest]
  ring

end MapSum
