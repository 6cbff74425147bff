import Mathlib.Data.Vector.Defs
import MaryJaneCoin.Lib.FinMap

/-!
# Buckets

Keys lie in the buckets of a vector.  What a change of one bucket does to all that lies in
them, and the two loops that compare it with a set or with a table of counts: they cross
off key by key, and succeed with nothing left over if nothing is missing and nothing is in
excess.
-/

namespace Buckets

open List hiding Vector
open Std ExtTreeSet

variable {κ β : Type} {n : Nat} (contents : β → List κ)

/-- All that lies in the buckets, one bucket after the other. -/
def entries (buckets : Vector β n) : List κ := buckets.toList.flatMap contents

/-- A bucket stands between what lies before and what lies behind it. -/
theorem exists_entries_set (buckets : Vector β n) (b : Fin n) : ∃ before after, ∀ bucket,
      entries contents (buckets.set b bucket) = before ++ contents bucket ++ after := by
  refine ⟨(buckets.toList.take b).flatMap contents, (buckets.toList.drop (b + 1)).flatMap contents, ?_⟩
  intro bucket
  have hlt : b.val < buckets.toList.length := by
    rw [Vector.length_toList]
    exact b.isLt
  rw [entries, Vector.toList_set, set_eq_take_append_cons_drop, if_pos hlt, flatMap_append,
    flatMap_cons, append_assoc]

theorem set_get (buckets : Vector β n) (b : Fin n) : buckets.set b (buckets.get b) = buckets := by
  apply Vector.ext
  intro i hi
  rw [Vector.getElem_set]
  split
  · rename_i heq
    subst heq
    rfl
  · rfl

theorem forall_set {p : β → Prop} {buckets : Vector β n} (hall : ∀ b : Fin n, p (buckets.get b)) (b : Fin n)
    {bucket : β} (hbucket : p bucket) (other : Fin n) : p ((buckets.set b bucket).get other) := by
  have hget : (buckets.set b bucket).get other = if b.val = other.val then bucket else buckets.get other :=
    Vector.getElem_set _ _
  rw [hget]
  split
  · exact hbucket
  · exact hall other

/-- **Changing a bucket**, in numbers. -/
theorem length_entries_set (buckets : Vector β n) (b : Fin n) (bucket : β) :
    (entries contents (buckets.set b bucket)).length + (contents (buckets.get b)).length =
      (entries contents buckets).length + (contents bucket).length := by
  obtain ⟨before, after, hset⟩ := exists_entries_set contents buckets b
  have hold := hset (buckets.get b)
  rw [set_get] at hold
  rw [hset, hold]
  simp only [length_append]
  omega

variable {contents}

theorem mem_entries {buckets : Vector β n} {k : κ} :
    k ∈ entries contents buckets ↔ ∃ b : Fin n, k ∈ contents (buckets.get b) := by
  rw [entries, mem_flatMap]
  constructor
  · rintro ⟨bucket, hbucket, hk⟩
    obtain ⟨i, hi, rfl⟩ := Vector.getElem_of_mem (Vector.mem_toList_iff.mp hbucket)
    exact ⟨⟨i, hi⟩, hk⟩
  · rintro ⟨b, hk⟩
    exact ⟨_, Vector.mem_toList_iff.mpr (Vector.getElem_mem b.isLt), hk⟩

section count

variable [DecidableEq κ]

variable (contents) in
/-- **Changing a bucket**, for each key. -/
theorem count_entries_set (buckets : Vector β n) (b : Fin n) (bucket : β) (k : κ) :
    (entries contents (buckets.set b bucket)).count k + (contents (buckets.get b)).count k =
      (entries contents buckets).count k + (contents bucket).count k := by
  obtain ⟨before, after, hset⟩ := exists_entries_set contents buckets b
  have hold := hset (buckets.get b)
  rw [set_get] at hold
  rw [hset, hold]
  simp only [count_append]
  omega

/-- Changing every bucket, for a key of which each keeps as much. -/
theorem count_entries_map {f : β → β} {k : κ} (hkeep : ∀ bucket,
    (contents (f bucket)).count k = (contents bucket).count k) (buckets : Vector β n) :
    (entries contents (buckets.map f)).count k = (entries contents buckets).count k := by
  rw [entries, Vector.toList_map, entries]
  induction buckets.toList with
  | nil => rfl
  | cons bucket rest ih =>
    rw [map_cons, flatMap_cons, count_append, hkeep, ih, flatMap_cons, count_append]

/-- A key lies in as many buckets as it is found there, if each holds it once at most. -/
theorem countP_eq_count_entries {k : κ} {holds : β → Bool}
    (honce : ∀ bucket, (contents bucket).count k = (holds bucket).toNat) (buckets : Vector β n) :
    buckets.countP holds = (entries contents buckets).count k := by
  rw [entries, ← Vector.countP_toList]
  induction buckets.toList with
  | nil => rfl
  | cons bucket rest ih =>
    rw [countP_cons, ih, flatMap_cons, count_append, honce, Nat.add_comm]
    cases holds bucket with
    | false => rfl
    | true => rfl

end count

variable [Ord κ] [TransOrd κ] [LawfulEqOrd κ]

theorem nodup_toList (bucket : ExtTreeSet κ) : bucket.toList.Nodup :=
  distinct_toList.imp fun hne heq => hne (Std.compare_eq_iff_eq.mpr heq)

theorem notMem_erase_self (bucket : ExtTreeSet κ) (k : κ) : k ∉ bucket.erase k := by
  rw [mem_erase]
  exact fun hk => hk.1 compare_self

omit [LawfulEqOrd κ] in
theorem size_insert_of_notMem {bucket : ExtTreeSet κ} {k : κ} (hk : k ∉ bucket) :
    (bucket.insert k).size = bucket.size + 1 := by
  rw [size_insert, if_neg fun hin => hk (ExtTreeSet.contains_iff_mem.mp hin)]

theorem size_erase_of_mem {bucket : ExtTreeSet κ} {k : κ} (hk : k ∈ bucket) :
    (bucket.erase k).size + 1 = bucket.size := by
  have hpos : 0 < bucket.toList.length := length_pos_of_mem (mem_toList.mpr hk)
  rw [length_toList] at hpos
  rw [size_erase, if_pos (ExtTreeSet.contains_iff_mem.mpr hk)]
  exact Nat.sub_add_cancel hpos

section sets

variable [DecidableEq κ] {buckets : Vector (ExtTreeSet κ) n} {b : Fin n} {k : κ}

theorem count_toList (bucket : ExtTreeSet κ) (k : κ) : bucket.toList.count k = (bucket.contains k).toNat := by
  by_cases hk : k ∈ bucket
  · rw [ExtTreeSet.contains_iff_mem.mpr hk,
      (count_eq_one_of_mem (nodup_toList bucket) (mem_toList.mpr hk))]
    rfl
  · have hnot : bucket.contains k = false := by
      rw [← Bool.not_eq_true, ExtTreeSet.contains_iff_mem]
      exact hk
    rw [hnot, count_eq_zero.mpr fun hmem => hk (mem_toList.mp hmem)]
    rfl

theorem count_toList_of_mem {bucket : ExtTreeSet κ} (hk : k ∈ bucket) : bucket.toList.count k = 1 := by
  rw [count_toList, ExtTreeSet.contains_iff_mem.mpr hk]
  rfl

theorem count_toList_of_notMem {bucket : ExtTreeSet κ} (hk : k ∉ bucket) : bucket.toList.count k = 0 :=
  count_eq_zero.mpr fun hmem => hk (mem_toList.mp hmem)

theorem count_toList_congr (bucket bucket' : ExtTreeSet κ) (hsame : k ∈ bucket ↔ k ∈ bucket') :
    bucket.toList.count k = bucket'.toList.count k := by
  by_cases hk : k ∈ bucket
  · rw [count_toList_of_mem hk, count_toList_of_mem (hsame.mp hk)]
  · rw [count_toList_of_notMem hk, count_toList_of_notMem fun hk' => hk (hsame.mpr hk')]

theorem count_entries_insert (hk : k ∉ buckets.get b) (other : κ) :
    (entries ExtTreeSet.toList (buckets.set b ((buckets.get b).insert k))).count other =
      (entries ExtTreeSet.toList buckets).count other + if k = other then 1 else 0 := by
  have hset := count_entries_set ExtTreeSet.toList buckets b ((buckets.get b).insert k) other
  split
  · rename_i heq
    subst heq
    rw [count_toList_of_notMem hk, count_toList_of_mem ExtTreeSet.mem_insert_self] at hset
    exact hset
  · rename_i hne
    rw [count_toList_congr ((buckets.get b).insert k) (buckets.get b)] at hset
    · omega
    · rw [mem_insert, Std.compare_eq_iff_eq, or_iff_right hne]

theorem count_entries_erase (hk : k ∈ buckets.get b) (other : κ) :
    (entries ExtTreeSet.toList (buckets.set b ((buckets.get b).erase k))).count other +
      (if k = other then 1 else 0) = (entries ExtTreeSet.toList buckets).count other := by
  have hset := count_entries_set ExtTreeSet.toList buckets b ((buckets.get b).erase k) other
  split
  · rename_i heq
    subst heq
    rw [count_toList_of_mem hk, count_toList_of_notMem (notMem_erase_self _ _)] at hset
    exact hset
  · rename_i hne
    rw [count_toList_congr ((buckets.get b).erase k) (buckets.get b)] at hset
    · omega
    · rw [mem_erase, and_iff_right]
      exact fun heq => hne (Std.compare_eq_iff_eq.mp heq)

theorem count_entries_eraseAll (k other : κ) (buckets : Vector (ExtTreeSet κ) n) :
    (entries ExtTreeSet.toList (buckets.map fun bucket => bucket.erase k)).count other =
      if k = other then 0 else (entries ExtTreeSet.toList buckets).count other := by
  split
  · rename_i heq
    subst heq
    rw [count_eq_zero]
    intro hmem
    obtain ⟨b, hb⟩ := mem_entries.mp hmem
    have hgone : (buckets.map fun bucket => bucket.erase k).get b = (buckets.get b).erase k :=
      Vector.getElem_map _ _
    rw [hgone] at hb
    exact notMem_erase_self _ _ (mem_toList.mp hb)
  · rename_i hne
    apply count_entries_map
    intro bucket
    apply count_toList_congr
    rw [mem_erase, and_iff_right]
    exact fun heq => hne (Std.compare_eq_iff_eq.mp heq)

/-- A key lies in no bucket exactly if it is never found there. -/
theorem count_entries_eq_zero (k : κ) :
    (entries ExtTreeSet.toList buckets).count k = 0 ↔ ∀ b : Fin n, k ∉ buckets.get b := by
  rw [count_eq_zero, mem_entries, not_exists]
  exact forall_congr' fun b => not_congr mem_toList

end sets

variable {ε : Type}

/-- A key is crossed off a set. -/
def crossOff (err : ε) (left : ExtTreeSet κ) (k : κ) : Except ε (ExtTreeSet κ) :=
  if k ∈ left then .ok (left.erase k) else .error err

/-- A key is crossed off a table of counts. -/
def countDown (err : ε) (left : ExtTreeMap κ Int) (k : κ) : Except ε (ExtTreeMap κ Int) :=
  match left[k]? with
  | none => .error err
  | some nCount =>
    if nCount - 1 = 0 then .ok (left.erase k) else .ok (left.insert k (nCount - 1))

/-- **A set is crossed off** by what it holds, each once. -/
theorem foldlM_crossOff (err : ε) {items : List κ} (hnodup : items.Nodup) {left : ExtTreeSet κ}
    (hsame : ∀ k, k ∈ left ↔ k ∈ items) : items.foldlM (crossOff err) left = .ok ∅ := by
  induction items generalizing left with
  | nil =>
    have hempty : left = ∅ := by
      apply ext_mem
      intro k
      rw [hsame]
      exact ⟨fun hk => (nomatch hk), fun hk => (not_mem_empty hk).elim⟩
    rw [hempty]
    rfl
  | cons item items ih =>
    obtain ⟨hitem, hrest⟩ := nodup_cons.mp hnodup
    have hfirst : crossOff err left item = .ok (left.erase item) := if_pos ((hsame item).mpr mem_cons_self)
    rw [List.foldlM_cons, hfirst]
    apply ih hrest
    intro k
    rw [mem_erase, hsame, List.mem_cons, Ne, Std.compare_eq_iff_eq]
    constructor
    · rintro ⟨hne, rfl | hk⟩
      · exact absurd rfl hne
      · exact hk
    · intro hk
      exact ⟨fun heq => hitem (heq ▸ hk), .inr hk⟩

variable [DecidableEq κ]

/-- **A table is counted down** by what it counts. -/
theorem foldlM_countDown (err : ε) (items : List κ) {left : ExtTreeMap κ Int}
    (hcount : ∀ k, left[k]? = if items.count k = 0 then none else some (items.count k : Int)) :
    items.foldlM (countDown err) left = .ok ∅ := by
  induction items generalizing left with
  | nil =>
    rw [FinMap.eq_empty_iff.mpr fun k => hcount k]
    rfl
  | cons item items ih =>
    have hitem : left[item]? = some ((items.count item : Int) + 1) := by
      rw [hcount, count_cons_self, if_neg (Nat.succ_ne_zero _), Int.natCast_succ]
    have hstep : countDown err left item = if (items.count item : Int) = 0 then
        .ok (left.erase item) else .ok (left.insert item (items.count item)) := by
      rw [countDown, hitem]
      simp only [Int.add_sub_cancel]
    rw [List.foldlM_cons, hstep]
    have hother : ∀ k, item ≠ k → (item :: items).count k = items.count k := fun k hne =>
      count_cons_of_ne hne
    split
    · rename_i hzero
      apply ih
      intro k
      rw [ExtTreeMap.getElem?_erase]
      by_cases hk : item = k
      · subst hk
        rw [if_pos compare_self, if_pos (Int.ofNat_eq_zero.mp hzero)]
      · rw [if_neg (fun heq => hk (Std.compare_eq_iff_eq.mp heq)), hcount, hother k hk]
    · rename_i hne
      apply ih
      intro k
      rw [ExtTreeMap.getElem?_insert]
      by_cases hk : item = k
      · subst hk
        rw [if_pos compare_self, if_neg fun hzero => hne (by rw [hzero]; rfl)]
      · rw [if_neg (fun heq => hk (Std.compare_eq_iff_eq.mp heq)), hcount, hother k hk]

end Buckets
