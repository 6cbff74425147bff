import MaryJaneCoin.Lib.Knapsack
import MaryJaneCoin.Lib.OptionLoop
import MaryJaneCoin.Wallet.CoinAge

/-!
# The table of the coin-age knapsack

A row of `M` holds the greatest cost that can be left out of the items so far, for every
capacity, and a row of `B` is the pointer of one item.  Going back through the rows picks the
items that are kept.
-/

namespace MaryJaneCoin

open Knapsack List ValuedCoin

namespace ValuedCoin

variable {C : Type} (denom : Int64) (item : ValuedCoin C)

/-- The normalized value of an item. -/
def weight : Nat := (item.nValue / denom).toUInt64.toNat

/-- The cost of an item, as the table adds it up. -/
def tableCost : Nat := item.nCost.toUInt64.toNat

end ValuedCoin

namespace CoinBundles

variable {C : Type} {denom : Int64}

/-- One entry of a row of `M` and `B`. -/
def entry (denom : Int64) (item : ValuedCoin C) (row : List UInt64) (j : Nat) : UInt64 × Nat :=
  let nStay := row.getD j 0
  if item.weight denom ≤ j then
    let nStep := row.getD (j - item.weight denom) 0 + item.nCost.toUInt64
    if nStay ≥ nStep then (nStay, j) else (nStep, j - item.weight denom)
  else (nStay, j)

/-- **A row is computed** without a read outside of the one before. -/
theorem nextRow_eq (item : ValuedCoin C) (row : List UInt64) :
    nextRow denom item row = some ((List.range row.length).map (entry denom item row)) := by
  have hread : ∀ {j : Nat}, j < row.length → row[j]? = some (row.getD j 0) := by
    intro j hj
    rw [getD_eq_getElem?_getD, getElem?_eq_getElem hj, Option.getD_some]
  have hlength : row.length = ((List.range row.length).map (entry denom item row)).length := by
    rw [length_map, length_range]
  have hrow := OptionLoop.mapM_range ((List.range row.length).map (entry denom item row))
    (f := fun j => row[j]?.bind fun nStay =>
      if item.weight denom ≤ j then
        row[j - item.weight denom]?.map fun nBefore =>
          let nStep := nBefore + item.nCost.toUInt64
          if nStay ≥ nStep then (nStay, j) else (nStep, j - item.weight denom)
      else some (nStay, j)) fun j v hv => by
    rw [getElem?_map] at hv
    obtain ⟨j', hj', rfl⟩ := Option.map_eq_some_iff.mp hv
    obtain ⟨hlt, rfl⟩ := List.getElem?_eq_some_iff.mp hj'
    rw [length_range] at hlt
    rw [getElem_range, hread hlt, Option.bind_some, entry]
    dsimp only
    split
    · rw [hread (by omega), Option.map_some]
    · rfl
  rw [← hlength] at hrow
  exact hrow

/-- The pointer of one item, at every capacity. -/
def pointer (denom : Int64) (item : ValuedCoin C) (row : List UInt64) (j : Nat) : Nat :=
  (entry denom item row j).2

theorem pointer_pointsBack {α : Type} {weight : α → Nat} {item : ValuedCoin C} {a : α}
    (hweight : item.weight denom = weight a) (row : List UInt64) :
    PointsBack weight (a, pointer denom item row) := by
  intro j
  have hpointer : pointer denom item row j = (entry denom item row j).2 := rfl
  dsimp only
  rw [hpointer, entry]
  dsimp only
  split
  · rename_i hfits
    rw [hweight] at hfits ⊢
    split
    · exact .inl rfl
    · exact .inr ⟨hfits, rfl⟩
  · exact .inl rfl

/-- A row of `M` that holds the best of some items. -/
def HoldsBest {α : Type} (weight cost : α → Nat) (items : List α) (row : List UInt64) : Prop :=
  ∀ j, j < row.length → (row.getD j 0).toNat = best weight cost items j

section

variable {α : Type} {weight cost : α → Nat} {item : ValuedCoin C} {a : α} {items : List α}
  {row : List UInt64}

/-- **The entry of an item** on top of the best of the items before it. -/
theorem entry_best (hweight : item.weight denom = weight a) (hcost : item.tableCost = cost a)
    (hrow : HoldsBest weight cost items row) (hfits : cost a + total cost items < 2 ^ 64) {j : Nat}
    (hj : j < row.length) : (entry denom item row j).1.toNat = best weight cost (a :: items) j ∧
      (entry denom item row j).2 = back weight cost a items j := by
  have hstay := hrow j hj
  rw [entry, best, hweight]
  dsimp only
  by_cases hle : weight a ≤ j
  · have hbefore := hrow (j - weight a) (by omega)
    have hmost : best weight cost items (j - weight a) ≤ total cost items := best_le_total items _
    have hstep : (row.getD (j - weight a) 0 + item.nCost.toUInt64).toNat =
        best weight cost items (j - weight a) + cost a := by
      have hadd : item.nCost.toUInt64.toNat = cost a := hcost
      rw [UInt64.toNat_add, hbefore, hadd, Nat.mod_eq_of_lt]
      omega
    rw [if_pos hle, if_pos hle]
    by_cases hmore : row.getD j 0 ≥ row.getD (j - weight a) 0 + item.nCost.toUInt64
    · rw [if_pos hmore]
      rw [ge_iff_le, UInt64.le_iff_toNat_le, hstep, hstay] at hmore
      rw [back_of_keep (by omega)]
      dsimp only
      omega
    · rw [if_neg hmore]
      rw [ge_iff_le, UInt64.le_iff_toNat_le, hstep, hstay] at hmore
      rw [back_of_leave hle (by omega)]
      dsimp only
      omega
  · rw [if_neg hle, if_neg hle, back_of_keep (by omega)]
    exact ⟨hstay, rfl⟩

end

/-- A row of `B` holds a pointer, for every capacity. -/
def Agrees {α : Type} (nColumns : Nat) (row : List Nat) (p : α × (Nat → Nat)) : Prop :=
  ∀ j, j < nColumns → row[j]? = some (p.2 j)

theorem agrees_entry {α : Type} {a : α} (item : ValuedCoin C) (row : List UInt64) :
    Agrees row.length (((List.range row.length).map (entry denom item row)).map Prod.snd)
      (a, pointer denom item row) := by
  intro j hj
  rw [map_map, getElem?_map, getElem?_range hj]
  rfl

theorem length_nextRow (item : ValuedCoin C) (row : List UInt64) :
    (((List.range row.length).map (entry denom item row)).map Prod.fst).length = row.length := by
  rw [length_map, length_map, length_range]

section

variable {α : Type} {weight : α → Nat} {items : List (ValuedCoin C)} {as : List α}

/-- **The table is computed**, and its pointers go back by the weights. -/
theorem backRows_some
    (hweight : List.Forall₂ (fun (item : ValuedCoin C) a => item.weight denom = weight a) items as)
    (row : List UInt64) : ∃ rows pointers, backRows denom items row = some rows ∧ pointers.map Prod.fst = as ∧
      List.Forall₂ (Agrees row.length) rows pointers ∧ ∀ p ∈ pointers, PointsBack weight p := by
  induction hweight generalizing row with
  | nil => exact ⟨[], [], rfl, rfl, .nil, by simp⟩
  | @cons item a items as hitem _ ih =>
    obtain ⟨rows, pointers, hrows, hmap, hagree, hback⟩ :=
      ih (((List.range row.length).map (entry denom item row)).map Prod.fst)
    rw [length_nextRow] at hagree
    refine ⟨_ :: rows, (a, pointer denom item row) :: pointers,
      ?_, ?_, .cons (agrees_entry item row) hagree, ?_⟩
    · rw [backRows, nextRow_eq, Option.bind_eq_bind, Option.bind_some, hrows]
      rfl
    · rw [map_cons, hmap]
    · intro p hp
      cases List.mem_cons.mp hp with
      | inl heq =>
        rw [heq]
        exact pointer_pointsBack hitem row
      | inr hmem => exact hback p hmem

/-- **The pointers are those of the best choices**, on top of the items of the first row. -/
theorem backRows_best {cost : α → Nat}
    (hweight : List.Forall₂ (fun (item : ValuedCoin C) a => item.weight denom = weight a) items as)
    (hcost : List.Forall₂ (fun (item : ValuedCoin C) a => item.tableCost = cost a) items as)
    {row : List UInt64} {done : List α} (hrow : HoldsBest weight cost done row)
    (hfits : total cost as + total cost done < 2 ^ 64) {rows : List (List Nat)}
    (h : backRows denom items row = some rows) : ∃ pointers, List.Forall₂ (Agrees row.length) rows pointers ∧
      pointers.reverse ++ Knapsack.backRows weight cost done =
        Knapsack.backRows weight cost (as.reverse ++ done) := by
  induction hweight generalizing row done rows with
  | nil =>
    cases h
    exact ⟨[], .nil, rfl⟩
  | @cons item a items as hitem _ ih =>
    obtain ⟨hitemCost, hcosts⟩ := forall₂_cons.mp hcost
    rw [total_cons] at hfits
    rw [backRows, nextRow_eq, Option.bind_eq_bind, Option.bind_some] at h
    obtain ⟨below, hbelow, heq⟩ := Option.bind_eq_some_iff.mp h
    have hbest : ∀ j, j < row.length → (entry denom item row j).1.toNat =
        best weight cost (a :: done) j ∧ (entry denom item row j).2 = back weight cost a done j :=
      fun j hj => entry_best hitem hitemCost hrow (by omega) hj
    have hnext : HoldsBest weight cost (a :: done)
        (((List.range row.length).map (entry denom item row)).map Prod.fst) := by
      intro j hj
      rw [length_nextRow] at hj
      rw [getD_eq_getElem?_getD, map_map, getElem?_map, getElem?_range hj]
      exact (hbest j hj).1
    obtain ⟨pointers, hagree, hpointers⟩ := ih hcosts hnext (by rw [total_cons]; omega) hbelow
    rw [length_nextRow] at hagree
    refine ⟨(a, back weight cost a done) :: pointers, ?_, ?_⟩
    · rw [← Option.some.inj heq]
      refine .cons (fun j hj => ?_) hagree
      have hentry : (((List.range row.length).map (entry denom item row)).map Prod.snd)[j]? =
          some (pointer denom item row j) := agrees_entry (a := a) item row j hj
      rw [hentry]
      exact congrArg some (hbest j hj).2
    · rw [reverse_cons, append_assoc, reverse_cons, append_assoc]
      exact hpointers

end

variable [DecidableEq C]

/-- Picking an item inserts the coins that it stands for. -/
def Picks (p : CoinBundles C) (nItem : Nat) (group : List (ValuedCoin C)) : Prop :=
  ∃ item, p.vValue[nItem]? = some item ∧ item.nValue.toInt = WrappedSum.exact ValuedCoin.nValue
    group ∧ ∀ ret, p.pickItem nItem ret = some (ret.insert (group.map ValuedCoin.coin) item.nValue)

/-- **Going back** picks the items that are kept. -/
theorem pickBack_some {p : CoinBundles C} {weight : List (ValuedCoin C) → Nat} {nColumns : Nat}
    {rows : List (List Nat × Nat)} {pointers : List (List (ValuedCoin C) × (Nat → Nat))}
    (h : List.Forall₂ (fun row q => Agrees nColumns row.1 q ∧ p.Picks row.2 q.1) rows pointers)
    (hback : ∀ q ∈ pointers, PointsBack weight q) {j : Nat} (hj : pointers ≠ [] → j < nColumns)
    {ret : CoinsRet C} {chosen : List (ValuedCoin C)}
    (hret : Collects coin nValue ret chosen)
    (hproper : ProperCoins coin nValue (chosen ++ (pointers.map Prod.fst).flatten)) :
    ∃ ret', p.pickBack rows j ret = some ret' ∧
      Collects coin nValue ret' (chosen ++ (follow pointers j).flatten) := by
  induction h generalizing j ret chosen with
  | nil =>
    refine ⟨ret, rfl, ?_⟩
    rw [follow, flatten_nil, append_nil]
    exact hret
  | @cons row q rows pointers hrow _ ih =>
    obtain ⟨row, nItem⟩ := row
    obtain ⟨hagree, item, hitem, hvalue, hpick⟩ := hrow
    have hlt := hj (cons_ne_nil _ _)
    have hpoints := hback q mem_cons_self j
    have hrest := fun q hq => hback q (mem_cons_of_mem _ hq)
    have hnext : q.2 j < nColumns := by omega
    rw [map_cons, flatten_cons, ← append_assoc] at hproper
    rw [pickBack, hagree j hlt, Option.bind_eq_bind, Option.bind_some, follow]
    by_cases hkeep : j = q.2 j
    · rw [if_pos hkeep, if_pos hkeep.symm, hpick, ← hkeep, flatten_cons, ← append_assoc]
      simp only [Option.bind_eq_bind, Option.bind_some]
      have hpicked := hret.insert_proper (hproper.sublist (sublist_append_left _ _)) hvalue
      exact ih hrest (fun _ => hlt) hpicked hproper
    · rw [if_neg hkeep, if_neg (Ne.symm hkeep)]
      simp only [Option.bind_eq_bind, Option.bind_some]
      have hskip : (chosen ++ (pointers.map Prod.fst).flatten).Sublist
          (chosen ++ q.1 ++ (pointers.map Prod.fst).flatten) :=
        (sublist_append_left _ _).append_right _
      exact ih hrest (fun _ => hnext) hret (hproper.sublist hskip)

end CoinBundles

end MaryJaneCoin
