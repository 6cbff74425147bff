import MaryJaneCoin.Wallet.CoinAgeBundles
import MaryJaneCoin.Wallet.CreateTransaction

/-!
# The coin-age knapsack

The items in front of the dynamic program are picked one after the other while the others would
not do.  What the program leaves out then fits between the values and the target, so what it
picks reaches the target; the coins behind the last bundle make up for what is missing where
there was nothing to choose.
-/

namespace MaryJaneCoin

open Knapsack WrappedSum List ValuedCoin Option Int Int64

namespace CoinBundles

variable {C : Type} {denom : Int64} {groups : List (List (ValuedCoin C))}
  {leftovers : List (ValuedCoin C)}

/-- The normalized value of a group. -/
def groupWeight (denom : Int64) (group : List (ValuedCoin C)) : Nat :=
  (exact ValuedCoin.nValue group / denom.toInt).toNat

variable {group : List (ValuedCoin C)}

theorem toInt_groupWeight (hpos : 0 < denom.toInt) (hproper : ProperValues group) :
    (groupWeight denom group : Int) = exact nValue group / denom.toInt :=
  toNat_of_nonneg (ediv_nonneg hproper.exact_nonneg hpos.le)

theorem toInt_div_denom (hpos : 0 < denom.toInt)
    (hproper : ProperValues group) {item : ValuedCoin C}
    (hvalue : item.nValue.toInt = exact nValue group) :
    (item.nValue / denom).toInt = groupWeight denom group := by
  have hnonneg := hproper.exact_nonneg
  rw [toInt_div_of_pos (by omega) hpos, toInt_groupWeight hpos hproper, hvalue]

theorem weight_eq (hpos : 0 < denom.toInt) (hproper : ProperValues group) {item : ValuedCoin C}
    (hvalue : item.nValue.toInt = exact nValue group) :
    item.weight denom = groupWeight denom group := by
  have hdiv := toInt_div_denom hpos hproper hvalue
  have hle : 0 ≤ item.nValue / denom := by
    rw [le_iff_toInt_le, hdiv, toInt_zero]
    exact natCast_nonneg _
  have hclamp : (item.nValue / denom).toNatClampNeg = (item.nValue / denom).toInt.toNat := rfl
  rw [ValuedCoin.weight, toNat_toUInt64_of_le hle, hclamp, hdiv, toNat_natCast]

/-- What groups weigh is at most what they are worth. -/
theorem denom_mul_total_le (hpos : 0 < denom.toInt) (hproper : ProperValues groups.flatten) :
    denom.toInt * total (groupWeight denom) groups ≤ exact nValue groups.flatten := by
  induction groups with
  | nil => exact (Int.mul_zero _).le
  | cons group groups ih =>
    rw [flatten_cons] at hproper
    have hgroup := hproper.sublist (sublist_append_left _ _)
    have hrest := ih (hproper.sublist (sublist_append_right _ _))
    have hdiv := mul_ediv_self_le (x := exact nValue group) (ne_of_gt hpos)
    rw [flatten_cons, exact_append, total_cons, Nat.cast_add, Int.mul_add, toInt_groupWeight hpos hgroup]
    omega

theorem total_le_exact (hpos : 0 < denom.toInt) (hproper : ProperValues groups.flatten) :
    (total (groupWeight denom) groups : Int) ≤ exact nValue groups.flatten := by
  have hmul := denom_mul_total_le hpos hproper
  have hone : 1 * (total (groupWeight denom) groups : Int) ≤ denom.toInt * total (groupWeight denom) groups :=
    Int.mul_le_mul_of_nonneg_right hpos (natCast_nonneg _)
  omega

theorem properValues_group (hproper : ProperValues (groups.flatten ++ leftovers))
    {i : Nat} (hgroup : groups[i]? = some group) : ProperValues group := by
  have hmem := mem_of_getElem? hgroup
  have hsub : group.Sublist groups.flatten := sublist_flatten_of_mem hmem
  exact hproper.sublist (hsub.trans (sublist_append_left _ _))

/-- The items up to some number are part of all. -/
theorem properValues_take (hproper : ProperValues (groups.flatten ++ leftovers)) (n : Nat) :
    ProperValues (groups.take n).flatten := by
  have hsub : (groups.take n).flatten.Sublist groups.flatten := (take_sublist n groups).flatten
  exact hproper.sublist (hsub.trans (sublist_append_left _ _))

/-- And those behind it. -/
theorem properValues_drop (hproper : ProperValues (groups.flatten ++ leftovers)) (n : Nat) :
    ProperValues (groups.drop n).flatten := by
  have hsub : (groups.drop n).flatten.Sublist groups.flatten := (drop_sublist n groups).flatten
  exact hproper.sublist (hsub.trans (sublist_append_left _ _))

variable [DecidableEq C] {p : CoinBundles C}

/-- **The normalized total** is what the groups weigh. -/
theorem normalizedTotal_some (h : p.Represents groups leftovers)
    (hproper : ProperValues (groups.flatten ++ leftovers)) (hpos : 0 < denom.toInt) :
    ∃ nTotalValue, p.normalizedTotal denom = some nTotalValue ∧
      nTotalValue.toInt = total (groupWeight denom) groups := by
  have hloop : ∀ n, n ≤ groups.length → ∃ nTotalValue, (List.range n).foldlM
      (fun nTotalValue i => p.vValue[i]?.map fun coin => nTotalValue + coin.nValue / denom) 0 =
        some nTotalValue ∧ nTotalValue.toInt = total (groupWeight denom) (groups.take n) := by
    intro n hn
    induction n with
    | zero => exact ⟨0, rfl, rfl⟩
    | succ n ih =>
      obtain ⟨nTotalValue, hfold, hsum⟩ := ih (Nat.le_of_succ_le hn)
      have hget := getElem?_eq_getElem hn
      obtain ⟨item, hitem, hvalue, -⟩ := h.picks n _ hget
      have hdiv := toInt_div_denom hpos (properValues_group hproper hget) hvalue
      have htake : groups.take (n + 1) = groups.take n ++ [groups[n]] := take_succ_eq_append_getElem hn
      have hbound := total_le_exact hpos (properValues_take hproper (n + 1))
      have hfits := (properValues_take hproper (n + 1)).fits
      rw [htake, total_append, total_cons] at hbound
      rw [htake] at hfits
      refine ⟨nTotalValue + item.nValue / denom, ?_, ?_⟩
      · rw [range_succ, List.foldlM_append, hfold, bind_eq_bind, bind_some,
          List.foldlM_cons, hitem]
        rfl
      · rw [toInt_add, hsum, hdiv, htake, total_append, total_cons]
        have hnil : total (groupWeight denom) ([] : List (List (ValuedCoin C))) = 0 := rfl
        rw [hnil] at hbound ⊢
        exact (bmod_eq_of_le (by omega) (by omega)).trans (by omega)
  obtain ⟨nTotalValue, hfold, hsum⟩ := hloop groups.length le_rfl
  rw [take_length] at hsum
  refine ⟨nTotalValue, ?_, hsum⟩
  rw [normalizedTotal, h.count]
  exact hfold

theorem toInt_missing {nTargetValue nValueRet : Int64} (htarget : 0 < nTargetValue.toInt)
    (hret : 0 ≤ nValueRet.toInt) :
    (nTargetValue - nValueRet).toInt = nTargetValue.toInt - nValueRet.toInt := by
  have hhigh := nTargetValue.toInt_lt
  have hlow := nValueRet.toInt_lt
  rw [toInt_sub]
  exact bmod_eq_of_le (by omega) (by omega)

/-- **The items in front of the dynamic program** are the first ones, as many as it takes. -/
theorem prepick_some (h : p.Represents groups leftovers)
    (hproper : ProperValues (groups.flatten ++ leftovers)) (hpos : 0 < denom.toInt)
    {nTargetValue : Int64} {nLeft n : Nat} (hn : n + nLeft = groups.length) {nTotalValue : Int64}
    (htotal : nTotalValue.toInt = total (groupWeight denom) (groups.drop n)) {ret : CoinsRet C}
    (hret : Collects ValuedCoin.coin nValue ret (groups.take n).flatten) :
    ∃ n' nTotalValue' ret', p.prepick nTargetValue denom nLeft n nTotalValue ret =
        some (n', nTotalValue', ret') ∧ n' ≤ groups.length ∧
      nTotalValue'.toInt = total (groupWeight denom) (groups.drop n') ∧
      Collects ValuedCoin.coin nValue ret' (groups.take n').flatten ∧
      (n' = groups.length ∨ (nTargetValue - ret'.nValueRet) / denom < nTotalValue') := by
  induction nLeft generalizing n nTotalValue ret with
  | zero => exact ⟨n, nTotalValue, ret, rfl, hn.le, htotal, hret, .inl hn⟩
  | succ nLeft ih =>
    rw [prepick]
    split
    · have hlt : n < groups.length := by omega
      have hget := getElem?_eq_getElem hlt
      obtain ⟨item, hitem, hvalue, hpick⟩ := h.picks n _ hget
      have hdiv := toInt_div_denom hpos (properValues_group hproper hget) hvalue
      have htake : (groups.take (n + 1)).flatten = (groups.take n).flatten ++ groups[n] := by
        rw [take_succ_eq_append_getElem hlt, flatten_append, flatten_singleton]
      have hdrop : groups.drop n = groups[n] :: groups.drop (n + 1) := (getElem_cons_drop hlt).symm
      have hnext := properValues_take hproper (n + 1)
      rw [htake] at hnext
      have hpicked := hret.insert_proper hnext hvalue
      rw [← htake] at hpicked
      rw [hitem, hpick]
      simp only [bind_eq_bind, bind_some]
      rw [hdrop, total_cons] at htotal
      refine ih (by omega) ?_ hpicked
      rw [toInt_sub_of_le (by omega) (by omega), htotal, hdiv]
      omega
    · rename_i hless
      exact ⟨n, nTotalValue, ret, rfl, by omega, htotal, hret, .inr (Int64.not_le.mp hless)⟩

omit [DecidableEq C] in
theorem mapM_range' {α : Type} (l : List α) {n m : Nat} (h : n + m ≤ l.length) :
    (List.range' n m).mapM (fun i => l[i]?) = some ((l.drop n).take m) := by
  induction m generalizing n with
  | zero => rfl
  | succ m ih =>
    have hlt : n < l.length := by omega
    rw [range'_succ, mapM_cons, ih (by omega), getElem?_eq_getElem hlt, ← getElem_cons_drop hlt]
    rfl

/-- The items that the dynamic program reads. -/
def itemsFrom (p : CoinBundles C) (n : Nat) : List (ValuedCoin C) :=
  (p.vValue.drop n).take (p.nTotalCoinValues - n)

theorem Represents.length_le (h : p.Represents groups leftovers) : groups.length ≤ p.vValue.length := by
  cases hlength : groups.length with
  | zero => exact Nat.zero_le _
  | succ last =>
    obtain ⟨item, hitem, -⟩ := h.picks last _ (getElem?_eq_getElem (by omega))
    exact (List.getElem?_eq_some_iff.mp hitem).1

theorem items_some (h : p.Represents groups leftovers) {n : Nat} (hn : n ≤ groups.length) :
    (List.range' n (p.nTotalCoinValues - n)).mapM (fun nItem => p.vValue[nItem]?) = some (p.itemsFrom n) := by
  refine mapM_range' _ ?_
  rw [h.count, Nat.add_sub_cancel' hn]
  exact h.length_le

theorem items_forall₂ (h : p.Represents groups leftovers) {n : Nat}
    {R : ValuedCoin C → List (ValuedCoin C) → Prop}
    (hrel : ∀ (i : Nat) item group, p.vValue[i]? = some item → groups[i]? = some group →
    R item group) : List.Forall₂ R (p.itemsFrom n) (groups.drop n) := by
  have hle := h.length_le
  have hlength : (p.itemsFrom n).length = (groups.drop n).length := by
    rw [itemsFrom, length_take, length_drop, length_drop, h.count]
    omega
  have hitems : ∀ i, i < groups.length - n → (p.itemsFrom n)[i]? = p.vValue[n + i]? := by
    intro i hi
    rw [itemsFrom, getElem?_take_of_lt (by rw [h.count]; exact hi), getElem?_drop]
  refine forall₂_of_length_eq_of_get hlength fun i hi hi' => ?_
  rw [length_drop] at hi'
  refine hrel (n + i) _ _ ?_ ?_
  · rw [← hitems i hi']
    exact getElem?_eq_getElem hi
  · rw [← getElem?_drop]
    exact getElem?_eq_getElem _

variable {pointers : List (List (ValuedCoin C) × (Nat → Nat))}

/-- **Going back** picks the groups that the pointers keep. -/
theorem pickRows_some (h : p.Represents groups leftovers)
    (hproper : ProperValues (groups.flatten ++ leftovers)) {n : Nat} {ret : CoinsRet C}
    (hret : Collects ValuedCoin.coin nValue ret (groups.take n).flatten)
    {weight : List (ValuedCoin C) → Nat} {nColumns : Nat} {rows : List (List Nat)}
    (hgroups : pointers.map Prod.fst = groups.drop n)
    (hagree : List.Forall₂ (Agrees nColumns) rows pointers)
    (hback : ∀ q ∈ pointers, PointsBack weight q) {j : Nat} (hj : pointers ≠ [] → j < nColumns) :
    ∃ ret', p.pickBack (rows.zip (List.range' n (p.nTotalCoinValues - n))).reverse j ret =
      some ret' ∧ Collects ValuedCoin.coin nValue ret'
        ((groups.take n).flatten ++ (follow pointers.reverse j).flatten) := by
  have hcount : pointers.length = groups.length - n := by
    rw [← length_drop, ← hgroups, length_map]
  have hrows : List.Forall₂ (fun row q => Agrees nColumns row.1 q ∧ p.Picks row.2 q.1)
      (rows.zip (List.range' n (p.nTotalCoinValues - n))).reverse pointers.reverse := by
    rw [forall₂_reverse_iff]
    have hlength := hagree.length_eq
    refine forall₂_of_length_eq_of_get ?_ fun i hi hi' => ?_
    · rw [length_zip, length_range', h.count]
      omega
    · have hgroup : groups[n + i]? = some (pointers.get ⟨i, hi'⟩).1 := by
        rw [← getElem?_drop, ← hgroups, getElem?_map, getElem?_eq_getElem hi']
        rfl
      have hzip : (rows.zip (List.range' n (p.nTotalCoinValues - n))).get ⟨i, hi⟩ =
          (rows.get ⟨i, by omega⟩, n + i) := by
        rw [get_eq_getElem, getElem_zip, getElem_range', Nat.one_mul]
        rfl
      rw [hzip]
      exact ⟨hagree.get (by omega) hi', h.picks _ _ hgroup⟩
  refine pickBack_some hrows (fun q hq => hback q (mem_reverse.mp hq)) (fun hne => hj ?_) hret ?_
  · intro hnil
    rw [hnil] at hne
    exact hne rfl
  · have hall : ((groups.take n).flatten ++ ((pointers.reverse).map Prod.fst).flatten).Perm
        groups.flatten := by
      rw [map_reverse, hgroups, ← flatten_append]
      have hsplit := ((groups.drop n).reverse_perm.append_left (groups.take n))
      rw [take_append_drop] at hsplit
      exact hsplit.flatten
    exact (hproper.sublist (sublist_append_left _ _)).perm hall

theorem addLeftovers_collects (nTargetValue : Int64) {chosen : List (ValuedCoin C)}
    {ret : CoinsRet C} (hret : Collects ValuedCoin.coin nValue ret chosen)
    (hproper : ProperValues (chosen ++ leftovers)) : ∃ added, added.Sublist leftovers ∧
      Collects ValuedCoin.coin nValue (addLeftovers nTargetValue leftovers ret) (chosen ++ added) ∧
      (nTargetValue.toInt ≤ exact nValue (chosen ++ leftovers) →
        nTargetValue.toInt ≤ exact nValue (chosen ++ added)) := by
  induction leftovers generalizing chosen ret with
  | nil => exact ⟨[], List.Sublist.refl [], by rw [append_nil]; exact hret, id⟩
  | cons v leftovers ih =>
    have happend : chosen ++ v :: leftovers = chosen ++ [v] ++ leftovers := by
      rw [append_assoc]
      rfl
    rw [addLeftovers]
    split
    · rw [happend] at hproper ⊢
      have hvalue : v.nValue.toInt = exact nValue [v] := by
        rw [exact_cons, exact_nil, Int.add_zero]
      have hadded := hret.insert_proper (hproper.sublist (sublist_append_left _ _)) hvalue
      obtain ⟨added, hsub, hcollects, henough⟩ := ih hadded hproper
      have hall : chosen ++ [v] ++ added = chosen ++ v :: added := by
        rw [append_assoc]
        rfl
      rw [hall] at hcollects henough
      exact ⟨v :: added, hsub.cons_cons v, hcollects, henough⟩
    · rename_i hreached
      refine ⟨[], nil_sublist _, by rw [append_nil]; exact hret, fun _ => ?_⟩
      rw [lt_iff_toInt_lt, hret.value] at hreached
      rw [append_nil]
      omega

/-- A selection of these coins: there is one under a condition, and every one reaches the target. -/
structure Selects (fits : Prop) (nTargetValue : Int64) (vValue : List (ValuedCoin C))
    (result : Option (CoinsRet C)) : Prop where
  isSome : fits → result.isSome
  reaches : ∀ ret, result = some ret → ∃ chosen : List (ValuedCoin C), chosen.Subperm vValue ∧
    Collects ValuedCoin.coin ValuedCoin.nValue ret chosen ∧
    nTargetValue.toInt ≤ exact ValuedCoin.nValue chosen

namespace Selects

omit [DecidableEq C]

variable {fits fits' : Prop} {nTargetValue : Int64} {vValue vValue' : List (ValuedCoin C)}
  {result : Option (CoinsRet C)}

theorem of_some {ret : CoinsRet C} {chosen : List (ValuedCoin C)} (hsub : chosen.Subperm vValue)
    (hret : Collects ValuedCoin.coin nValue ret chosen)
    (henough : nTargetValue.toInt ≤ exact nValue chosen) :
    Selects fits nTargetValue vValue (some ret) := by
  refine ⟨fun _ => rfl, fun ret' hsome => ?_⟩
  cases hsome
  exact ⟨chosen, hsub, hret, henough⟩

theorem mono (h : Selects fits nTargetValue vValue result) (hfits : fits' → fits) :
    Selects fits' nTargetValue vValue result := ⟨fun hmore => h.isSome (hfits hmore), h.reaches⟩

theorem perm (h : Selects fits nTargetValue vValue' result) (hperm : vValue'.Perm vValue) :
    Selects fits nTargetValue vValue result := by
  refine ⟨h.isSome, fun ret hsome => ?_⟩
  obtain ⟨chosen, hsub, hret, henough⟩ := h.reaches ret hsome
  exact ⟨chosen, hsub.trans hperm.subperm, hret, henough⟩

end Selects

omit [DecidableEq C] in
/-- The number of columns, in whole numbers. -/
theorem countColumns_eq {nTotalValue nMissing : Int64} (hpos : 0 < denom.toInt)
    (hmissing : 0 ≤ nMissing.toInt) (htotal : 0 ≤ nTotalValue.toInt) :
    countColumns nTotalValue nMissing denom = nTotalValue.toInt - nMissing.toInt / denom.toInt +
      if nMissing.toInt % denom.toInt = 0 then 1 else 0 := by
  have hdiv := toInt_div_of_pos hmissing hpos
  have hquotient : 0 ≤ nMissing.toInt / denom.toInt := ediv_nonneg hmissing hpos.le
  have hsmall : nMissing.toInt / denom.toInt ≤ nMissing.toInt := ediv_le_self _ hmissing
  have hhigh := nMissing.toInt_lt
  have hlow := nTotalValue.toInt_lt
  have hsub : (nTotalValue - nMissing / denom).toInt =
      nTotalValue.toInt - nMissing.toInt / denom.toInt := by
    rw [toInt_sub, hdiv]
    exact bmod_eq_of_le (by omega) (by omega)
  have hzero : nMissing % denom = 0 ↔ nMissing.toInt % denom.toInt = 0 := by
    rw [← toInt_inj, toInt_mod_of_pos hmissing, toInt_zero]
  unfold countColumns
  dsimp only
  rw [hsub]
  by_cases hrest : nMissing % denom = 0
  · rw [if_neg (not_not.mpr hrest), if_pos (hzero.mp hrest)]
  · rw [if_pos hrest, if_neg (fun h => hrest (hzero.mpr h))]

variable {nTargetValue nTotalValue : Int64} {n : Nat} {ret : CoinsRet C}

omit [DecidableEq C] in
/-- **The columns are few** where the surplus is not many times the denominator. -/
theorem countColumns_le (hproper : ProperValues (groups.flatten ++ leftovers))
    (hpos : 0 < denom.toInt) (htotal : nTotalValue.toInt = total (groupWeight denom)
    (groups.drop n)) (hret : Collects ValuedCoin.coin nValue ret (groups.take n).flatten)
    (htarget : 0 < nTargetValue.toInt) (hless : ret.nValueRet.toInt < nTargetValue.toInt)
    (hspan : exact nValue (groups.flatten ++ leftovers) - nTargetValue.toInt ≤ 50 * denom.toInt) :
    countColumns nTotalValue (nTargetValue - ret.nValueRet) denom ≤ 52 := by
  have hvalue : 0 ≤ ret.nValueRet.toInt := by
    rw [hret.value]
    exact (properValues_take hproper n).exact_nonneg
  have hmissing := toInt_missing htarget hvalue
  have heq := countColumns_eq hpos (show 0 ≤ (nTargetValue - ret.nValueRet).toInt by omega)
    (show 0 ≤ nTotalValue.toInt by omega)
  generalize nTargetValue - ret.nValueRet = nMissing at hmissing heq ⊢
  have hdivmod := mul_ediv_add_emod nMissing.toInt denom.toInt
  have hmod := emod_lt_of_pos nMissing.toInt hpos
  have hworth := denom_mul_total_le hpos (properValues_drop hproper n)
  have hsplit : exact nValue groups.flatten =
      exact nValue (groups.take n).flatten + exact nValue (groups.drop n).flatten := by
    rw [← exact_append, ← flatten_append, take_append_drop]
  have hrestValue := (hproper.sublist (sublist_append_right _ _)).exact_nonneg
  have htakenValue := hret.value
  rw [exact_append] at hspan
  have hexpand : denom.toInt * (nTotalValue.toInt - nMissing.toInt / denom.toInt + 1) =
      denom.toInt * nTotalValue.toInt - denom.toInt * (nMissing.toInt / denom.toInt) +
        denom.toInt := by
    ring
  have hmost : denom.toInt * countColumns nTotalValue nMissing denom ≤
      denom.toInt * (nTotalValue.toInt - nMissing.toInt / denom.toInt + 1) := by
    refine Int.mul_le_mul_of_nonneg_left ?_ hpos.le
    split at heq <;> omega
  rw [htotal] at hexpand hmost
  exact Int.le_of_mul_le_mul_left (by omega) hpos

variable (h : p.Represents groups leftovers) (hproper : ProperValues (groups.flatten ++ leftovers))
  (hpos : 0 < denom.toInt)

include h hproper hpos

/-- **With nothing to choose**, the coins behind the last bundle make up for what is missing. -/
theorem solve_leftovers (htotal : nTotalValue.toInt = 0)
    (hret : Collects ValuedCoin.coin nValue ret groups.flatten)
    (htarget : 0 < nTargetValue.toInt) (hless : ret.nValueRet.toInt < nTargetValue.toInt)
    (hall : nTargetValue.toInt ≤ exact nValue (groups.flatten ++ leftovers))
    (hsmall : exact nValue leftovers < denom.toInt) :
    ∃ ret' added, p.solve nTargetValue denom nTotalValue groups.length ret = some ret' ∧
      added.Sublist leftovers ∧ Collects ValuedCoin.coin nValue ret' (groups.flatten ++ added) ∧
      nTargetValue.toInt ≤ exact nValue (groups.flatten ++ added) := by
  have hvalue : 0 ≤ ret.nValueRet.toInt := by
    rw [hret.value]
    exact (hproper.sublist (sublist_append_left _ _)).exact_nonneg
  have hmissing := toInt_missing htarget hvalue
  have htaken := hret.value
  have hparts := exact_append (f := nValue) groups.flatten leftovers
  have hcolumns : countColumns nTotalValue (nTargetValue - ret.nValueRet) denom = 0 := by
    have hzero : (nTargetValue - ret.nValueRet).toInt / denom.toInt = 0 :=
      ediv_eq_zero_of_lt (by omega) (by omega)
    have hrest : (nTargetValue - ret.nValueRet).toInt % denom.toInt ≠ 0 := by
      rw [emod_eq_of_lt (by omega) (by omega)]
      omega
    rw [countColumns_eq hpos (by omega) (by omega), hzero, htotal, if_neg hrest]
    rfl
  have hnone : p.itemsFrom groups.length = [] := by
    rw [itemsFrom, h.count, Nat.sub_self, take_zero]
  obtain ⟨added, hsub, hcollects, henough⟩ := addLeftovers_collects nTargetValue hret hproper
  refine ⟨addLeftovers nTargetValue leftovers ret, added, ?_, hsub, hcollects, henough hall⟩
  have hlast : ∃ last, p.vZeroValueBundles.getLast? = some last ∧ last ≤ p.vValue.length ∧
      p.vValue.drop last = leftovers := by
    cases h.behind with
    | inl hempty =>
      have hnil := congrArg (exact nValue) hempty.2
      rw [exact_nil] at hnil
      omega
    | inr hbehind => exact hbehind
  obtain ⟨last, hget, hle, hdrop⟩ := hlast
  have hnot : ret.nValueRet < nTargetValue := lt_iff_toInt_lt.mpr hless
  unfold solve
  dsimp only
  rw [hcolumns, if_neg (by decide), items_some h le_rfl, hnone]
  simp only [bind_eq_bind, bind_some, backRows, zip_nil_left, reverse_nil,
    pickBack, if_pos hnot, hget, if_pos hle, hdrop]

theorem items_weight (n : Nat) :
    List.Forall₂ (fun (item : ValuedCoin C) group => item.weight denom = groupWeight denom group)
      (p.itemsFrom n) (groups.drop n) := by
  refine items_forall₂ h fun i item group hitem hgroup => ?_
  obtain ⟨item', hitem', hvalue, -⟩ := h.picks i group hgroup
  cases hitem.symm.trans hitem'
  exact weight_eq hpos (properValues_group hproper hgroup) hvalue

variable (hn : n ≤ groups.length) (htotal : nTotalValue.toInt = total (groupWeight denom) (groups.drop n))
  (hret : Collects ValuedCoin.coin nValue ret (groups.take n).flatten)
  (htarget : 0 < nTargetValue.toInt) (hless : ret.nValueRet.toInt < nTargetValue.toInt)

include hn htotal hret htarget hless

/-- **With something to choose**, what the pointers keep reaches the target. -/
theorem solve_follow (hchoice : (nTargetValue - ret.nValueRet) / denom < nTotalValue) {nColumns : Nat}
    (hcolumns : countColumns nTotalValue (nTargetValue - ret.nValueRet) denom = nColumns)
    (hfit : nColumns < 2 ^ 32) {rows : List (List Nat)}
    (hrows : backRows denom (p.itemsFrom n) (List.replicate nColumns 0) = some rows)
    (hgroups : pointers.map Prod.fst = groups.drop n) (hagree : List.Forall₂
    (Agrees nColumns) rows pointers) (hback : ∀ q ∈ pointers, PointsBack (groupWeight denom) q) :
    ∃ ret', p.solve nTargetValue denom nTotalValue n ret = some ret' ∧
      Collects ValuedCoin.coin nValue ret'
        ((groups.take n).flatten ++ (follow pointers.reverse (nColumns - 1)).flatten) ∧
      nTargetValue.toInt ≤ exact nValue
        ((groups.take n).flatten ++ (follow pointers.reverse (nColumns - 1)).flatten) := by
  have hvalue : 0 ≤ ret.nValueRet.toInt := by
    rw [hret.value]
    exact (properValues_take hproper n).exact_nonneg
  have hmissing := toInt_missing htarget hvalue
  generalize hrest : nTargetValue - ret.nValueRet = nMissing at hmissing hchoice hcolumns
  have hchosen : nMissing.toInt / denom.toInt < nTotalValue.toInt := by
    rw [← toInt_div_of_pos (by omega) hpos]
    exact lt_iff_toInt_lt.mp hchoice
  have heq := countColumns_eq hpos (show 0 ≤ nMissing.toInt by omega)
    (show 0 ≤ nTotalValue.toInt by omega)
  rw [hcolumns] at heq
  have hone : 1 ≤ nColumns := by
    split at heq <;> omega
  have hdivmod := mul_ediv_add_emod nMissing.toInt denom.toInt
  have hmod := emod_lt_of_pos nMissing.toInt hpos
  obtain ⟨ret', hpick, hcollects⟩ := pickRows_some h hproper hret hgroups hagree hback
    (j := nColumns - 1) (fun _ => by omega)
  -- what is left out fits into the columns, so enough weight is kept
  have hkept : (follow pointers.reverse (nColumns - 1)).Sublist (groups.drop n).reverse := by
    rw [← hgroups, ← map_reverse]
    exact follow_sublist _ _
  have hweights : total (groupWeight denom) (groups.drop n) ≤
      total (groupWeight denom) (follow pointers.reverse (nColumns - 1)) + (nColumns - 1) := by
    have hfollow := total_weight_follow (fun q hq => hback q (mem_reverse.mp hq)) (nColumns - 1)
    rw [map_reverse, total_reverse, hgroups] at hfollow
    exact hfollow
  generalize follow pointers.reverse (nColumns - 1) = kept at hcollects hkept hweights ⊢
  have hkeptProper : ProperValues kept.flatten := by
    have hdrop : (groups.drop n).reverse.flatten.Perm (groups.drop n).flatten := (reverse_perm _).flatten
    exact ((properValues_drop hproper n).perm hdrop).sublist hkept.flatten
  have hworth := denom_mul_total_le hpos hkeptProper
  have hreach : nMissing.toInt ≤ denom.toInt * total (groupWeight denom) kept := by
    split at heq
    · have hmul := Int.mul_le_mul_of_nonneg_left
        (show nMissing.toInt / denom.toInt ≤ total (groupWeight denom) kept by omega) hpos.le
      omega
    · have hmul := Int.mul_le_mul_of_nonneg_left
        (show nMissing.toInt / denom.toInt + 1 ≤ total (groupWeight denom) kept by omega) hpos.le
      rw [Int.mul_add, Int.mul_one] at hmul
      omega
  have henough : nTargetValue.toInt ≤ exact nValue ((groups.take n).flatten ++ kept.flatten) := by
    have htakenValue := hret.value
    rw [exact_append]
    omega
  refine ⟨ret', ?_, hcollects, henough⟩
  have hreached : ¬ret'.nValueRet < nTargetValue := by
    rw [lt_iff_toInt_lt, hcollects.value]
    omega
  unfold solve
  dsimp only
  rw [hrest, hcolumns, if_neg (by omega), items_some h hn, toNat_natCast]
  simp only [bind_eq_bind, bind_some, hrows, hpick, if_neg hreached]

/-- **The dynamic program and what comes behind it** reach the target. -/
theorem solve_some (hall : nTargetValue.toInt ≤ exact nValue (groups.flatten ++ leftovers))
    (hsmall : exact nValue leftovers < denom.toInt)
    (hfit : countColumns nTotalValue (nTargetValue - ret.nValueRet) denom < 2 ^ 32)
    (hchoice : n = groups.length ∨ (nTargetValue - ret.nValueRet) / denom < nTotalValue) :
    ∃ ret' chosen, p.solve nTargetValue denom nTotalValue n ret = some ret' ∧
      chosen.Subperm (groups.flatten ++ leftovers) ∧ Collects ValuedCoin.coin nValue ret' chosen ∧
      nTargetValue.toInt ≤ exact nValue chosen := by
  cases hchoice with
  | inl hdone =>
    subst hdone
    rw [drop_length] at htotal
    rw [take_length] at hret
    obtain ⟨ret', added, hsolve, hsub, hcollects, henough⟩ :=
      solve_leftovers h hproper hpos htotal hret htarget hless hall hsmall
    exact ⟨ret', _, hsolve, (hsub.append_left _).subperm, hcollects, henough⟩
  | inr hchoice =>
    have hvalue : 0 ≤ ret.nValueRet.toInt := by
      rw [hret.value]
      exact (properValues_take hproper n).exact_nonneg
    have hmissing := toInt_missing htarget hvalue
    have hnonneg : 0 ≤ (nTargetValue - ret.nValueRet).toInt := by omega
    have hchosen := lt_iff_toInt_lt.mp hchoice
    rw [toInt_div_of_pos hnonneg hpos] at hchosen
    have hcolumns : 0 ≤ countColumns nTotalValue (nTargetValue - ret.nValueRet) denom := by
      rw [countColumns_eq hpos hnonneg (by omega)]
      split <;> omega
    obtain ⟨rows, pointers, hrows, hgroups, hagree, hback⟩ :=
      backRows_some (items_weight h hproper hpos n) (List.replicate
        (countColumns nTotalValue (nTargetValue - ret.nValueRet) denom).toNat 0)
    rw [length_replicate] at hagree
    obtain ⟨ret', hsolve, hcollects, henough⟩ := solve_follow h hproper hpos hn htotal hret htarget
      hless hchoice (toNat_of_nonneg hcolumns).symm (by omega) hrows hgroups hagree hback
    refine ⟨ret', _, hsolve, ?_, hcollects, henough⟩
    have hkept := (follow_sublist pointers.reverse
      ((countColumns nTotalValue (nTargetValue - ret.nValueRet) denom).toNat - 1)).flatten
    rw [map_reverse, hgroups] at hkept
    have hparts : ((groups.take n).flatten ++ (groups.drop n).reverse.flatten).Perm
        groups.flatten := by
      have hsplit := (groups.drop n).reverse_perm.append_left (groups.take n)
      rw [take_append_drop] at hsplit
      rw [← flatten_append]
      exact hsplit.flatten
    exact ((hkept.append_left _).subperm.trans hparts.subperm).trans
      (sublist_append_left _ _).subperm

/-- Where the columns cannot be counted there is no result, and otherwise the target is reached. -/
theorem solve_selects (hall : nTargetValue.toInt ≤ exact nValue (groups.flatten ++ leftovers))
    (hsmall : exact nValue leftovers < denom.toInt)
    (hchoice : n = groups.length ∨ (nTargetValue - ret.nValueRet) / denom < nTotalValue) :
    Selects (exact nValue (groups.flatten ++ leftovers) - nTargetValue.toInt ≤
      50 * denom.toInt) nTargetValue (groups.flatten ++ leftovers)
      (p.solve nTargetValue denom nTotalValue n ret) := by
  have hfits : countColumns nTotalValue (nTargetValue - ret.nValueRet) denom < 2 ^ 32 →
      ∃ ret' chosen, p.solve nTargetValue denom nTotalValue n ret = some ret' ∧
        chosen.Subperm (groups.flatten ++ leftovers) ∧
        Collects ValuedCoin.coin nValue ret' chosen ∧
        nTargetValue.toInt ≤ exact nValue chosen := fun hfit =>
    solve_some h hproper hpos hn htotal hret htarget hless hall hsmall hfit hchoice
  constructor
  · intro hspan
    have hfew := countColumns_le hproper hpos htotal hret htarget hless hspan
    obtain ⟨ret', -, hsolve, -⟩ := hfits (by omega)
    rw [hsolve, isSome_some]
  · intro ret' hsolve
    have hfit : countColumns nTotalValue (nTargetValue - ret.nValueRet) denom < 2 ^ 32 := by
      by_contra hmany
      unfold solve at hsolve
      dsimp only at hsolve
      rw [if_pos (.inr (Int.not_lt.mp hmany))] at hsolve
      cases hsolve
    obtain ⟨ret'', chosen, hsome, hchosen⟩ := hfits hfit
    rw [hsome] at hsolve
    cases hsolve
    exact ⟨chosen, hchosen⟩

end CoinBundles

end MaryJaneCoin
