import MaryJaneCoin.Wallet.CoinAgeKnapsack

/-!
# Selecting coins by age

Every coin that is worth less than the target and a cent is a candidate.  The candidates are
scaled, packed and chosen from; without bundles the choice loses the least coin age.
-/

namespace MaryJaneCoin

open Knapsack WrappedSum List ValuedCoin

/-- **The greatest common divisor** of two amounts. -/
theorem toInt_gcd {n m : Int64} (hn : 0 ≤ n.toInt) (hm : 0 ≤ m.toInt) :
    (gcd n m).toInt = Int.gcd n.toInt m.toInt := by
  induction n, m using gcd.induct with
  | case1 n =>
    rw [gcd, if_pos rfl, Int64.toInt_zero, Int.gcd_zero_right]
    exact (Int.natAbs_of_nonneg hn).symm
  | case2 n m hne ih =>
    have hmod : (n % m).toInt = n.toInt % m.toInt := toInt_mod_of_pos hn
    have hpos : m.toInt ≠ 0 := fun hzero => hne (Int64.toInt_inj.mp hzero)
    rw [gcd, if_neg hne, ih hm (by rw [hmod]; exact Int.emod_nonneg _ hpos), hmod, Int.gcd_comm, Int.gcd_emod]

section

variable {C : Type} {first : ValuedCoin C} {rest : List (ValuedCoin C)} {nTargetValue : Int64}

/-- The divisor of several amounts. -/
theorem foldl_gcd {nGCD : Int64} (hgcd : 0 ≤ nGCD.toInt) (hnonneg : ∀ v ∈ rest,
    0 ≤ v.nValue.toInt) : 0 ≤ (rest.foldl (fun nGCD v => gcd v.nValue nGCD) nGCD).toInt ∧
      (rest.foldl (fun nGCD v => gcd v.nValue nGCD) nGCD).toInt ∣ nGCD.toInt ∧
      ∀ v ∈ rest, (rest.foldl (fun nGCD v => gcd v.nValue nGCD) nGCD).toInt ∣ v.nValue.toInt := by
  induction rest generalizing nGCD with
  | nil => exact ⟨hgcd, Int.dvd_refl _, fun v hv => by cases hv⟩
  | cons v rest ih =>
    have hvalue := hnonneg v mem_cons_self
    have hboth := toInt_gcd hvalue hgcd
    have hnext : 0 ≤ (gcd v.nValue nGCD).toInt := by
      rw [hboth]
      exact Int.natCast_nonneg _
    obtain ⟨hpos, hdvd, hall⟩ := ih hnext fun w hw => hnonneg w (mem_cons_of_mem _ hw)
    rw [hboth] at hdvd
    refine ⟨hpos, hdvd.trans (Int.gcd_dvd_right _ _), fun w hw => ?_⟩
    cases List.mem_cons.mp hw with
    | inl heq =>
      rw [heq]
      exact hdvd.trans (Int.gcd_dvd_left _ _)
    | inr hmem => exact hall w hmem

/-- **The scale** divides the values and the target. -/
theorem valueScale_spec (hproper : CoinBundles.ProperValues (first :: rest))
    (htarget : 0 < nTargetValue.toInt) :
    (valueScale nTargetValue first rest).1.toInt = exact nValue (first :: rest) ∧
      0 < (valueScale nTargetValue first rest).2.toInt ∧
      (valueScale nTargetValue first rest).2.toInt ∣ nTargetValue.toInt ∧
      ∀ v ∈ first :: rest, (valueScale nTargetValue first rest).2.toInt ∣ v.nValue.toInt := by
  obtain ⟨hnonneg, hdvd, hall⟩ := foldl_gcd (hproper.nonneg first mem_cons_self)
    fun v hv => hproper.nonneg v (mem_cons_of_mem _ hv)
  have hscale : (valueScale nTargetValue first rest).2.toInt = Int.gcd nTargetValue.toInt
      (rest.foldl (fun nGCD v => gcd v.nValue nGCD) first.nValue).toInt :=
    toInt_gcd htarget.le hnonneg
  refine ⟨?_, ?_, ?_, fun v hv => ?_⟩
  · have htotal := hproper.exact_nonneg
    have hfits := hproper.fits
    rw [exact_cons] at htotal hfits ⊢
    rw [valueScale, toInt_foldl]
    exact Int.bmod_eq_of_le (by omega) (by omega)
  · rw [hscale]
    exact Int.natCast_pos.mpr (Int.gcd_pos_of_ne_zero_left _ (ne_of_gt htarget))
  · rw [hscale]
    exact Int.gcd_dvd_left _ _
  · rw [hscale]
    refine (Int.gcd_dvd_right _ _).trans ?_
    cases List.mem_cons.mp hv with
    | inl heq =>
      rw [heq]
      exact hdvd
    | inr hmem => exact hall v hmem

theorem denominator_pos {nTotalValue nGCD : Int64} {nCoins : Nat} (hgcd : 0 < nGCD.toInt) :
    0 < (denominator nTargetValue nTotalValue nGCD nCoins).toInt := by
  unfold denominator
  dsimp only
  split
  · rename_i hmore
    rw [gt_iff_lt, Int64.lt_iff_toInt_lt] at hmore
    omega
  · exact hgcd

/-- **The surplus** is at most fifty times as large as the denominator. -/
theorem denominator_span {nTotalValue nGCD : Int64} {nCoins : Nat} (hcoins : 0 < nCoins)
    (hgcd : 0 < nGCD.toInt) (htarget : 0 < nTargetValue.toInt)
    (hless : nTargetValue.toInt < nTotalValue.toInt)
    (hfits : nCoins * (nTotalValue.toInt - nTargetValue.toInt) < 2 ^ 63) :
    nTotalValue.toInt - nTargetValue.toInt ≤
      50 * (denominator nTargetValue nTotalValue nGCD nCoins).toInt := by
  have hsub : (nTotalValue - nTargetValue).toInt = nTotalValue.toInt - nTargetValue.toInt :=
    toInt_sub_of_le htarget.le hless.le
  have hmany : nTotalValue.toInt - nTargetValue.toInt ≤
      nCoins * (nTotalValue.toInt - nTargetValue.toInt) := by
    have hmul := Int.mul_le_mul_of_nonneg_right (show (1 : Int) ≤ nCoins by omega)
      (show 0 ≤ nTotalValue.toInt - nTargetValue.toInt by omega)
    omega
  have hcount : (nCoins : Int) ≤ nCoins * (nTotalValue.toInt - nTargetValue.toInt) := by
    have hmul := Int.mul_le_mul_of_nonneg_left
      (show 1 ≤ nTotalValue.toInt - nTargetValue.toInt by omega) (Int.natCast_nonneg nCoins)
    omega
  have hnat : (Int64.ofNat nCoins).toInt = nCoins := Int64.toInt_ofNat_of_lt (by omega)
  have hproduct : (Int64.ofNat nCoins * (nTotalValue - nTargetValue)).toInt =
      nCoins * (nTotalValue.toInt - nTargetValue.toInt) := by
    rw [Int64.toInt_mul, hnat, hsub]
    exact Int.bmod_eq_of_le (by omega) (by omega)
  have hthis : (25 : Int64).toInt = 25 := by decide
  have happrox : ((UInt64.ofNat nCoins * (nTotalValue - nTargetValue).toUInt64).toInt64 / 25).toInt =
      nCoins * (nTotalValue.toInt - nTargetValue.toInt) / 25 := by
    rw [UInt64.toInt64_mul, UInt64.toInt64_ofNat', Int64.toInt64_toUInt64,
      toInt_div_of_pos (by omega) (by omega), hproduct, hthis]
  unfold denominator
  dsimp only
  split
  · rename_i hmore
    rw [gt_iff_lt, Int64.lt_iff_toInt_lt, happrox] at hmore
    rw [happrox]
    omega
  · rename_i hmost
    rw [gt_iff_lt, Int64.lt_iff_toInt_lt, happrox] at hmost
    omega

end

namespace CoinBundles

variable {C : Type} {denom nTargetValue nTotalValue : Int64} {vValue : List (ValuedCoin C)}

/-- Every coin as a group of its own. -/
abbrev singles (vValue : List (ValuedCoin C)) : List (List (ValuedCoin C)) := vValue.map fun v => [v]

theorem flatten_singles (vValue : List (ValuedCoin C)) : (singles vValue).flatten = vValue :=
  flatMap_singleton' vValue

theorem total_singles (cost : ValuedCoin C → Nat) (vValue : List (ValuedCoin C)) :
    total (total cost) (singles vValue) = total cost vValue := by
  rw [← total_flatten, flatten_singles]

/-- What coins weigh is what they are worth, where the denominator divides their values. -/
theorem denom_mul_total_singles (hpos : 0 < denom.toInt) (hnonneg : ∀ v ∈ vValue,
    0 ≤ v.nValue.toInt) (hdvd : ∀ v ∈ vValue, denom.toInt ∣ v.nValue.toInt) :
    denom.toInt * total (groupWeight denom) (singles vValue) = exact nValue vValue := by
  induction vValue with
  | nil => exact Int.mul_zero _
  | cons v vValue ih =>
    have hrest := ih (fun w hw => hnonneg w (mem_cons_of_mem _ hw))
      fun w hw => hdvd w (mem_cons_of_mem _ hw)
    have hsingle : exact nValue [v] = v.nValue.toInt := by
      rw [exact_cons, exact_nil, Int.add_zero]
    have hweight : (groupWeight denom [v] : Int) = v.nValue.toInt / denom.toInt := by
      rw [groupWeight, hsingle]
      exact Int.toNat_of_nonneg (Int.ediv_nonneg (hnonneg v mem_cons_self) hpos.le)
    rw [singles, map_cons, total_cons, exact_cons, Nat.cast_add, Int.mul_add, hrest, hweight,
      Int.mul_ediv_cancel' (hdvd v mem_cons_self)]

/-- Coins that are all on their own, and a target below what they are worth, both in multiples of
the denominator. -/
structure Divides (denom nTargetValue : Int64) (vValue : List (ValuedCoin C)) : Prop where
  pos : 0 < denom.toInt
  proper : ProperValues vValue
  value : ∀ v ∈ vValue, denom.toInt ∣ v.nValue.toInt
  target : denom.toInt ∣ nTargetValue.toInt
  targetPos : 0 < nTargetValue.toInt
  less : nTargetValue.toInt < exact ValuedCoin.nValue vValue

namespace Divides

variable (h : Divides denom nTargetValue vValue)

include h

theorem properSingles : ProperValues ((singles vValue).flatten ++ []) := by
  rw [flatten_singles, append_nil]
  exact h.proper

theorem toInt_total (htotal : nTotalValue.toInt = exact nValue vValue) :
    (nTotalValue / denom).toInt = total (groupWeight denom) (singles vValue) := by
  have hmul := denom_mul_total_singles h.pos h.proper.nonneg h.value
  have hnonneg := h.proper.exact_nonneg
  rw [toInt_div_of_pos (by omega) h.pos, htotal, ← hmul, Int.mul_ediv_cancel_left _ (ne_of_gt h.pos)]

theorem toInt_target : (nTargetValue / denom).toInt = nTargetValue.toInt / denom.toInt :=
  toInt_div_of_pos h.targetPos.le h.pos

theorem choice (htotal : nTotalValue.toInt = exact nValue vValue) :
    (nTargetValue - (0 : Int64)) / denom < nTotalValue / denom := by
  have hmul := denom_mul_total_singles h.pos h.proper.nonneg h.value
  have htarget := Int.mul_ediv_cancel' h.target
  have hless := h.less
  rw [Int64.sub_zero, Int64.lt_iff_toInt_lt, h.toInt_target, h.toInt_total htotal]
  refine Int.lt_of_mul_lt_mul_left ?_ h.pos.le
  omega

theorem columns (htotal : nTotalValue.toInt = exact nValue vValue) :
    countColumns (nTotalValue / denom) (nTargetValue - 0) denom =
      total (groupWeight denom) (singles vValue) - nTargetValue.toInt / denom.toInt + 1 := by
  have hrest : nTargetValue.toInt % denom.toInt = 0 := Int.emod_eq_zero_of_dvd h.target
  rw [Int64.sub_zero, countColumns_eq h.pos h.targetPos.le
    (by rw [h.toInt_total htotal]; exact Int.natCast_nonneg _), h.toInt_total htotal, if_pos hrest]

variable {other : List (ValuedCoin C)}

/-- A choice that reaches the target leaves out no more than the columns. -/
theorem fits_columns
    (hsub : other.Sublist vValue) (henough : nTargetValue.toInt ≤ exact nValue other) :
    nTargetValue.toInt / denom.toInt ≤ total (groupWeight denom) (singles other) := by
  have hmul := denom_mul_total_singles h.pos (h.proper.sublist hsub).nonneg
    fun v hv => h.value v (hsub.subset hv)
  have htarget := Int.mul_ediv_cancel' h.target
  refine Int.le_of_mul_le_mul_left ?_ h.pos
  omega

/-- **What is kept has the lowest cost** of all coins that reach the target. -/
theorem keep_best (hvalues : ∀ v ∈ vValue, 0 < v.nValue.toInt)
    {nColumns : Nat} (hcolumns : (nColumns : Int) = total (groupWeight denom)
      (singles vValue) - nTargetValue.toInt / denom.toInt + 1) (hother : other.Subperm vValue)
    (henough : nTargetValue.toInt ≤ exact nValue other) : total tableCost
        (keep (groupWeight denom) (total tableCost) (singles vValue).reverse
          (nColumns - 1)).flatten ≤ total tableCost other := by
  obtain ⟨chosen, hperm, hsub⟩ := hother
  rw [← exact_perm hperm] at henough
  have hreach := h.fits_columns hsub henough
  have hweights : ∀ group ∈ (singles vValue).reverse, 0 < groupWeight denom group := by
    intro group hgroup
    obtain ⟨v, hv, rfl⟩ := mem_map.mp (mem_reverse.mp hgroup)
    have hone : 1 ≤ v.nValue.toInt / denom.toInt := by
      rw [Int.le_ediv_iff_mul_le h.pos, Int.one_mul]
      exact Int.le_of_dvd (hvalues v hv) (h.value v hv)
    rw [groupWeight, exact_cons, exact_nil, Int.add_zero]
    omega
  have hreverse : (singles chosen).reverse.Sublist (singles vValue).reverse := (hsub.map _).reverse
  have hbest : total (total tableCost)
      (keep (groupWeight denom) (total tableCost) (singles vValue).reverse (nColumns - 1)) ≤
        total (total tableCost) (singles chosen).reverse := by
    refine keep_optimal hweights hreverse ?_
    rw [total_reverse, total_reverse]
    omega
  rw [total_reverse, total_singles, total_perm hperm] at hbest
  rw [total_flatten]
  exact hbest

variable [DecidableEq C]

/-- **The coins of the dynamic program** reach the target. -/
theorem solve_selects (htotal : nTotalValue.toInt = exact nValue vValue) :
    Selects (exact nValue vValue - nTargetValue.toInt ≤ 50 * denom.toInt) nTargetValue vValue
      ((unpacked vValue).solve nTargetValue denom (nTotalValue / denom) 0 ⟨[], 0⟩) := by
  have hall : (singles vValue).flatten ++ [] = vValue := by
    rw [flatten_singles, append_nil]
  have hless := h.less
  have hsolve := CoinBundles.solve_selects (unpacked_represents vValue) h.properSingles h.pos
    (Nat.zero_le _) (h.toInt_total htotal) Collects.nil h.targetPos h.targetPos
    (by rw [hall]; exact hless.le) h.pos (.inr (h.choice htotal))
  rw [hall] at hsolve
  exact hsolve

omit [DecidableEq C] in
theorem columns_fit (htotal : nTotalValue.toInt = exact nValue vValue)
    (hspan : exact nValue vValue - nTargetValue.toInt ≤ 50 * denom.toInt) :
    ∃ nColumns : Nat, countColumns (nTotalValue / denom) (nTargetValue - 0) denom = nColumns ∧
      nColumns < 2 ^ 32 ∧ (nColumns : Int) =
        total (groupWeight denom) (singles vValue) - nTargetValue.toInt / denom.toInt + 1 := by
  have hreach := h.fits_columns (List.Sublist.refl vValue) h.less.le
  have hcount := h.columns htotal
  have hnothing : Collects coin nValue (⟨[], 0⟩ : CoinsRet C)
      ((singles vValue).take 0).flatten := Collects.nil
  have hfew := countColumns_le h.properSingles h.pos (h.toInt_total htotal) hnothing h.targetPos
    h.targetPos (by rw [flatten_singles, append_nil]; exact hspan)
  dsimp only at hfew
  obtain ⟨nColumns, hcolumns⟩ := Int.eq_ofNat_of_zero_le
    (show 0 ≤ countColumns (nTotalValue / denom) (nTargetValue - 0) denom by omega)
  rw [hcolumns] at hfew hcount
  exact ⟨nColumns, hcolumns, by omega, hcount⟩

/-- **They have the lowest cost** of all coins that reach the target. -/
theorem solve_best (htotal : nTotalValue.toInt = exact nValue vValue)
    (hspan : exact nValue vValue - nTargetValue.toInt ≤ 50 * denom.toInt)
    (hvalues : ∀ v ∈ vValue, 0 < v.nValue.toInt) (hcosts : total tableCost vValue < 2 ^ 64) :
    ∃ ret chosen, (unpacked vValue).solve nTargetValue denom (nTotalValue / denom) 0 ⟨[], 0⟩ =
        some ret ∧ chosen.Subperm vValue ∧ Collects coin nValue ret chosen ∧
      nTargetValue.toInt ≤ exact nValue chosen ∧
      ∀ other : List (ValuedCoin C), other.Subperm vValue →
        nTargetValue.toInt ≤ exact nValue other →
          total tableCost chosen ≤ total tableCost other := by
  have hall : (singles vValue).flatten ++ [] = vValue := by
    rw [flatten_singles, append_nil]
  have hrepresents := unpacked_represents vValue
  obtain ⟨nColumns, hcolumns, hfit, hcount⟩ := h.columns_fit htotal hspan
  have hweight := items_weight hrepresents h.properSingles h.pos 0
  have hcost : List.Forall₂ (fun (item : ValuedCoin C) group =>
      item.tableCost = total tableCost group)
        ((unpacked vValue).itemsFrom 0) ((singles vValue).drop 0) := by
    refine items_forall₂ hrepresents fun i item group hitem hgroup => ?_
    rw [getElem?_map] at hgroup
    obtain ⟨v, hget, rfl⟩ := Option.map_eq_some_iff.mp hgroup
    cases hitem.symm.trans hget
    rw [total_cons]
    rfl
  obtain ⟨rows, pointers, hrows, -, -, -⟩ := backRows_some hweight (List.replicate nColumns 0)
  have hzero : HoldsBest (groupWeight denom) (total tableCost) ([] : List (List (ValuedCoin C)))
      (List.replicate nColumns 0) := by
    intro j hj
    rw [length_replicate] at hj
    rw [getD_eq_getElem?_getD, getElem?_replicate_of_lt hj]
    rfl
  obtain ⟨pointers, hagree, hpointers⟩ := backRows_best hweight hcost hzero (by
    rw [drop_zero, total_singles]
    exact hcosts) hrows
  rw [length_replicate] at hagree
  rw [drop_zero, append_nil, Knapsack.backRows, append_nil] at hpointers
  have hgroups : pointers.map Prod.fst = (singles vValue).drop 0 := by
    have hreverse := congrArg (fun pointers => (pointers.map Prod.fst).reverse) hpointers
    rw [map_fst_backRows, map_reverse, reverse_reverse, reverse_reverse] at hreverse
    exact hreverse
  have hback : ∀ q ∈ pointers, PointsBack (groupWeight denom) q := by
    intro q hq
    rw [← mem_reverse, hpointers] at hq
    exact backRows_pointsBack hq
  obtain ⟨ret, hsolve, hcollects, henough⟩ := solve_follow hrepresents h.properSingles h.pos
    (Nat.zero_le _) (h.toInt_total htotal) Collects.nil h.targetPos h.targetPos (h.choice htotal)
    hcolumns hfit hrows hgroups hagree hback
  rw [hpointers, follow_backRows, take_zero, flatten_nil, nil_append] at hcollects henough
  refine ⟨ret, _, hsolve, ?_, hcollects, henough, fun other hother hreached => ?_⟩
  · have hkept : (keep (groupWeight denom) (total tableCost) (singles vValue).reverse
        (nColumns - 1)).flatten.Sublist (singles vValue).reverse.flatten := (keep_sublist _ _).flatten
    have hperm : (singles vValue).reverse.flatten.Perm vValue := by
      have hflatten := (singles vValue).reverse_perm.flatten
      rw [flatten_singles] at hflatten
      exact hflatten
    exact hkept.subperm.trans hperm.subperm
  · exact h.keep_best hvalues hcount hother hreached

end Divides

end CoinBundles

section

variable {C : Type} [DecidableEq C] {nTargetValue denom : Int64} {vValue : List (ValuedCoin C)}

/-- **With bundles**, the target is reached. -/
theorem selectPacked_selects (hproper : CoinBundles.ProperValues vValue) (hpos : 0 < denom.toInt)
    (htarget : 0 < nTargetValue.toInt) (hless : nTargetValue.toInt < exact nValue vValue) :
    CoinBundles.Selects (exact nValue vValue - nTargetValue.toInt ≤ 50 * denom.toInt)
      nTargetValue vValue (selectPacked nTargetValue denom vValue) := by
  obtain ⟨p, groups, leftovers, hpack, hrepresents, hperm, hlarge, hsmall⟩ :=
    CoinBundles.packBundles_some hpos hproper
  have hall := hproper.perm hperm
  have hworth : exact nValue (groups.flatten ++ leftovers) = exact nValue vValue :=
    exact_perm hperm
  obtain ⟨nTotalValue, hnormalized, htotal⟩ := CoinBundles.normalizedTotal_some hrepresents hall hpos
  have hsolve : ∀ (n : Nat) (nTotalValue : Int64) (ret : CoinsRet C), n ≤ groups.length →
      nTotalValue.toInt = total (CoinBundles.groupWeight denom) (groups.drop n) →
      Collects coin nValue ret (groups.take n).flatten → ret.nValueRet.toInt < nTargetValue.toInt →
      (n = groups.length ∨ (nTargetValue - ret.nValueRet) / denom < nTotalValue) →
      CoinBundles.Selects (exact nValue vValue - nTargetValue.toInt ≤ 50 * denom.toInt)
        nTargetValue vValue (p.solve nTargetValue denom nTotalValue n ret) := by
    intro n nTotalValue ret hn htotal hret hmissing hchoice
    have hselects := CoinBundles.solve_selects hrepresents hall hpos hn htotal hret htarget hmissing
      (by rw [hworth]; exact hless.le) hsmall hchoice
    rw [hworth] at hselects
    exact hselects.perm hperm
  unfold selectPacked
  simp only [hpack, hnormalized, Option.bind_eq_bind, Option.bind_some]
  split
  · rw [hrepresents.count]
    obtain ⟨n, nTotalValue', ret, hprepick, hn, htotal', hret, hchoice⟩ :=
      CoinBundles.prepick_some hrepresents hall hpos (Nat.zero_add _) htotal Collects.nil
    rw [hprepick]
    simp only [Option.bind_some]
    split
    · rename_i hreached
      rw [ge_iff_le, Int64.le_iff_toInt_le, hret.value] at hreached
      have hsub : (groups.take n).flatten.Sublist (groups.flatten ++ leftovers) :=
        (take_sublist n groups).flatten.trans (sublist_append_left _ _)
      exact .of_some (hsub.subperm.trans hperm.subperm) hret hreached
    · rename_i hmissing
      rw [ge_iff_le, Int64.le_iff_toInt_le, Int.not_le] at hmissing
      exact hsolve n nTotalValue' ret hn htotal' hret hmissing hchoice
  · rename_i hmore
    rw [ge_iff_le, Int64.not_le] at hmore
    refine hsolve 0 nTotalValue ⟨[], 0⟩ (Nat.zero_le _) htotal Collects.nil htarget (.inr ?_)
    rw [Int64.sub_zero]
    exact hmore

theorem collects_all (hproper : CoinBundles.ProperValues vValue) {nTotalValue : Int64}
    (htotal : nTotalValue.toInt = exact nValue vValue) : Collects coin nValue
      ⟨insertCoins [] (vValue.map coin), nTotalValue⟩ vValue :=
  ⟨insertCoins_perm hproper.nodup, htotal⟩

/-- **The smaller coins** are enough to reach the target. -/
theorem selectByCost_selects (hproper : CoinBundles.ProperValues vValue)
    (htarget : 0 < nTargetValue.toInt) (henough : nTargetValue.toInt ≤ exact nValue vValue) :
    CoinBundles.Selects (vValue.length * (exact nValue vValue - nTargetValue.toInt) < 2 ^ 63)
      nTargetValue vValue (selectByCost nTargetValue vValue) := by
  cases vValue with
  | nil =>
    rw [exact_nil] at henough
    omega
  | cons first rest =>
    obtain ⟨htotal, hgcd, htargetDvd, hvalueDvd⟩ := valueScale_spec hproper htarget
    unfold selectByCost
    dsimp only
    generalize (valueScale nTargetValue first rest).1 = nTotalValue at htotal ⊢
    generalize (valueScale nTargetValue first rest).2 = nGCD at hgcd htargetDvd hvalueDvd ⊢
    split
    · exact .of_some (List.Perm.refl _).subperm (collects_all hproper htotal) henough
    · rename_i hne
      have hless : nTargetValue.toInt < nTotalValue.toInt := by
        have hdiffer : nTotalValue.toInt ≠ nTargetValue.toInt := fun heq => hne (Int64.toInt_inj.mp heq)
        omega
      have hpos : 0 < (denominator nTargetValue nTotalValue nGCD (first :: rest).length).toInt :=
        denominator_pos hgcd
      have hspan : (first :: rest).length *
            (exact nValue (first :: rest) - nTargetValue.toInt) < 2 ^ 63 →
          exact nValue (first :: rest) - nTargetValue.toInt ≤
            50 * (denominator nTargetValue nTotalValue nGCD (first :: rest).length).toInt := by
        intro hfits
        rw [← htotal] at hfits ⊢
        exact denominator_span (Nat.succ_pos rest.length) hgcd htarget hless hfits
      rw [htotal] at hless
      split
      · exact (selectPacked_selects hproper hpos htarget hless).mono hspan
      · rename_i hsame
        rw [not_not] at hsame
        rw [hsame] at hspan ⊢
        exact (CoinBundles.Divides.solve_selects
          ⟨hgcd, hproper, hvalueDvd, htargetDvd, htarget, hless⟩ htotal).mono hspan

/-- **Without bundles** they lose the least coin age. -/
theorem selectByCost_best (hproper : CoinBundles.ProperValues vValue)
    (htarget : 0 < nTargetValue.toInt) (henough : nTargetValue.toInt ≤ exact nValue vValue)
    (hfits : vValue.length * (exact nValue vValue - nTargetValue.toInt) < 2 ^ 63)
    (hvalues : ∀ v ∈ vValue, 0 < v.nValue.toInt) (hcosts : total tableCost vValue < 2 ^ 64)
    (hbundles : usesBundles nTargetValue vValue = false) :
    ∃ ret chosen, selectByCost nTargetValue vValue = some ret ∧ chosen.Subperm vValue ∧
      Collects coin nValue ret chosen ∧
      nTargetValue.toInt ≤ exact nValue chosen ∧
      ∀ other : List (ValuedCoin C), other.Subperm vValue →
        nTargetValue.toInt ≤ exact nValue other →
          total tableCost chosen ≤ total tableCost other := by
  cases vValue with
  | nil =>
    rw [exact_nil] at henough
    omega
  | cons first rest =>
    obtain ⟨htotal, hgcd, htargetDvd, hvalueDvd⟩ := valueScale_spec hproper htarget
    unfold selectByCost
    unfold usesBundles at hbundles
    dsimp only at hbundles ⊢
    generalize (valueScale nTargetValue first rest).1 = nTotalValue at htotal hbundles ⊢
    generalize (valueScale nTargetValue first rest).2 = nGCD at hgcd htargetDvd hvalueDvd hbundles ⊢
    rw [bne_eq_false_iff_eq] at hbundles
    split
    · rename_i heq
      refine ⟨_, _, rfl, (List.Perm.refl _).subperm, collects_all hproper htotal, henough, ?_⟩
      intro other hother hreached
      obtain ⟨chosen, hperm, hsub⟩ := hother
      rw [← exact_perm hperm, ← heq, htotal] at hreached
      have hall : chosen = first :: rest := eq_of_exact_le hsub hvalues hreached
      rw [← total_perm hperm, hall]
    · rename_i hne
      have hless : nTargetValue.toInt < nTotalValue.toInt := by
        have hdiffer : nTotalValue.toInt ≠ nTargetValue.toInt := fun heq => hne (Int64.toInt_inj.mp heq)
        omega
      have hspan : nTotalValue.toInt - nTargetValue.toInt ≤
          50 * (denominator nTargetValue nTotalValue nGCD (first :: rest).length).toInt :=
        denominator_span (Nat.succ_pos rest.length) hgcd htarget hless (by rw [htotal]; exact hfits)
      rw [htotal] at hless hspan
      rw [hbundles] at hspan
      rw [hbundles, if_neg (not_not.mpr rfl)]
      exact CoinBundles.Divides.solve_best
        ⟨hgcd, hproper, hvalueDvd, htargetDvd, htarget, hless⟩ htotal hspan hvalues hcosts

end

end MaryJaneCoin
