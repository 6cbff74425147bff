import MaryJaneCoin.Wallet.CreateTransaction
import MaryJaneCoin.Wallet.MinConf

/-!
# `CWallet::SelectCoinsPreferMixed`

Coins of a mixed denomination are picked, the largest first, until the target is reached.  The
time of a coin is not looked at.
-/

namespace MaryJaneCoin

open WrappedSum List

def isMixedDenomination (nValue : Int64) : Bool :=
  COINJOIN_DENOMINATIONS.any fun denomination => nValue == denomination

section

variable {C : Type}

/-- `vMixed`, before it is sorted. -/
def mixedCoins (vCoins : List (CoinToSpend C)) : List (CoinToSpend C) :=
  vCoins.filter fun out => isMixedDenomination out.nValue

/-- Larger values come first. -/
abbrev LargerFirst (a b : CoinToSpend C) : Prop := b.nValue ≤ a.nValue

/-- The mixed coins that are larger than one of them. -/
def largerMixed (vCoins : List (CoinToSpend C)) (out : CoinToSpend C) : List (CoinToSpend C) :=
  (mixedCoins vCoins).filter fun other => out.nValue < other.nValue

variable [DecidableEq C]

/-- The loop over `vMixed`. -/
def pickMixed (nTargetValue : Int64) : List (CoinToSpend C) → CoinsRet C → Option (CoinsRet C)
  | [], _ => none
  | out :: vMixed, mixed =>
    let mixed := mixed.insert [out.coin] out.nValue
    if mixed.nValueRet ≥ nTargetValue then some mixed else pickMixed nTargetValue vMixed mixed

def selectCoinsPreferMixed (order : SortOrder (LargerFirst (C := C))) (nTargetValue : Int64)
    (vCoins : List (CoinToSpend C)) : Bool × CoinsRet C :=
  if vCoins.isEmpty then (false, ⟨[], 0⟩)
  else
    match pickMixed nTargetValue (order.sort (mixedCoins vCoins)) ⟨[], 0⟩ with
    | none => (false, ⟨[], 0⟩)
    | some mixed => (true, mixed)

end

variable {C : Type} [DecidableEq C] {nTargetValue : Int64} {vMixed : List (CoinToSpend C)}

/-- **The loop** picks the first coins that reach the target, where all of them do. -/
theorem pickMixed_spec {mixed : CoinsRet C} {picked : List (CoinToSpend C)}
    (h : Collects CoinToSpend.coin CoinToSpend.nValue mixed picked)
    (hproper : ProperToSpend (picked ++ vMixed))
    (hless : exact CoinToSpend.nValue picked < nTargetValue.toInt) :
    (pickMixed nTargetValue vMixed mixed = none ∧
      exact CoinToSpend.nValue (picked ++ vMixed) < nTargetValue.toInt) ∨
    ∃ before out behind ret, vMixed = before ++ out :: behind ∧
      pickMixed nTargetValue vMixed mixed = some ret ∧
      Collects CoinToSpend.coin CoinToSpend.nValue ret (picked ++ before ++ [out]) ∧
      exact CoinToSpend.nValue (picked ++ before) < nTargetValue.toInt ∧
      nTargetValue.toInt ≤ exact CoinToSpend.nValue (picked ++ before ++ [out]) := by
  induction vMixed generalizing mixed picked with
  | nil =>
    refine .inl ⟨rfl, ?_⟩
    rw [append_nil]
    exact hless
  | cons out vMixed ih =>
    rw [append_cons] at hproper
    have hvalue : exact CoinToSpend.nValue [out] = out.nValue.toInt := by
      rw [exact_cons, exact_nil, Int.add_zero]
    have hnext : Collects CoinToSpend.coin CoinToSpend.nValue (mixed.insert [out.coin] out.nValue)
        (picked ++ [out]) :=
      h.insert_proper (hproper.sublist (sublist_append_left _ _)).proper hvalue.symm
    rw [pickMixed]
    by_cases hreached : (mixed.insert [out.coin] out.nValue).nValueRet ≥ nTargetValue
    · rw [if_pos hreached]
      rw [ge_iff_le, Int64.le_iff_toInt_le, hnext.value] at hreached
      refine .inr ⟨[], out, vMixed, _, rfl, rfl, ?_, ?_, ?_⟩
      · rw [append_nil]
        exact hnext
      · rw [append_nil]
        exact hless
      · rw [append_nil]
        exact hreached
    · rw [if_neg hreached]
      rw [ge_iff_le, Int64.le_iff_toInt_le, hnext.value, Int.not_le] at hreached
      obtain ⟨hnone, hall⟩ | ⟨before, last, behind, ret, hsplit, hsome, hret, hfew, hmany⟩ :=
        ih hnext hproper hreached
      · refine .inl ⟨hnone, ?_⟩
        rw [append_cons]
        exact hall
      · have hmove : picked ++ out :: before = picked ++ [out] ++ before := append_cons _ _ _
        refine .inr ⟨out :: before, last, behind, ret, by rw [hsplit]; rfl, hsome, ?_, ?_, ?_⟩
        · rw [hmove]
          exact hret
        · rw [hmove]
          exact hfew
        · rw [hmove]
          exact hmany

variable {vCoins : List (CoinToSpend C)} {nSpendTime : UInt32}
  {order : SortOrder (LargerFirst (C := C))}

omit [DecidableEq C] in
theorem mixedCoins_sublist (vCoins : List (CoinToSpend C)) : (mixedCoins vCoins).Sublist vCoins :=
  filter_sublist

/-- **Mixed coins**: the largest are picked until the target is reached, or together they do not
reach it. -/
theorem selectCoinsPreferMixed_spec (hproper : ProperToSpend vCoins)
    (htarget : 0 < nTargetValue.toInt) (order : SortOrder (LargerFirst (C := C))) :
    (selectCoinsPreferMixed order nTargetValue vCoins = (false, ⟨[], 0⟩) ∧
      exact CoinToSpend.nValue (mixedCoins vCoins) < nTargetValue.toInt) ∨
    ∃ before out behind ret, order.sort (mixedCoins vCoins) = before ++ out :: behind ∧
      selectCoinsPreferMixed order nTargetValue vCoins = (true, ret) ∧
      Collects CoinToSpend.coin CoinToSpend.nValue ret (before ++ [out]) ∧
      exact CoinToSpend.nValue before < nTargetValue.toInt ∧
      nTargetValue.toInt ≤ exact CoinToSpend.nValue (before ++ [out]) := by
  rw [selectCoinsPreferMixed]
  by_cases hempty : vCoins.isEmpty
  · rw [List.isEmpty_iff.mp hempty]
    exact .inl ⟨rfl, htarget⟩
  · rw [if_neg hempty]
    have hperm := order.perm (mixedCoins vCoins)
    have hsorted : ProperToSpend ([] ++ order.sort (mixedCoins vCoins)) :=
      hproper.subperm (hperm.subperm.trans (mixedCoins_sublist vCoins).subperm)
    obtain ⟨hnone, hall⟩ | ⟨before, out, behind, ret, hsplit, hsome, hret, hfew, hmany⟩ :=
      pickMixed_spec Collects.nil hsorted htarget
    · rw [hnone]
      rw [nil_append, exact_perm hperm] at hall
      exact .inl ⟨rfl, hall⟩
    · rw [hsome]
      exact .inr ⟨before, out, behind, ret, hsplit, rfl, hret, hfew, hmany⟩

/-- Where a mixed coin is late, the larger ones reach the target. -/
def LateBehind (vCoins : List (CoinToSpend C)) (nTargetValue : Int64) (nSpendTime : UInt32) : Prop :=
  ∀ late ∈ mixedCoins vCoins, nSpendTime < late.nTime →
    nTargetValue.toInt ≤ exact CoinToSpend.nValue (largerMixed vCoins late)

omit [DecidableEq C] in
instance : Decidable (LateBehind vCoins nTargetValue nSpendTime) :=
  inferInstanceAs (Decidable (∀ late ∈ mixedCoins vCoins, nSpendTime < late.nTime →
    nTargetValue.toInt ≤ exact CoinToSpend.nValue (largerMixed vCoins late)))

section

omit [DecidableEq C]

/-- **No late coin is picked** in front of a target that the larger coins reach. -/
theorem picked_in_time (hproper : ProperToSpend vCoins) {before behind : List (CoinToSpend C)}
    {out : CoinToSpend C} (hsort : order.sort (mixedCoins vCoins) = before ++ out :: behind)
    (hfew : exact CoinToSpend.nValue before < nTargetValue.toInt)
    (hlate : LateBehind vCoins nTargetValue nSpendTime) :
    ∀ coin ∈ before ++ [out], coin.nTime ≤ nSpendTime := by
  intro coin hcoin
  by_contra hnot
  have hperm := order.perm (mixedCoins vCoins)
  have hsorted := order.sorted (mixedCoins vCoins)
  rw [hsort, append_cons] at hperm hsorted
  have hmixed : coin ∈ mixedCoins vCoins := hperm.mem_iff.mp (mem_append_left _ hcoin)
  have henough := hlate coin hmixed (UInt32.not_le.mp hnot)
  obtain ⟨pre, post, hsplit⟩ := append_of_mem hcoin
  rw [hsplit, append_assoc, cons_append] at hperm hsorted
  obtain ⟨-, hrest, -⟩ := pairwise_append.mp hsorted
  have hlarger : (coin :: (post ++ behind)).filter (fun other => coin.nValue < other.nValue) = [] := by
    rw [filter_eq_nil_iff]
    intro other hother hmore
    rw [decide_eq_true_eq] at hmore
    cases List.mem_cons.mp hother with
    | inl heq =>
      rw [heq] at hmore
      exact Int64.lt_irrefl hmore
    | inr hmem =>
      have hless := rel_of_pairwise_cons hrest hmem
      exact Int64.lt_irrefl (Int64.lt_of_lt_of_le hmore hless)
  have hpart : pre <+: before ++ [out] := by
    rw [hsplit]
    exact prefix_append _ _
  have hprefix : pre <+: before := by
    refine prefix_of_prefix_length_le hpart (prefix_append _ _) ?_
    have hlength := congrArg List.length hsplit
    rw [length_append, length_append, length_singleton, length_cons] at hlength
    omega
  have hall : ProperToSpend (before ++ [out] ++ behind) := by
    refine hproper.subperm ?_
    rw [hsplit, append_assoc, cons_append]
    exact hperm.subperm.trans (mixedCoins_sublist vCoins).subperm
  have hbefore : ∀ other ∈ before, 0 ≤ other.nValue.toInt := fun other hother =>
    hall.nonneg other (mem_append_left _ (mem_append_left _ hother))
  have hsub : (pre.filter fun other => coin.nValue < other.nValue).Sublist before :=
    filter_sublist.trans hprefix.sublist
  have hpre := exact_le_of_sublist hsub hbefore
  rw [largerMixed, ← exact_perm (hperm.filter _), filter_append, hlarger, append_nil] at henough
  exact absurd (henough.trans hpre) (Int.not_le.mpr hfew)

theorem largerFirst_total (a b : CoinToSpend C) : LargerFirst a b ∨ LargerFirst b a := Int64.le_total _ _

theorem largerFirst_trans (a b c : CoinToSpend C) (h : LargerFirst a b) (h' : LargerFirst b c) :
    LargerFirst a c := Int64.le_trans h' h

end

/-- **A late coin is picked** where the larger ones do not reach the target, if it is the first of
its value. -/
theorem late_picked (hproper : ProperToSpend vCoins) {late : CoinToSpend C}
    (hmixed : late ∈ mixedCoins vCoins)
    (hless : exact CoinToSpend.nValue (largerMixed vCoins late) < nTargetValue.toInt)
    {before behind : List (CoinToSpend C)} {out : CoinToSpend C}
    (hsort : (SortOrder.inFront largerFirst_total largerFirst_trans late).sort (mixedCoins vCoins) =
      before ++ out :: behind) (henough : nTargetValue.toInt ≤
    exact CoinToSpend.nValue (before ++ [out])) : late ∈ before ++ [out] := by
  have hfirst : ∃ pre post,
      (SortOrder.inFront largerFirst_total largerFirst_trans late).sort (mixedCoins vCoins) = pre ++
        late :: post ∧ ∀ other ∈ pre, ¬LargerFirst late other := SortOrder.sort_inFront hmixed
  obtain ⟨pre, post, hfront, hlarger⟩ := hfirst
  have hperm := (SortOrder.inFront largerFirst_total largerFirst_trans late).perm (mixedCoins vCoins)
  rw [hfront] at hperm
  rw [hfront, append_cons, append_cons before] at hsort
  -- what is in front of the late coin is larger, and does not reach the target
  have hfew : exact CoinToSpend.nValue pre < nTargetValue.toInt := by
    have hfilter : pre.filter (fun other => late.nValue < other.nValue) = pre := by
      rw [filter_eq_self]
      intro other hother
      exact decide_eq_true (Int64.not_le.mp (hlarger other hother))
    have hsub : pre.Sublist ((pre ++ late :: post).filter fun other => late.nValue < other.nValue) := by
      rw [filter_append, hfilter]
      exact sublist_append_left _ _
    have hall : ProperToSpend ((pre ++ late :: post).filter fun other => late.nValue < other.nValue) :=
      (hproper.subperm (hperm.subperm.trans (mixedCoins_sublist vCoins).subperm)).sublist
        filter_sublist
    refine (exact_le_of_sublist hsub hall.nonneg).trans_lt ?_
    rw [exact_perm (hperm.filter _)]
    exact hless
  have hprefix : before ++ [out] <+: pre ++ [late] ++ post := by
    rw [hsort]
    exact prefix_append _ _
  by_cases hlength : (before ++ [out]).length ≤ pre.length
  · have hshort : before ++ [out] <+: pre :=
      prefix_of_prefix_length_le hprefix
        ((prefix_append pre [late]).trans (prefix_append _ post)) hlength
    have hpre : ∀ other ∈ pre, 0 ≤ other.nValue.toInt := by
      intro other hother
      have hmem := hperm.mem_iff.mp (mem_append_left _ hother)
      exact hproper.nonneg other ((mixedCoins_sublist vCoins).subset hmem)
    have hle := exact_le_of_sublist hshort.sublist hpre
    omega
  · have hlong : pre ++ [late] <+: before ++ [out] := by
      refine prefix_of_prefix_length_le (prefix_append _ post) hprefix ?_
      rw [length_append, length_singleton]
      omega
    exact hlong.subset (mem_append_right _ (mem_singleton.mpr rfl))

end MaryJaneCoin
