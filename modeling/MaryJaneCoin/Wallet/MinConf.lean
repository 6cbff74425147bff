import MaryJaneCoin.Lib.KeyOrder
import MaryJaneCoin.Wallet.BestSubset

/-!
# `CWallet::SelectCoinsMinConf`

Coins are looked at in random order.  One that is worth the target exactly is taken; otherwise
the smaller coins are put together at random, or the smallest of the larger coins
is taken. -/

namespace MaryJaneCoin

open Masked WrappedSum List CoinToSpend

/-- What is left to chance: the order of `random_shuffle`, the order in which `sort` leaves equal
values, and the draws of `rand` for either subset. -/
structure MinConfDraws (C : Type) where
  shuffle : List (CoinToSpend C) → List (CoinToSpend C)
  shuffle_perm : ∀ vCoins, (shuffle vCoins).Perm vCoins
  sortValues : SortOrder fun a b : CoinValue C => b.1 ≤ a.1
  flips : Nat → Nat → Bool
  flipsCent : Nat → Nat → Bool

/-- What the loop over `vCoins` collects. -/
structure MinConfScan (C : Type) where
  vValue : List (CoinValue C)
  nTotalLower : Int64
  coinLowestLarger : Option (CoinValue C)

/-- `coin`. -/
def CoinToSpend.coinValue {C : Type} (out : CoinToSpend C) : CoinValue C := (out.nValue, out.coin)

section

variable {C : Type} (nTargetValue : Int64) (nSpendTime : UInt32) (nConfMine nConfTheirs : Int)

/-- One round of the loop over `vCoins`; a coin that is worth the target ends it. -/
def scanMinConf (s : MinConfScan C) (output : CoinToSpend C) : Except (CoinValue C) (MinConfScan C) :=
  if !output.eligible nSpendTime nConfMine nConfTheirs then .ok s
  else
    let coin := output.coinValue
    if coin.1 = nTargetValue then .error coin
    else if coin.1 < nTargetValue + CENT then
      .ok { s with vValue := s.vValue ++ [coin], nTotalLower := s.nTotalLower + coin.1 }
    else if coin.1 < s.coinLowestLarger.elim Int64.maxValue Prod.fst then
      .ok { s with coinLowestLarger := some coin }
    else .ok s

variable [DecidableEq C]

/-- Coins inserted one after the other. -/
def CoinsRet.insertAll (ret : CoinsRet C) (coins : List (CoinValue C)) : CoinsRet C :=
  coins.foldl (fun ret coin => ret.insert [coin.2] coin.1) ret

/-- The coins that are returned once the smaller ones are worth more than the target. -/
def chooseSubset (draws : MinConfDraws C) (s : MinConfScan C) : CoinsRet C :=
  let vValue := draws.sortValues.sort s.vValue
  let best := approximateBestSubset draws.flips vValue s.nTotalLower nTargetValue
  let best :=
    if best.nBest ≠ nTargetValue ∧ s.nTotalLower ≥ nTargetValue + CENT then
      approximateBestSubset draws.flipsCent vValue s.nTotalLower (nTargetValue + CENT)
    else best
  let subset := CoinsRet.insertAll ⟨[], 0⟩ (picked best.vfBest vValue)
  match s.coinLowestLarger with
  | none => subset
  | some coin =>
    if (best.nBest ≠ nTargetValue ∧ best.nBest < nTargetValue + CENT) ∨ coin.1 ≤ best.nBest then
      CoinsRet.insertAll ⟨[], 0⟩ [coin]
    else subset

def selectCoinsMinConf (draws : MinConfDraws C) (vCoins : List (CoinToSpend C)) : Bool × CoinsRet C :=
  match (draws.shuffle vCoins).foldlM
      (scanMinConf nTargetValue nSpendTime nConfMine nConfTheirs) ⟨[], 0, none⟩ with
  | .error coin => (true, CoinsRet.insertAll ⟨[], 0⟩ [coin])
  | .ok s =>
    if s.nTotalLower = nTargetValue then (true, CoinsRet.insertAll ⟨[], 0⟩ s.vValue)
    else if s.nTotalLower < nTargetValue then
      match s.coinLowestLarger with
      | none => (false, ⟨[], 0⟩)
      | some coin => (true, CoinsRet.insertAll ⟨[], 0⟩ [coin])
    else (true, chooseSubset nTargetValue draws s)

end

variable {C : Type} {nTargetValue : Int64} {nSpendTime : UInt32} {nConfMine nConfTheirs : Int}
  {s s' : MinConfScan C} {outs : List (CoinToSpend C)}

/-- **A coin that ends the loop** is worth the target. -/
theorem scanMinConf_error {coin : CoinValue C}
    (h : outs.foldlM (scanMinConf nTargetValue nSpendTime nConfMine nConfTheirs) s = .error coin) :
    ∃ out ∈ eligibleCoins nSpendTime nConfMine nConfTheirs outs,
      out.nValue = nTargetValue ∧ coin = out.coinValue := by
  induction outs generalizing s with
  | nil => cases h
  | cons out outs ih =>
    have hstep : ∀ s', outs.foldlM (scanMinConf nTargetValue nSpendTime nConfMine nConfTheirs) s' =
        .error coin → ∃ out' ∈ eligibleCoins nSpendTime nConfMine nConfTheirs (out :: outs),
          out'.nValue = nTargetValue ∧ coin = out'.coinValue := by
      intro s' hrest
      obtain ⟨out', hmem, hvalue⟩ := ih hrest
      have hsub : (eligibleCoins nSpendTime nConfMine nConfTheirs outs).Sublist
          (eligibleCoins nSpendTime nConfMine nConfTheirs (out :: outs)) :=
        (sublist_cons_self out outs).filter _
      exact ⟨out', hsub.subset hmem, hvalue⟩
    rw [List.foldlM_cons, scanMinConf] at h
    split at h
    · exact hstep s h
    · rename_i heligible
      rw [Bool.not_eq_true', Bool.not_eq_false] at heligible
      dsimp only at h
      split at h
      · rename_i hvalue
        cases h
        exact ⟨out, mem_filter.mpr ⟨mem_cons_self, heligible⟩, hvalue, rfl⟩
      · split at h
        · exact hstep _ h
        · split at h
          · exact hstep _ h
          · exact hstep _ h

/-- What the whole loop does to the smaller and to the larger coins. -/
structure Scanned (nTargetValue : Int64) (nSpendTime : UInt32) (nConfMine nConfTheirs : Int)
    (outs : List (CoinToSpend C)) (s s' : MinConfScan C) : Prop where
  differ : ∀ out ∈ eligibleCoins nSpendTime nConfMine nConfTheirs outs, out.nValue ≠ nTargetValue
  values : s'.vValue = s.vValue ++
    (lowerCoins nTargetValue nSpendTime nConfMine nConfTheirs outs).map CoinToSpend.coinValue
  total : s'.nTotalLower = s.nTotalLower +
    wrapped CoinToSpend.nValue (lowerCoins nTargetValue nSpendTime nConfMine nConfTheirs outs)
  larger : ∀ coin, s'.coinLowestLarger = some coin → s.coinLowestLarger = some coin ∨
    ∃ out ∈ largerCoins nTargetValue nSpendTime nConfMine nConfTheirs outs, coin = out.coinValue
  noLarger : s'.coinLowestLarger = none → s.coinLowestLarger = none ∧
    ∀ out ∈ largerCoins nTargetValue nSpendTime nConfMine nConfTheirs outs,
      ¬out.nValue < Int64.maxValue

theorem eligibleCoins_cons (out : CoinToSpend C) (outs : List (CoinToSpend C)) :
    eligibleCoins nSpendTime nConfMine nConfTheirs (out :: outs) =
      if out.eligible nSpendTime nConfMine nConfTheirs then
        out :: eligibleCoins nSpendTime nConfMine nConfTheirs outs
      else eligibleCoins nSpendTime nConfMine nConfTheirs outs := filter_cons

/-- **One round** in front of the others. -/
theorem Scanned.cons {out : CoinToSpend C} {next : MinConfScan C}
    (hstep : scanMinConf nTargetValue nSpendTime nConfMine nConfTheirs s out = .ok next)
    (h : Scanned nTargetValue nSpendTime nConfMine nConfTheirs outs next s') :
    Scanned nTargetValue nSpendTime nConfMine nConfTheirs (out :: outs) s s' := by
  obtain ⟨hdiffer, hvalues, htotal, hlargest, hnone⟩ := h
  rw [scanMinConf] at hstep
  obtain ⟨hout, hlower, hlarger⟩ | ⟨hout, hless, hlower, hlarger⟩ | ⟨hout, hless, hlower, hlarger⟩ :=
    coins_cons out outs
  · rw [if_pos (by rw [hout]; rfl)] at hstep
    cases hstep
    constructor
    · rw [eligibleCoins_cons, hout, if_neg Bool.false_ne_true]
      exact hdiffer
    · rw [hlower]
      exact hvalues
    · rw [hlower]
      exact htotal
    · rw [hlarger]
      exact hlargest
    · rw [hlarger]
      exact hnone
  · rw [if_neg (by rw [hout]; decide)] at hstep
    dsimp only [coinValue] at hstep
    split at hstep
    · cases hstep
    · rename_i hne
      cases hstep
      constructor
      · rw [eligibleCoins_cons, hout, if_pos rfl]
        exact forall_mem_cons.mpr ⟨hne, hdiffer⟩
      · rw [hlower, hvalues, map_cons, append_assoc]
        rfl
      · rw [hlower, htotal, wrapped_cons, Int64.add_assoc]
      · rw [hlarger]
        exact hlargest
      · rw [hlarger]
        exact hnone
  · rw [if_neg (by rw [hout]; decide)] at hstep
    dsimp only [coinValue] at hstep
    split at hstep
    · cases hstep
    · rename_i hne
      have hmore : ∀ coin, (∃ out ∈ largerCoins nTargetValue nSpendTime nConfMine nConfTheirs outs,
          coin = out.coinValue) →
          ∃ out' ∈ largerCoins nTargetValue nSpendTime nConfMine nConfTheirs (out :: outs),
            coin = out'.coinValue := by
        rintro coin ⟨out', hmem, heq⟩
        rw [hlarger]
        exact ⟨out', mem_cons_of_mem _ hmem, heq⟩
      split at hstep
      · cases hstep
        constructor
        · rw [eligibleCoins_cons, hout, if_pos rfl]
          exact forall_mem_cons.mpr ⟨hne, hdiffer⟩
        · rw [hlower]
          exact hvalues
        · rw [hlower]
          exact htotal
        · intro coin hcoin
          cases hlargest coin hcoin with
          | inl hthis =>
            rw [hlarger]
            exact .inr ⟨out, mem_cons_self, (Option.some.inj hthis).symm⟩
          | inr hrest => exact .inr (hmore coin hrest)
        · intro hcoin
          cases (hnone hcoin).1
      · rename_i hhigh
        cases hstep
        constructor
        · rw [eligibleCoins_cons, hout, if_pos rfl]
          exact forall_mem_cons.mpr ⟨hne, hdiffer⟩
        · rw [hlower]
          exact hvalues
        · rw [hlower]
          exact htotal
        · intro coin hcoin
          exact (hlargest coin hcoin).imp_right (hmore coin)
        · intro hcoin
          obtain ⟨hstart, hrest⟩ := hnone hcoin
          rw [hstart] at hhigh
          rw [hlarger]
          exact ⟨hstart, forall_mem_cons.mpr ⟨hhigh, hrest⟩⟩

/-- **The whole loop**, where no coin ends it. -/
theorem scanMinConf_ok
    (h : outs.foldlM (scanMinConf nTargetValue nSpendTime nConfMine nConfTheirs) s = .ok s') :
    Scanned nTargetValue nSpendTime nConfMine nConfTheirs outs s s' := by
  induction outs generalizing s with
  | nil =>
    cases h
    refine ⟨fun out hout => (not_mem_nil hout).elim, (append_nil _).symm,
      (Int64.add_zero _).symm, fun coin hcoin => .inl hcoin, fun hcoin => ⟨hcoin, ?_⟩⟩
    exact fun out hout => (not_mem_nil hout).elim
  | cons out outs ih =>
    rw [List.foldlM_cons] at h
    cases hstep : scanMinConf nTargetValue nSpendTime nConfMine nConfTheirs s out with
    | error coin =>
      rw [hstep] at h
      cases h
    | ok next =>
      rw [hstep] at h
      exact Scanned.cons hstep (ih h)

section

variable [DecidableEq C]

/-- **Coins that are inserted** one after the other. -/
theorem collects_insertAll {ret : CoinsRet C} {chosen coins : List (CoinValue C)}
    (h : Collects Prod.snd Prod.fst ret chosen) (hproper : ProperCoins Prod.snd Prod.fst
    (chosen ++ coins)) : Collects Prod.snd Prod.fst (ret.insertAll coins) (chosen ++ coins) := by
  induction coins generalizing ret chosen with
  | nil =>
    rw [append_nil]
    exact h
  | cons coin coins ih =>
    rw [append_cons] at hproper ⊢
    have hvalue : exact Prod.fst [coin] = coin.1.toInt := by
      rw [exact_cons, exact_nil, Int.add_zero]
    have hfirst := h.insert_proper (hproper.sublist (sublist_append_left _ _)) hvalue.symm
    exact ih hfirst hproper

theorem insertAll_single (out : CoinToSpend C) :
    CoinsRet.insertAll ⟨[], 0⟩ [out.coinValue] = ⟨[out.coin], out.nValue⟩ := by
  rw [CoinsRet.insertAll, foldl_cons, foldl_nil, CoinsRet.insert, Int64.zero_add]
  rfl

variable {coins : List (CoinToSpend C)}

omit [DecidableEq C] in
theorem properCoins_coinValue (h : ProperToSpend coins) :
    ProperCoins Prod.snd Prod.fst (coins.map coinValue) where
  nodup := by
    rw [map_map]
    exact h.nodup
  nonneg coin hcoin := by
    obtain ⟨out, hout, rfl⟩ := mem_map.mp hcoin
    exact h.nonneg out hout
  fits := by
    rw [exact_map]
    exact h.proper.fits

/-- **Some of the smaller coins** that are worth enough. -/
theorem selects_insertAll (hproper : ProperToSpend coins)
    {chosen : List (CoinValue C)} (hsub : chosen.Subperm (coins.map coinValue))
    (henough : nTargetValue.toInt ≤ exact Prod.fst chosen) :
    SelectsCoins coins nTargetValue (CoinsRet.insertAll ⟨[], 0⟩ chosen) := by
  have hret := collects_insertAll Collects.nil ((properCoins_coinValue hproper).subperm hsub)
  obtain ⟨outs, houts, hperm, hcollects⟩ := Collects.of_map hsub hret
  refine ⟨outs, houts, hcollects, ?_⟩
  rw [← exact_perm hperm, exact_map] at henough
  exact henough

theorem toInt_add_cent (htarget : 0 < nTargetValue.toInt) (hfits : nTargetValue.toInt + CENT.toInt < 2 ^ 63) :
    (nTargetValue + CENT).toInt = nTargetValue.toInt + CENT.toInt := by
  have hcent : CENT.toInt = 1000000 := by decide
  rw [Int64.toInt_add]
  exact Int.bmod_eq_of_le (by omega) (by omega)

/-- **More than the target** in smaller coins. -/
theorem chooseSubset_selects {coins lower : List (CoinToSpend C)} (hsub : lower.Subperm coins)
    (hlower : ProperToSpend lower) (htarget : 0 < nTargetValue.toInt)
    (hfits : nTargetValue.toInt + CENT.toInt < 2 ^ 63) (hvalues : s.vValue = lower.map coinValue)
    (htotal : s.nTotalLower.toInt = exact nValue lower) (henough : nTargetValue ≤ s.nTotalLower)
    (hlarger : ∀ coin, s.coinLowestLarger = some coin →
      ∃ out ∈ coins, nTargetValue.toInt ≤ out.nValue.toInt ∧ coin = out.coinValue)
    (draws : MinConfDraws C) : SelectsCoins coins nTargetValue (chooseSubset nTargetValue draws s) := by
  have hcent := toInt_add_cent htarget hfits
  have hpositive : 0 ≤ CENT.toInt := by decide
  have hperm : (draws.sortValues.sort s.vValue).Perm (lower.map coinValue) :=
    (draws.sortValues.perm s.vValue).trans (by rw [hvalues])
  have hfit : SubsetSearch.ValuesFit (draws.sortValues.sort s.vValue) := by
    have hall := (properCoins_coinValue hlower).perm hperm
    exact ⟨hall.nonneg, hall.fits⟩
  have hworth : s.nTotalLower.toInt = exact Prod.fst (draws.sortValues.sort s.vValue) := by
    rw [htotal, exact_perm hperm, exact_map]
    rfl
  have hsubset : ∀ {best : SubsetSearch} {nReached : Int64}, nTargetValue.toInt ≤ nReached.toInt →
      SubsetSearch.KeepsBest (draws.sortValues.sort s.vValue) nReached best →
      SelectsCoins coins nTargetValue
        (CoinsRet.insertAll ⟨[], 0⟩ (picked best.vfBest (draws.sortValues.sort s.vValue))) := by
    intro best nReached hreached hbest
    have hchosen : (picked best.vfBest (draws.sortValues.sort s.vValue)).Subperm
        (lower.map coinValue) := (picked_sublist _ _).subperm.trans hperm.subperm
    refine (selects_insertAll hlower hchosen ?_).subperm hsub
    have hleast := Int64.le_iff_toInt_le.mp hbest.enough
    rw [hbest.best] at hleast
    exact hreached.trans hleast
  unfold chooseSubset
  dsimp only
  have hchoice : ∀ best : SubsetSearch, SelectsCoins coins nTargetValue
      (CoinsRet.insertAll ⟨[], 0⟩ (picked best.vfBest (draws.sortValues.sort s.vValue))) →
      SelectsCoins coins nTargetValue (match s.coinLowestLarger with
        | none => CoinsRet.insertAll ⟨[], 0⟩ (picked best.vfBest (draws.sortValues.sort s.vValue))
        | some coin =>
          if (best.nBest ≠ nTargetValue ∧ best.nBest < nTargetValue + CENT) ∨ coin.1 ≤ best.nBest then
            CoinsRet.insertAll ⟨[], 0⟩ [coin]
          else CoinsRet.insertAll ⟨[], 0⟩ (picked best.vfBest (draws.sortValues.sort s.vValue))) := by
    intro best hbest
    cases hcoin : s.coinLowestLarger with
    | none => exact hbest
    | some coin =>
      dsimp only
      split
      · obtain ⟨out, hout, hvalue, rfl⟩ := hlarger coin hcoin
        rw [insertAll_single]
        exact SelectsCoins.single hout hvalue
      · exact hbest
  have hfirst := approximateBestSubset_keepsBest hfit hworth henough draws.flips
  generalize approximateBestSubset draws.flips (draws.sortValues.sort s.vValue) s.nTotalLower
    nTargetValue = first at hfirst ⊢
  by_cases hagain : first.nBest ≠ nTargetValue ∧ s.nTotalLower ≥ nTargetValue + CENT
  · have hsecond := approximateBestSubset_keepsBest hfit hworth hagain.2 draws.flipsCent
    generalize approximateBestSubset draws.flipsCent (draws.sortValues.sort s.vValue) s.nTotalLower
      (nTargetValue + CENT) = second at hsecond ⊢
    rw [if_pos hagain]
    exact hchoice second (hsubset (by omega) hsecond)
  · rw [if_neg hagain]
    exact hchoice first (hsubset (Int.le_refl _) hfirst)

variable {vCoins : List (CoinToSpend C)}

omit [DecidableEq C] in
/-- No coin is worth the largest amount. -/
theorem lt_maxValue (hproper : ProperToSpend vCoins) {out : CoinToSpend C} (hout : out ∈ vCoins) :
    out.nValue < Int64.maxValue := by
  have hvalue := hproper.value_le hout
  have hfits := hproper.fits
  have hcent : CENT.toInt = 1000000 := by decide
  have hmax : Int64.maxValue.toInt = 2 ^ 63 - 1 := by decide
  rw [Int64.lt_iff_toInt_lt, hmax]
  omega

omit [DecidableEq C] in
/-- **What the loop has collected**, of the coins in the order of the wallet. -/
theorem scanMinConf_collects (hproper : ProperToSpend
    (eligibleCoins nSpendTime nConfMine nConfTheirs vCoins)) {draws : MinConfDraws C}
    (h : (draws.shuffle vCoins).foldlM (scanMinConf nTargetValue nSpendTime nConfMine nConfTheirs)
      ⟨[], 0, none⟩ = .ok s) :
    ∃ lower, lower.Perm (lowerCoins nTargetValue nSpendTime nConfMine nConfTheirs vCoins) ∧
      s.vValue = lower.map coinValue ∧ s.nTotalLower = wrapped nValue lower ∧
      (∀ coin, s.coinLowestLarger = some coin →
        ∃ out ∈ largerCoins nTargetValue nSpendTime nConfMine nConfTheirs vCoins,
      coin = out.coinValue) ∧ (s.coinLowestLarger = none →
        largerCoins nTargetValue nSpendTime nConfMine nConfTheirs vCoins = []) := by
  obtain ⟨hdiffer, hvalues, htotal, hlarger, hnone⟩ := scanMinConf_ok h
  have hshuffle := draws.shuffle_perm vCoins
  have hsame : (largerCoins nTargetValue nSpendTime nConfMine nConfTheirs (draws.shuffle vCoins)).Perm
      (largerCoins nTargetValue nSpendTime nConfMine nConfTheirs vCoins) :=
    (hshuffle.filter _).filter _
  refine ⟨_, lowerCoins_perm hshuffle, hvalues, htotal.trans (Int64.zero_add _), ?_, ?_⟩
  · intro coin hcoin
    obtain hstart | ⟨out, hout, heq⟩ := hlarger coin hcoin
    · cases hstart
    · exact ⟨out, hsame.mem_iff.mp hout, heq⟩
  · intro hcoin
    rw [eq_nil_iff_forall_not_mem]
    intro out hout
    exact (hnone hcoin).2 out (hsame.mem_iff.mpr hout) (lt_maxValue hproper (mem_largerCoins.mp hout).1)

section

variable (hproper : ProperToSpend (eligibleCoins nSpendTime nConfMine nConfTheirs vCoins))
  (htarget : 0 < nTargetValue.toInt)
include hproper htarget

/-- **With a target that leaves room for a cent**, the coins that pass the filters suffice and a
selection of them reaches the target, or they do not suffice and there is none. -/
theorem selectCoinsMinConf_spec (hfits : nTargetValue.toInt + CENT.toInt < 2 ^ 63)
    (draws : MinConfDraws C) : (∃ ret,
    selectCoinsMinConf nTargetValue nSpendTime nConfMine nConfTheirs draws vCoins = (true, ret) ∧
      SelectsCoins (eligibleCoins nSpendTime nConfMine nConfTheirs vCoins) nTargetValue ret) ∨
    (selectCoinsMinConf nTargetValue nSpendTime nConfMine nConfTheirs draws vCoins = (false, ⟨[], 0⟩) ∧
      exact nValue (eligibleCoins nSpendTime nConfMine nConfTheirs vCoins) <
        nTargetValue.toInt) := by
  have hcent := toInt_add_cent htarget hfits
  have hpositive : 0 ≤ CENT.toInt := by decide
  unfold selectCoinsMinConf
  cases hscan : (draws.shuffle vCoins).foldlM
      (scanMinConf nTargetValue nSpendTime nConfMine nConfTheirs) ⟨[], 0, none⟩ with
  | error coin =>
    obtain ⟨out, hout, hvalue, rfl⟩ := scanMinConf_error hscan
    refine .inl ⟨_, rfl, ?_⟩
    rw [insertAll_single]
    exact SelectsCoins.single (((draws.shuffle_perm vCoins).filter _).mem_iff.mp hout) (by rw [hvalue])
  | ok s =>
    obtain ⟨lower, hperm, hvalues, htotal, hlarger, hnone⟩ := scanMinConf_collects hproper hscan
    have hsub : lower.Subperm (eligibleCoins nSpendTime nConfMine nConfTheirs vCoins) :=
      hperm.subperm.trans (lowerCoins_sublist vCoins).subperm
    have hlower : ProperToSpend lower := hproper.subperm hsub
    have hworth : s.nTotalLower.toInt = exact nValue lower := by
      rw [htotal]
      exact toInt_wrapped_of_fits (by have := hlower.proper.exact_nonneg; omega) hlower.proper.fits
    have hreaches : ∀ coin, s.coinLowestLarger = some coin →
        ∃ out ∈ eligibleCoins nSpendTime nConfMine nConfTheirs vCoins,
          nTargetValue.toInt ≤ out.nValue.toInt ∧ coin = out.coinValue := by
      intro coin hcoin
      obtain ⟨out, hout, heq⟩ := hlarger coin hcoin
      obtain ⟨heligible, hhigh⟩ := mem_largerCoins.mp hout
      rw [Int64.lt_iff_toInt_lt, hcent] at hhigh
      exact ⟨out, heligible, by omega, heq⟩
    dsimp only
    split
    · rename_i hequal
      refine .inl ⟨_, rfl, ?_⟩
      rw [hvalues]
      refine (selects_insertAll hlower (List.Perm.refl _).subperm ?_).subperm hsub
      rw [exact_map, ← hequal, hworth]
      exact Int.le_refl _
    · split
      · rename_i hless
        rw [Int64.lt_iff_toInt_lt, hworth] at hless
        cases hcoin : s.coinLowestLarger with
        | none =>
          refine .inr ⟨rfl, ?_⟩
          have hall : (lowerCoins nTargetValue nSpendTime nConfMine nConfTheirs vCoins ++
              largerCoins nTargetValue nSpendTime nConfMine nConfTheirs vCoins).Perm
              (eligibleCoins nSpendTime nConfMine nConfTheirs vCoins) := lower_append_larger vCoins
          rw [hnone hcoin, append_nil] at hall
          rw [← exact_perm hall, ← exact_perm hperm]
          exact hless
        | some coin =>
          obtain ⟨out, hout, hvalue, rfl⟩ := hreaches coin hcoin
          refine .inl ⟨_, rfl, ?_⟩
          rw [insertAll_single]
          exact SelectsCoins.single hout hvalue
      · rename_i hmore
        rw [Int64.not_lt] at hmore
        exact .inl ⟨_, rfl, chooseSubset_selects hsub hlower htarget hfits hvalues hworth hmore
          hreaches draws⟩

/-- **Without room for a cent** one coin is taken that is not worth the target, where there
is any. -/
theorem selectCoinsMinConf_overflow (hfits : ¬nTargetValue.toInt + CENT.toInt < 2 ^ 63)
    (draws : MinConfDraws C) : (∃ ret,
    selectCoinsMinConf nTargetValue nSpendTime nConfMine nConfTheirs draws vCoins = (true, ret) ∧
      ret.nValueRet.toInt < nTargetValue.toInt ∧ eligibleCoins nSpendTime nConfMine nConfTheirs vCoins ≠ []) ∨
    (selectCoinsMinConf nTargetValue nSpendTime nConfMine nConfTheirs draws vCoins = (false, ⟨[], 0⟩) ∧
      eligibleCoins nSpendTime nConfMine nConfTheirs vCoins = []) := by
  obtain ⟨hnone, htotal⟩ := larger_of_overflow hproper hfits
  unfold selectCoinsMinConf
  cases hscan : (draws.shuffle vCoins).foldlM
      (scanMinConf nTargetValue nSpendTime nConfMine nConfTheirs) ⟨[], 0, none⟩ with
  | error coin =>
    obtain ⟨out, hout, hvalue, -⟩ := scanMinConf_error hscan
    have hmem := ((draws.shuffle_perm vCoins).filter _).mem_iff.mp hout
    have hle := hproper.value_le hmem
    rw [hvalue] at hle
    omega
  | ok s =>
    obtain ⟨lower, hperm, -, hwrapped, hlarger, hlargest⟩ := scanMinConf_collects hproper hscan
    rw [hnone.1] at hperm
    rw [hperm.eq_nil] at hwrapped
    have hzero : s.nTotalLower.toInt = 0 := by
      rw [hwrapped]
      rfl
    have hne : ¬s.nTotalLower = nTargetValue := by
      intro heq
      rw [heq] at hzero
      omega
    have hless : s.nTotalLower < nTargetValue := by
      rw [Int64.lt_iff_toInt_lt]
      omega
    dsimp only
    rw [if_neg hne, if_pos hless]
    cases hcoin : s.coinLowestLarger with
    | none =>
      rw [hnone.2] at hlargest
      exact .inr ⟨rfl, hlargest hcoin⟩
    | some coin =>
      obtain ⟨out, hout, rfl⟩ := hlarger coin hcoin
      rw [hnone.2] at hout
      refine .inl ⟨_, rfl, ?_, ne_nil_of_mem hout⟩
      rw [insertAll_single]
      exact (hproper.value_le hout).trans_lt htotal

end

end

end MaryJaneCoin
