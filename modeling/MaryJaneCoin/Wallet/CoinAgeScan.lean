import MaryJaneCoin.Wallet.CoinAgeSelection
import MaryJaneCoin.Wallet.MinConf

/-!
# The loop over the coins by age

`SelectCoinsMinConfByCoinAge` puts the coins in order of their cost, leaves out those without the
depth or the time and sets apart those that are worth the target and a cent.  With enough of the
smaller coins it reaches the target, and without bundles it loses the least coin age.
-/

namespace MaryJaneCoin

open Knapsack WrappedSum List CoinToSpend

variable {C : Type} {nTargetValue : Int64} {nSpendTime : UInt32} {nConfMine nConfTheirs : Int}
  {cost : CoinToSpend C → UInt64}

/-- What is pushed for a coin. -/
def valuedCoin (cost : CoinToSpend C → UInt64) (out : CoinToSpend C) : ValuedCoin C :=
  ⟨out.nValue, (cost out).toInt64, out.coin⟩

theorem tableCost_valuedCoin (out : CoinToSpend C) : (valuedCoin cost out).tableCost = (cost out).toNat := by
  rw [ValuedCoin.tableCost, valuedCoin, UInt64.toUInt64_toInt64]

theorem exact_valuedCoins (cost : CoinToSpend C → UInt64) (coins : List (CoinToSpend C)) :
    exact ValuedCoin.nValue (coins.map (valuedCoin cost)) = exact nValue coins :=
  exact_map ValuedCoin.nValue (valuedCoin cost) coins

theorem total_valuedCoins (coins : List (CoinToSpend C)) : total ValuedCoin.tableCost (coins.map
    (valuedCoin cost)) = total (fun out => (cost out).toNat) coins := by
  induction coins with
  | nil => rfl
  | cons out coins ih => rw [map_cons, total_cons, total_cons, ih, tableCost_valuedCoin]

/-- The loop, over coins with their costs. -/
abbrev scanFrom (nTargetValue : Int64) (nSpendTime : UInt32) (nConfMine nConfTheirs : Int)
    (cost : CoinToSpend C → UInt64) (s : CoinScan C) (outs : List (CoinToSpend C)) : CoinScan C :=
  outs.foldl (fun s out => scanCoin nTargetValue nSpendTime nConfMine nConfTheirs s (out, cost out)) s

variable {arrange : List (CoinToSpend C × UInt64) → List (CoinToSpend C × UInt64)}

/-- **The order** does not change which coins there are. -/
theorem scanCoins_eq (cost : CoinToSpend C → UInt64) (harrange : ∀ outs, (arrange outs).Perm outs)
    (vCoins : List (CoinToSpend C)) : ∃ outs, outs.Perm vCoins ∧
      scanCoins arrange cost nTargetValue nSpendTime nConfMine nConfTheirs vCoins =
        scanFrom nTargetValue nSpendTime nConfMine nConfTheirs cost ⟨[], 0, none⟩ outs := by
  have hperm := harrange (vCoins.map fun out => (out, cost out))
  have hpair : ∀ p ∈ arrange (vCoins.map fun out => (out, cost out)), (p.1, cost p.1) = p := by
    intro p hp
    obtain ⟨out, -, rfl⟩ := mem_map.mp (hperm.mem_iff.mp hp)
    rfl
  have hfirst := hperm.map Prod.fst
  rw [map_map, show Prod.fst ∘ (fun out => (out, cost out)) = id from rfl, map_id] at hfirst
  refine ⟨_, hfirst, ?_⟩
  rw [scanFrom, foldl_map, scanCoins]
  exact foldl_ext _ _ _ fun s p hp => by rw [hpair p hp]

variable {out : CoinToSpend C} {s : CoinScan C}

theorem scanCoin_skip (hout : out.eligible nSpendTime nConfMine nConfTheirs = false) :
    scanCoin nTargetValue nSpendTime nConfMine nConfTheirs s (out, cost out) = s :=
  if_pos (by rw [hout]; rfl)

/-- A smaller coin is pushed and added. -/
theorem scanCoin_lower (hout : out.eligible nSpendTime nConfMine nConfTheirs = true)
    (hless : out.nValue < nTargetValue + CENT) :
    scanCoin nTargetValue nSpendTime nConfMine nConfTheirs s (out, cost out) =
      { s with vValue := s.vValue ++ [valuedCoin cost out], nTotalLower := s.nTotalLower + out.nValue } :=
  (if_neg (by rw [hout]; exact Bool.false_ne_true)).trans (if_pos hless)

theorem scanCoin_larger (hout : out.eligible nSpendTime nConfMine nConfTheirs = true)
    (hless : ¬out.nValue < nTargetValue + CENT) :
    scanCoin nTargetValue nSpendTime nConfMine nConfTheirs s (out, cost out) =
      { s with
        coinLowestLarger :=
          if cost out < (s.coinLowestLarger.elim Int64.maxValue ValuedCoin.nCost).toUInt64 then
            some (valuedCoin cost out) else s.coinLowestLarger } := by
  refine ((if_neg (by rw [hout]; exact Bool.false_ne_true)).trans (if_neg hless)).trans ?_
  by_cases hcost : cost out < (s.coinLowestLarger.elim Int64.maxValue ValuedCoin.nCost).toUInt64
  · rw [if_pos hcost, if_pos hcost]
    rfl
  · rw [if_neg hcost, if_neg hcost]

/-- **The smaller coins** are pushed and added up. -/
theorem scanFrom_lower (cost : CoinToSpend C → UInt64) (s : CoinScan C) (outs : List (CoinToSpend C)) :
    (scanFrom nTargetValue nSpendTime nConfMine nConfTheirs cost s outs).vValue = s.vValue ++
        (lowerCoins nTargetValue nSpendTime nConfMine nConfTheirs outs).map (valuedCoin cost) ∧
      (scanFrom nTargetValue nSpendTime nConfMine nConfTheirs cost s outs).nTotalLower = s.nTotalLower +
          wrapped nValue (lowerCoins nTargetValue nSpendTime nConfMine nConfTheirs outs) := by
  induction outs generalizing s with
  | nil => exact ⟨(append_nil _).symm, (Int64.add_zero _).symm⟩
  | cons out outs ih =>
    obtain ⟨hvalues, htotal⟩ := ih (scanCoin nTargetValue nSpendTime nConfMine nConfTheirs s (out, cost out))
    rw [scanFrom, foldl_cons, hvalues, htotal]
    obtain ⟨hout, hlower, -⟩ | ⟨hout, hless, hlower, -⟩ | ⟨hout, hless, hlower, -⟩ := coins_cons out outs
    · rw [hlower, scanCoin_skip hout]
      exact ⟨rfl, rfl⟩
    · rw [hlower, wrapped_cons, map_cons, scanCoin_lower hout hless, append_assoc, Int64.add_assoc]
      exact ⟨rfl, rfl⟩
    · rw [hlower, scanCoin_larger hout hless]
      exact ⟨rfl, rfl⟩

variable {outs : List (CoinToSpend C)}

theorem unvalue {ret : CoinsRet C} {chosen : List (ValuedCoin C)}
    (hsub : chosen.Subperm (outs.map (valuedCoin cost)))
    (hcollects : Collects ValuedCoin.coin ValuedCoin.nValue ret chosen) :
    ∃ coins : List (CoinToSpend C), coins.Subperm outs ∧
      Collects CoinToSpend.coin nValue ret coins ∧
      exact nValue coins = exact ValuedCoin.nValue chosen ∧
      total (fun out => (cost out).toNat) coins = total ValuedCoin.tableCost chosen := by
  obtain ⟨coins, hcoins, hperm, hret⟩ := Collects.of_map hsub hcollects
  refine ⟨coins, hcoins, hret, ?_, ?_⟩
  · rw [← exact_perm hperm, exact_valuedCoins]
  · rw [← total_perm hperm, total_valuedCoins]

theorem properValues_valued (cost : CoinToSpend C → UInt64)
    (h : ProperCoins CoinToSpend.coin nValue outs) :
    CoinBundles.ProperValues (outs.map (valuedCoin cost)) where
  nodup := by
    rw [map_map]
    exact h.nodup
  nonneg v hv := by
    obtain ⟨out, hout, rfl⟩ := mem_map.mp hv
    exact h.nonneg out hout
  fits := by
    rw [exact_valuedCoins]
    exact h.fits

/-- What the loop has pushed, and the sum. -/
theorem scanCoins_lower (nTargetValue : Int64) (nSpendTime : UInt32) (nConfMine nConfTheirs : Int)
    (cost : CoinToSpend C → UInt64)
    (harrange : ∀ outs, (arrange outs).Perm outs) (vCoins : List (CoinToSpend C)) : ∃ lower,
      lower.Perm (lowerCoins nTargetValue nSpendTime nConfMine nConfTheirs vCoins) ∧
      (scanCoins arrange cost nTargetValue nSpendTime nConfMine nConfTheirs vCoins).vValue =
        lower.map (valuedCoin cost) ∧
      (scanCoins arrange cost nTargetValue nSpendTime nConfMine nConfTheirs vCoins).nTotalLower =
        wrapped nValue lower := by
  obtain ⟨outs, hperm, hscan⟩ := scanCoins_eq cost harrange vCoins
  obtain ⟨hvalues, htotal⟩ := scanFrom_lower cost ⟨[], 0, none⟩ outs
  refine ⟨_, lowerCoins_perm hperm, ?_, ?_⟩
  · rw [hscan, hvalues]
    rfl
  · rw [hscan, htotal]
    exact Int64.zero_add _

/-- **The coin-age knapsack.**  For coins that are worth something, and a target that the smaller
coins reach, distinct coins are selected that reach it.  Where no bundles are used they lose the
least coin age of all the smaller coins that reach it. -/
theorem selectCoinsMinConfByCoinAge_knapsack [DecidableEq C]
    {arrange : List (CoinToSpend C × UInt64) → List (CoinToSpend C × UInt64)}
    (harrange : ∀ outs, (arrange outs).Perm outs) {vCoins : List (CoinToSpend C)}
    (hdistinct : (vCoins.map CoinToSpend.coin).Nodup) (hvalues : ∀ out ∈ vCoins,
    0 < out.nValue.toInt) (htarget : 0 < nTargetValue.toInt) (henough : nTargetValue.toInt ≤
      exact nValue (lowerCoins nTargetValue nSpendTime nConfMine nConfTheirs vCoins))
    (hsum : exact nValue
      (lowerCoins nTargetValue nSpendTime nConfMine nConfTheirs vCoins) < 2 ^ 63)
    (hproduct : (lowerCoins nTargetValue nSpendTime nConfMine nConfTheirs vCoins).length *
      (exact nValue (lowerCoins nTargetValue nSpendTime nConfMine nConfTheirs vCoins) -
        nTargetValue.toInt) < 2 ^ 63) (hcosts : total (fun out => (cost out).toNat)
      (lowerCoins nTargetValue nSpendTime nConfMine nConfTheirs vCoins) < 2 ^ 64) : ∃ ret chosen,
      selectCoinsMinConfByCoinAge arrange cost nTargetValue nSpendTime nConfMine nConfTheirs vCoins =
        some (true, ret) ∧ chosen.Subperm (lowerCoins nTargetValue nSpendTime nConfMine nConfTheirs vCoins) ∧
      ret.setCoinsRet.Nodup ∧ Collects CoinToSpend.coin nValue ret chosen ∧
      nTargetValue.toInt ≤ ret.nValueRet.toInt ∧ (usesBundles nTargetValue
          (scanCoins arrange cost nTargetValue nSpendTime nConfMine nConfTheirs vCoins).vValue =
        false → ∀ other : List (CoinToSpend C),
          other.Subperm (lowerCoins nTargetValue nSpendTime nConfMine nConfTheirs vCoins) →
          nTargetValue.toInt ≤ exact nValue other →
            total (fun out => (cost out).toNat) chosen ≤ total (fun out => (cost out).toNat) other) := by
  obtain ⟨lower, hperm, hvValue, hnTotal⟩ := scanCoins_lower nTargetValue nSpendTime nConfMine
    nConfTheirs cost harrange vCoins
  have hsub : (lowerCoins nTargetValue nSpendTime nConfMine nConfTheirs vCoins).Sublist vCoins :=
    (lowerCoins_sublist vCoins).trans filter_sublist
  have hproper : ProperCoins CoinToSpend.coin nValue lower :=
    ProperCoins.perm ⟨hdistinct.sublist (hsub.map _),
      fun out hout => (hvalues out (hsub.subset hout)).le, hsum⟩ hperm
  have hpositive : ∀ v ∈ lower.map (valuedCoin cost), 0 < v.nValue.toInt := by
    intro v hv
    obtain ⟨out, hout, rfl⟩ := mem_map.mp hv
    exact hvalues out (hsub.subset (hperm.mem_iff.mp hout))
  have hvalued := properValues_valued cost hproper
  rw [← exact_perm hperm] at henough hsum
  rw [← exact_perm hperm, ← hperm.length_eq] at hproduct
  rw [← total_perm hperm, ← total_valuedCoins] at hcosts
  rw [← exact_valuedCoins cost] at henough hproduct
  rw [← length_map (valuedCoin cost)] at hproduct
  have hreached : ¬wrapped nValue lower < nTargetValue := by
    rw [Int64.lt_iff_toInt_lt,
      toInt_wrapped_of_fits (by have := hproper.exact_nonneg; omega) hsum, Int.not_lt,
      ← exact_valuedCoins cost]
    exact henough
  have hselect : selectCoinsMinConfByCoinAge arrange cost nTargetValue nSpendTime nConfMine nConfTheirs
      vCoins = (selectByCost nTargetValue (lower.map (valuedCoin cost))).map fun ret => (true, ret) := by
    rw [selectCoinsMinConfByCoinAge, hnTotal, hvValue, if_neg hreached]
  have hnodup : ∀ {ret : CoinsRet C} {coins : List (CoinToSpend C)}, coins.Subperm lower →
      Collects CoinToSpend.coin nValue ret coins → ret.setCoinsRet.Nodup := by
    intro ret coins hcoins hcollects
    exact hcollects.coins.nodup_iff.mpr (hproper.subperm hcoins).nodup
  rw [hselect, hvValue]
  cases hbundles : usesBundles nTargetValue (lower.map (valuedCoin cost)) with
  | true =>
    have hselects := selectByCost_selects hvalued htarget henough
    obtain ⟨ret, hret⟩ := Option.isSome_iff_exists.mp (hselects.isSome hproduct)
    obtain ⟨picked, hpicked, hcollects, hworth⟩ := hselects.reaches ret hret
    obtain ⟨chosen, hchosen, hcoins, hvalue, -⟩ := unvalue hpicked hcollects
    refine ⟨ret, chosen, by rw [hret]; rfl, hchosen.trans hperm.subperm, hnodup hchosen hcoins, hcoins,
      ?_, fun hfalse => by cases hfalse⟩
    rw [hcoins.value, hvalue]
    exact hworth
  | false =>
    obtain ⟨ret, picked, hret, hpicked, hcollects, hworth, hbest⟩ :=
      selectByCost_best hvalued htarget henough hproduct hpositive hcosts hbundles
    obtain ⟨chosen, hchosen, hcoins, hvalue, hcost⟩ := unvalue hpicked hcollects
    refine ⟨ret, chosen, by rw [hret]; rfl, hchosen.trans hperm.subperm, hnodup hchosen hcoins, hcoins,
      ?_, fun _ other hother hreach => ?_⟩
    · rw [hcoins.value, hvalue]
      exact hworth
    · obtain ⟨middle, hmiddle, hsublist⟩ := hother.trans hperm.symm.subperm
      rw [← exact_perm hmiddle, ← exact_valuedCoins cost] at hreach
      have hleast := hbest _ (hsublist.map (valuedCoin cost)).subperm hreach
      rw [total_valuedCoins, total_perm hmiddle] at hleast
      rw [hcost]
      exact hleast

/-- Three coins of which one can stay, and one that is not deep enough. -/
theorem selectCoinsMinConfByCoinAge_knapsack_three : ∃ (ret : CoinsRet Nat) (chosen : List (CoinToSpend Nat)),
      selectCoinsMinConfByCoinAge (List.insertionSort fun a b => a.2 ≤ b.2)
        (fun out => out.nTime.toUInt64) 6 20 1 10
        [⟨0, 2, 5, true, 3⟩, ⟨1, 4, 3, true, 3⟩, ⟨2, 6, 9, false, 12⟩, ⟨3, 8, 1, false, 2⟩] =
        some (true, ret) ∧ ret.setCoinsRet.Nodup ∧
      Collects CoinToSpend.coin nValue ret chosen ∧ 6 ≤ ret.nValueRet.toInt ∧
      total (fun out => out.nTime.toUInt64.toNat) chosen ≤ 8 := by
  obtain ⟨ret, chosen, hselect, -, hnodup, hcollects, henough, hbest⟩ :=
    @selectCoinsMinConfByCoinAge_knapsack Nat 6 20 1 10 (fun out => out.nTime.toUInt64) _
      (List.insertionSort fun a b => a.2 ≤ b.2) (perm_insertionSort _)
      [⟨0, 2, 5, true, 3⟩, ⟨1, 4, 3, true, 3⟩, ⟨2, 6, 9, false, 12⟩, ⟨3, 8, 1, false, 2⟩]
      (by decide) (by decide) (by decide) (by decide) (by decide) (by decide) (by decide)
  refine ⟨ret, chosen, hselect, hnodup, hcollects, henough, ?_⟩
  refine (hbest ?_ [⟨0, 2, 5, true, 3⟩, ⟨1, 4, 3, true, 3⟩] (by decide) (by decide)).trans (by decide)
  rw [show (scanCoins (List.insertionSort fun a b => a.2 ≤ b.2)
      (fun out : CoinToSpend Nat => out.nTime.toUInt64) 6 20 1 10
      [⟨0, 2, 5, true, 3⟩, ⟨1, 4, 3, true, 3⟩, ⟨2, 6, 9, false, 12⟩, ⟨3, 8, 1, false, 2⟩]).vValue =
    [⟨4, 3, 1⟩, ⟨2, 5, 0⟩, ⟨6, 9, 2⟩] by decide]
  have hgcd : gcd 6 (gcd 6 (gcd 2 4)) = 2 := by
    simp [gcd]
  rw [usesBundles, valueScale]
  simp only [foldl_cons, foldl_nil, hgcd]
  decide

/-!
## What the selection by coin age returns

With enough of the smaller coins the selection reaches the target.  Without them the cheapest of
the larger coins is taken, but none whose cost is the largest amount or more.
-/

open Int64

variable {C : Type} {nTargetValue : Int64} {nSpendTime : UInt32} {nConfMine nConfTheirs : Int}
  {cost : CoinToSpend C → UInt64}

/-- The cost of a coin that can be the lowest of the larger ones. -/
def Affordable (cost : CoinToSpend C → UInt64) (out : CoinToSpend C) : Prop :=
  cost out < Int64.maxValue.toUInt64

/-- **The larger coin** that is kept. -/
theorem scanFrom_larger (cost : CoinToSpend C → UInt64) (s : CoinScan C) (outs : List (CoinToSpend C)) :
    (∀ coin, (scanFrom nTargetValue nSpendTime nConfMine nConfTheirs cost s outs).coinLowestLarger =
        some coin → s.coinLowestLarger = some coin ∨
      ∃ out ∈ largerCoins nTargetValue nSpendTime nConfMine nConfTheirs outs, coin = valuedCoin cost out) ∧
    ((scanFrom nTargetValue nSpendTime nConfMine nConfTheirs cost s outs).coinLowestLarger = none ↔
      s.coinLowestLarger = none ∧ ∀ out ∈ largerCoins nTargetValue nSpendTime nConfMine nConfTheirs outs,
          ¬Affordable cost out) := by
  induction outs generalizing s with
  | nil =>
    refine ⟨fun coin hcoin => .inl hcoin, fun hcoin => ⟨hcoin, fun out hout => ?_⟩, And.left⟩
    cases hout
  | cons out outs ih =>
    obtain ⟨hsome, hnone⟩ := ih (scanCoin nTargetValue nSpendTime nConfMine nConfTheirs s (out, cost out))
    rw [scanFrom, foldl_cons]
    obtain ⟨hout, -, hlarger⟩ | ⟨hout, hless, -, hlarger⟩ | ⟨hout, hless, -, hlarger⟩ := coins_cons out outs
    · have hstep : scanCoin nTargetValue nSpendTime nConfMine nConfTheirs s (out, cost out) = s :=
        scanCoin_skip hout
      rw [hstep] at hsome hnone ⊢
      rw [hlarger]
      exact ⟨hsome, hnone⟩
    · have hstep : (scanCoin nTargetValue nSpendTime nConfMine nConfTheirs s
          (out, cost out)).coinLowestLarger = s.coinLowestLarger := by
        rw [scanCoin_lower hout hless]
      rw [hstep] at hsome hnone
      rw [hlarger]
      exact ⟨hsome, hnone⟩
    · have hstep : (scanCoin nTargetValue nSpendTime nConfMine nConfTheirs s
          (out, cost out)).coinLowestLarger =
            if cost out < (s.coinLowestLarger.elim Int64.maxValue ValuedCoin.nCost).toUInt64 then
              some (valuedCoin cost out) else s.coinLowestLarger := by
        rw [scanCoin_larger hout hless]
      rw [hstep] at hsome hnone
      rw [hlarger]
      constructor
      · intro coin hcoin
        obtain hthis | ⟨out', hout', heq⟩ := hsome coin hcoin
        · split at hthis
          · exact .inr ⟨out, mem_cons_self, (Option.some.inj hthis).symm⟩
          · exact .inl hthis
        · exact .inr ⟨out', mem_cons_of_mem _ hout', heq⟩
      · rw [hnone, forall_mem_cons]
        cases hstart : s.coinLowestLarger with
        | none =>
          by_cases hafford : Affordable cost out
          · have hkept : cost out <
                ((none : Option (ValuedCoin C)).elim Int64.maxValue ValuedCoin.nCost).toUInt64 :=
              hafford
            rw [if_pos hkept]
            exact ⟨fun h => (Option.some_ne_none _ h.1).elim, fun h => (h.2.1 hafford).elim⟩
          · have hkept : ¬cost out <
                ((none : Option (ValuedCoin C)).elim Int64.maxValue ValuedCoin.nCost).toUInt64 :=
              hafford
            rw [if_neg hkept]
            exact ⟨fun h => ⟨rfl, hafford, h.2⟩, fun h => ⟨rfl, h.2.2⟩⟩
        | some coin =>
          have hkept : (if cost out <
              ((some coin : Option (ValuedCoin C)).elim Int64.maxValue ValuedCoin.nCost).toUInt64 then
                some (valuedCoin cost out) else some coin) ≠ none := by
            split <;> exact Option.some_ne_none _
          exact ⟨fun h => (hkept h.1).elim, fun h => (Option.some_ne_none _ h.1).elim⟩

section

variable {arrange : List (CoinToSpend C × UInt64) → List (CoinToSpend C × UInt64)}
  {vCoins : List (CoinToSpend C)}

theorem scanCoins_larger (nTargetValue : Int64) (nSpendTime : UInt32) (nConfMine nConfTheirs : Int)
    (cost : CoinToSpend C → UInt64) (harrange : ∀ outs, (arrange outs).Perm outs)
    (vCoins : List (CoinToSpend C)) :
    (∀ coin, (scanCoins arrange cost nTargetValue nSpendTime nConfMine nConfTheirs
        vCoins).coinLowestLarger = some coin →
      ∃ out ∈ largerCoins nTargetValue nSpendTime nConfMine nConfTheirs vCoins, coin = valuedCoin cost out) ∧
    ((scanCoins arrange cost nTargetValue nSpendTime nConfMine nConfTheirs vCoins).coinLowestLarger = none ↔
      ∀ out ∈ largerCoins nTargetValue nSpendTime nConfMine nConfTheirs vCoins, ¬Affordable cost out) := by
  obtain ⟨outs, hperm, hscan⟩ := scanCoins_eq cost harrange vCoins
  have hsame : (largerCoins nTargetValue nSpendTime nConfMine nConfTheirs outs).Perm
      (largerCoins nTargetValue nSpendTime nConfMine nConfTheirs vCoins) := (hperm.filter _).filter _
  obtain ⟨hsome, hnone⟩ := scanFrom_larger cost ⟨[], 0, none⟩ outs
  rw [hscan]
  constructor
  · intro coin hcoin
    obtain hstart | ⟨out, hout, heq⟩ := hsome coin hcoin
    · cases hstart
    · exact ⟨out, hsame.mem_iff.mp hout, heq⟩
  · rw [hnone]
    constructor
    · intro h out hout
      exact h.2 out (hsame.mem_iff.mpr hout)
    · intro h
      exact ⟨rfl, fun out hout => h out (hsame.mem_iff.mp hout)⟩

theorem exists_affordable {larger : List (CoinToSpend C)} {lowest : Option (ValuedCoin C)}
    {coin : ValuedCoin C} (hnone : lowest = none ↔ ∀ out ∈ larger, ¬Affordable cost out)
    (hcoin : lowest = some coin) : ∃ out ∈ larger, Affordable cost out := by
  by_contra hno
  have hall : ∀ out ∈ larger, ¬Affordable cost out := fun out hout hafford => hno ⟨out, hout, hafford⟩
  rw [hnone.mpr hall] at hcoin
  cases hcoin

variable [DecidableEq C]

/-- **With a target that leaves room for a cent** a selection reaches the target; or the smaller
coins do not reach it and no larger coin has a cost that counts; or the smaller ones reach it, but
their number times the surplus is not an amount. -/
theorem selectCoinsMinConfByCoinAge_spec (harrange : ∀ outs, (arrange outs).Perm outs)
    (hproper : ProperToSpend (eligibleCoins nSpendTime nConfMine nConfTheirs vCoins))
    (htarget : 0 < nTargetValue.toInt) (hfits : nTargetValue.toInt + CENT.toInt < 2 ^ 63) :
    (∃ ret, selectCoinsMinConfByCoinAge arrange cost nTargetValue nSpendTime nConfMine nConfTheirs
        vCoins = some (true, ret) ∧
      SelectsCoins (eligibleCoins nSpendTime nConfMine nConfTheirs vCoins) nTargetValue ret ∧
      (nTargetValue.toInt ≤
          exact nValue (lowerCoins nTargetValue nSpendTime nConfMine nConfTheirs vCoins) ∨
        ∃ out ∈ largerCoins nTargetValue nSpendTime nConfMine nConfTheirs vCoins, Affordable cost out)) ∨
    (selectCoinsMinConfByCoinAge arrange cost nTargetValue nSpendTime nConfMine nConfTheirs vCoins =
        some (false, ⟨[], 0⟩) ∧
      exact nValue (lowerCoins nTargetValue nSpendTime nConfMine nConfTheirs vCoins) <
        nTargetValue.toInt ∧
      ∀ out ∈ largerCoins nTargetValue nSpendTime nConfMine nConfTheirs vCoins, ¬Affordable cost out) ∨
    (selectCoinsMinConfByCoinAge arrange cost nTargetValue nSpendTime nConfMine nConfTheirs vCoins = none ∧
      nTargetValue.toInt ≤
        exact nValue (lowerCoins nTargetValue nSpendTime nConfMine nConfTheirs vCoins) ∧
      ¬(lowerCoins nTargetValue nSpendTime nConfMine nConfTheirs vCoins).length *
        (exact nValue (lowerCoins nTargetValue nSpendTime nConfMine nConfTheirs vCoins) -
          nTargetValue.toInt) < 2 ^ 63) := by
  obtain ⟨lower, hperm, hvValue, hnTotal⟩ := scanCoins_lower nTargetValue nSpendTime nConfMine
    nConfTheirs cost harrange vCoins
  obtain ⟨hlarger, hnone⟩ := scanCoins_larger nTargetValue nSpendTime nConfMine nConfTheirs cost
    harrange vCoins
  have hcent := toInt_add_cent htarget hfits
  have hpositive : 0 ≤ CENT.toInt := by decide
  have hsub : lower.Subperm (eligibleCoins nSpendTime nConfMine nConfTheirs vCoins) :=
    hperm.subperm.trans (lowerCoins_sublist vCoins).subperm
  have hlower : ProperToSpend lower := hproper.subperm hsub
  have hworth : (wrapped nValue lower).toInt = exact nValue lower :=
    toInt_wrapped_of_fits (by have := hlower.proper.exact_nonneg; omega) hlower.proper.fits
  rw [← exact_perm hperm, ← hperm.length_eq]
  unfold selectCoinsMinConfByCoinAge
  dsimp only
  rw [hnTotal, hvValue]
  by_cases hless : wrapped nValue lower < nTargetValue
  · rw [if_pos hless]
    rw [lt_iff_toInt_lt, hworth] at hless
    cases hcoin : (scanCoins arrange cost nTargetValue nSpendTime nConfMine nConfTheirs
        vCoins).coinLowestLarger with
    | none => exact .inr (.inl ⟨rfl, hless, hnone.mp hcoin⟩)
    | some coin =>
      obtain ⟨out, hout, rfl⟩ := hlarger coin hcoin
      obtain ⟨heligible, hhigh⟩ := mem_largerCoins.mp hout
      rw [lt_iff_toInt_lt, hcent] at hhigh
      exact .inl ⟨_, rfl, SelectsCoins.single heligible (by omega), .inr (exists_affordable hnone hcoin)⟩
  · rw [if_neg hless]
    rw [lt_iff_toInt_lt, hworth, Int.not_lt] at hless
    have henough := hless
    rw [← exact_valuedCoins cost] at henough
    have hselects := selectByCost_selects (properValues_valued cost hlower.proper) htarget henough
    rw [exact_valuedCoins, length_map] at hselects
    cases hresult : selectByCost nTargetValue (lower.map (valuedCoin cost)) with
    | none =>
      refine .inr (.inr ⟨rfl, hless, fun hproduct => ?_⟩)
      have hsome := hselects.isSome hproduct
      rw [hresult] at hsome
      cases hsome
    | some ret =>
      obtain ⟨picked, hpicked, hcollects, hreached⟩ := hselects.reaches ret hresult
      obtain ⟨chosen, hchosen, hcoins, hvalue, -⟩ := unvalue hpicked hcollects
      refine .inl ⟨ret, rfl, ⟨chosen, hchosen.trans hsub, hcoins, ?_⟩, .inl hless⟩
      rw [hvalue]
      exact hreached

/-- **Without room for a cent** one coin is taken that is not worth the target, where there is any
whose cost counts. -/
theorem selectCoinsMinConfByCoinAge_overflow (harrange : ∀ outs, (arrange outs).Perm outs)
    (hproper : ProperToSpend (eligibleCoins nSpendTime nConfMine nConfTheirs vCoins))
    (htarget : 0 < nTargetValue.toInt) (hfits : ¬nTargetValue.toInt + CENT.toInt < 2 ^ 63) :
    (∃ ret, selectCoinsMinConfByCoinAge arrange cost nTargetValue nSpendTime nConfMine nConfTheirs
        vCoins = some (true, ret) ∧ ret.nValueRet.toInt < nTargetValue.toInt ∧
      ∃ out ∈ eligibleCoins nSpendTime nConfMine nConfTheirs vCoins, Affordable cost out) ∨
    (selectCoinsMinConfByCoinAge arrange cost nTargetValue nSpendTime nConfMine nConfTheirs vCoins =
        some (false, ⟨[], 0⟩) ∧
      ∀ out ∈ eligibleCoins nSpendTime nConfMine nConfTheirs vCoins, ¬Affordable cost out) := by
  obtain ⟨lower, hperm, -, hnTotal⟩ := scanCoins_lower nTargetValue nSpendTime nConfMine
    nConfTheirs cost harrange vCoins
  obtain ⟨hlarger, hnone⟩ := scanCoins_larger nTargetValue nSpendTime nConfMine nConfTheirs cost
    harrange vCoins
  obtain ⟨hall, htotal⟩ := larger_of_overflow hproper hfits
  rw [hall.1] at hperm
  rw [hperm.eq_nil] at hnTotal
  rw [hall.2] at hlarger hnone
  have hless : wrapped nValue ([] : List (CoinToSpend C)) < nTargetValue := by
    rw [lt_iff_toInt_lt]
    exact htarget
  unfold selectCoinsMinConfByCoinAge
  dsimp only
  rw [hnTotal, if_pos hless]
  cases hcoin : (scanCoins arrange cost nTargetValue nSpendTime nConfMine nConfTheirs
      vCoins).coinLowestLarger with
  | none => exact .inr ⟨rfl, hnone.mp hcoin⟩
  | some coin =>
    have hafford := exists_affordable hnone hcoin
    obtain ⟨out, hout, rfl⟩ := hlarger coin hcoin
    exact .inl ⟨_, rfl, (hproper.value_le hout).trans_lt htotal, hafford⟩

end

end MaryJaneCoin
