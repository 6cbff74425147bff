import MaryJaneCoin.Chain.Transaction
import MaryJaneCoin.Lib.WrappedSum

/-!
# Coins that are selected

The selection routines of the wallet read the same things of a coin, test them in the same way
and collect coins into a set next to the sum of their values.
-/

namespace MaryJaneCoin

open WrappedSum List

/-- A coin as the selection reads it: which one it is, its value, and the time, the origin and
the depth of its transaction. -/
structure CoinToSpend (C : Type) where
  coin : C
  nValue : Int64
  nTime : UInt32
  fFromMe : Bool
  nDepth : Int
deriving DecidableEq

/-- `setCoinsRet` and `nValueRet`. -/
structure CoinsRet (C : Type) where
  setCoinsRet : List C
  nValueRet : Int64
deriving DecidableEq

/-- The depth and the time that a coin needs. -/
def CoinToSpend.eligible {C : Type} (nSpendTime : UInt32) (nConfMine nConfTheirs : Int)
    (output : CoinToSpend C) : Bool :=
  !(output.nDepth < if output.fFromMe then nConfMine else nConfTheirs) &&
    !(output.nTime > nSpendTime)

section

variable {C : Type} (nTargetValue : Int64) (nSpendTime : UInt32) (nConfMine nConfTheirs : Int)
  (vCoins : List (CoinToSpend C))

/-- The coins that have the depth and the time. -/
def eligibleCoins : List (CoinToSpend C) :=
  vCoins.filter fun out => out.eligible nSpendTime nConfMine nConfTheirs

/-- Those that are worth less than the target and a cent. -/
def lowerCoins : List (CoinToSpend C) :=
  (eligibleCoins nSpendTime nConfMine nConfTheirs vCoins).filter fun out =>
    out.nValue < nTargetValue + CENT

/-- The others of them. -/
def largerCoins : List (CoinToSpend C) :=
  (eligibleCoins nSpendTime nConfMine nConfTheirs vCoins).filter fun out =>
    !decide (out.nValue < nTargetValue + CENT)

end

section

variable {C : Type} {nTargetValue : Int64} {nSpendTime : UInt32} {nConfMine nConfTheirs : Int}

theorem coins_cons (out : CoinToSpend C) (outs : List (CoinToSpend C)) :
    (out.eligible nSpendTime nConfMine nConfTheirs = false ∧
      lowerCoins nTargetValue nSpendTime nConfMine nConfTheirs (out :: outs) =
        lowerCoins nTargetValue nSpendTime nConfMine nConfTheirs outs ∧
      largerCoins nTargetValue nSpendTime nConfMine nConfTheirs (out :: outs) =
        largerCoins nTargetValue nSpendTime nConfMine nConfTheirs outs) ∨
    (out.eligible nSpendTime nConfMine nConfTheirs = true ∧ out.nValue < nTargetValue + CENT ∧
      lowerCoins nTargetValue nSpendTime nConfMine nConfTheirs (out :: outs) =
        out :: lowerCoins nTargetValue nSpendTime nConfMine nConfTheirs outs ∧
      largerCoins nTargetValue nSpendTime nConfMine nConfTheirs (out :: outs) =
        largerCoins nTargetValue nSpendTime nConfMine nConfTheirs outs) ∨
    (out.eligible nSpendTime nConfMine nConfTheirs = true ∧ ¬out.nValue < nTargetValue + CENT ∧
      lowerCoins nTargetValue nSpendTime nConfMine nConfTheirs (out :: outs) =
        lowerCoins nTargetValue nSpendTime nConfMine nConfTheirs outs ∧
      largerCoins nTargetValue nSpendTime nConfMine nConfTheirs (out :: outs) =
        out :: largerCoins nTargetValue nSpendTime nConfMine nConfTheirs outs) := by
  by_cases heligible : out.eligible nSpendTime nConfMine nConfTheirs = true
  · by_cases hlower : out.nValue < nTargetValue + CENT
    · refine .inr (.inl ⟨heligible, hlower, ?_, ?_⟩)
      · simp [lowerCoins, eligibleCoins, heligible, hlower]
      · simp [largerCoins, eligibleCoins, heligible, hlower]
    · refine .inr (.inr ⟨heligible, hlower, ?_, ?_⟩)
      · simp [lowerCoins, eligibleCoins, heligible, hlower]
      · simp [largerCoins, eligibleCoins, heligible, hlower]
  · refine .inl ⟨Bool.eq_false_iff.mpr heligible, ?_, ?_⟩
    · simp [lowerCoins, eligibleCoins, heligible]
    · simp [largerCoins, eligibleCoins, heligible]

theorem lowerCoins_perm {outs vCoins : List (CoinToSpend C)} (hperm : outs.Perm vCoins) :
    (lowerCoins nTargetValue nSpendTime nConfMine nConfTheirs outs).Perm
      (lowerCoins nTargetValue nSpendTime nConfMine nConfTheirs vCoins) := (hperm.filter _).filter _

theorem lowerCoins_sublist (vCoins : List (CoinToSpend C)) :
    (lowerCoins nTargetValue nSpendTime nConfMine nConfTheirs vCoins).Sublist
      (eligibleCoins nSpendTime nConfMine nConfTheirs vCoins) := filter_sublist

theorem lower_append_larger (vCoins : List (CoinToSpend C)) :
    (lowerCoins nTargetValue nSpendTime nConfMine nConfTheirs vCoins ++
      largerCoins nTargetValue nSpendTime nConfMine nConfTheirs vCoins).Perm
      (eligibleCoins nSpendTime nConfMine nConfTheirs vCoins) := filter_append_perm _ _

theorem mem_largerCoins {out : CoinToSpend C} {vCoins : List (CoinToSpend C)} :
    out ∈ largerCoins nTargetValue nSpendTime nConfMine nConfTheirs vCoins ↔
      out ∈ eligibleCoins nSpendTime nConfMine nConfTheirs vCoins ∧ ¬out.nValue < nTargetValue + CENT := by
  rw [largerCoins, mem_filter, Bool.not_eq_true', decide_eq_false_iff_not]

end

/-- Coins inserted into a set. -/
def insertCoins {C : Type} [DecidableEq C] (setCoinsRet coins : List C) : List C :=
  coins.foldl (fun set coin => set.insert coin) setCoinsRet

namespace CoinsRet

variable {C : Type} [DecidableEq C]

/-- Coins inserted into the set, and their value. -/
def insert (ret : CoinsRet C) (coins : List C) (nValue : Int64) : CoinsRet C :=
  ⟨insertCoins ret.setCoinsRet coins, ret.nValueRet + nValue⟩

end CoinsRet

section

variable {C : Type} [DecidableEq C]

theorem insertCoins_perm {setCoinsRet coins : List C} (hnew : (setCoinsRet ++ coins).Nodup) :
    (insertCoins setCoinsRet coins).Perm (setCoinsRet ++ coins) := by
  induction coins generalizing setCoinsRet with
  | nil => rw [insertCoins, foldl_nil, append_nil]
  | cons coin coins ih =>
    have hnot : coin ∉ setCoinsRet := by
      intro hmem
      exact (nodup_append.mp hnew).2.2 coin hmem coin mem_cons_self rfl
    have hmiddle : (setCoinsRet ++ coin :: coins).Perm (coin :: setCoinsRet ++ coins) := perm_middle
    have hrest := ih (hmiddle.nodup_iff.mp hnew)
    rw [insertCoins, foldl_cons, insert_of_not_mem hnot]
    exact hrest.trans hmiddle.symm

end

/-- The coins of the set are these, and their values add up to the sum. -/
structure Collects {C E : Type} (coinOf : E → C) (valueOf : E → Int64) (ret : CoinsRet C)
    (chosen : List E) : Prop where
  coins : ret.setCoinsRet.Perm (chosen.map coinOf)
  value : ret.nValueRet.toInt = exact valueOf chosen

namespace Collects

variable {C E : Type} {coinOf : E → C} {valueOf : E → Int64} {chosen coins : List E} {ret : CoinsRet C}

theorem nil : Collects coinOf valueOf ⟨[], 0⟩ [] := ⟨List.Perm.refl [], rfl⟩

variable [DecidableEq C]

theorem insert (h : Collects coinOf valueOf ret chosen) (hnew : ((chosen ++ coins).map coinOf).Nodup)
    {nValue : Int64} (hvalue : nValue.toInt = exact valueOf coins) (hlow : -2 ^ 63 ≤ exact valueOf
    (chosen ++ coins)) (hhigh : exact valueOf (chosen ++ coins) < 2 ^ 63) :
    Collects coinOf valueOf (ret.insert (coins.map coinOf) nValue) (chosen ++ coins) := by
  constructor
  · rw [map_append] at hnew ⊢
    have happend : (ret.setCoinsRet ++ coins.map coinOf).Perm (chosen.map coinOf ++ coins.map coinOf) :=
      h.coins.append_right _
    exact (insertCoins_perm (happend.nodup_iff.mpr hnew)).trans happend
  · rw [exact_append] at hlow hhigh ⊢
    rw [CoinsRet.insert, Int64.toInt_add, h.value, hvalue]
    exact Int.bmod_eq_of_le (by omega) (by omega)

omit [DecidableEq C] in
theorem of_map {D : Type} {stand : D → E} {outs : List D} (hsub : chosen.Subperm (outs.map stand))
    (h : Collects coinOf valueOf ret chosen) :
    ∃ picked : List D, picked.Subperm outs ∧ (picked.map stand).Perm chosen ∧
      Collects (fun out => coinOf (stand out)) (fun out => valueOf (stand out)) ret picked := by
  obtain ⟨middle, hperm, hsublist⟩ := hsub
  obtain ⟨picked, hpicked, rfl⟩ := sublist_map_iff.mp hsublist
  refine ⟨picked, hpicked.subperm, hperm, ?_, ?_⟩
  · have hset := h.coins.trans (hperm.symm.map coinOf)
    rw [map_map] at hset
    exact hset
  · rw [h.value, ← exact_perm hperm, exact_map]

omit [DecidableEq C] in
/-- **The set determines** which coins have been chosen. -/
theorem mem_of_mem {all chosen' : List E} (hnodup : (all.map coinOf).Nodup)
    (hsub : chosen.Subperm all) (hsub' : chosen'.Subperm all) (h : Collects coinOf valueOf ret chosen)
    (h' : Collects coinOf valueOf ret chosen') {coin : E} (hcoin : coin ∈ chosen) : coin ∈ chosen' := by
  have hset : coinOf coin ∈ chosen'.map coinOf :=
    h'.coins.mem_iff.mp (h.coins.mem_iff.mpr (mem_map_of_mem hcoin))
  obtain ⟨other, hother, heq⟩ := mem_map.mp hset
  have hsame : other = coin := inj_on_of_nodup_map hnodup (hsub'.subset hother) (hsub.subset hcoin) heq
  rw [← hsame]
  exact hother

end Collects

/-- Coins that are distinct, and whose values are not negative and have a sum that fits. -/
structure ProperCoins {C E : Type} (coinOf : E → C) (valueOf : E → Int64) (coins : List E) : Prop where
  nodup : (coins.map coinOf).Nodup
  nonneg : ∀ coin ∈ coins, 0 ≤ (valueOf coin).toInt
  fits : exact valueOf coins < 2 ^ 63

namespace ProperCoins

variable {C E : Type} {coinOf : E → C} {valueOf : E → Int64} {coins coins' : List E}

theorem perm (h : ProperCoins coinOf valueOf coins) (hperm : coins'.Perm coins) :
    ProperCoins coinOf valueOf coins' where
  nodup := (hperm.map coinOf).nodup_iff.mpr h.nodup
  nonneg coin hcoin := h.nonneg coin (hperm.mem_iff.mp hcoin)
  fits := (exact_perm hperm).trans_lt h.fits

theorem exact_nonneg (h : ProperCoins coinOf valueOf coins) : 0 ≤ exact valueOf coins :=
  WrappedSum.exact_nonneg h.nonneg

theorem sublist (h : ProperCoins coinOf valueOf coins) (hsub : coins'.Sublist coins) :
    ProperCoins coinOf valueOf coins' := by
  refine ⟨h.nodup.sublist (hsub.map coinOf), fun coin hcoin => h.nonneg coin (hsub.subset hcoin), ?_⟩
  exact (exact_le_of_sublist hsub h.nonneg).trans_lt h.fits

theorem subperm (h : ProperCoins coinOf valueOf coins) (hsub : coins'.Subperm coins) :
    ProperCoins coinOf valueOf coins' := by
  obtain ⟨middle, hperm, hsublist⟩ := hsub
  exact (h.sublist hsublist).perm hperm.symm

end ProperCoins

theorem Collects.insert_proper {C E : Type} [DecidableEq C] {coinOf : E → C} {valueOf : E → Int64}
    {chosen coins : List E} {ret : CoinsRet C} (h : Collects coinOf valueOf ret chosen)
    (hproper : ProperCoins coinOf valueOf (chosen ++ coins)) {nValue : Int64}
    (hvalue : nValue.toInt = exact valueOf coins) :
    Collects coinOf valueOf (ret.insert (coins.map coinOf) nValue) (chosen ++ coins) := by
  have hnonneg := hproper.exact_nonneg
  exact h.insert hproper.nodup hvalue (by omega) hproper.fits

/-- A selection of these coins that reaches the target. -/
def SelectsCoins {C : Type} (coins : List (CoinToSpend C)) (nTargetValue : Int64)
    (ret : CoinsRet C) : Prop :=
  ∃ chosen : List (CoinToSpend C), chosen.Subperm coins ∧
    Collects CoinToSpend.coin CoinToSpend.nValue ret chosen ∧
    nTargetValue.toInt ≤ exact CoinToSpend.nValue chosen

/-- Distinct coins that are worth something, and together less than the largest amount by a cent. -/
structure ProperToSpend {C : Type} (coins : List (CoinToSpend C)) : Prop where
  nodup : (coins.map CoinToSpend.coin).Nodup
  nonneg : ∀ out ∈ coins, 0 ≤ out.nValue.toInt
  fits : exact CoinToSpend.nValue coins + CENT.toInt < 2 ^ 63

namespace ProperToSpend

variable {C : Type} {coins coins' : List (CoinToSpend C)}

theorem proper (h : ProperToSpend coins) : ProperCoins CoinToSpend.coin CoinToSpend.nValue coins := by
  have hfits := h.fits
  have hcent : CENT.toInt = 1000000 := by decide
  exact ⟨h.nodup, h.nonneg, by omega⟩

theorem sublist (h : ProperToSpend coins) (hsub : coins'.Sublist coins) : ProperToSpend coins' := by
  have hfits := h.fits
  have hle := exact_le_of_sublist hsub h.nonneg
  exact ⟨h.nodup.sublist (hsub.map _), fun out hout => h.nonneg out (hsub.subset hout), by omega⟩

theorem subperm (h : ProperToSpend coins) (hsub : coins'.Subperm coins) : ProperToSpend coins' := by
  obtain ⟨middle, hperm, hsublist⟩ := hsub
  obtain ⟨hnodup, hnonneg, hfits⟩ := h.sublist hsublist
  refine ⟨(hperm.map _).nodup_iff.mp hnodup, fun out hout => hnonneg out (hperm.mem_iff.mpr hout), ?_⟩
  rw [← exact_perm hperm]
  exact hfits

theorem eligible (h : ProperToSpend coins) (nSpendTime : UInt32) (nConfMine nConfTheirs : Int) :
    ProperToSpend (eligibleCoins nSpendTime nConfMine nConfTheirs coins) :=
  h.sublist filter_sublist

theorem value_le (h : ProperToSpend coins) {out : CoinToSpend C} (hout : out ∈ coins) :
    out.nValue.toInt ≤ exact CoinToSpend.nValue coins := by
  have hle := exact_le_of_sublist (singleton_sublist.mpr hout) h.nonneg
  rw [exact_cons, exact_nil] at hle
  omega

theorem chosen_le (h : ProperToSpend coins) {chosen : List (CoinToSpend C)} (hsub : chosen.Subperm coins) :
    exact CoinToSpend.nValue chosen ≤ exact CoinToSpend.nValue coins := by
  obtain ⟨middle, hperm, hsublist⟩ := hsub
  rw [← exact_perm hperm]
  exact exact_le_of_sublist hsublist h.nonneg

end ProperToSpend

/-- **Without room for a cent** every coin counts as a larger one, and together they are not worth
the target. -/
theorem larger_of_overflow {C : Type} {vCoins : List (CoinToSpend C)} {nTargetValue : Int64}
    {nSpendTime : UInt32} {nConfMine nConfTheirs : Int}
    (hproper : ProperToSpend (eligibleCoins nSpendTime nConfMine nConfTheirs vCoins))
    (hfits : ¬nTargetValue.toInt + CENT.toInt < 2 ^ 63) :
    (lowerCoins nTargetValue nSpendTime nConfMine nConfTheirs vCoins = [] ∧
      largerCoins nTargetValue nSpendTime nConfMine nConfTheirs vCoins =
        eligibleCoins nSpendTime nConfMine nConfTheirs vCoins) ∧
    exact CoinToSpend.nValue (eligibleCoins nSpendTime nConfMine nConfTheirs vCoins) <
      nTargetValue.toInt := by
  have hcent : CENT.toInt = 1000000 := by decide
  have htarget := nTargetValue.toInt_lt
  have hwrapped : (nTargetValue + CENT).toInt < 0 := by
    rw [Int64.toInt_add, Int.bmod_def]
    split <;> omega
  have hhigh : ∀ out ∈ eligibleCoins nSpendTime nConfMine nConfTheirs vCoins,
      ¬out.nValue < nTargetValue + CENT := by
    intro out hout
    have hnonneg := hproper.nonneg out hout
    rw [Int64.lt_iff_toInt_lt]
    omega
  have hless := hproper.fits
  refine ⟨⟨?_, ?_⟩, by omega⟩
  · rw [lowerCoins, filter_eq_nil_iff]
    intro out hout hlow
    exact hhigh out hout (of_decide_eq_true hlow)
  · rw [largerCoins, filter_eq_self]
    intro out hout
    rw [decide_eq_false (hhigh out hout)]
    rfl

namespace SelectsCoins

variable {C : Type} {coins coins' : List (CoinToSpend C)} {nTargetValue : Int64} {ret : CoinsRet C}

theorem single {out : CoinToSpend C} (hout : out ∈ coins) (henough : nTargetValue.toInt ≤ out.nValue.toInt) :
    SelectsCoins coins nTargetValue ⟨[out.coin], out.nValue⟩ := by
  have hvalue : exact CoinToSpend.nValue [out] = out.nValue.toInt := by
    rw [exact_cons, exact_nil, Int.add_zero]
  refine ⟨[out], (singleton_sublist.mpr hout).subperm, ⟨List.Perm.refl _, hvalue.symm⟩, ?_⟩
  rw [hvalue]
  exact henough

theorem subperm (h : SelectsCoins coins' nTargetValue ret) (hsub : coins'.Subperm coins) :
    SelectsCoins coins nTargetValue ret := by
  obtain ⟨chosen, hchosen, hret, henough⟩ := h
  exact ⟨chosen, hchosen.trans hsub, hret, henough⟩

theorem enough (h : SelectsCoins coins nTargetValue ret) (hproper : ProperToSpend coins) :
    nTargetValue.toInt ≤ exact CoinToSpend.nValue coins := by
  obtain ⟨chosen, hchosen, -, henough⟩ := h
  exact henough.trans (hproper.chosen_le hchosen)

end SelectsCoins

end MaryJaneCoin
