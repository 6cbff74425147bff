import MaryJaneCoin.Wallet.CoinAgeScan
import MaryJaneCoin.Wallet.CoinControl
import MaryJaneCoin.Wallet.PreferMixed

/-!
# `CWallet::SelectCoins`

Mixed coins are preferred once ring mixing is mandatory, coins of the coin control are all taken,
and otherwise coins are selected at random or by coin age, with fewer and
fewer confirmations. -/

namespace MaryJaneCoin

open Std WrappedSum List CoinToSpend Int64 SortOrder

/-- What the selection reads besides the coins. -/
structure SelectionSettings where
  nBestHeight : Int
  fMinimizeCoinAge : Bool
  nStakeMaxAge : UInt32

/-- What a selection by coin age leaves open: the time that is read for each coin, and in which
order equal costs are left. -/
structure CoinAgeDraws (C : Type) where
  nNow : CoinToSpend C → Int64
  sortCosts : SortOrder fun a b : CoinToSpend C × UInt64 => a.2 ≤ b.2

/-- What a whole selection leaves open, in each of its tries. -/
structure SelectionDraws (C : Type) where
  sortMixed : SortOrder (LargerFirst (C := C))
  minConf : Nat → MinConfDraws C
  coinAge : Nat → CoinAgeDraws C

section

variable {C : Type} [DecidableEq C] (settings : SelectionSettings) (draws : SelectionDraws C)
  (nTargetValue : Int64) (nSpendTime : UInt32) (vCoins : List (CoinToSpend C))

/-- `f`, for one of its calls. -/
def trySelection (nTry : Nat) (nConfMine nConfTheirs : Int) : Option (Bool × CoinsRet C) :=
  if settings.fMinimizeCoinAge then
    selectCoinsMinConfByCoinAge (draws.coinAge nTry).sortCosts.sort
      (fun out => coinWeightCost settings.nStakeMaxAge ((draws.coinAge nTry).nNow out) out)
      nTargetValue nSpendTime nConfMine nConfTheirs vCoins
  else
    some (selectCoinsMinConf nTargetValue nSpendTime nConfMine nConfTheirs (draws.minConf nTry) vCoins)

/-- The calls of `f`, one after the other. -/
def trySelections : Option (Bool × CoinsRet C) := do
  let first ← trySelection settings draws nTargetValue nSpendTime vCoins 0 1 10
  if first.1 then some first
  else
    let second ← trySelection settings draws nTargetValue nSpendTime vCoins 1 1 1
    if second.1 then some second
    else trySelection settings draws nTargetValue nSpendTime vCoins 2 0 1

/-- `SelectCoins`, for the coins that are available. -/
def selectCoinsFrom (fSelected : Bool) : Option (Bool × CoinsRet C) :=
  let preferred : Bool × CoinsRet C :=
    if settings.nBestHeight ≥ RING_MIXING_MANDATORY_HEIGHT && !fSelected then
      selectCoinsPreferMixed draws.sortMixed nTargetValue vCoins
    else (false, ⟨[], 0⟩)
  if preferred.1 then some preferred
  else if fSelected then
    let ret := CoinsRet.insertAll ⟨[], 0⟩ (vCoins.map CoinToSpend.coinValue)
    some (ret.nValueRet ≥ nTargetValue, ret)
  else trySelections settings draws nTargetValue nSpendTime vCoins

end

section

variable {H : Type} [DecidableEq H]

/-- `HasSelected`, where there is coin control. -/
def hasSelected (coinControl : Option (CCoinControl H)) : Bool :=
  coinControl.any fun control => !control.setSelected.isEmpty

/-- Whether coin control leaves a coin available. -/
def isAdmitted (coinControl : Option (CCoinControl H)) (outpt : COutPoint H) : Bool :=
  coinControl.all fun control =>
    (control.setSelected.isEmpty || control.setSelected.contains outpt) &&
      !control.setFrozen.contains outpt

namespace CWallet

variable [Ord H] [TransOrd H] (wallet : CWallet H) (sha : Sha256 H)
  (isFromMe : CWalletTx H → Bool) (coinControl : Option (CCoinControl H))

/-- `AvailableCoins` with coin control, and what the selection reads of the coins.  `IsFromMe`
answers from a debit that the transaction may have kept. -/
def coinsToSpend : List (CoinToSpend (COutPoint H)) :=
  wallet.mapWallet.toList.flatMap fun (hash, wtx) =>
    ((wallet.spendable sha true hash wtx).filter fun out => isAdmitted coinControl out.prevout).map
      fun out => ⟨out.prevout, out.txout.nValue, wtx.nTime, isFromMe wtx, out.nDepth⟩

def selectCoins (settings : SelectionSettings) (draws : SelectionDraws (COutPoint H))
    (nTargetValue : Int64) (nSpendTime : UInt32) : Option (Bool × CoinsRet (COutPoint H)) :=
  selectCoinsFrom settings draws nTargetValue nSpendTime
    (wallet.coinsToSpend sha isFromMe coinControl) (hasSelected coinControl)

end CWallet

end

/-- Distinct coins out of these that are worth the target, the sum of their values, and no coin
that is younger than the spending transaction. -/
structure SoundSelection {C : Type} (coins : List (CoinToSpend C)) (nTargetValue : Int64)
    (nSpendTime : UInt32) (ret : CoinsRet C) : Prop where
  distinct : ret.setCoinsRet.Nodup
  selects : ∃ chosen : List (CoinToSpend C), chosen.Subperm coins ∧
    Collects CoinToSpend.coin CoinToSpend.nValue ret chosen ∧ ∀ out ∈ chosen, out.nTime ≤ nSpendTime
  enough : nTargetValue.toInt ≤ ret.nValueRet.toInt

variable {C : Type} {settings : SelectionSettings} {draws : SelectionDraws C} {nTargetValue : Int64}
  {nSpendTime : UInt32} {vCoins : List (CoinToSpend C)} {ret : CoinsRet C}

/-- **A selection of eligible coins** is in time. -/
theorem SelectsCoins.sound (hproper : ProperToSpend vCoins) {nConfMine nConfTheirs : Int}
    (h : SelectsCoins (eligibleCoins nSpendTime nConfMine nConfTheirs vCoins) nTargetValue ret) :
    SoundSelection vCoins nTargetValue nSpendTime ret := by
  obtain ⟨chosen, hsub, hret, henough⟩ := h
  have hall : chosen.Subperm vCoins := hsub.trans filter_sublist.subperm
  refine ⟨hret.coins.nodup_iff.mpr (hproper.subperm hall).nodup, ⟨chosen, hall, hret, ?_⟩, ?_⟩
  · intro out hout
    have heligible := (mem_filter.mp (hsub.subset hout)).2
    rw [eligible, Bool.and_eq_true, Bool.not_eq_true', Bool.not_eq_true',
      decide_eq_false_iff_not, decide_eq_false_iff_not, gt_iff_lt, UInt32.not_lt] at heligible
    exact heligible.2
  · rw [hret.value]
    exact henough

theorem eligible_of_eligible {nMore nFewer nMoreTheirs nFewerTheirs : Int} (hmine : nFewer ≤ nMore)
    (htheirs : nFewerTheirs ≤ nMoreTheirs) {out : CoinToSpend C}
    (h : out ∈ eligibleCoins nSpendTime nMore nMoreTheirs vCoins) :
    out ∈ eligibleCoins nSpendTime nFewer nFewerTheirs vCoins := by
  obtain ⟨hmem, heligible⟩ := mem_filter.mp h
  refine mem_filter.mpr ⟨hmem, ?_⟩
  rw [eligible, Bool.and_eq_true, Bool.not_eq_true', decide_eq_false_iff_not] at heligible ⊢
  refine ⟨?_, heligible.2⟩
  have hdepth := heligible.1
  split at hdepth <;> rename_i hfrom
  · rw [if_pos hfrom]
    omega
  · rw [if_neg hfrom]
    omega

section

variable [DecidableEq C]

/-- **One try** is sound where the target leaves room for a cent. -/
theorem trySelection_sound (hproper : ProperToSpend vCoins) (htarget : 0 < nTargetValue.toInt)
    (hfits : nTargetValue.toInt + CENT.toInt < 2 ^ 63) {nTry : Nat} {nConfMine nConfTheirs : Int}
    (h : trySelection settings draws nTargetValue nSpendTime vCoins nTry nConfMine nConfTheirs =
      some (true, ret)) : SoundSelection vCoins nTargetValue nSpendTime ret := by
  have heligible := hproper.eligible nSpendTime nConfMine nConfTheirs
  rw [trySelection] at h
  split at h
  · obtain ⟨ret', hret, hselects, -⟩ | ⟨hret, -⟩ | ⟨hret, -⟩ :=
      selectCoinsMinConfByCoinAge_spec (draws.coinAge nTry).sortCosts.perm heligible htarget hfits
    · rw [hret] at h
      cases h
      exact hselects.sound hproper
    · rw [hret] at h
      cases h
    · rw [hret] at h
      cases h
  · obtain ⟨ret', hret, hselects⟩ | ⟨hret, -⟩ :=
      selectCoinsMinConf_spec heligible htarget hfits (draws.minConf nTry)
    · rw [hret] at h
      cases h
      exact hselects.sound hproper
    · rw [hret] at h
      cases h

/-- **One try without room for a cent** returns too little, or nothing where no coin is eligible. -/
theorem trySelection_overflow (settings : SelectionSettings) (draws : SelectionDraws C)
    (hproper : ProperToSpend vCoins) (htarget : 0 < nTargetValue.toInt)
    (hfits : ¬nTargetValue.toInt + CENT.toInt < 2 ^ 63) (nTry : Nat) (nConfMine nConfTheirs : Int) :
    (∃ ret, trySelection settings draws nTargetValue nSpendTime vCoins nTry nConfMine nConfTheirs =
        some (true, ret) ∧ ret.nValueRet.toInt < nTargetValue.toInt ∧
      eligibleCoins nSpendTime nConfMine nConfTheirs vCoins ≠ []) ∨
    trySelection settings draws nTargetValue nSpendTime vCoins nTry nConfMine nConfTheirs =
        some (false, ⟨[], 0⟩) ∧
      ∀ out ∈ eligibleCoins nSpendTime nConfMine nConfTheirs vCoins, settings.fMinimizeCoinAge =
        true ∧ ¬Affordable (fun out => coinWeightCost settings.nStakeMaxAge
          ((draws.coinAge nTry).nNow out) out) out := by
  have heligible := hproper.eligible nSpendTime nConfMine nConfTheirs
  rw [trySelection]
  split
  · rename_i hage
    obtain ⟨ret, hret, hless, out, hout, -⟩ | ⟨hret, hno⟩ :=
      @selectCoinsMinConfByCoinAge_overflow C nTargetValue nSpendTime nConfMine nConfTheirs
        (fun out => coinWeightCost settings.nStakeMaxAge ((draws.coinAge nTry).nNow out) out) _ vCoins _
        (draws.coinAge nTry).sortCosts.perm heligible htarget hfits
    · exact .inl ⟨ret, hret, hless, ne_nil_of_mem hout⟩
    · exact .inr ⟨hret, fun out hout => ⟨hage, hno out hout⟩⟩
  · obtain ⟨ret, hret, hless, hsome⟩ | ⟨hret, hnone⟩ :=
      selectCoinsMinConf_overflow heligible htarget hfits (draws.minConf nTry)
    · exact .inl ⟨ret, by rw [hret], hless, hsome⟩
    · refine .inr ⟨by rw [hret], fun out hout => ?_⟩
      rw [hnone] at hout
      cases hout

/-- **The tries** are sound where the target leaves room for a cent. -/
theorem trySelections_sound (hproper : ProperToSpend vCoins) (htarget : 0 < nTargetValue.toInt)
    (hfits : nTargetValue.toInt + CENT.toInt < 2 ^ 63)
    (h : trySelections settings draws nTargetValue nSpendTime vCoins = some (true, ret)) :
    SoundSelection vCoins nTargetValue nSpendTime ret := by
  rw [trySelections] at h
  obtain ⟨first, hfirst, h⟩ := Option.bind_eq_some_iff.mp h
  split at h
  · cases h
    exact trySelection_sound hproper htarget hfits hfirst
  · obtain ⟨second, hsecond, h⟩ := Option.bind_eq_some_iff.mp h
    split at h
    · cases h
      exact trySelection_sound hproper htarget hfits hsecond
    · exact trySelection_sound hproper htarget hfits h

theorem trySelections_none (hproper : ProperToSpend vCoins) (htarget : 0 < nTargetValue.toInt)
    (hfits : ¬nTargetValue.toInt + CENT.toInt < 2 ^ 63) (hnone : eligibleCoins nSpendTime 0 1 vCoins = []) :
    trySelections settings draws nTargetValue nSpendTime vCoins = some (false, ⟨[], 0⟩) := by
  have hempty : ∀ {nConfMine nConfTheirs : Int}, 0 ≤ nConfMine → 1 ≤ nConfTheirs →
      eligibleCoins nSpendTime nConfMine nConfTheirs vCoins = [] := by
    intro nConfMine nConfTheirs hmine htheirs
    rw [eq_nil_iff_forall_not_mem] at hnone ⊢
    intro out hout
    exact hnone out (eligible_of_eligible hmine htheirs hout)
  have htry : ∀ (nTry : Nat) {nConfMine nConfTheirs : Int}, 0 ≤ nConfMine → 1 ≤ nConfTheirs →
      trySelection settings draws nTargetValue nSpendTime vCoins nTry nConfMine nConfTheirs =
        some (false, ⟨[], 0⟩) := by
    intro nTry nConfMine nConfTheirs hmine htheirs
    obtain ⟨ret, -, -, hsome⟩ | ⟨hret, -⟩ := trySelection_overflow settings draws
      hproper htarget hfits nTry nConfMine nConfTheirs
    · exact absurd (hempty hmine htheirs) hsome
    · exact hret
  rw [trySelections, htry 0 (by decide) (by decide)]
  simp only [Option.bind_eq_bind, Option.bind_some, Bool.false_eq_true, if_false]
  rw [htry 1 (by decide) (by decide)]
  simp only [Option.bind_some, Bool.false_eq_true, if_false]
  exact htry 2 (by decide) (by decide)

omit [DecidableEq C] in
/-- Nothing is shuffled, `rand` is always even, and no time has passed for a coin. -/
def plainDraws (sortMixed : SortOrder (LargerFirst (C := C))) : SelectionDraws C where
  sortMixed := sortMixed
  minConf _ :=
    { shuffle := id
      shuffle_perm := List.Perm.refl
      sortValues := insertion (fun a b => Int64.le_total b.1 a.1)
        fun _ _ _ h h' => Int64.le_trans h' h
      flips := fun _ _ => false
      flipsCent := fun _ _ => false }
  coinAge _ :=
    { nNow := fun out => out.nTime.toUInt64.toInt64
      sortCosts := insertion (fun a b => UInt64.le_total a.2 b.2)
        fun _ _ _ h h' => UInt64.le_trans h h' }

omit [DecidableEq C] in
theorem coinWeightCost_now (nStakeMaxAge : UInt32) (out : CoinToSpend C) :
    coinWeightCost nStakeMaxAge out.nTime.toUInt64.toInt64 out = 0 := by
  have hmost : (0 : Int64) ≤ nStakeMaxAge.toUInt64.toInt64 := by
    have hlt := nStakeMaxAge.toNat_lt
    have hnat : nStakeMaxAge.toUInt64.toBitVec.toNat = nStakeMaxAge.toNat := UInt32.toNat_toUInt64 _
    have hint : nStakeMaxAge.toUInt64.toInt64.toInt = nStakeMaxAge.toNat := by
      have hbits : nStakeMaxAge.toUInt64.toInt64.toBitVec = nStakeMaxAge.toUInt64.toBitVec := rfl
      rw [← hnat, Int64.toInt, hbits]
      exact BitVec.toInt_eq_toNat_of_lt (by omega)
    rw [le_iff_toInt_le, hint]
    exact Int.natCast_nonneg _
  have hweight : min (out.nTime.toUInt64.toInt64 - out.nTime.toUInt64.toInt64)
      nStakeMaxAge.toUInt64.toInt64 = 0 := by
    rw [Int64.sub_self]
    exact if_pos hmost
  rw [coinWeightCost, hweight, toInt_zero, Int.mul_zero, Int.zero_tdiv]
  rfl

/-- **Without room for a cent**, and with an eligible coin, too little is selected. -/
theorem trySelections_short (settings : SelectionSettings) (hproper : ProperToSpend vCoins)
    (htarget : 0 < nTargetValue.toInt)
    (hfits : ¬nTargetValue.toInt + CENT.toInt < 2 ^ 63)
    (hsome : eligibleCoins nSpendTime 0 1 vCoins ≠ [])
    (sortMixed : SortOrder (LargerFirst (C := C))) :
    ∃ ret, trySelections settings (plainDraws sortMixed) nTargetValue nSpendTime vCoins =
        some (true, ret) ∧ ret.nValueRet.toInt < nTargetValue.toInt := by
  have hafford : ∀ nTry out, Affordable (fun out => coinWeightCost settings.nStakeMaxAge
      (((plainDraws sortMixed).coinAge nTry).nNow out) out) out := by
    intro nTry out
    have hzero := coinWeightCost_now settings.nStakeMaxAge out
    rw [Affordable]
    dsimp only [plainDraws]
    rw [hzero]
    decide
  have htry := fun nTry => @trySelection_overflow C nTargetValue nSpendTime vCoins _ settings
    (plainDraws sortMixed) hproper htarget hfits nTry
  rw [trySelections]
  obtain ⟨ret, hfirst, hless, -⟩ | ⟨hfirst, -⟩ := htry 0 1 10
  · rw [hfirst]
    exact ⟨ret, rfl, hless⟩
  · rw [hfirst]
    simp only [Option.bind_eq_bind, Option.bind_some, Bool.false_eq_true, if_false]
    obtain ⟨ret, hsecond, hless, -⟩ | ⟨hsecond, -⟩ := htry 1 1 1
    · rw [hsecond]
      exact ⟨ret, rfl, hless⟩
    · rw [hsecond]
      simp only [Option.bind_some, Bool.false_eq_true, if_false]
      obtain ⟨ret, hthird, hless, -⟩ | ⟨-, hno⟩ := htry 2 0 1
      · exact ⟨ret, hthird, hless⟩
      · obtain ⟨out, hout⟩ := exists_mem_of_ne_nil _ hsome
        exact absurd (hafford 2 out) (hno out hout).2

omit [DecidableEq C] in
/-- When every selection is sound: no selected coin is late, the late mixed coins are not needed,
or the target leaves room for a cent. -/
def SelectsOnTime (settings : SelectionSettings) (fSelected : Bool) (vCoins : List (CoinToSpend C))
    (nTargetValue : Int64) (nSpendTime : UInt32) : Prop :=
  if fSelected then
    exact CoinToSpend.nValue vCoins < nTargetValue.toInt ∨ ∀ out ∈ vCoins, out.nTime ≤ nSpendTime
  else if settings.nBestHeight ≥ RING_MIXING_MANDATORY_HEIGHT ∧
      nTargetValue.toInt ≤ exact CoinToSpend.nValue (mixedCoins vCoins) then
    LateBehind vCoins nTargetValue nSpendTime
  else nTargetValue.toInt + CENT.toInt < 2 ^ 63 ∨ eligibleCoins nSpendTime 0 1 vCoins = []

instance (fSelected : Bool) : Decidable (SelectsOnTime settings fSelected vCoins nTargetValue nSpendTime) :=
  inferInstanceAs (Decidable (if fSelected then
      exact CoinToSpend.nValue vCoins < nTargetValue.toInt ∨ ∀ out ∈ vCoins, out.nTime ≤ nSpendTime
    else if settings.nBestHeight ≥ RING_MIXING_MANDATORY_HEIGHT ∧
        nTargetValue.toInt ≤ exact CoinToSpend.nValue (mixedCoins vCoins) then
      LateBehind vCoins nTargetValue nSpendTime
    else nTargetValue.toInt + CENT.toInt < 2 ^ 63 ∨ eligibleCoins nSpendTime 0 1 vCoins = []))

theorem collects_available (hproper : ProperToSpend vCoins) : Collects coin nValue
      (CoinsRet.insertAll ⟨[], 0⟩ (vCoins.map coinValue)) vCoins := by
  obtain ⟨hcoins, hvalue⟩ := collects_insertAll Collects.nil (properCoins_coinValue hproper)
  rw [nil_append] at hcoins hvalue
  rw [map_map] at hcoins
  rw [exact_map] at hvalue
  exact ⟨hcoins, hvalue⟩

/-- **Coins of the coin control** are all taken, whatever their times are. -/
theorem selectCoinsFrom_selected (hproper : ProperToSpend vCoins) :
    (∀ draws ret, selectCoinsFrom settings draws nTargetValue nSpendTime vCoins true =
        some (true, ret) → SoundSelection vCoins nTargetValue nSpendTime ret) ↔
      SelectsOnTime settings true vCoins nTargetValue nSpendTime := by
  have hcollects := collects_available hproper
  have hresult : ∀ draws, selectCoinsFrom settings draws nTargetValue nSpendTime vCoins true =
      some (decide ((CoinsRet.insertAll ⟨[], 0⟩ (vCoins.map coinValue)).nValueRet ≥
        nTargetValue), CoinsRet.insertAll ⟨[], 0⟩ (vCoins.map coinValue)) := by
    intro draws
    simp only [selectCoinsFrom, Bool.not_true, Bool.and_false, Bool.false_eq_true, if_false, if_true]
  generalize CoinsRet.insertAll ⟨[], 0⟩ (vCoins.map coinValue) = all at hcollects hresult
  rw [SelectsOnTime, if_pos rfl]
  constructor
  · intro h
    refine or_iff_not_imp_left.mpr fun hmore out hout => ?_
    have hreached : all.nValueRet ≥ nTargetValue := by
      rw [ge_iff_le, le_iff_toInt_le, hcollects.value]
      omega
    obtain ⟨-, ⟨chosen, hsub, hchosen, htimes⟩, -⟩ := h
      (plainDraws (insertion largerFirst_total largerFirst_trans)) all
      (by rw [hresult, decide_eq_true hreached])
    exact htimes out (hcollects.mem_of_mem hproper.nodup (List.Perm.refl _).subperm hsub hchosen hout)
  · intro h draws ret hret
    rw [hresult] at hret
    obtain ⟨hreached, rfl⟩ := Prod.mk.inj (Option.some.inj hret)
    rw [decide_eq_true_eq, ge_iff_le, le_iff_toInt_le] at hreached
    refine ⟨hcollects.coins.nodup_iff.mpr hproper.nodup, ⟨vCoins, (List.Perm.refl _).subperm,
      hcollects, ?_⟩, hreached⟩
    cases h with
    | inl hless =>
      rw [hcollects.value] at hreached
      omega
    | inr htimes => exact htimes

/-- **Mixed coins** are taken, whatever their times are. -/
theorem selectCoinsFrom_mixed (hproper : ProperToSpend vCoins) (htarget : 0 < nTargetValue.toInt)
    (hheight : settings.nBestHeight ≥ RING_MIXING_MANDATORY_HEIGHT)
    (hmixed : nTargetValue.toInt ≤ exact nValue (mixedCoins vCoins)) :
    (∀ draws ret, selectCoinsFrom settings draws nTargetValue nSpendTime vCoins false =
        some (true, ret) → SoundSelection vCoins nTargetValue nSpendTime ret) ↔
      LateBehind vCoins nTargetValue nSpendTime := by
  have hresult : ∀ draws : SelectionDraws C, ∃ before out behind ret,
      draws.sortMixed.sort (mixedCoins vCoins) = before ++ out :: behind ∧
      selectCoinsFrom settings draws nTargetValue nSpendTime vCoins false = some (true, ret) ∧
      (before ++ [out]).Subperm vCoins ∧
      Collects coin nValue ret (before ++ [out]) ∧
      exact nValue before < nTargetValue.toInt ∧
      nTargetValue.toInt ≤ exact nValue (before ++ [out]) := by
    intro draws
    obtain ⟨-, hless⟩ | ⟨before, out, behind, ret, hsort, hsome, hcollects, hfew, hmany⟩ :=
      selectCoinsPreferMixed_spec hproper htarget draws.sortMixed
    · omega
    · have hperm := draws.sortMixed.perm (mixedCoins vCoins)
      rw [hsort, append_cons] at hperm
      refine ⟨before, out, behind, ret, hsort, ?_, ?_, hcollects, hfew, hmany⟩
      · simp only [selectCoinsFrom, decide_eq_true hheight, Bool.not_false, Bool.and_self, if_true, hsome]
      · exact ((sublist_append_left _ _).subperm.trans hperm.subperm).trans
          (mixedCoins_sublist vCoins).subperm
  constructor
  · intro h late hlate hyoung
    by_contra hless
    obtain ⟨before, out, behind, ret, hsort, hsome, hsub, hcollects, -, hmany⟩ :=
      hresult (plainDraws (inFront largerFirst_total largerFirst_trans late))
    obtain ⟨-, ⟨chosen, hchosen, hret, htimes⟩, -⟩ := h _ _ hsome
    have hpicked := late_picked hproper hlate (Int.not_le.mp hless) hsort hmany
    have htime := htimes late (hcollects.mem_of_mem hproper.nodup hsub hchosen hret hpicked)
    exact absurd hyoung (UInt32.not_lt.mpr htime)
  · intro hlate draws ret hret
    obtain ⟨before, out, behind, ret', hsort, hsome, hsub, hcollects, hfew, hmany⟩ := hresult draws
    rw [hsome] at hret
    cases hret
    refine ⟨hcollects.coins.nodup_iff.mpr (hproper.subperm hsub).nodup,
      ⟨_, hsub, hcollects, picked_in_time hproper hsort hfew hlate⟩, ?_⟩
    rw [hcollects.value]
    exact hmany

/-- **Otherwise** the tries decide. -/
theorem selectCoinsFrom_tried (hproper : ProperToSpend vCoins) (htarget : 0 < nTargetValue.toInt)
    (hmixed : ¬(settings.nBestHeight ≥ RING_MIXING_MANDATORY_HEIGHT ∧
      nTargetValue.toInt ≤ exact nValue (mixedCoins vCoins))) :
    (∀ draws ret, selectCoinsFrom settings draws nTargetValue nSpendTime vCoins false =
        some (true, ret) → SoundSelection vCoins nTargetValue nSpendTime ret) ↔
      (nTargetValue.toInt + CENT.toInt < 2 ^ 63 ∨ eligibleCoins nSpendTime 0 1 vCoins = []) := by
  have hresult : ∀ draws : SelectionDraws C,
      selectCoinsFrom settings draws nTargetValue nSpendTime vCoins false =
        trySelections settings draws nTargetValue nSpendTime vCoins := by
    intro draws
    rw [selectCoinsFrom]
    by_cases hheight : settings.nBestHeight ≥ RING_MIXING_MANDATORY_HEIGHT
    · obtain ⟨hnone, -⟩ | ⟨before, out, behind, ret, hsort, -, -, -, hmany⟩ :=
        selectCoinsPreferMixed_spec hproper htarget draws.sortMixed
      · simp only [decide_eq_true hheight, Bool.not_false, Bool.and_self, if_true, hnone,
          Bool.false_eq_true, if_false]
      · have hperm := draws.sortMixed.perm (mixedCoins vCoins)
        rw [hsort, append_cons] at hperm
        have hmost := (hproper.sublist (mixedCoins_sublist vCoins)).chosen_le
          ((sublist_append_left _ _).subperm.trans hperm.subperm)
        exact absurd ⟨hheight, hmany.trans hmost⟩ hmixed
    · simp only [decide_eq_false hheight, Bool.false_and, Bool.false_eq_true, if_false]
  constructor
  · intro h
    by_contra hnot
    rw [not_or] at hnot
    obtain ⟨ret, hsome, hless⟩ := trySelections_short settings hproper htarget hnot.1
      hnot.2 (insertion largerFirst_total largerFirst_trans)
    have hsound := h _ ret ((hresult _).trans hsome)
    exact absurd hsound.enough (Int.not_le.mpr hless)
  · intro h draws ret hret
    rw [hresult] at hret
    by_cases hfits : nTargetValue.toInt + CENT.toInt < 2 ^ 63
    · exact trySelections_sound hproper htarget hfits hret
    · rw [trySelections_none hproper htarget hfits (h.resolve_left hfits)] at hret
      cases hret

end

section

variable [DecidableEq C] {nConfMine nConfTheirs : Int}

/-- **`SelectCoinsMinConf` answers exactly** where the target leaves room for a cent, or where no
coin is eligible. -/
theorem selectCoinsMinConf_iff
    (heligible : ProperToSpend (eligibleCoins nSpendTime nConfMine nConfTheirs vCoins))
    (htarget : 0 < nTargetValue.toInt) : (∀ draws,
    (selectCoinsMinConf nTargetValue nSpendTime nConfMine nConfTheirs draws vCoins).1 = true ↔
        nTargetValue.toInt ≤
          exact nValue (eligibleCoins nSpendTime nConfMine nConfTheirs vCoins)) ↔
      (nTargetValue.toInt + CENT.toInt < 2 ^ 63 ∨
        eligibleCoins nSpendTime nConfMine nConfTheirs vCoins = []) := by
  by_cases hfits : nTargetValue.toInt + CENT.toInt < 2 ^ 63
  · refine iff_of_true (fun draws => ?_) (.inl hfits)
    obtain ⟨ret, hret, hselects⟩ | ⟨hret, hless⟩ := selectCoinsMinConf_spec heligible htarget hfits draws
    · rw [hret]
      exact iff_of_true rfl (hselects.enough heligible)
    · rw [hret]
      exact iff_of_false Bool.false_ne_true (Int.not_le.mpr hless)
  · have htotal := (larger_of_overflow heligible hfits).2
    rw [or_iff_right hfits]
    constructor
    · intro h
      by_contra hsome
      have draws : MinConfDraws C :=
        (plainDraws (insertion largerFirst_total largerFirst_trans)).minConf 0
      obtain ⟨ret, hret, -, -⟩ | ⟨-, hnone⟩ := selectCoinsMinConf_overflow heligible htarget hfits draws
      · have henough := (h draws).mp (by rw [hret])
        omega
      · exact hsome hnone
    · intro hnone draws
      obtain ⟨ret, -, -, hsome⟩ | ⟨hret, -⟩ := selectCoinsMinConf_overflow heligible htarget hfits draws
      · exact absurd hnone hsome
      · rw [hret]
        exact iff_of_false Bool.false_ne_true (Int.not_le.mpr htotal)

omit [DecidableEq C] in
/-- When the costs of the larger coins do not matter. -/
def LargerAffordable (nTargetValue : Int64) (nSpendTime : UInt32) (nConfMine nConfTheirs : Int)
    (cost : CoinToSpend C → UInt64) (vCoins : List (CoinToSpend C)) : Prop :=
  if nTargetValue.toInt + CENT.toInt < 2 ^ 63 then
    nTargetValue.toInt ≤
        exact CoinToSpend.nValue (lowerCoins nTargetValue nSpendTime nConfMine nConfTheirs vCoins) ∨
      largerCoins nTargetValue nSpendTime nConfMine nConfTheirs vCoins = [] ∨
      ∃ out ∈ largerCoins nTargetValue nSpendTime nConfMine nConfTheirs vCoins, Affordable cost out
  else ∀ out ∈ eligibleCoins nSpendTime nConfMine nConfTheirs vCoins, ¬Affordable cost out

/-- **`SelectCoinsMinConfByCoinAge` answers exactly** where, besides, a larger coin that is needed
has a cost that counts. -/
theorem selectCoinsMinConfByCoinAge_iff
    (heligible : ProperToSpend (eligibleCoins nSpendTime nConfMine nConfTheirs vCoins))
    (htarget : 0 < nTargetValue.toInt) (cost : CoinToSpend C → UInt64)
    (hproduct : (lowerCoins nTargetValue nSpendTime nConfMine nConfTheirs vCoins).length *
      (exact nValue (lowerCoins nTargetValue nSpendTime nConfMine nConfTheirs vCoins) -
        nTargetValue.toInt) < 2 ^ 63) : (∀ order : SortOrder fun a b : CoinToSpend C × UInt64 => a.2 ≤ b.2,
      (∃ ret, selectCoinsMinConfByCoinAge order.sort cost nTargetValue nSpendTime nConfMine nConfTheirs
        vCoins = some (true, ret)) ↔ nTargetValue.toInt ≤
          exact nValue (eligibleCoins nSpendTime nConfMine nConfTheirs vCoins)) ↔
      LargerAffordable nTargetValue nSpendTime nConfMine nConfTheirs cost vCoins := by
  have anyOrder : SortOrder fun a b : CoinToSpend C × UInt64 => a.2 ≤ b.2 :=
    ((plainDraws (insertion largerFirst_total largerFirst_trans)).coinAge 0).sortCosts
  rw [LargerAffordable]
  split
  · rename_i hfits
    have hspec := fun order : SortOrder fun a b : CoinToSpend C × UInt64 => a.2 ≤ b.2 =>
      @selectCoinsMinConfByCoinAge_spec C nTargetValue nSpendTime nConfMine nConfTheirs cost
        order.sort vCoins _ order.perm heligible htarget hfits
    have hall : (lowerCoins nTargetValue nSpendTime nConfMine nConfTheirs vCoins ++
        largerCoins nTargetValue nSpendTime nConfMine nConfTheirs vCoins).Perm
        (eligibleCoins nSpendTime nConfMine nConfTheirs vCoins) := lower_append_larger vCoins
    have hcent := toInt_add_cent htarget hfits
    have hpositive : 0 ≤ CENT.toInt := by decide
    constructor
    · intro h
      by_contra hnot
      rw [not_or, not_or] at hnot
      obtain ⟨hless, hsome, hcosts⟩ := hnot
      obtain ⟨out, hout⟩ := exists_mem_of_ne_nil _ hsome
      obtain ⟨hmem, hhigh⟩ := mem_largerCoins.mp hout
      rw [lt_iff_toInt_lt, hcent] at hhigh
      have hvalue := heligible.value_le hmem
      obtain ⟨ret, hret⟩ := (h anyOrder).mpr (by omega)
      obtain ⟨ret', -, -, hcounts⟩ | ⟨hfalse, -⟩ | ⟨hnone, -⟩ := hspec anyOrder
      · exact hcounts.elim hless hcosts
      · rw [hret] at hfalse
        cases hfalse
      · rw [hret] at hnone
        cases hnone
    · intro hcounts order
      obtain ⟨ret, hret, hselects, -⟩ | ⟨hfalse, hless, hno⟩ | ⟨-, -, hwrap⟩ := hspec order
      · exact iff_of_true ⟨ret, hret⟩ (hselects.enough heligible)
      · refine iff_of_false (fun hsome => ?_) fun henough => ?_
        · obtain ⟨ret, hret⟩ := hsome
          rw [hret] at hfalse
          cases hfalse
        · obtain hlower | hnone | ⟨out, hout, hafford⟩ := hcounts
          · omega
          · rw [hnone, append_nil] at hall
            rw [← exact_perm hall] at henough
            omega
          · exact hno out hout hafford
      · exact absurd hproduct hwrap
  · rename_i hfits
    have hspec := fun order : SortOrder fun a b : CoinToSpend C × UInt64 => a.2 ≤ b.2 =>
      @selectCoinsMinConfByCoinAge_overflow C nTargetValue nSpendTime nConfMine nConfTheirs cost
        order.sort vCoins _ order.perm heligible htarget hfits
    have htotal := (larger_of_overflow heligible hfits).2
    constructor
    · intro h
      obtain ⟨ret, hret, -⟩ | ⟨-, hno⟩ := hspec anyOrder
      · have henough := (h anyOrder).mp ⟨ret, hret⟩
        omega
      · exact hno
    · intro hno order
      refine iff_of_false (fun hsome => ?_) (Int.not_le.mpr htotal)
      obtain ⟨ret, hret⟩ := hsome
      obtain ⟨ret', -, -, out, hout, hafford⟩ | ⟨hfalse, -⟩ := hspec order
      · exact hno out hout hafford
      · rw [hret] at hfalse
        cases hfalse

end

end MaryJaneCoin
