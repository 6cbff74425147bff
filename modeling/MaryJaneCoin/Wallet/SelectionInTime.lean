import Mathlib.Data.List.Sigma
import MaryJaneCoin.Wallet.SelectCoins

/-!
# Selected coins and the time of the payment

A transaction must not spend a coin that is younger than itself.  Two of the ways of
`SelectCoins` do not look at the time; whether that matters is decided by the coins
there are. -/

namespace MaryJaneCoin

open CoinToSpend
open List hiding Vector
open Std WrappedSum

section

variable {H : Type} [Ord H] [TransOrd H] [LawfulEqOrd H] [DecidableEq H] {wallet : CWallet H}
  {sha : Sha256 H} {isFromMe : CWalletTx H → Bool} {coinControl : Option (CCoinControl H)}

namespace CWallet

section

omit [TransOrd H] [LawfulEqOrd H]

theorem nodup_spendable (fOnlyConfirmed : Bool) (hash : H) (wtx : CWalletTx H) :
    ((wallet.spendable sha fOnlyConfirmed hash wtx).map COutput.prevout).Nodup := by
  rw [spendable]
  split
  · exact nodup_nil
  · rw [map_map]
    refine List.Nodup.map_on ?_ ((List.Nodup.of_map _ (nodup_zipIdx_map_snd _)).filter _)
    intro x hx y hy heq
    have hget := mem_zipIdx_iff_getElem?.mp (mem_of_mem_filter hx)
    have hget' := mem_zipIdx_iff_getElem?.mp (mem_of_mem_filter hy)
    have hlt := Nat.lt_trans (List.getElem?_eq_some_iff.mp hget).1 wtx.vout_lt
    have hlt' := Nat.lt_trans (List.getElem?_eq_some_iff.mp hget').1 wtx.vout_lt
    have hplace : UInt32.ofNat x.2 = UInt32.ofNat y.2 := congrArg COutPoint.n heq
    have hindex := congrArg UInt32.toNat hplace
    rw [UInt32.toNat_ofNat_of_lt' hlt, UInt32.toNat_ofNat_of_lt' hlt'] at hindex
    rw [← hindex] at hget'
    exact Prod.ext (Option.some.inj (hget.symm.trans hget')) hindex

theorem hash_of_mem_spendable {fOnlyConfirmed : Bool} {hash : H} {wtx : CWalletTx H} {coin : COutput H}
    (h : coin ∈ wallet.spendable sha fOnlyConfirmed hash wtx) : coin.prevout.hash = hash := by
  rw [spendable] at h
  split at h
  · cases h
  · obtain ⟨place, -, rfl⟩ := mem_map.mp h
    rfl

end

/-- **The available coins** are distinct. -/
theorem nodup_coinsToSpend : ((wallet.coinsToSpend sha isFromMe coinControl).map CoinToSpend.coin).Nodup := by
  rw [coinsToSpend, map_flatMap, nodup_flatMap]
  constructor
  · intro entry hentry
    rw [map_map]
    exact (nodup_spendable true entry.1 entry.2).sublist (filter_sublist.map COutput.prevout)
  · refine ExtTreeMap.distinct_keys_toList.imp fun {first second} hkeys => ?_
    intro outpt houtpt houtpt'
    obtain ⟨out, hout, rfl⟩ := mem_map.mp houtpt
    obtain ⟨out', hout', heq⟩ := mem_map.mp houtpt'
    obtain ⟨coin, hcoin, rfl⟩ := mem_map.mp hout
    obtain ⟨coin', hcoin', rfl⟩ := mem_map.mp hout'
    have hhash := hash_of_mem_spendable (mem_of_mem_filter hcoin)
    have hhash' := hash_of_mem_spendable (mem_of_mem_filter hcoin')
    have hsame : coin'.prevout = coin.prevout := heq
    rw [hsame, hhash] at hhash'
    exact hkeys (compare_eq_iff_eq.mpr hhash')

theorem properToSpend_coins
    (hnonneg : ∀ out ∈ wallet.coinsToSpend sha isFromMe coinControl, 0 ≤ out.nValue.toInt)
    (hfits : exact nValue (wallet.coinsToSpend sha isFromMe coinControl) + CENT.toInt <
      2 ^ 63) : ProperToSpend (wallet.coinsToSpend sha isFromMe coinControl) :=
  ⟨nodup_coinsToSpend, hnonneg, hfits⟩

/-- **Coin selection** is sound exactly where the coins and the target make it so: the selected
coins are distinct, add up and are in time, and both filters answer whether the coins that pass
them suffice. -/
theorem selectCoins_sound_iff {settings : SelectionSettings} {nTargetValue : Int64}
    {nSpendTime : UInt32} (htarget : 0 < nTargetValue.toInt)
    (hnonneg : ∀ out ∈ wallet.coinsToSpend sha isFromMe coinControl, 0 ≤ out.nValue.toInt)
    (hfits : exact CoinToSpend.nValue (wallet.coinsToSpend sha isFromMe coinControl) + CENT.toInt < 2 ^ 63) :
    ((∀ draws ret, wallet.selectCoins sha isFromMe coinControl settings draws nTargetValue nSpendTime =
        some (true, ret) →
          SoundSelection (wallet.coinsToSpend sha isFromMe coinControl) nTargetValue nSpendTime ret) ↔
      SelectsOnTime settings (hasSelected coinControl)
        (wallet.coinsToSpend sha isFromMe coinControl) nTargetValue nSpendTime) ∧
    (∀ (vCoins : List (CoinToSpend (COutPoint H))) (nConfMine nConfTheirs : Int),
      ProperToSpend (eligibleCoins nSpendTime nConfMine nConfTheirs vCoins) → ((∀ draws,
          (selectCoinsMinConf nTargetValue nSpendTime nConfMine nConfTheirs draws vCoins).1 = true ↔
            nTargetValue.toInt ≤
              exact CoinToSpend.nValue (eligibleCoins nSpendTime nConfMine nConfTheirs vCoins)) ↔
        (nTargetValue.toInt + CENT.toInt < 2 ^ 63 ∨
          eligibleCoins nSpendTime nConfMine nConfTheirs vCoins = [])) ∧
      ∀ cost : CoinToSpend (COutPoint H) → UInt64,
        (lowerCoins nTargetValue nSpendTime nConfMine nConfTheirs vCoins).length * (exact CoinToSpend.nValue
            (lowerCoins nTargetValue nSpendTime nConfMine nConfTheirs vCoins) - nTargetValue.toInt) < 2 ^ 63 →
        ((∀ order : SortOrder fun a b : CoinToSpend (COutPoint H) × UInt64 => a.2 ≤ b.2,
            (∃ ret, selectCoinsMinConfByCoinAge order.sort cost nTargetValue nSpendTime nConfMine
              nConfTheirs vCoins = some (true, ret)) ↔ nTargetValue.toInt ≤
                exact CoinToSpend.nValue (eligibleCoins nSpendTime nConfMine nConfTheirs vCoins)) ↔
          LargerAffordable nTargetValue nSpendTime nConfMine nConfTheirs cost vCoins)) := by
  have hproper := properToSpend_coins hnonneg hfits
  refine ⟨?_, fun vCoins nConfMine nConfTheirs heligible =>
    ⟨selectCoinsMinConf_iff heligible htarget, fun cost hproduct =>
      selectCoinsMinConfByCoinAge_iff heligible htarget cost hproduct⟩⟩
  unfold selectCoins
  cases hasSelected coinControl with
  | true => exact selectCoinsFrom_selected hproper
  | false =>
    by_cases hmixed : settings.nBestHeight ≥ RING_MIXING_MANDATORY_HEIGHT ∧ nTargetValue.toInt ≤
        exact CoinToSpend.nValue (mixedCoins (wallet.coinsToSpend sha isFromMe coinControl))
    · rw [SelectsOnTime, if_neg Bool.false_ne_true, if_pos hmixed]
      exact selectCoinsFrom_mixed hproper htarget hmixed.1 hmixed.2
    · rw [SelectsOnTime, if_neg Bool.false_ne_true, if_neg hmixed]
      exact selectCoinsFrom_tried hproper htarget hmixed

end CWallet

end

/-- A mature coin of one, from a transaction at time 2000. -/
def lateCoin : CWalletTx Nat where
  toCTransaction :=
    { (CTransaction.new 2000 : CTransaction Nat) with
      vin := [⟨⟨7, 0⟩, [], 0⟩]
      vout := [⟨COIN, payTo 1⟩, ⟨COIN, payTo 1⟩] }
  vfSpent := []
  fFinal := true
  nDepthInMainChain := 20
  nBlocksToMaturity := 0
  vout_lt := by
    show (2 : Nat) < 2 ^ 32
    decide

/-- A wallet with this coin. -/
def lateWallet : CWallet Nat where
  mapWallet := ExtTreeMap.empty.insert 5 lateCoin
  isMine script := script == payTo 1
  signSignature := fun _ _ _ => none
  isLocked := false
  nMinimumInputValue := 0
  reservedKey := some (Vector.replicate 20 1)
  keyFromPool := none
  reservedKey_mine := payTo_one_mine
  keyFromPool_mine := noKey_mine

theorem lateWallet_coins : lateWallet.coinsToSpend ⟨List.length, 0⟩ (fun _ => false) none =
    [⟨⟨5, 0⟩, COIN, 2000, false, 20⟩, ⟨⟨5, 1⟩, COIN, 2000, false, 20⟩] := by decide +kernel

/-- **A payment at time 1000** gets the coin that is younger, once ring mixing is mandatory. -/
theorem selectCoins_late : ¬∀ draws ret,
    lateWallet.selectCoins ⟨List.length, 0⟩ (fun _ => false) none ⟨1500, false, 0⟩ draws COIN 1000 =
      some (true, ret) → SoundSelection (lateWallet.coinsToSpend ⟨List.length, 0⟩
    (fun _ => false) none) COIN 1000 ret := by
  intro h
  unfold CWallet.selectCoins at h
  rw [lateWallet_coins] at h
  have hproper : ProperToSpend [(⟨⟨5, 0⟩, COIN, 2000, false, 20⟩ : CoinToSpend (COutPoint Nat)),
      ⟨⟨5, 1⟩, COIN, 2000, false, 20⟩] :=
    ⟨by decide, by decide, by decide⟩
  have hlate := (selectCoinsFrom_mixed hproper (by decide) (by decide) (by decide)).mp h
  exact absurd (hlate ⟨⟨5, 0⟩, COIN, 2000, false, 20⟩ (by decide) (by decide)) (by decide)

/-- The same wallet, with a payment at the time of the coin. -/
theorem selectCoins_sound_iff_late :
    ProperToSpend (lateWallet.coinsToSpend ⟨List.length, 0⟩ (fun _ => false) none) ∧
    ∀ draws ret, lateWallet.selectCoins ⟨List.length, 0⟩ (fun _ => false) none ⟨1500, false,
        0⟩ draws COIN 2000 = some (true, ret) → SoundSelection (lateWallet.coinsToSpend
      ⟨List.length, 0⟩ (fun _ => false) none) COIN 2000 ret := by
  have hnonneg : ∀ out ∈ lateWallet.coinsToSpend ⟨List.length, 0⟩ (fun _ => false) none,
      0 ≤ out.nValue.toInt := by
    rw [lateWallet_coins]
    decide
  have hfits : exact CoinToSpend.nValue (lateWallet.coinsToSpend ⟨List.length, 0⟩
      (fun _ => false) none) + CENT.toInt < 2 ^ 63 := by
    rw [lateWallet_coins]
    decide
  refine ⟨CWallet.properToSpend_coins hnonneg hfits, ?_⟩
  refine (@CWallet.selectCoins_sound_iff Nat _ _ _ _ lateWallet ⟨List.length, 0⟩
    (fun _ => false) none ⟨1500, false, 0⟩ COIN 2000 (by decide) hnonneg hfits).1.mpr ?_
  rw [lateWallet_coins]
  decide

end MaryJaneCoin
