import MaryJaneCoin.Wallet.CoinControl
import MaryJaneCoin.Wallet.PegIn

/-!
# The balance of a payment

The fee loop of `CreateTransaction` starts over with a higher fee each time, so it ends.  In
the round that made the transaction the outputs of the payments, what ring mixing left over,
the change and the fee are together what the coins are worth.
-/

namespace MaryJaneCoin

open Std WrappedSum List Nat Int64

theorem sumValues_append (vout vout' : List CTxOut) :
    sumValues (vout ++ vout') = sumValues vout + sumValues vout' := by
  rw [sumValues_eq_exact, exact_append]
  rfl

/-- All parts but the last are equal. -/
theorem splitOutputs_succ (m : Nat) (s : Recipient) : splitOutputs (m + 1) s =
    List.replicate m ⟨s.2 / Int64.ofNat (m + 1), s.1⟩ ++
      [⟨s.2 / Int64.ofNat (m + 1) + s.2 % Int64.ofNat (m + 1), s.1⟩] := by
  rw [splitOutputs, range_succ, map_append, map_singleton, if_pos rfl]
  refine congrArg (· ++ _) (eq_replicate_iff.mpr ⟨?_, ?_⟩)
  · rw [length_map, length_range]
  · intro txout htxout
    obtain ⟨i, hi, rfl⟩ := mem_map.mp htxout
    rw [if_neg (by have := mem_range.mp hi; omega)]

/-- **The parts of a split payment** are the payment. -/
theorem splitsValue_splitOutputs {s : Recipient} (hpos : 0 ≤ s.2.toInt) {n : Nat} (hn : 0 < n)
    (hlt : n < 2 ^ 31) : SplitsValue s (splitOutputs n s, 0) := by
  obtain ⟨m, rfl⟩ := exists_eq_succ_of_ne_zero (Nat.ne_of_gt hn)
  have hparts : (Int64.ofNat (m + 1)).toInt = (m + 1 : Nat) :=
    Int64.toInt_ofNat_of_lt (Nat.lt_trans hlt (by decide))
  have hdiv : (s.2 / Int64.ofNat (m + 1)).toInt = s.2.toInt / (m + 1 : Nat) := by
    rw [toInt_div_of_pos hpos (by omega), hparts]
  have hmod : (s.2 % Int64.ofNat (m + 1)).toInt = s.2.toInt % (m + 1 : Nat) := by
    rw [toInt_mod_of_pos hpos, hparts]
  have hpart : 0 ≤ s.2.toInt / (m + 1 : Nat) := Int.ediv_nonneg hpos (by omega)
  have hrest : 0 ≤ s.2.toInt % (m + 1 : Nat) := Int.emod_nonneg _ (by omega)
  have hwhole : m * (s.2.toInt / (m + 1 : Nat)) + (s.2.toInt / (m + 1 : Nat) +
      s.2.toInt % (m + 1 : Nat)) = s.2.toInt := by
    have hdivmod := Int.mul_ediv_add_emod s.2.toInt (m + 1 : Nat)
    have hstep : ((m + 1 : Nat) : Int) * (s.2.toInt / (m + 1 : Nat)) =
        m * (s.2.toInt / (m + 1 : Nat)) + s.2.toInt / (m + 1 : Nat) := by
      rw [cast_succ, Int.add_mul, Int.one_mul]
    omega
  have hlower : 0 ≤ m * (s.2.toInt / (m + 1 : Nat)) := Int.mul_nonneg (by omega) hpart
  have hlast : (s.2 / Int64.ofNat (m + 1) + s.2 % Int64.ofNat (m + 1)).toInt =
      s.2.toInt / (m + 1 : Nat) + s.2.toInt % (m + 1 : Nat) := by
    rw [toInt_add_of_le (c := s.2) (by omega) (by omega), hdiv, hmod]
  rw [succ_eq_add_one, splitOutputs_succ]
  refine SplitsValue.concat (splitsValue_replicate ?_ ?_ ?_)
  · rw [hdiv]
    exact hpart
  · rw [hlast]
    omega
  · rw [hdiv, hlast]
    exact hwhole

/-- Payments that are each split, put together. -/
theorem sumValues_flatMap {split : Recipient → List CTxOut × Int64} {vecSend : List Recipient}
    (hsplits : ∀ s ∈ vecSend, SplitsValue s (split s)) :
    sumValues (vecSend.flatMap fun s => (split s).1) + exact (fun s => (split s).2) vecSend =
      exact Prod.snd vecSend := by
  induction vecSend with
  | nil => rfl
  | cons s vecSend ih =>
    have htotal := (hsplits s mem_cons_self).total
    have hrest := ih fun s hs => hsplits s (mem_cons_of_mem _ hs)
    rw [flatMap_cons, sumValues_append, exact_cons, exact_cons]
    omega

/-- The payments that a function is asked for: amounts that are not negative, and a sum that
fits. -/
structure FittingAmounts (vecSend : List Recipient) : Prop where
  nonneg : ∀ s ∈ vecSend, 0 ≤ s.2.toInt
  total : exact Prod.snd vecSend ≤ maxMoney

/-- **The outputs of the payments** and what ring mixing leaves over are the payments. -/
theorem sumValues_sendOutputs {settings : WalletSettings} {vecSend : List Recipient}
    {nSplitBlock : Nat} {vout : List CTxOut} {nRemainder : Int64} (hfit : FittingAmounts vecSend)
    (hsplit : nSplitBlock < 2 ^ 31) (h : sendOutputs settings nSplitBlock vecSend = some (vout, nRemainder)) :
    sumValues vout + nRemainder.toInt = exact Prod.snd vecSend ∧ 0 ≤ nRemainder.toInt ∧
      nRemainder.toInt ≤ exact Prod.snd vecSend := by
  have hamount : 0 ≤ exact Prod.snd vecSend := exact_nonneg hfit.nonneg
  have hmoney : maxMoney = 100000000000000000 := rfl
  have htotal := hfit.total
  have hzero : (0 : Int64).toInt = 0 := rfl
  unfold sendOutputs at h
  split at h
  · split at h
    · cases h
    · cases h
      have hsplits : ∀ s ∈ vecSend, SplitsValue s (ringMixOutputs s) :=
        fun s hs => splitsValue_ringMixOutputs (hfit.nonneg s hs)
      have hrest : 0 ≤ exact (fun s => (ringMixOutputs s).2) vecSend :=
        exact_nonneg fun s hs => (hsplits s hs).rest
      have hvout : 0 ≤ sumValues (vecSend.flatMap fun s => (ringMixOutputs s).1) := by
        refine exact_nonneg fun txout htxout => ?_
        obtain ⟨s, hs, hmem⟩ := mem_flatMap.mp htxout
        exact (hsplits s hs).nonneg txout hmem
      have hsum := sumValues_flatMap hsplits
      have hwrapped : (wrapped (fun s => (ringMixOutputs s).2) vecSend).toInt =
          exact (fun s => (ringMixOutputs s).2) vecSend :=
        toInt_wrapped_of_fits (by omega) (by omega)
      rw [hwrapped]
      exact ⟨hsum, hrest, by omega⟩
  · split at h
    · cases h
      have hvout : sumValues (vecSend.map fun s => (⟨s.2, s.1⟩ : CTxOut)) = exact Prod.snd vecSend := by
        rw [sumValues_eq_exact, exact_map]
      omega
    · cases h
      have hsplits : ∀ s ∈ vecSend, SplitsValue s (splitOutputs (max nSplitBlock 1) s, 0) :=
        fun s hs => splitsValue_splitOutputs (hfit.nonneg s hs) (by omega) (by omega)
      have hsum : sumValues (vecSend.flatMap (splitOutputs (max nSplitBlock 1))) +
          exact (fun _ => 0) vecSend = exact Prod.snd vecSend := sumValues_flatMap hsplits
      have hnone : exact (fun _ : Recipient => (0 : Int64)) vecSend = 0 := exact_eq_zero fun _ _ => rfl
      omega

namespace CWallet

variable {H : Type} [Ord H] [TransOrd H] [DecidableEq H] {sha : Sha256 H} {wallet : CWallet H}
  {settings : WalletSettings}

omit [Ord H] [TransOrd H] [DecidableEq H] in
theorem foldlM_sendTotal {vecSend : List Recipient} {start nValue : Int64}
    (h : vecSend.foldlM (fun nValue s => if nValue < 0 then none else some (nValue + s.2)) start =
      some nValue) : nValue = start + wrapped Prod.snd vecSend := by
  induction vecSend generalizing start with
  | nil =>
    cases h
    exact (Int64.add_zero _).symm
  | cons s vecSend ih =>
    rw [List.foldlM_cons] at h
    obtain ⟨mid, hmid, hrest⟩ := Option.bind_eq_some_iff.mp h
    split at hmid
    · cases hmid
    · cases hmid
      rw [ih hrest, wrapped_cons, Int64.add_assoc]

/-- The sum of the payments, when it fits. -/
theorem toInt_sendTotal {vecSend : List Recipient} {nValue : Int64} (hfit : FittingAmounts vecSend)
    (h : sendTotal vecSend = some nValue) : nValue.toInt = exact Prod.snd vecSend := by
  obtain ⟨hfold, -⟩ := Option.filter_eq_some_iff.mp h
  have hamount : 0 ≤ exact Prod.snd vecSend := exact_nonneg hfit.nonneg
  have hmoney : maxMoney = 100000000000000000 := rfl
  have htotal := hfit.total
  rw [foldlM_sendTotal hfold, Int64.zero_add, toInt_wrapped_of_fits (by omega) (by omega)]

section

omit [Ord H] [TransOrd H] [DecidableEq H]

theorem toInt_moveToFee {nChange nFeeRet nMoveToFee : Int64} (hfee : 0 ≤ nFeeRet.toInt)
    (hsmall : nFeeRet.toInt < MIN_TX_FEE.toInt) (hchange : 0 < nChange.toInt)
    (hmove : min nChange (MIN_TX_FEE - nFeeRet) = nMoveToFee) :
    0 ≤ nMoveToFee.toInt ∧ (nFeeRet + nMoveToFee).toInt = nFeeRet.toInt + nMoveToFee.toInt ∧
      (nChange - nMoveToFee).toInt = nChange.toInt - nMoveToFee.toInt ∧ nMoveToFee.toInt ≤ nChange.toInt := by
  have hmissing : (MIN_TX_FEE - nFeeRet).toInt = MIN_TX_FEE.toInt - nFeeRet.toInt :=
    toInt_sub_of_le hfee (by omega)
  have hmoved : 0 ≤ nMoveToFee.toInt ∧ nMoveToFee.toInt ≤ nChange.toInt ∧
      nMoveToFee.toInt ≤ MIN_TX_FEE.toInt - nFeeRet.toInt := by
    have hmin : min nChange (MIN_TX_FEE - nFeeRet) =
        if nChange ≤ MIN_TX_FEE - nFeeRet then nChange else MIN_TX_FEE - nFeeRet := rfl
    rw [hmin] at hmove
    split at hmove
    · rename_i hle
      rw [le_iff_toInt_le] at hle
      rw [← hmove]
      omega
    · rename_i hgt
      rw [le_iff_toInt_le] at hgt
      rw [← hmove]
      omega
  refine ⟨hmoved.1, ?_, ?_, hmoved.2.1⟩
  · exact toInt_add_of_le (c := MIN_TX_FEE) (by omega) (by omega)
  · exact toInt_sub_of_le hmoved.1 hmoved.2.1

/-- **The change and the fee** are what the coins and the rest of ring mixing have over the
payments. -/
theorem toInt_changeAndFee {nValueIn nValue nRemainder nFeeRet nChange nFee : Int64}
    (hrest : 0 ≤ nRemainder.toInt) (hle : nRemainder.toInt ≤ nValue.toInt)
    (hfee : 0 ≤ nFeeRet.toInt) (henough : nValue.toInt + nFeeRet.toInt ≤ nValueIn.toInt)
    (h : changeAndFee nValueIn nValue nRemainder nFeeRet = (nChange, nFee)) : nChange.toInt +
    nFee.toInt = nValueIn.toInt - nValue.toInt + nRemainder.toInt ∧ 0 ≤ nChange.toInt := by
  have hleft : (nValueIn - nValue).toInt = nValueIn.toInt - nValue.toInt :=
    toInt_sub_of_le (by omega) (by omega)
  have hover : (nValueIn - nValue - nFeeRet).toInt =
      nValueIn.toInt - nValue.toInt - nFeeRet.toInt := by
    rw [toInt_sub_of_le hfee (by omega), hleft]
  have hchange : (nValueIn - nValue - nFeeRet + nRemainder).toInt =
      nValueIn.toInt - nValue.toInt - nFeeRet.toInt + nRemainder.toInt := by
    rw [toInt_add_of_le (c := nValueIn) (by omega) (by omega), hover]
  unfold changeAndFee at h
  dsimp only at h
  generalize nValueIn - nValue - nFeeRet + nRemainder = nOver at hchange h
  generalize hmove : min nOver (MIN_TX_FEE - nFeeRet) = nMoveToFee at h
  split at h
  · rename_i hsmall
    simp only [Bool.and_eq_true, decide_eq_true_iff, gt_iff_lt, lt_iff_toInt_lt,
      toInt_zero] at hsmall
    obtain ⟨hmoved, hfeeMore, hchangeLess, hmost⟩ := toInt_moveToFee hfee hsmall.1.1 hsmall.1.2 hmove
    cases h
    omega
  · cases h
    omega

/-- What is moved to the fee does not make it smaller. -/
theorem le_changeAndFee {nValueIn nValue nRemainder nFeeRet : Int64} (hfee : 0 ≤ nFeeRet.toInt) :
    nFeeRet.toInt ≤ (changeAndFee nValueIn nValue nRemainder nFeeRet).2.toInt := by
  unfold changeAndFee
  dsimp only
  generalize nValueIn - nValue - nFeeRet + nRemainder = nOver
  generalize hmove : min nOver (MIN_TX_FEE - nFeeRet) = nMoveToFee
  split
  · rename_i hsmall
    simp only [Bool.and_eq_true, decide_eq_true_iff, gt_iff_lt, lt_iff_toInt_lt,
      toInt_zero] at hsmall
    obtain ⟨hmoved, hfeeMore, -⟩ := toInt_moveToFee hfee hsmall.1.1 hsmall.1.2 hmove
    dsimp only
    omega
  · exact Int.le_refl _

/-- **A loop whose fee grows** ends, and more fuel changes nothing. -/
theorem createLoop_ends {round : Int64 → CreateStep H}
    (hgrows : ∀ nFeeRet nFee, 0 ≤ nFeeRet.toInt → round nFeeRet = .again nFee →
      nFeeRet.toInt < nFee.toInt) {nFeeRet : Int64} (hstart : 0 ≤ nFeeRet.toInt) :
    ∃ enough result, ∀ fuel, enough ≤ fuel → createLoop round fuel nFeeRet = some result := by
  generalize hleft : (2 ^ 63 - nFeeRet.toInt).toNat = left
  induction left using Nat.strongRecOn generalizing nFeeRet with
  | ind left ih =>
    cases hround : round nFeeRet with
    | failed nFee =>
      refine ⟨1, (none, nFee), fun fuel hfuel => ?_⟩
      obtain ⟨fuel, rfl⟩ := exists_eq_succ_of_ne_zero (Nat.ne_of_gt hfuel)
      rw [createLoop, hround]
    | created tx nFee =>
      refine ⟨1, (some tx, nFee), fun fuel hfuel => ?_⟩
      obtain ⟨fuel, rfl⟩ := exists_eq_succ_of_ne_zero (Nat.ne_of_gt hfuel)
      rw [createLoop, hround]
    | again nFee =>
      have hmore := hgrows nFeeRet nFee hstart hround
      have hlt := nFee.toInt_lt
      have hless : (2 ^ 63 - nFee.toInt).toNat < left := by omega
      obtain ⟨enough, result, hresult⟩ := ih _ hless (Int.le_trans hstart hmore.le) rfl
      refine ⟨enough + 1, result, fun fuel hfuel => ?_⟩
      obtain ⟨fuel, rfl⟩ := exists_eq_succ_of_ne_zero (Nat.ne_of_gt (Nat.lt_of_lt_of_le
        (succ_pos enough) hfuel))
      rw [createLoop, hround]
      exact hresult fuel (le_of_succ_le_succ hfuel)

end

/-- Fees that fit, for every size that a transaction of the wallet can have. -/
structure FittingFees (settings : WalletSettings) : Prop where
  nonneg : 0 ≤ settings.nTransactionFee.toInt
  total : ∀ nBytes < MAX_BLOCK_SIZE_GEN / 5,
    settings.nTransactionFee.toInt * (1 + nBytes / 1000 : Nat) ≤ maxMoney

/-- What `CreateTransaction` relies on: the value that is reported is that of the coins, and it
is enough. -/
def SelectsEnough (selectCoins : Int64 → Option (CoinSelection sha wallet)) : Prop :=
  ∀ nTargetValue selection, selectCoins nTargetValue = some selection →
    selection.nValueRet.toInt = exact (fun coin => coin.txout.nValue) selection.coins ∧
      nTargetValue.toInt ≤ selection.nValueRet.toInt

/-- What the inputs of a transaction are worth. -/
def spentValue (wallet : CWallet H) (tx : CTransaction H) : Int :=
  (tx.vin.map fun txin => (foundValue (wallet.prevOut txin.prevout)).toInt).sum

section

omit [Ord H] [TransOrd H] [DecidableEq H]

theorem toInt_max (a b : Int64) : (max a b).toInt = max a.toInt b.toInt := by
  have hmax : max a b = if a ≤ b then b else a := rfl
  rw [hmax]
  split
  · rename_i hle
    rw [le_iff_toInt_le] at hle
    exact (Int.max_eq_right hle).symm
  · rename_i hgt
    rw [le_iff_toInt_le] at hgt
    exact (Int.max_eq_left (by omega)).symm

theorem FittingFees.toInt_payFee (hfees : FittingFees settings) {nBytes : Nat}
    (hsize : nBytes < MAX_BLOCK_SIZE_GEN / 5) :
    (settings.nTransactionFee * (1 + Int64.ofNat nBytes / 1000)).toInt =
      settings.nTransactionFee.toInt * (1 + nBytes / 1000 : Nat) := by
  have hmost : MAX_BLOCK_SIZE_GEN / 5 < 2 ^ 31 := by decide
  have hbytes : (Int64.ofNat nBytes).toInt = nBytes := Int64.toInt_ofNat_of_lt (by omega)
  have hthousand : (1000 : Int64).toInt = 1000 := by decide
  have hone : (1 : Int64).toInt = 1 := by decide
  have hdiv : (Int64.ofNat nBytes / 1000).toInt = (nBytes / 1000 : Nat) := by
    rw [toInt_div_of_pos (by omega) (by omega), hbytes, hthousand]
    rfl
  have hmoney : MAX_MONEY.toInt = 100000000000000000 := by decide
  have hrate : (1 + Int64.ofNat nBytes / 1000).toInt = (1 + nBytes / 1000 : Nat) := by
    rw [toInt_add_of_le (c := MAX_MONEY) (by omega) (by omega), hone, hdiv]
    omega
  rw [toInt_mul_of_le (c := MAX_MONEY), hrate]
  · rw [hrate]
    exact Int.mul_nonneg hfees.nonneg (by omega)
  · rw [hrate, hmoney]
    exact hfees.total nBytes hsize

theorem toInt_getMinFee (tx : CTransaction H) (nBlockSize : Nat) (mode : CTransaction.MinFeeMode)
    (nBytes : Nat) : 0 ≤ (tx.getMinFee nBlockSize mode nBytes).toInt ∧
      (tx.getMinFee nBlockSize mode nBytes).toInt ≤ maxMoney := by
  have hmost : ∀ (p : Prop) [Decidable p] (n : Int64), moneyRange n = true →
      moneyRange (if p then MAX_MONEY else n) = true := by
    intro p _ n hrange
    split
    · decide
    · exact hrange
  have hclamp : ∀ n, moneyRange (if !moneyRange n then MAX_MONEY else n) = true := by
    intro n
    split
    · decide
    · rename_i hrange
      simpa using hrange
  rw [← moneyRange_iff]
  exact hmost _ _ (hclamp _)

end

omit [DecidableEq H] in
/-- What the inputs of a signed transaction are worth. -/
theorem spentValue_of_coins {tx : CTransaction H} {coins : List (COutput H)}
    (hvin : tx.vin.map CTxIn.prevout = coins.map COutput.prevout)
    (hfound : ∀ coin ∈ coins, wallet.prevOut coin.prevout = some coin.txout) :
    wallet.spentValue tx = exact (fun coin => coin.txout.nValue) coins := by
  have hmap : tx.vin.map (fun txin => (foundValue (wallet.prevOut txin.prevout)).toInt) =
      (tx.vin.map CTxIn.prevout).map fun prevout => (foundValue (wallet.prevOut prevout)).toInt := by
    rw [map_map]
    rfl
  rw [spentValue, hmap, hvin, map_map]
  refine congrArg List.sum (map_congr_left fun coin hcoin => ?_)
  rw [Function.comp, hfound coin hcoin]
  rfl

/-- **Payments balance and the fee loop ends.**  When there is a transaction, its inputs are worth
its outputs and the fee, the fee is at least what the settings and the rules ask for its size, and
the scripts of all inputs are accepted. -/
theorem createTransaction_balanced [LawfulEqOrd H] {hashes : ScriptHashes} {crypto : SigCrypto H}
    {keystore : CKeyStore H} (hsignature : wallet.signSignature = crypto.signSignature keystore)
    {selectCoins : Int64 → Option (CoinSelection sha wallet)} (hselect : SelectsEnough selectCoins)
    {vecSend : List Recipient} (hfit : FittingAmounts vecSend) (hfees : FittingFees settings)
    (coinControl : Option (CCoinControl H)) (draw : Int64 → Nat) (wtxNew : CTransaction H)
    (nSplitBlock : Int32) : (∃ enough result, ∀ fuel, enough ≤ fuel →
      createTransactionFor wallet hashes sha settings coinControl selectCoins draw wtxNew vecSend
        nSplitBlock fuel = some result) ∧ ∀ fuel tx nFeeRet,
      createTransactionFor wallet hashes sha settings coinControl selectCoins draw wtxNew vecSend
        nSplitBlock fuel = some (some tx, nFeeRet) →
      wallet.spentValue tx - sumValues tx.vout = nFeeRet.toInt ∧
      settings.nTransactionFee.toInt * (1 + tx.serializeSize / 1000 : Nat) ≤ nFeeRet.toInt ∧
      (tx.getMinFee 1 .GMF_SEND tx.serializeSize).toInt ≤ nFeeRet.toInt ∧
      wallet.InputsAccepted crypto tx := by
  have hcoin : 0 ≤ COIN.toInt ∧ COIN.toInt ≤ maxMoney := by decide
  have hfee := hfees.total 0 (by decide)
  constructor
  · have hstart : 0 ≤ (if settings.fSplitBlock then COIN else settings.nTransactionFee).toInt := by
      split
      · exact hcoin.1
      · exact hfees.nonneg
    unfold createTransactionFor createTransactionWith
    split
    · exact ⟨0, _, fun _ _ => rfl⟩
    · split
      · exact ⟨0, _, fun _ _ => rfl⟩
      · refine createLoop_ends (fun nFeeRet nFee hpos hagain => ?_) hstart
        obtain ⟨-, nValueIn, nRemainder, hless⟩ := createRound_again hagain
        rw [lt_iff_toInt_lt] at hless
        exact Int.lt_of_le_of_lt (le_changeAndFee hpos) hless
  · intro fuel tx nFeeRet h
    obtain ⟨-, nValue, nFeeStart, htotal, ⟨hstartPos, hstartFits⟩, ⟨parts⟩⟩ :=
      createTransaction_round (fun nFee => 0 ≤ nFee.toInt ∧ nFee.toInt ≤ maxMoney) (by
        split
        · exact hcoin
        · refine ⟨hfees.nonneg, ?_⟩
          simpa using hfee) (fun other nFee hsize hmax => by
        have hpay := hfees.toInt_payFee hsize
        have hmin := toInt_getMinFee other 1 .GMF_SEND other.serializeSize
        have hfits := hfees.total other.serializeSize hsize
        rw [hmax, toInt_max]
        omega) h
    have hvalue := toInt_sendTotal hfit htotal
    have hamount : 0 ≤ exact Prod.snd vecSend := exact_nonneg hfit.nonneg
    have hlimit := hfit.total
    have hmoney : maxMoney = 100000000000000000 := rfl
    have hsplit : nSplitBlock.toInt.toNat < 2 ^ 31 := by
      have hlt := nSplitBlock.toInt_lt
      omega
    obtain ⟨hsent, hrest, hle⟩ := sumValues_sendOutputs hfit hsplit parts.send
    have htarget : (nValue + nFeeStart).toInt = nValue.toInt + nFeeStart.toInt := by
      rw [toInt_add]
      exact Int.bmod_eq_of_le (by omega) (by omega)
    obtain ⟨hreported, henough⟩ := hselect _ _ parts.select
    rw [htarget] at henough
    obtain ⟨hover, hchange⟩ := toInt_changeAndFee hrest (by omega) hstartPos henough parts.change
    have hplaced := sumValues_placeChange hchange parts.placed
    have hfound : ∀ coin ∈ parts.selection.coins, wallet.prevOut coin.prevout = some coin.txout := by
      intro coin hcoin
      obtain ⟨wtx, hwtx, hout, -, -⟩ := mem_availableCoins (parts.selection.available coin hcoin)
      rw [prevOut, hwtx]
      exact hout
    have hsame := signCoins_some parts.sign
    have hnew : (parts.selection.coins.map fun coin => coin.prevout.newInput).map CTxIn.prevout =
        parts.selection.coins.map COutput.prevout := by
      rw [map_map]
      rfl
    have hfinal := parts.fee
    rw [lt_iff_toInt_lt, toInt_max, hfees.toInt_payFee parts.size] at hfinal
    have hasked := Int.not_lt.mp hfinal
    refine ⟨?_, Int.le_trans (Int.le_max_left _ _) hasked, Int.le_trans
      (Int.le_max_right _ _) hasked, inputsAccepted_of_signCoins hsignature hnew hfound parts.sign⟩
    have hvout : sumValues tx.vout = sumValues parts.changed := congrArg sumValues hsame.vout
    rw [spentValue_of_coins (hsame.vin.trans hnew) hfound, hvout, ← hreported]
    omega

end CWallet

/-- The only coin of the wallet, where it is enough. -/
def oneCoin (nTargetValue : Int64) : Option (CoinSelection pegCrypto.toSha256 pegWallet) :=
  if nTargetValue ≤ 100 * COIN then some allCoins else none

theorem oneCoin_enough : CWallet.SelectsEnough oneCoin := by
  intro nTargetValue selection h
  have hvalue : allCoins.nValueRet = 100 * COIN := by decide +kernel
  rw [oneCoin] at h
  split at h
  · rename_i hle
    cases h
    rw [hvalue]
    exact ⟨by decide +kernel, le_iff_toInt_le.mp hle⟩
  · cases h

/-- A payment under ring mixing that leaves five units over and asks for no fee. -/
def ringMixRun : Option (Option (CTransaction SampleDigest) × Int64) :=
  CWallet.createTransactionFor pegWallet pegSigCrypto.hashes pegCrypto.toSha256
    ⟨0, false, 1500⟩ none oneCoin (fun _ => 0) (CTransaction.new 2) [(payTo 3, 10 * COIN + 5)] 1 3

theorem createTransaction_balanced_ringMix : ∃ tx nFeeRet, ringMixRun = some (some tx, nFeeRet) ∧
    pegWallet.spentValue tx - sumValues tx.vout = nFeeRet.toInt ∧
    pegWallet.InputsAccepted pegSigCrypto tx := by
  have hrun : (ringMixRun.any fun result => result.1.isSome) = true := by decide +kernel
  rw [Option.any_eq_true] at hrun
  obtain ⟨⟨created, nFeeRet⟩, hresult, hmade⟩ := hrun
  obtain ⟨tx, rfl⟩ := Option.isSome_iff_exists.mp hmade
  have hamounts : FittingAmounts [(payTo 3, 10 * COIN + 5)] := by
    refine ⟨fun s hs => ?_, by decide⟩
    rw [mem_singleton.mp hs]
    decide
  have hfees : CWallet.FittingFees ⟨0, false, 1500⟩ := by
    refine ⟨Int.le_refl 0, fun nBytes _ => ?_⟩
    exact (Int.zero_mul _).trans_le (by decide)
  have hsignature : pegWallet.signSignature = pegSigCrypto.signSignature pegKeyStore := rfl
  obtain ⟨hbalance, -, -, haccepted⟩ :=
    (CWallet.createTransaction_balanced hsignature oneCoin_enough hamounts hfees none (fun _ => 0)
      (CTransaction.new 2) 1).2 3 tx nFeeRet hresult
  exact ⟨tx, nFeeRet, hresult, hbalance, haccepted⟩

end MaryJaneCoin
