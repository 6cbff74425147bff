import MaryJaneCoin.Wallet.PaymentBalance

/-!
# What the payees of a payment receive

Each script is paid what was asked for it, in however many outputs, except for what
ring mixing leaves over of an amount: that goes to the change.
-/

namespace MaryJaneCoin

open Std WrappedSum List Int Int64

/-- What the outputs to a script are worth. -/
def paidTo (script : CScript) (vout : List CTxOut) : Int :=
  sumValues (vout.filter fun txout => txout.scriptPubKey == script)

/-- What was asked for a script. -/
def requestedFor (script : CScript) (vecSend : List Recipient) : Int :=
  exact Prod.snd (vecSend.filter fun s => s.1 == script)

/-- What ring mixing leaves over of an amount: the dust that is no output behind the
greatest denomination that fits three times, or the rest of three equal parts. -/
def ringMixRest (s : Recipient) : Int :=
  if s.isMarker then 0
  else
    match COINJOIN_DENOMINATIONS.find? fun nBestDenom => nBestDenom.toInt * 3 ≤ s.2.toInt with
    | some nBestDenom =>
      let nRemainder := s.2.toInt - nBestDenom.toInt * min (s.2.toInt / nBestDenom.toInt) 20
      if nRemainder < CENT.toInt then nRemainder else 0
    | none => s.2.toInt % 3

/-- What is left over of the amounts for a script. -/
def leftOver (settings : WalletSettings) (script : CScript) (vecSend : List Recipient) : Int :=
  if settings.nBestHeight ≥ RING_MIXING_MANDATORY_HEIGHT && !settings.fSplitBlock then
    ((vecSend.filter fun s => s.1 == script).map ringMixRest).sum
  else 0

/-- The same denomination is found with and without wrapping around. -/
theorem find_denomination_toInt (s : Recipient) : (COINJOIN_DENOMINATIONS.find? fun nBestDenom =>
      s.2 ≥ nBestDenom * Int64.ofNat RING_MIXING_MIN_EQUAL_OUTPUTS) =
    COINJOIN_DENOMINATIONS.find? fun nBestDenom => nBestDenom.toInt * 3 ≤ s.2.toInt := by
  have hproducts : ∀ d ∈ COINJOIN_DENOMINATIONS,
      (d * Int64.ofNat RING_MIXING_MIN_EQUAL_OUTPUTS).toInt = d.toInt * 3 := by
    intro d hd
    simp only [COINJOIN_DENOMINATIONS, List.mem_cons, not_mem_nil, or_false] at hd
    rcases hd with rfl | rfl | rfl | rfl <;> decide
  refine find?_congr fun d hd => decide_eq_decide.mpr ?_
  rw [ge_iff_le, le_iff_toInt_le, hproducts d hd]

variable {s : Recipient}

/-- **What is left over for the change.** -/
theorem toInt_ringMixOutputs_rest (hpos : 0 ≤ s.2.toInt) :
    (ringMixOutputs s).2.toInt = ringMixRest s := by
  unfold ringMixOutputs ringMixRest
  split
  · rfl
  · rw [← find_denomination_toInt]
    cases hfind : COINJOIN_DENOMINATIONS.find? fun nBestDenom =>
        s.2 ≥ nBestDenom * Int64.ofNat RING_MIXING_MIN_EQUAL_OUTPUTS with
    | some nDenom =>
      obtain ⟨hdenom, hle, hlt⟩ := find_denomination hfind
      have hcount := toInt_ringMixCount_eq hdenom hle hlt
      obtain ⟨hmany, hproduct⟩ := toInt_ringMixCount hdenom hle hlt
      have hnonneg := Int.mul_nonneg hdenom.le (Int.le_trans (by decide) hmany)
      have hvalue := toInt_mul_ringMixCount hdenom hle hlt
      have hremainder : (s.2 - nDenom * (ringMixCount s.2 nDenom).toInt64).toInt =
          s.2.toInt - nDenom.toInt * min (s.2.toInt / nDenom.toInt) 20 := by
        rw [toInt_sub_of_le (by omega) (by omega), hvalue, hcount]
      rw [hcount] at hproduct
      dsimp only
      generalize s.2 - nDenom * (ringMixCount s.2 nDenom).toInt64 = nRemainder at hremainder ⊢
      rw [← hremainder]
      have hzero : (0 : Int64).toInt = 0 := rfl
      split
      · split
        · rename_i hdust
          rw [ge_iff_le, le_iff_toInt_le] at hdust
          rw [if_neg (Int.not_lt.mpr hdust)]
          rfl
        · rename_i hdust
          rw [ge_iff_le, le_iff_toInt_le] at hdust
          rw [if_pos (Int.not_le.mp hdust)]
      · rename_i hnone
        rw [gt_iff_lt, lt_iff_toInt_lt, hzero] at hnone
        have hcent : 0 < CENT.toInt := by decide
        rw [if_pos (by omega)]
        simp only [hzero]
        omega
    | none =>
      have hthirds := mul_ediv_add_emod s.2.toInt 3
      have hlow := ediv_nonneg hpos (show (0 : Int) ≤ 3 by decide)
      have hrest := emod_nonneg s.2.toInt (show (3 : Int) ≠ 0 by decide)
      have hproduct := (toInt_ringMixThirds hpos).2
      dsimp only
      rw [toInt_sub_of_le (by omega) (by omega), hproduct]
      omega

/-- The last part of a split amount lies between zero and the amount. -/
theorem tdiv_add_tmod_bounds (a : Int) {b : Int} (hb : 0 < b) :
    (0 ≤ a → 0 ≤ a.tdiv b + a.tmod b ∧ a.tdiv b + a.tmod b ≤ a) ∧
      (a ≤ 0 → a ≤ a.tdiv b + a.tmod b ∧ a.tdiv b + a.tmod b ≤ 0) := by
  have hnonneg : ∀ a : Int, 0 ≤ a → 0 ≤ a.tdiv b + a.tmod b ∧ a.tdiv b + a.tmod b ≤ a := by
    intro a ha
    rw [tdiv_eq_ediv_of_nonneg ha, tmod_eq_emod_of_nonneg ha]
    have hq := ediv_nonneg ha hb.le
    have hr := emod_nonneg a hb.ne'
    have hwhole := mul_ediv_add_emod a b
    have hone : a / b ≤ b * (a / b) := by
      calc a / b = 1 * (a / b) := (Int.one_mul _).symm
        _ ≤ b * (a / b) := Int.mul_le_mul_of_nonneg_right hb hq
    omega
  refine ⟨hnonneg a, fun ha => ?_⟩
  have hneg := hnonneg (-a) (by omega)
  rw [Int.neg_tdiv, neg_tmod] at hneg
  omega

/-- The last part of a split amount. -/
theorem toInt_div_add_mod {a b : Int64} (hb : 0 < b.toInt) :
    (a / b + a % b).toInt = a.toInt.tdiv b.toInt + a.toInt.tmod b.toInt := by
  have hne : b ≠ -1 := by
    rintro rfl
    revert hb
    decide
  have hlt := a.toInt_lt
  have hle := a.le_toInt
  obtain ⟨hpos, hneg⟩ := tdiv_add_tmod_bounds a.toInt hb
  have hbounds : -2 ^ 63 ≤ a.toInt.tdiv b.toInt + a.toInt.tmod b.toInt ∧
      a.toInt.tdiv b.toInt + a.toInt.tmod b.toInt < 2 ^ 63 := by
    rcases Int.le_total 0 a.toInt with ha | ha
    · have hsum := hpos ha
      omega
    · have hsum := hneg ha
      omega
  rw [toInt_add, toInt_div_of_ne_right a b hne, toInt_mod]
  exact bmod_eq_of_le (by omega) (by omega)

/-- **The parts of a split payment** are the payment, also where it is negative. -/
theorem sumValues_splitOutputs {n : Nat} (hn : 0 < n) (hlt : n < 2 ^ 31) :
    sumValues (splitOutputs n s) = s.2.toInt := by
  obtain ⟨m, rfl⟩ := Nat.exists_eq_succ_of_ne_zero (Nat.ne_of_gt hn)
  have hparts : (Int64.ofNat (m + 1)).toInt = (m + 1 : Nat) :=
    Int64.toInt_ofNat_of_lt (Nat.lt_trans hlt (by decide))
  have hne : Int64.ofNat (m + 1) ≠ -1 := by
    intro heq
    rw [heq] at hparts
    have hminus : (-1 : Int64).toInt = -1 := rfl
    omega
  have hlast := toInt_div_add_mod (a := s.2) (b := Int64.ofNat (m + 1)) (by omega)
  have hpart := toInt_div_of_ne_right s.2 (Int64.ofNat (m + 1)) hne
  have hwhole := mul_tdiv_add_tmod s.2.toInt (m + 1 : Nat)
  rw [hparts] at hlast hpart
  rw [Nat.cast_succ, Int.add_mul, Int.one_mul] at hwhole
  rw [Nat.succ_eq_add_one, splitOutputs_succ, sumValues_append, sumValues_replicate]
  simp only [hpart, Nat.cast_succ] at hlast hwhole ⊢
  rw [sumValues_eq_exact, exact_cons, exact_nil]
  simp only [hlast]
  omega

theorem splitOutputs_script (n : Nat) (s : Recipient) :
    ∀ txout ∈ splitOutputs n s, txout.scriptPubKey = s.1 := by
  intro txout htxout
  obtain ⟨i, -, rfl⟩ := mem_map.mp htxout
  split <;> rfl

/-- Payments whose outputs carry their scripts, put together. -/
theorem paidTo_flatMap (script : CScript) {outputs : Recipient → List CTxOut}
    {vecSend : List Recipient} (hscript : ∀ s ∈ vecSend, ∀ txout ∈ outputs s,
    txout.scriptPubKey = s.1) : paidTo script (vecSend.flatMap outputs) =
      ((vecSend.filter fun s => s.1 == script).map fun s => sumValues (outputs s)).sum := by
  induction vecSend with
  | nil => rfl
  | cons s vecSend ih =>
    have hrest := ih fun s hs => hscript s (mem_cons_of_mem _ hs)
    have hhead := hscript s mem_cons_self
    rw [paidTo] at hrest
    rw [paidTo, flatMap_cons, filter_append, sumValues_append, hrest]
    by_cases hs : s.1 = script
    · have hall : (outputs s).filter (fun txout => txout.scriptPubKey == script) = outputs s := by
        refine filter_eq_self.mpr fun txout htxout => ?_
        rw [hhead txout htxout]
        exact beq_iff_eq.mpr hs
      have hkept : (s :: vecSend).filter (fun s => s.1 == script) =
          s :: vecSend.filter fun s => s.1 == script := filter_cons_of_pos (by simpa using hs)
      rw [hkept, map_cons, sum_cons, hall]
    · have hnone : (outputs s).filter (fun txout => txout.scriptPubKey == script) = [] := by
        refine filter_eq_nil_iff.mpr fun txout htxout => ?_
        rw [hhead txout htxout]
        exact fun heq => hs (beq_iff_eq.mp heq)
      have hdropped : (s :: vecSend).filter (fun s => s.1 == script) =
          vecSend.filter fun s => s.1 == script := filter_cons_of_neg (by simpa using hs)
      rw [hdropped, hnone]
      exact Int.zero_add _

theorem sumValues_ringMixOutputs
    (hlarge : s.isMarker = false → Int64.ofNat RING_MIXING_MIN_EQUAL_OUTPUTS ≤ s.2) :
    sumValues (ringMixOutputs s).1 + ringMixRest s = s.2.toInt := by
  by_cases hmarker : s.isMarker = true
  · rw [ringMixOutputs, ringMixRest, if_pos hmarker, if_pos hmarker, sumValues_eq_exact, exact_cons,
      exact_nil, Int.add_zero, Int.add_zero]
  · have hle := le_iff_toInt_le.mp (hlarge (Bool.eq_false_iff.mpr hmarker))
    have hthree : (Int64.ofNat RING_MIXING_MIN_EQUAL_OUTPUTS).toInt = 3 := by decide
    have hpos : 0 ≤ s.2.toInt := by omega
    rw [← toInt_ringMixOutputs_rest hpos]
    exact (splitsValue_ringMixOutputs hpos).total

/-- **What a script is paid** before there is change. -/
theorem paidTo_sendOutputs (script : CScript) {settings : WalletSettings} {vecSend : List Recipient}
    {nSplitBlock : Nat} {vout : List CTxOut} {nRemainder : Int64} (hsplit : nSplitBlock < 2 ^ 31)
    (h : sendOutputs settings nSplitBlock vecSend = some (vout, nRemainder)) :
    paidTo script vout = requestedFor script vecSend - leftOver settings script vecSend := by
  unfold sendOutputs at h
  split at h
  · rename_i hring
    rw [leftOver, if_pos hring]
    split at h
    · cases h
    · rename_i hlarge
      cases h
      have heach : ∀ s ∈ vecSend.filter (fun s => s.1 == script),
          sumValues (ringMixOutputs s).1 + ringMixRest s = s.2.toInt := by
        intro s hs
        refine sumValues_ringMixOutputs fun hmarker => ?_
        have hsmall := fun hlt => hlarge (any_eq_true.mpr ⟨s, (mem_filter.mp hs).1, hlt⟩)
        rw [hmarker, Bool.not_false, Bool.true_and, decide_eq_true_eq] at hsmall
        exact not_lt.mp hsmall
      have hsum := congrArg List.sum (map_congr_left heach)
      rw [sum_map_add] at hsum
      have hrequested : requestedFor script vecSend =
          ((vecSend.filter fun s => s.1 == script).map fun s => s.2.toInt).sum := rfl
      rw [paidTo_flatMap script fun s _ => ringMixOutputs_script, hrequested]
      omega
  · rename_i hring
    rw [leftOver, if_neg hring, Int.sub_zero]
    split at h
    · cases h
      rw [map_eq_flatMap, paidTo_flatMap script fun s _ txout htxout => by
        rw [mem_singleton.mp htxout]]
      refine congrArg List.sum (map_congr_left fun s _ => ?_)
      rw [sumValues_eq_exact, exact_cons, exact_nil, Int.add_zero]
    · cases h
      rw [paidTo_flatMap script fun s _ => splitOutputs_script _ s]
      refine congrArg List.sum (map_congr_left fun s _ => ?_)
      exact sumValues_splitOutputs (by omega) (by omega)

namespace CWallet

variable {H : Type} [Ord H] [TransOrd H] [DecidableEq H] {sha : Sha256 H} {wallet : CWallet H}
  {hashes : ScriptHashes} {settings : WalletSettings} {coinControl : Option (CCoinControl H)}
  {draw : Int64 → Nat} {selectCoins : Int64 → Option (CoinSelection sha wallet)}

theorem paidTo_placeChange {script : CScript} {selection : CoinSelection sha wallet}
    {nFeeRet nChange : Int64} {vout changed : List CTxOut}
    (hother : 0 < nChange → wallet.scriptChange hashes coinControl selection.coins ≠ some script)
    (h : wallet.placeChange hashes sha coinControl draw selection nFeeRet nChange vout = some changed) :
    paidTo script changed = paidTo script vout := by
  unfold placeChange at h
  split at h
  · rename_i hchange
    obtain ⟨scriptChange, hscript, rfl⟩ := Option.map_eq_some_iff.mp h
    have hne : ¬(scriptChange == script) = true := by
      rw [beq_iff_eq]
      rintro rfl
      exact hother hchange hscript
    have hperm := (perm_insertIdx (⟨nChange, scriptChange⟩ : CTxOut) vout
      (getRandInt_le (draw nFeeRet) vout.length)).filter fun txout => txout.scriptPubKey == script
    have hdropped : ((⟨nChange, scriptChange⟩ : CTxOut) :: vout).filter
        (fun txout => txout.scriptPubKey == script) =
          vout.filter fun txout => txout.scriptPubKey == script := filter_cons_of_neg hne
    rw [hdropped] at hperm
    exact exact_perm hperm
  · cases h
    rfl

/-- **Payees receive what was asked for them**, less what ring mixing leaves over of the
amounts, whatever the change is, as long as it goes elsewhere. -/
theorem createTransaction_payees {vecSend : List Recipient} {wtxNew tx : CTransaction H}
    {nSplitBlock : Int32} {fuel : Nat} {nFee : Int64}
    (h : createTransactionFor wallet hashes sha settings coinControl selectCoins draw wtxNew vecSend
      nSplitBlock fuel = some (some tx, nFee)) : ∃ nValue nFeeRet, ∃ parts : RoundParts sha wallet settings
        (wallet.placeChange hashes sha coinControl draw) selectCoins wtxNew vecSend
        nSplitBlock.toInt.toNat nValue nFeeRet tx nFee, ∀ script, (0 < parts.nChange →
          wallet.scriptChange hashes coinControl parts.selection.coins ≠ some script) →
        paidTo script tx.vout = requestedFor script vecSend - leftOver settings script vecSend := by
  obtain ⟨-, nValue, nFeeRet, -, -, ⟨parts⟩⟩ :=
    createTransaction_round (fun _ => True) trivial (fun _ _ _ _ => trivial) h
  refine ⟨nValue, nFeeRet, parts, fun script hother => ?_⟩
  have hsplit : nSplitBlock.toInt.toNat < 2 ^ 31 := by
    have hlt := nSplitBlock.toInt_lt
    omega
  have hvout : tx.vout = parts.changed := (signCoins_some parts.sign).vout
  rw [hvout, paidTo_placeChange hother parts.placed, paidTo_sendOutputs script hsplit parts.send]

end CWallet

theorem scriptChange_pegWallet (coins : List (COutput SampleDigest)) :
    pegWallet.scriptChange pegSigCrypto.hashes none coins ≠ some (payTo 3) := by
  rw [CWallet.scriptChange]
  decide

theorem createTransaction_payees_ringMix : ∃ tx nFeeRet, ringMixRun = some (some tx, nFeeRet) ∧
    paidTo (payTo 3) tx.vout = requestedFor (payTo 3) [(payTo 3, 10 * COIN + 5)] -
      leftOver ⟨0, false, 1500⟩ (payTo 3) [(payTo 3, 10 * COIN + 5)] := by
  have hrun : (ringMixRun.any fun result => result.1.isSome) = true := by decide +kernel
  rw [Option.any_eq_true] at hrun
  obtain ⟨⟨created, nFeeRet⟩, hresult, hmade⟩ := hrun
  obtain ⟨tx, rfl⟩ := Option.isSome_iff_exists.mp hmade
  obtain ⟨nValue, nFeeStart, parts, htotals⟩ := CWallet.createTransaction_payees hresult
  exact ⟨tx, nFeeRet, hresult, htotals (payTo 3) fun _ => scriptChange_pegWallet _⟩

/-- **The dust of an amount does not reach the payee**: of ten coins and five units, five
units go to the change. -/
theorem createTransaction_dust : ∃ tx nFeeRet, ringMixRun = some (some tx, nFeeRet) ∧
    (∀ coins, pegWallet.scriptChange pegSigCrypto.hashes none coins ≠ some (payTo 3)) ∧
    requestedFor (payTo 3) [(payTo 3, 10 * COIN + 5)] = 1000000005 ∧
    paidTo (payTo 3) tx.vout = 1000000000 := by
  have hrun : (ringMixRun.any fun result => result.1.any fun tx =>
      paidTo (payTo 3) tx.vout == 1000000000) = true := by decide +kernel
  rw [Option.any_eq_true] at hrun
  obtain ⟨⟨created, nFeeRet⟩, hresult, hmade⟩ := hrun
  rw [Option.any_eq_true] at hmade
  obtain ⟨tx, rfl, hpaid⟩ := hmade
  exact ⟨tx, nFeeRet, hresult, scriptChange_pegWallet, by decide, beq_iff_eq.mp hpaid⟩

end MaryJaneCoin
