import MaryJaneCoin.Wallet.CoinStake

/-!
# How a coinstake distributes its reward

The charities are capped in the credit of the staker, but their outputs are not, and the
cut of the development fund comes on top.  So the coinstake is worth its inputs and the
reward, and the staker gets the staked coins back, as long as these parts together do not
exceed the reward, and only then.
-/

namespace MaryJaneCoin

open CScript StakeSettings Int64 StakeNode
open List hiding Vector
open Std WrappedSum Codec Int

/-- A script that starts with data on the stack. -/
def StartsWithPush (scriptPubKey : CScript) : Prop :=
  ∃ opcode rest, scriptPubKey = opcode :: rest ∧ opcode ≤ OP_PUSHDATA4

theorem startsWithPush_pushData (b : Bytes) (rest : CScript) :
    StartsWithPush (pushData b ++ rest) := by
  unfold pushData
  split
  · rename_i hlt
    refine ⟨_, _, rfl, ?_⟩
    rw [UInt8.le_iff_toNat_le, UInt8.toNat_ofNat_of_lt' (Nat.lt_trans hlt (by decide))]
    exact Nat.le_trans (Nat.le_of_lt hlt) (by decide)
  · split
    · exact ⟨_, _, rfl, by decide⟩
    · split
      · exact ⟨_, _, rfl, by decide⟩
      · exact ⟨_, _, rfl, by decide⟩

/-- A public key with a check behind it. -/
theorem startsWithPush_of_solver {scriptPubKey : CScript} {vSolutions : List Bytes}
    (h : solver scriptPubKey = some (.TX_PUBKEY, vSolutions)) : StartsWithPush scriptPubKey := by
  obtain ⟨template, hmem, hmatch, -⟩ := solver_template h (by decide) (by decide)
  obtain rfl : template = [OP_PUBKEY, OP_CHECKSIG] := by
    simpa [mTemplates] using hmem
  obtain ⟨⟨opcode, vch, rest⟩, hop, hkey⟩ := Option.bind_eq_some_iff.mp hmatch
  cases scriptPubKey with
  | nil => cases hop
  | cons first pc =>
    refine ⟨first, pc, rfl, ?_⟩
    by_contra hgt
    -- Other operations carry no data, so they are no key.
    rw [getOp, if_neg hgt] at hop
    cases hop
    rw [if_neg (by decide)] at hkey
    obtain ⟨found, hfound, -⟩ := Option.bind_eq_some_iff.mp hkey
    cases hfound

theorem startsWithPush_of_kernelScript {H : Type} {hashes : ScriptHashes} {keystore : CKeyStore H}
    {scriptPubKeyKernel scriptPubKeyOut : CScript} {key : CKey H}
    (h : kernelScript hashes keystore scriptPubKeyKernel = some (key, scriptPubKeyOut)) :
    StartsWithPush scriptPubKeyOut := by
  unfold kernelScript at h
  split at h
  · obtain ⟨found, -, heq⟩ := Option.map_eq_some_iff.mp h
    cases heq
    exact startsWithPush_pushData _ _
  · rename_i vSolutions hsolver
    obtain ⟨found, -, h⟩ := Option.bind_eq_some_iff.mp h
    split at h
    · cases h
    · cases h
      exact startsWithPush_of_solver hsolver
  · cases h

/-- **No address has the script of a staker.** -/
theorem setDestination_ne {scriptPubKey : CScript} (h : StartsWithPush scriptPubKey)
    (destination : CTxDestination) : setDestination destination ≠ scriptPubKey := by
  obtain ⟨opcode, rest, rfl, hle⟩ := h
  intro heq
  cases destination with
  | CNoDestination => cases heq
  | keyID keyID =>
    cases heq
    revert hle
    decide
  | scriptID scriptID =>
    cases heq
    revert hle
    decide

theorem insertIdx_behind {front back : List CTxOut} {marker : CTxOut} (txout : CTxOut) :
    (marker :: (front ++ back)).insertIdx (1 + front.length) txout = marker :: (front ++ txout :: back) := by
  rw [Nat.add_comm, insertIdx_succ_cons]
  induction front with
  | nil => rfl
  | cons first front ih =>
    rw [cons_append, length_cons, insertIdx_succ_cons]
    injection ih with _ ih
    rw [ih, cons_append]

/-- **The outputs of the charities** stand behind the marker, in the order of the entries. -/
theorem foldl_insertCharity {settings : StakeSettings} {nReward : Int64}
    (entries : List StakeForCharityEntry) {front back : List CTxOut} {marker : CTxOut}
    {nTotalCharity : Int64} : entries.foldl (settings.insertCharity nReward)
        (marker :: (front ++ back), nTotalCharity, front.length) =
      (marker :: (front ++ entries.filterMap (settings.charityOutput nReward) ++ back),
        nTotalCharity + wrapped CTxOut.nValue (entries.filterMap (settings.charityOutput nReward)),
        (front ++ entries.filterMap (settings.charityOutput nReward)).length) := by
  induction entries generalizing front nTotalCharity with
  | nil =>
    simp only [foldl_nil, filterMap_nil, append_nil]
    exact congrArg (fun total => (_, total, _)) (Int64.add_zero _).symm
  | cons entry entries ih =>
    rw [foldl_cons]
    cases hentry : settings.charityOutput nReward entry with
    | none =>
      have hstep : settings.insertCharity nReward
          (marker :: (front ++ back), nTotalCharity, front.length) entry =
          (marker :: (front ++ back), nTotalCharity, front.length) := by
        simp only [insertCharity, hentry]
      rw [hstep, ih, filterMap_cons_none hentry]
    | some txout =>
      have hstep : settings.insertCharity nReward
          (marker :: (front ++ back), nTotalCharity, front.length) entry =
          (marker :: ((front ++ [txout]) ++ back), nTotalCharity + txout.nValue,
            (front ++ [txout]).length) := by
        simp only [insertCharity, hentry, insertIdx_behind, append_assoc,
          singleton_append, length_append, length_singleton]
      rw [hstep, ih, filterMap_cons_some hentry, wrapped_cons, Int64.add_assoc]
      simp only [append_assoc, singleton_append]

/-- Outputs that all pay one script and are together worth this. -/
structure PaysAll (script : CScript) (nValue : Int64) (vout : List CTxOut) : Prop where
  script : ∀ txout ∈ vout, txout.scriptPubKey = script
  total : sumValues vout = nValue.toInt

theorem setValue_append (front : List CTxOut) (txout : CTxOut) (back : List CTxOut) (nValue : Int64) :
    setValue (front ++ txout :: back) front.length nValue = front ++ { txout with nValue } :: back := by
  induction front with
  | nil => rfl
  | cons first front ih =>
    rw [setValue] at ih
    rw [setValue, cons_append, length_cons, modify_succ_cons, ih, cons_append]

theorem toInt_half {nCredit : Int64} (hpos : 0 < nCredit.toInt) :
    0 ≤ (nCredit / 2 / CENT * CENT).toInt ∧ (nCredit / 2 / CENT * CENT).toInt ≤ nCredit.toInt := by
  have hcent : CENT.toInt = 1000000 := by decide
  have hhalf : (nCredit / 2).toInt = nCredit.toInt / 2 := toInt_div_of_pos (by omega) (by decide)
  have hcents : (nCredit / 2 / CENT).toInt = nCredit.toInt / 2 / 1000000 := by
    rw [toInt_div_of_pos (by omega) (by decide), hhalf, hcent]
  have hproduct : (nCredit / 2 / CENT * CENT).toInt = nCredit.toInt / 2 / 1000000 * 1000000 := by
    rw [toInt_mul_of_le (c := nCredit) (by rw [hcents, hcent]; omega)
      (by rw [hcents, hcent]; omega), hcents, hcent]
  omega

/-- **The staker gets the credit**, in one output or in two. -/
theorem payStaker_some {front vout : List CTxOut} {fSplit : Bool} {script : CScript} {nCredit : Int64}
    (h : payStaker (1 + (stakerOutputs fSplit script).length) front.length nCredit
      (front ++ stakerOutputs fSplit script) = some vout) :
    0 < nCredit.toInt ∧ ∃ paid, vout = front ++ paid ∧ PaysAll script nCredit paid := by
  unfold payStaker at h
  split at h
  · cases h
  · rename_i hpos
    have hpositive : 0 < nCredit.toInt := by
      rw [Int64.not_le, Int64.lt_iff_toInt_lt, Int64.toInt_zero] at hpos
      exact hpos
    refine ⟨hpositive, ?_⟩
    split at h
    · cases h
    · cases fSplit with
      | false =>
        rw [if_neg (show ¬1 + (stakerOutputs false script).length = 3 from (by decide : ¬1 + 1 = 3))] at h
        cases h
        refine ⟨_, setValue_append _ _ _ _, ?_, ?_⟩
        · intro txout htxout
          rw [mem_singleton] at htxout
          rw [htxout]
        · rw [sumValues_eq_exact, exact_cons, exact_nil, Int.add_zero]
      | true =>
        rw [if_pos (show 1 + (stakerOutputs true script).length = 3 from rfl)] at h
        split at h
        · cases h
        · cases h
          have hsecond := setValue_append (front ++ [⟨nCredit / 2 / CENT * CENT, script⟩])
            ⟨0, script⟩ [] (nCredit - nCredit / 2 / CENT * CENT)
          rw [length_append, length_singleton, append_assoc, append_assoc] at hsecond
          refine ⟨[⟨nCredit / 2 / CENT * CENT, script⟩, ⟨nCredit - nCredit / 2 / CENT * CENT, script⟩],
            ?_, ?_, ?_⟩
          · rw [stakerOutputs, if_pos rfl, setValue_append]
            exact hsecond
          · intro txout htxout
            simp only [List.mem_cons, not_mem_nil, or_false] at htxout
            rcases htxout with rfl | rfl <;> rfl
          · have hhalf := toInt_half hpositive
            rw [sumValues_eq_exact, exact_cons, exact_cons, exact_nil]
            simp only [toInt_sub_of_le hhalf.1 hhalf.2]
            omega

theorem getDevFundCut_le {nFees : Int64} (hpos : 0 < nFees.toInt) :
    (getDevFundCut nFees).toInt ≤ nFees.toInt := by
  have hproduct : (nFees * MARYJ_DEV_FUND_FEE_NUM).toInt ≤ nFees.toInt * 20 := by
    have hnum : MARYJ_DEV_FUND_FEE_NUM.toInt = 20 := by decide
    rw [toInt_mul, hnum, bmod_def]
    split <;> omega
  rw [getDevFundCut]
  split
  · exact Int.le_of_lt hpos
  · have hden : MARYJ_DEV_FUND_FEE_DEN.toInt = 420 := by decide
    rw [toInt_div_of_ne_right _ _ (by decide), hden]
    have hquotient := Int.tdiv_le_tdiv (by decide : (0 : Int) < 420) hproduct
    rw [tdiv_eq_ediv_of_nonneg (a := nFees.toInt * 20) (by omega)] at hquotient
    omega

/-- What is due to the development fund, for the block behind the best one. -/
def devFundDue (nBestHeight : Int) (nFees : Int64) : Int :=
  if nBestHeight + 1 ≥ DEV_FUND_FEE_ACTIVATION_HEIGHT ∧ 0 < getDevFundCut nFees then
    (getDevFundCut nFees).toInt
  else 0

theorem devFundDue_le {nFees : Int64} (hpos : 0 < nFees.toInt) (nBestHeight : Int) :
    devFundDue nBestHeight nFees ≤ nFees.toInt := by
  unfold devFundDue
  split
  · exact getDevFundCut_le hpos
  · exact Int.le_of_lt hpos

theorem devFundDue_nonneg (nBestHeight : Int) (nFees : Int64) : 0 ≤ devFundDue nBestHeight nFees := by
  unfold devFundDue
  split
  · rename_i hdue
    exact Int.le_of_lt (Int64.lt_iff_toInt_lt.mp hdue.2)
  · exact Int.le_refl 0

theorem devFundOutput_some {getDevFundScript : Option CScript} {nBestHeight : Int}
    {nFees nDevFundCut : Int64} {devFund : List CTxOut} (hpos : 0 < nFees.toInt)
    (h : devFundOutput getDevFundScript nBestHeight nFees nFees = some (devFund, nDevFundCut)) :
    nDevFundCut.toInt = devFundDue nBestHeight nFees ∧ ((devFund = [] ∧ devFundDue nBestHeight nFees = 0) ∨
        ∃ devScript, getDevFundScript = some devScript ∧ devFund = [⟨nDevFundCut, devScript⟩]) := by
  have hle : ¬getDevFundCut nFees > nFees := by
    rw [gt_iff_lt, Int64.not_lt, Int64.le_iff_toInt_le]
    exact getDevFundCut_le hpos
  unfold devFundOutput at h
  unfold devFundDue
  rw [if_neg hle] at h
  split at h
  · rename_i hactive
    dsimp only at h
    split at h
    · rename_i hcut
      obtain ⟨devScript, hscript, heq⟩ := Option.map_eq_some_iff.mp h
      cases heq
      rw [if_pos ⟨hactive, hcut⟩]
      exact ⟨rfl, Or.inr ⟨devScript, hscript, rfl⟩⟩
    · rename_i hcut
      cases h
      rw [if_neg fun hdue => hcut hdue.2]
      exact ⟨rfl, Or.inl ⟨rfl, rfl⟩⟩
  · rename_i hactive
    cases h
    rw [if_neg fun hdue => hactive hdue.1]
    exact ⟨rfl, Or.inl ⟨rfl, rfl⟩⟩

namespace StakeSettings

variable (settings : StakeSettings)

def share (nFees : Int64) (entry : StakeForCharityEntry) : Int64 :=
  let share := nFees * entry.nPercent.toInt64 / 100
  if MIN_RELAY_TX_FEE ≤ share ∧ (settings.address entry.strAddress).isSome then share else 0

/-- What is due to others than the staker: the shares of the charities and the cut of the
development fund. -/
def dueToOthers (nBestHeight : Int) (nFees : Int64) : Int :=
  exact (settings.share nFees) settings.charities + devFundDue nBestHeight nFees

variable {settings}

theorem charityOutput_eq (nFees : Int64) (entry : StakeForCharityEntry) : settings.charityOutput nFees entry =
      if MIN_RELAY_TX_FEE ≤ nCharityAmount nFees entry then
        (settings.address entry.strAddress).map fun destination =>
          ⟨nCharityAmount nFees entry, setDestination destination⟩
      else none := by
  unfold charityOutput
  by_cases hmin : MIN_RELAY_TX_FEE ≤ nCharityAmount nFees entry
  · have hpos : nCharityAmount nFees entry > 0 := lt_of_lt_of_le (by decide) hmin
    simp [hmin, hpos]
  · simp [hmin]

/-- **The outputs of the charities** are worth their shares. -/
theorem exact_charityOutputs (nFees : Int64) (entries : List StakeForCharityEntry) :
    sumValues (entries.filterMap (settings.charityOutput nFees)) = exact (settings.share nFees) entries := by
  induction entries with
  | nil => rfl
  | cons entry entries ih =>
    rw [exact_cons, ← ih]
    by_cases hmin : MIN_RELAY_TX_FEE ≤ nCharityAmount nFees entry
    · cases haddress : settings.address entry.strAddress with
      | none =>
        have hnone : settings.charityOutput nFees entry = none := by
          rw [charityOutput_eq, if_pos hmin, haddress, Option.map_none]
        rw [filterMap_cons_none hnone, share, haddress, if_neg (by simp), Int64.toInt_zero, Int.zero_add]
      | some destination =>
        have hsome : settings.charityOutput nFees entry =
            some ⟨nCharityAmount nFees entry, setDestination destination⟩ := by
          rw [charityOutput_eq, if_pos hmin, haddress, Option.map_some]
        rw [filterMap_cons_some hsome, share, haddress, if_pos ⟨hmin, rfl⟩,
          sumValues_eq_exact, exact_cons, ← sumValues_eq_exact]
        rfl
    · have hnone : settings.charityOutput nFees entry = none := by
        rw [charityOutput_eq, if_neg hmin]
      rw [filterMap_cons_none hnone, share, if_neg fun hshare => hmin hshare.1,
        Int64.toInt_zero, Int.zero_add]

theorem share_bounds (nFees : Int64) (entry : StakeForCharityEntry) :
    0 ≤ (settings.share nFees entry).toInt ∧ (settings.share nFees entry).toInt ≤ 2 ^ 63 / 100 := by
  rw [share]
  split
  · rename_i hshare
    have hmin := Int64.le_iff_toInt_le.mp hshare.1
    have hfee : MIN_RELAY_TX_FEE.toInt = 42000000 := by decide
    refine ⟨by omega, ?_⟩
    rw [toInt_div_of_ne_right _ _ (by decide)]
    exact Int.tdiv_le_tdiv (by decide) (Int.le_of_lt (nFees * entry.nPercent.toInt64).toInt_lt)
  · exact ⟨by decide, by decide⟩

theorem length_charities : settings.charities.length ≤ 5 := by
  rw [charities]
  split
  · exact length_take_le 5 _
  · exact Nat.zero_le 5

/-- The shares together do not overflow either. -/
theorem exact_share_bounds (nFees : Int64) : 0 ≤ exact (settings.share nFees) settings.charities ∧
      exact (settings.share nFees) settings.charities < 2 ^ 63 := by
  refine ⟨exact_nonneg fun entry _ => (share_bounds nFees entry).1, ?_⟩
  have hsum := sum_le_card_nsmul (settings.charities.map fun entry => (settings.share nFees entry).toInt)
    (2 ^ 63 / 100) fun value hvalue => by
      obtain ⟨entry, -, rfl⟩ := mem_map.mp hvalue
      exact (share_bounds nFees entry).2
  have hlength := @length_charities settings
  rw [length_map, nsmul_eq_mul] at hsum
  rw [exact]
  omega

end StakeSettings

theorem devFundOutput_shape {getDevFundScript : Option CScript} {nBestHeight : Int}
    {nReward nFees nDevFundCut : Int64} {devFund : List CTxOut}
    (h : devFundOutput getDevFundScript nBestHeight nReward nFees = some (devFund, nDevFundCut)) :
    devFund = [] ∨ ∃ txout, devFund = [txout] := by
  unfold devFundOutput at h
  split at h
  · dsimp only at h
    generalize (if getDevFundCut nFees > nReward then nReward else getDevFundCut nFees) = nCut at h
    split at h
    · obtain ⟨devScript, -, heq⟩ := Option.map_eq_some_iff.mp h
      cases heq
      exact Or.inr ⟨_, rfl⟩
    · cases h
      exact Or.inl rfl
  · cases h
    exact Or.inl rfl

/-- **What a coinstake pays**: its marker, the charities, the development fund, and what is
left of the credit to the staker. -/
theorem distributeReward_some {settings : StakeSettings} {getDevFundScript : Option CScript}
    {nBestHeight : Int} {nReward nFees nCredit : Int64} {fSplit : Bool} {script : CScript}
    {marker : CTxOut} {vout : List CTxOut}
    (h : distributeReward settings getDevFundScript nBestHeight nReward nFees nCredit
      (marker :: stakerOutputs fSplit script) = some vout) : ∃ devFund nDevFundCut nLeft paid,
      devFundOutput getDevFundScript nBestHeight nReward nFees = some (devFund, nDevFundCut) ∧
      vout = marker :: (settings.charities.filterMap (settings.charityOutput nReward) ++ devFund) ++
      paid ∧ nLeft = chargeCharity nReward (wrapped CTxOut.nValue
        (settings.charities.filterMap (settings.charityOutput nReward))) nCredit -
          nDevFundCut ∧ 0 < nLeft.toInt ∧ PaysAll script nLeft paid := by
  have hcharity := @foldl_insertCharity settings nReward settings.charities []
    (stakerOutputs fSplit script) marker 0
  rw [nil_append, nil_append, length_nil, Int64.zero_add] at hcharity
  simp only [distributeReward, hcharity] at h
  obtain ⟨⟨devFund, nDevFundCut⟩, hdev, h⟩ := Option.bind_eq_some_iff.mp h
  generalize hout : settings.charities.filterMap (settings.charityOutput nReward) = charityVout at h ⊢
  have hfront : devFund.foldl (fun vout txout => vout.insertIdx (1 + charityVout.length) txout)
      (marker :: (charityVout ++ stakerOutputs fSplit script)) =
        marker :: (charityVout ++ devFund) ++ stakerOutputs fSplit script := by
    rcases devFundOutput_shape hdev with rfl | ⟨txout, rfl⟩
    · rw [foldl_nil, append_nil, cons_append]
    · rw [foldl_cons, foldl_nil, insertIdx_behind, cons_append, append_assoc, singleton_append]
  have hcount : (marker :: stakerOutputs fSplit script).length =
      1 + (stakerOutputs fSplit script).length := Nat.add_comm _ _
  have hfirst : 1 + charityVout.length + devFund.length =
      (marker :: (charityVout ++ devFund)).length := by
    rw [length_cons, length_append]
    omega
  rw [hfront, hcount, hfirst] at h
  obtain ⟨hpos, paid, hvout, hpaid⟩ := payStaker_some h
  exact ⟨devFund, nDevFundCut, _, paid, hdev, hvout, rfl, hpos, hpaid⟩

theorem chargeCharity_eq {nReward nTotalCharity : Int64} (hreward : 0 < nReward.toInt)
    (htotal : 0 ≤ nTotalCharity.toInt) (nCredit : Int64) :
    ∃ nCharged : Int64, chargeCharity nReward nTotalCharity nCredit = nCredit - nCharged ∧
      nCharged.toInt = min nTotalCharity.toInt nReward.toInt := by
  unfold chargeCharity
  split
  · refine ⟨_, rfl, ?_⟩
    split
    · rename_i hcapped
      rw [gt_iff_lt, Int64.lt_iff_toInt_lt] at hcapped
      omega
    · rename_i hfits
      rw [gt_iff_lt, Int64.not_lt, Int64.le_iff_toInt_le] at hfits
      omega
  · rename_i hnone
    rw [gt_iff_lt, Int64.not_lt, Int64.le_iff_toInt_le, Int64.toInt_zero] at hnone
    refine ⟨0, (Int64.sub_zero nCredit).symm, ?_⟩
    rw [Int64.toInt_zero]
    omega

/-- **The running credit does not wrap around** where it ends above zero: what it could
exceed 64 bits by is taken for a loss. -/
theorem toInt_left {nCredit nReward nCharged nDevFundCut : Int64} (hcredit : 0 ≤ nCredit.toInt)
    (hreward : 0 ≤ nReward.toInt) (hcharged : 0 ≤ nCharged.toInt ∧ nCharged.toInt ≤ nReward.toInt)
    (hcut : 0 ≤ nDevFundCut.toInt ∧ nDevFundCut.toInt ≤ nReward.toInt)
    (hpos : 0 < (nCredit + nReward - nCharged - nDevFundCut).toInt) :
    (nCredit + nReward - nCharged - nDevFundCut).toInt =
      nCredit.toInt + nReward.toInt - nCharged.toInt - nDevFundCut.toInt := by
  have hle := nCredit.toInt_lt
  have hle' := nReward.toInt_lt
  rw [toInt_sub, toInt_sub, toInt_add, bmod_sub_bmod, Int.sub_sub, bmod_sub_bmod] at hpos ⊢
  rw [bmod_def] at hpos ⊢
  split at hpos <;> omega

theorem paidTo_append (script : CScript) (vout vout' : List CTxOut) :
    paidTo script (vout ++ vout') = paidTo script vout + paidTo script vout' := by
  rw [paidTo, filter_append, sumValues_append]
  rfl

theorem paidTo_of_forall {script : CScript} {vout : List CTxOut}
    (h : ∀ txout ∈ vout, txout.scriptPubKey = script) : paidTo script vout = sumValues vout := by
  have hall : vout.filter (fun txout => txout.scriptPubKey == script) = vout :=
    filter_eq_self.mpr fun txout htxout => beq_iff_eq.mpr (h txout htxout)
  rw [paidTo, hall]

theorem paidTo_of_forall_ne {script : CScript} {vout : List CTxOut}
    (h : ∀ txout ∈ vout, txout.scriptPubKey ≠ script) : paidTo script vout = 0 := by
  have hnone : vout.filter (fun txout => txout.scriptPubKey == script) = [] :=
    filter_eq_nil_iff.mpr fun txout htxout heq => h txout htxout (beq_iff_eq.mp heq)
  rw [paidTo, hnone]
  rfl

theorem paidTo_nonneg {script : CScript} {vout : List CTxOut}
    (h : ∀ txout ∈ vout, 0 ≤ txout.nValue.toInt) : 0 ≤ paidTo script vout := by
  rw [paidTo, sumValues_eq_exact]
  exact exact_nonneg fun txout htxout => h txout (mem_filter.mp htxout).1

theorem script_of_mem_charities {settings : StakeSettings} {nReward : Int64} {txout : CTxOut}
    (h : txout ∈ settings.charities.filterMap (settings.charityOutput nReward)) :
    ∃ destination, txout.scriptPubKey = setDestination destination := by
  obtain ⟨entry, -, hentry⟩ := mem_filterMap.mp h
  rw [StakeSettings.charityOutput_eq] at hentry
  split at hentry
  · obtain ⟨destination, -, rfl⟩ := Option.map_eq_some_iff.mp hentry
    exact ⟨destination, rfl⟩
  · cases hentry

theorem value_of_mem_charities {settings : StakeSettings} {nReward : Int64} {txout : CTxOut}
    (h : txout ∈ settings.charities.filterMap (settings.charityOutput nReward)) : 0 ≤ txout.nValue.toInt := by
  obtain ⟨entry, -, hentry⟩ := mem_filterMap.mp h
  rw [StakeSettings.charityOutput_eq] at hentry
  split at hentry
  · rename_i hmin
    obtain ⟨destination, -, rfl⟩ := Option.map_eq_some_iff.mp hentry
    exact Int.le_trans (by decide) (Int64.le_iff_toInt_le.mp hmin)
  · cases hentry

/-- **The distribution in numbers**: what the whole coinstake and what the staker gets. -/
theorem distributeReward_values {settings : StakeSettings} {getDevFundScript : Option CScript}
    {nBestHeight : Int} {nFees nCredit : Int64} {fSplit : Bool} {script : CScript} {vout : List CTxOut}
    (hfees : 0 < nFees.toInt) (hcredit : 0 ≤ nCredit.toInt) (hscript : StartsWithPush script)
    (hdev : ∀ devScript ∈ getDevFundScript, ∃ destination, devScript = setDestination destination)
    (h : distributeReward settings getDevFundScript nBestHeight nFees nFees (nCredit + nFees)
      (⟨0, []⟩ :: stakerOutputs fSplit script) = some vout) :
    let nTotalCharity := exact (settings.share nFees) settings.charities
    let nLeft := nCredit.toInt + nFees.toInt - min nTotalCharity nFees.toInt -
      devFundDue nBestHeight nFees
    sumValues vout = nTotalCharity + devFundDue nBestHeight nFees + nLeft ∧ paidTo script vout =
      nLeft ∧ (0 < devFundDue nBestHeight nFees → ∃ devScript, getDevFundScript = some devScript ∧
        devFundDue nBestHeight nFees ≤ paidTo devScript vout) := by
  intro nTotalCharity nLeft
  obtain ⟨devFund, nDevFundCut, nRest, paid, hdevFund, rfl, hrest, hpos, hpaid⟩ := distributeReward_some h
  obtain ⟨hcut, hdue⟩ := devFundOutput_some hfees hdevFund
  have hbounds := @StakeSettings.exact_share_bounds settings nFees
  have hcharity : sumValues (settings.charities.filterMap (settings.charityOutput nFees)) =
      nTotalCharity := StakeSettings.exact_charityOutputs nFees _
  have htotal : (wrapped CTxOut.nValue
      (settings.charities.filterMap (settings.charityOutput nFees))).toInt = nTotalCharity := by
    rw [toInt_wrapped_of_fits (by rw [← sumValues_eq_exact, hcharity]; omega)
      (by rw [← sumValues_eq_exact, hcharity]; omega), ← sumValues_eq_exact, hcharity]
  obtain ⟨nCharged, hcharge, hcharged⟩ := chargeCharity_eq hfees
    (by rw [htotal]; exact hbounds.1) (nCredit + nFees)
  rw [hcharge] at hrest
  have hnonneg := devFundDue_nonneg nBestHeight nFees
  have hdevFundSum : sumValues devFund = devFundDue nBestHeight nFees := by
    rcases hdue with ⟨rfl, hzero⟩ | ⟨devScript, -, rfl⟩
    · rw [hzero]
      rfl
    · rw [sumValues_eq_exact, exact_cons, exact_nil, Int.add_zero, hcut]
  have hcutBounds : 0 ≤ nDevFundCut.toInt ∧ nDevFundCut.toInt ≤ nFees.toInt := by
    rw [hcut]
    exact ⟨devFundDue_nonneg _ _, devFundDue_le hfees _⟩
  have hleft : nRest.toInt = nLeft := by
    rw [hrest] at hpos ⊢
    rw [toInt_left hcredit (Int.le_of_lt hfees) (by omega) hcutBounds hpos, hcharged, htotal, hcut]
  have hmarker : paidTo script [⟨0, []⟩] = 0 := paidTo_of_forall_ne fun txout htxout => by
    rw [mem_singleton.mp htxout]
    exact setDestination_ne hscript .CNoDestination
  have hcharityOther : paidTo script
      (settings.charities.filterMap (settings.charityOutput nFees)) = 0 :=
    paidTo_of_forall_ne fun txout htxout => by
      obtain ⟨destination, heq⟩ := script_of_mem_charities htxout
      exact heq ▸ setDestination_ne hscript destination
  have hdevOther : paidTo script devFund = 0 := by
    rcases hdue with ⟨rfl, -⟩ | ⟨devScript, hdevScript, rfl⟩
    · rfl
    · refine paidTo_of_forall_ne fun txout htxout => ?_
      obtain ⟨destination, rfl⟩ := hdev devScript hdevScript
      rw [mem_singleton.mp htxout]
      exact setDestination_ne hscript destination
  rw [cons_append, append_assoc, ← singleton_append]
  refine ⟨?_, ?_, fun hpositive => ?_⟩
  · rw [sumValues_append, sumValues_append, sumValues_append, hcharity, hdevFundSum, hpaid.total,
      hleft, sumValues_eq_exact, exact_cons, exact_nil]
    simp only [Int64.toInt_zero]
    omega
  · rw [paidTo_append, paidTo_append, paidTo_append, hmarker, hcharityOther, hdevOther,
      paidTo_of_forall hpaid.script, hpaid.total, hleft]
    omega
  · rcases hdue with ⟨-, hzero⟩ | ⟨devScript, hdevScript, rfl⟩
    · omega
    · refine ⟨devScript, hdevScript, ?_⟩
      have hdevPaid : paidTo devScript [⟨nDevFundCut, devScript⟩] = nDevFundCut.toInt := by
        rw [paidTo_of_forall fun txout htxout => by rw [mem_singleton.mp htxout],
          sumValues_eq_exact, exact_cons, exact_nil, Int.add_zero]
      have hmarkerPaid : 0 ≤ paidTo devScript [⟨0, []⟩] := paidTo_nonneg fun txout htxout => by
        rw [mem_singleton.mp htxout]
        decide
      have hcharityPaid := @paidTo_nonneg devScript _
        fun txout htxout => @value_of_mem_charities settings nFees txout htxout
      have hstakerPaid : paidTo devScript paid = 0 := paidTo_of_forall_ne fun txout htxout heq => by
        obtain ⟨destination, hdestination⟩ := hdev devScript hdevScript
        exact setDestination_ne hscript destination
          (hdestination.symm.trans (heq.symm.trans (hpaid.script txout htxout)))
      rw [paidTo_append, paidTo_append, paidTo_append, hdevPaid, hstakerPaid, hcut]
      omega

namespace StakeMint

variable {H : Type} [Ord H] [TransOrd H] [DecidableEq H] {w : StakeWorld H} {mint : StakeMint H}

omit [DecidableEq H] in
/-- A coin with enough confirmations is an output of a transaction of the wallet, and not
too small. -/
theorem mem_availableCoinsMinConf [LawfulEqOrd H] {wallet : CWallet H} {nConf : Int} {coin : StakeCoin H}
    (h : coin ∈ wallet.availableCoinsMinConf nConf) : wallet.prevOut coin.prevout =
      some coin.txout ∧ wallet.nMinimumInputValue.toInt ≤ coin.txout.nValue.toInt := by
  obtain ⟨⟨hash, pcoin⟩, hpcoin, h⟩ := mem_flatMap.mp h
  rw [ExtTreeMap.mem_toList_iff_getElem?_eq_some] at hpcoin
  dsimp only at h
  split at h
  · cases h
  · obtain ⟨⟨txout, i⟩, hout, rfl⟩ := mem_map.mp h
    obtain ⟨hzip, hmine⟩ := mem_filter.mp hout
    have hget := mem_zipIdx_iff_getElem?.mp hzip
    have hlt : i < 2 ^ 32 := Nat.lt_trans (List.getElem?_eq_some_iff.mp hget).1 pcoin.vout_lt
    simp only [Bool.and_eq_true, decide_eq_true_eq, ge_iff_le, Int64.le_iff_toInt_le] at hmine
    refine ⟨?_, hmine.2⟩
    rw [CWallet.prevOut, hpcoin, Option.bind_some, UInt32.toNat_ofNat_of_lt' hlt]
    exact hget

omit [Ord H] [TransOrd H] [DecidableEq H] in
theorem mem_selectStakeLoop {usable : CWalletTx H → Bool} {nTargetValue nValueRet : Int64}
    {nSpendTime : UInt32} {vCoins : List (StakeCoin H)} {coin : StakeCoin H}
    (h : coin ∈ CWallet.selectStakeLoop usable nTargetValue nSpendTime vCoins nValueRet) : coin ∈ vCoins := by
  induction vCoins generalizing nValueRet with
  | nil => cases h
  | cons output vCoins ih =>
    rw [CWallet.selectStakeLoop] at h
    split at h
    · cases h
    · split at h
      · exact mem_cons_of_mem _ (ih h)
      · split at h
        · exact mem_singleton.mp h ▸ mem_cons_self
        · split at h
          · rcases List.mem_cons.mp h with rfl | h
            · exact mem_cons_self
            · exact mem_cons_of_mem _ (ih h)
          · exact mem_cons_of_mem _ (ih h)

/-- **The coins that may stake** are coins of the wallet. -/
theorem stakeCoins_some [LawfulEqOrd H] {nTime : UInt32} {setCoins : List (StakeCoin H)}
    {nAvailable : Int64} (h : mint.stakeCoins w nTime = some (setCoins, nAvailable)) :
    ∀ coin ∈ setCoins, mint.wallet.prevOut coin.prevout = some coin.txout ∧
      mint.wallet.nMinimumInputValue.toInt ≤ coin.txout.nValue.toInt := by
  intro coin hcoin
  obtain ⟨nBalance, -, h⟩ := Option.bind_eq_some_iff.mp h
  obtain ⟨nReserveBalance, -, h⟩ := Option.bind_eq_some_iff.mp h
  split at h
  · cases h
  · cases h
    rw [(mint.order.perm _).mem_iff] at hcoin
    split at hcoin
    · exact mem_availableCoinsMinConf (mem_selectStakeLoop hcoin)
    · exact mem_availableCoinsMinConf (mem_selectStakeLoop hcoin)

omit [DecidableEq H] in
/-- **A kernel** is one of the coins, and its script is supported. -/
theorem findKernel_some {nBits nTime : UInt32} {setCoins : List (StakeCoin H)}
    {kernel : StakeKernel H} (h : mint.findKernel w nBits nTime setCoins = some kernel) :
    kernel.coin ∈ setCoins ∧ kernelScript mint.hashes mint.keystore kernel.coin.txout.scriptPubKey =
      some (kernel.key, kernel.scriptPubKeyOut) := by
  induction setCoins with
  | nil => cases h
  | cons coin setCoins ih =>
    have hlater : mint.findKernel w nBits nTime setCoins = some kernel →
        kernel.coin ∈ coin :: setCoins ∧
          kernelScript mint.hashes mint.keystore kernel.coin.txout.scriptPubKey =
            some (kernel.key, kernel.scriptPubKeyOut) := fun hrest =>
      ⟨mem_cons_of_mem _ (ih hrest).1, (ih hrest).2⟩
    rw [findKernel] at h
    split at h
    · exact hlater h
    · split at h
      · exact hlater h
      · split at h
        · obtain ⟨⟨key, scriptPubKeyOut⟩, hscript, heq⟩ := Option.map_eq_some_iff.mp h
          cases heq
          exact ⟨mem_cons_self, hscript⟩
        · split at h
          · cases h
          · exact hlater h

omit [TransOrd H] in
/-- **The credit is what the inputs are worth**: coins are only added to less than the
threshold, and only smaller ones. -/
theorem combine_spec {kernel : StakeKernel H} {nAvailable nCredit nTotal : Int64}
    {setCoins vwtxPrev coins : List (StakeCoin H)} (hnonneg : ∀ coin ∈ setCoins, 0 ≤ coin.txout.nValue.toInt)
    (hcredit : nCredit.toInt = exact (fun coin => coin.txout.nValue) vwtxPrev)
    (h : mint.combine kernel nAvailable setCoins vwtxPrev nCredit = (coins, nTotal)) :
    nTotal.toInt = exact (fun coin => coin.txout.nValue) coins ∧
      ∃ added, coins = vwtxPrev ++ added ∧ ∀ coin ∈ added, coin ∈ setCoins := by
  induction setCoins generalizing vwtxPrev nCredit with
  | nil =>
    cases h
    exact ⟨hcredit, [], (append_nil _).symm, fun coin hcoin => hcoin⟩
  | cons coin setCoins ih =>
    have hrest := fun coin hcoin => hnonneg coin (mem_cons_of_mem _ hcoin)
    have hskip : mint.combine kernel nAvailable setCoins vwtxPrev nCredit = (coins, nTotal) →
        nTotal.toInt = exact (fun coin => coin.txout.nValue) coins ∧
          ∃ added, coins = vwtxPrev ++ added ∧ ∀ other ∈ added, other ∈ coin :: setCoins := by
      intro hnext
      obtain ⟨hvalue, added, hadded, hmem⟩ := ih hrest hcredit hnext
      exact ⟨hvalue, added, hadded, fun other hother => mem_cons_of_mem _ (hmem other hother)⟩
    have hstop : (vwtxPrev, nCredit) = (coins, nTotal) →
        nTotal.toInt = exact (fun coin => coin.txout.nValue) coins ∧
          ∃ added, coins = vwtxPrev ++ added ∧ ∀ other ∈ added, other ∈ coin :: setCoins := by
      intro heq
      cases heq
      exact ⟨hcredit, [], (append_nil _).symm, fun other hother => absurd hother not_mem_nil⟩
    rw [combine] at h
    split at h
    · split at h
      · exact hstop h
      · split at h
        · exact hstop h
        · rename_i hthreshold
          split at h
          · exact hstop h
          · split at h
            · exact hskip h
            · rename_i hsmall
              split at h
              · exact hskip h
              · rw [ge_iff_le, Int64.not_le, Int64.lt_iff_toInt_lt] at hthreshold hsmall
                have hcap := Int64.le_iff_toInt_le.mp mint.settings.nCombineThreshold_le
                have hmax : MAX_COMBINE_AMOUNT.toInt = 250000000000 := by decide
                have hvalue := hnonneg coin mem_cons_self
                have hlow := nCredit.le_toInt
                have hsum : (nCredit + coin.txout.nValue).toInt =
                    exact (fun coin => coin.txout.nValue) (vwtxPrev ++ [coin]) := by
                  rw [exact_append, ← hcredit, exact_cons, exact_nil, Int.add_zero, toInt_add]
                  exact bmod_eq_of_le (by omega) (by omega)
                obtain ⟨htotal, added, rfl, hmem⟩ := ih hrest hsum h
                refine ⟨htotal, coin :: added, append_assoc _ _ _, fun other hother => ?_⟩
                rcases List.mem_cons.mp hother with rfl | hother
                · exact mem_cons_self
                · exact mem_cons_of_mem _ (hmem other hother)
    · exact hskip h

/-- The inputs of a coinstake, with what the code takes them to be worth. -/
structure Inputs (mint : StakeMint H) (kernel : StakeKernel H) (vwtxPrev : List (StakeCoin H))
    (nCredit : Int64) : Prop where
  script : kernelScript mint.hashes mint.keystore kernel.coin.txout.scriptPubKey =
    some (kernel.key, kernel.scriptPubKeyOut)
  head : ∃ added, vwtxPrev = kernel.coin :: added
  credit : nCredit.toInt = exact (fun coin => coin.txout.nValue) vwtxPrev
  prevOut : ∀ coin ∈ vwtxPrev, mint.wallet.prevOut coin.prevout = some coin.txout
  nonneg : ∀ coin ∈ vwtxPrev, 0 ≤ coin.txout.nValue.toInt

theorem stakeInputs_some [LawfulEqOrd H] {nBits nTime : UInt32} {kernel : StakeKernel H}
    {vwtxPrev : List (StakeCoin H)} {nCredit : Int64} (hinput : 0 ≤ mint.wallet.nMinimumInputValue.toInt)
    (h : mint.stakeInputs w nBits nTime = some (kernel, vwtxPrev, nCredit)) :
    mint.Inputs kernel vwtxPrev nCredit := by
  obtain ⟨⟨setCoins, nAvailable⟩, hcoins, h⟩ := Option.bind_eq_some_iff.mp h
  obtain ⟨found, hkernel, h⟩ := Option.bind_eq_some_iff.mp h
  dsimp only at h
  split at h
  · cases h
  · obtain ⟨rfl, hcombine⟩ := Prod.mk.inj (Option.some.inj h)
    have hown := stakeCoins_some hcoins
    have hnonneg : ∀ coin ∈ setCoins, 0 ≤ coin.txout.nValue.toInt := fun coin hcoin =>
      Int.le_trans hinput (hown coin hcoin).2
    obtain ⟨hmem, hscript⟩ := findKernel_some hkernel
    have hfirst : (0 + found.coin.txout.nValue).toInt =
        exact (fun coin : StakeCoin H => coin.txout.nValue) [found.coin] := by
      rw [Int64.zero_add, exact_cons, exact_nil, Int.add_zero]
    obtain ⟨hcredit, added, rfl, hadded⟩ := combine_spec hnonneg hfirst hcombine
    have hcoin : ∀ coin ∈ [found.coin] ++ added, coin ∈ setCoins := by
      intro coin hcoin
      rcases List.mem_cons.mp hcoin with rfl | hcoin
      · exact hmem
      · exact hadded coin hcoin
    exact ⟨hscript, ⟨added, rfl⟩, hcredit, fun coin h => (hown coin (hcoin coin h)).1,
      fun coin h => hnonneg coin (hcoin coin h)⟩

omit [TransOrd H] [DecidableEq H] in
/-- The signing loop changes scripts only. -/
theorem foldlM_signStake {prevs : List (StakeCoin H × Nat)} {txNew signed : CTransaction H}
    (h : prevs.foldlM mint.signStake txNew = some signed) : CWallet.SameCoins txNew signed := by
  induction prevs generalizing txNew with
  | nil =>
    cases h
    exact ⟨rfl, rfl⟩
  | cons prev prevs ih =>
    rw [List.foldlM_cons] at h
    obtain ⟨mid, hstep, hrest⟩ := Option.bind_eq_some_iff.mp h
    obtain ⟨txin, hget, hstep⟩ := Option.bind_eq_some_iff.mp hstep
    obtain ⟨scriptSig, -, rfl⟩ := Option.map_eq_some_iff.mp hstep
    exact (CWallet.SameCoins.setScript hget scriptSig).trans (ih hrest)

/-- What the inputs are worth. -/
def inputValue (mint : StakeMint H) (stake : CTransaction H) : Int :=
  exact (fun txin => foundValue (mint.wallet.prevOut txin.prevout)) stake.vin

/-- The script that pays the staker: the one that the kernel, which is the first input, is
paid on to. -/
def stakerScript (mint : StakeMint H) (stake : CTransaction H) : Option CScript :=
  (stake.vin.head?.bind fun txin => mint.wallet.prevOut txin.prevout).bind fun txout =>
    (kernelScript mint.hashes mint.keystore txout.scriptPubKey).map Prod.snd

/-- The coinstake distributes the reward: it is worth its inputs and the reward, the
development fund gets its cut, and the staker gets the inputs back. -/
structure SplitsReward (w : StakeWorld H) (mint : StakeMint H) (nFees : Int64)
    (stake : CTransaction H) : Prop where
  total : sumValues stake.vout = mint.inputValue stake + (getProofOfStakeReward nFees).toInt
  devFund : mint.node.nBestHeight + 1 ≥ DEV_FUND_FEE_ACTIVATION_HEIGHT → 0 < getDevFundCut nFees →
    ∃ devScript, w.getDevFundScript = some devScript ∧
      (getDevFundCut nFees).toInt ≤ paidTo devScript stake.vout
  staker : ∃ script, mint.stakerScript stake = some script ∧
    mint.inputValue stake ≤ paidTo script stake.vout

omit [DecidableEq H] in
theorem inputValue_eq {kernel : StakeKernel H} {vwtxPrev : List (StakeCoin H)} {nCredit : Int64}
    {stake : CTransaction H} (hinputs : mint.Inputs kernel vwtxPrev nCredit)
    (hvin : stake.vin.map CTxIn.prevout = vwtxPrev.map StakeCoin.prevout) :
    mint.inputValue stake = nCredit.toInt := by
  have hprevouts : mint.inputValue stake =
      exact (fun prevout => foundValue (mint.wallet.prevOut prevout))
        (stake.vin.map CTxIn.prevout) := by
    rw [exact_map]
    rfl
  rw [hprevouts, hvin, exact_map, hinputs.credit]
  refine exact_congr fun coin hcoin => ?_
  rw [hinputs.prevOut coin hcoin]
  rfl

omit [DecidableEq H] in
theorem stakerScript_eq {kernel : StakeKernel H} {vwtxPrev : List (StakeCoin H)} {nCredit : Int64}
    {stake : CTransaction H} (hinputs : mint.Inputs kernel vwtxPrev nCredit)
    (hvin : stake.vin.map CTxIn.prevout = vwtxPrev.map StakeCoin.prevout) :
    mint.stakerScript stake = some kernel.scriptPubKeyOut := by
  obtain ⟨added, hhead⟩ := hinputs.head
  have hown := hinputs.prevOut kernel.coin (hhead ▸ mem_cons_self)
  rw [hhead, map_cons] at hvin
  cases hfirst : stake.vin with
  | nil =>
    rw [hfirst] at hvin
    cases hvin
  | cons txin rest =>
    rw [hfirst, map_cons] at hvin
    have hprevout : txin.prevout = kernel.coin.prevout := (List.cons.inj hvin).1
    rw [stakerScript, hfirst, head?_cons, Option.bind_some, hprevout, hown, Option.bind_some,
      hinputs.script, Option.map_some]

theorem createCoinStake_some [LawfulEqOrd H] {nBits : UInt32} {nFees : Int64}
    {txNew stake : CTransaction H} {key : CKey H} (hinput : 0 ≤ mint.wallet.nMinimumInputValue.toInt)
    (h : mint.createCoinStake w nBits nFees txNew = some (stake, key)) :
    ∃ kernel vwtxPrev nCredit, mint.Inputs kernel vwtxPrev nCredit ∧ 0 < nFees.toInt ∧
      stake.vin.map CTxIn.prevout = vwtxPrev.map StakeCoin.prevout ∧
      distributeReward mint.settings w.getDevFundScript mint.node.nBestHeight nFees nFees
        (nCredit + nFees) (⟨0, []⟩ :: stakerOutputs kernel.fSplit kernel.scriptPubKeyOut) =
          some stake.vout := by
  obtain ⟨⟨kernel, vwtxPrev, nCredit⟩, hinputs, h⟩ := Option.bind_eq_some_iff.mp h
  simp only at h
  split at h
  · cases h
  · have hreward : getProofOfStakeReward nFees = nFees := Int64.zero_add nFees
    rw [hreward] at h
    split at h
    · cases h
    · rename_i hpositive
      obtain ⟨vout, hvout, h⟩ := Option.bind_eq_some_iff.mp h
      obtain ⟨signed, hsigned, h⟩ := Option.bind_eq_some_iff.mp h
      split at h
      · cases h
      · cases h
        have hsame := foldlM_signStake hsigned
        rw [Int64.not_le, Int64.lt_iff_toInt_lt, Int64.toInt_zero] at hpositive
        refine ⟨kernel, vwtxPrev, nCredit, stakeInputs_some hinput hinputs, hpositive, ?_, ?_⟩
        · rw [hsame.vin, map_map]
          rfl
        · rw [hsame.vout, hvout]

/-- **Exactly when a coinstake splits its value**: the shares of the charities and the cut
of the development fund do not exceed the fees. -/
theorem createCoinStake_splits_iff [LawfulEqOrd H] {nBits : UInt32} {nFees : Int64}
    {txNew stake : CTransaction H} {key : CKey H} (hinput : 0 ≤ mint.wallet.nMinimumInputValue.toInt)
    (hdev : ∀ devScript ∈ w.getDevFundScript, ∃ destination, devScript = CScript.setDestination destination)
    (h : mint.createCoinStake w nBits nFees txNew = some (stake, key)) : SplitsReward w mint nFees stake ↔
      mint.settings.dueToOthers mint.node.nBestHeight nFees ≤ nFees.toInt := by
  obtain ⟨kernel, vwtxPrev, nCredit, hinputs, hfees, hvin, hvout⟩ := createCoinStake_some hinput h
  have hcredit : 0 ≤ nCredit.toInt := hinputs.credit ▸ exact_nonneg hinputs.nonneg
  obtain ⟨htotal, hstaker, hfund⟩ := distributeReward_values hfees hcredit
    (startsWithPush_of_kernelScript hinputs.script) hdev hvout
  have hvalue := inputValue_eq hinputs hvin
  have hscript := stakerScript_eq hinputs hvin
  have hreward : getProofOfStakeReward nFees = nFees := Int64.zero_add nFees
  have hshares := (@StakeSettings.exact_share_bounds mint.settings nFees).1
  have hdue := devFundDue_nonneg mint.node.nBestHeight nFees
  rw [StakeSettings.dueToOthers]
  constructor
  · intro hsplits
    obtain ⟨script, hsome, hle⟩ := hsplits.staker
    obtain rfl := Option.some.inj (hscript.symm.trans hsome)
    have hsum := hsplits.total
    rw [hvalue] at hle hsum
    rw [hreward] at hsum
    clear hfund
    omega
  · intro hle
    refine ⟨?_, fun hactive hcut => ?_, ⟨_, hscript, ?_⟩⟩
    · rw [hvalue, hreward]
      clear hfund
      omega
    · have hwhole : devFundDue mint.node.nBestHeight nFees = (getDevFundCut nFees).toInt :=
        if_pos ⟨hactive, hcut⟩
      rw [hwhole] at hfund
      exact hfund (Int64.lt_iff_toInt_lt.mp hcut)
    · rw [hvalue]
      clear hfund
      omega

end StakeMint

/-- A coin of a thousand in the block behind genesis. -/
def stakedCoin : CWalletTx (List Nat) := sampleCoin 1 (1000 * COIN) 1

def stakedBlock : CBlock (List Nat) :=
  sampleBlock 1 (sampleGenesis.getHash sampleConsensus) [stakedCoin.toCTransaction]

/-- A node whose best chain ends an hour behind that block, at this height. -/
def stakedNode (nBestHeight : Int) : StakeNode (List Nat) where
  toNode :=
    let genesis := Node.genesis sampleConsensus sampleGenesis
    let path := Node.newIndex sampleConsensus stakedBlock 1 1000 genesis.pindexBest :: genesis.pindexBest
    { genesis with
      txdb := ⟨⟨(∅ : TxIndexMap (List Nat)).insert stakedCoin.outPoint.hash
        (.new ⟨1, 1000, stakedBlock.firstTxPos 1000⟩ 1), ∅, some [0]⟩, none⟩
      blockFiles := fun nFile nBlockPos =>
        if nFile = 1 ∧ nBlockPos = 1000 then some stakedBlock else none
      mapBlockIndex := (genesis.mapBlockIndex.insert
        (stakedBlock.getHash sampleConsensus) path).insert [0] (lateIndex [0] 3600 :: path)
      pnext := Node.linksOf (lateIndex [0] 3600 :: path)
      pindexBest := lateIndex [0] 3600 :: path
      nBestHeight }
  nStakeModifier := (∅ : ExtTreeMap (List Nat) (UInt64 × Bool)).insert [0] (1, true)

/-- A wallet that stakes the coin for two charities with these percentages. -/
def charityMint (nBestHeight : Int) (first second : Int32) : StakeMint (List Nat) where
  wallet := sampleCWallet [stakedCoin]
  keystore := ⟨fun _ => some ⟨List.replicate 33 2, fun _ => none⟩, fun _ => none⟩
  hashes := pegSigCrypto.hashes
  node := stakedNode nBestHeight
  env := sampleEnv 0
  settings :=
    { reserveBalance := none, nCombineThreshold := 250 * COIN, nCombineThreshold_le := by decide
      nStakeSplitThreshold := 100, nHashDrift := 10, fStakeForCharity := true
      vStakeForCharity := [⟨"first", first⟩, ⟨"second", second⟩]
      address := fun _ => some (.keyID (Vector.replicate 20 5)) }
  order := ⟨id, fun _ => List.Perm.refl _⟩
  fShutdown _ := false

def charityRun (w : StakeWorld (List Nat)) (mint : StakeMint (List Nat)) :
    Option (CTransaction (List Nat) × CKey (List Nat)) :=
  mint.createCoinStake w 0x03000001 (10 * COIN) (.new 200000)

/-- The rules with an address of the development fund. -/
def fundWorld : StakeWorld (List Nat) :=
  { stakeWorld with getDevFundScript := some (payTo 9) }

/-- Seventy percent of the fees and the cut of the development fund leave something to the
staker. -/
theorem createCoinStake_splits_iff_fund :
    ∃ stake key, charityRun fundWorld (charityMint 60000 30 40) = some (stake, key) ∧
      StakeMint.SplitsReward fundWorld (charityMint 60000 30 40) (10 * COIN) stake := by
  have hrun : (charityRun fundWorld (charityMint 60000 30 40)).isSome = true := by decide +kernel
  obtain ⟨⟨stake, key⟩, hstake⟩ := Option.isSome_iff_exists.mp hrun
  refine ⟨stake, key, hstake, (StakeMint.createCoinStake_splits_iff (by decide) ?_ hstake).mpr
    (by decide +kernel)⟩
  intro devScript hdev
  exact ⟨.keyID (Vector.replicate 20 9), (Option.some.inj hdev).symm⟩

/-- **Two charities with sixty percent each** are both paid in full: the coinstake is worth
more than its inputs and the reward. -/
theorem createCoinStake_overpays : (∀ entry ∈ (charityMint 2 60 60).settings.vStakeForCharity,
      1 ≤ entry.nPercent ∧ entry.nPercent ≤ 100) ∧
    ∃ stake key, charityRun stakeWorld (charityMint 2 60 60) = some (stake, key) ∧
      (charityMint 2 60 60).inputValue stake + (getProofOfStakeReward (10 * COIN)).toInt <
        sumValues stake.vout ∧
      ¬StakeMint.SplitsReward stakeWorld (charityMint 2 60 60) (10 * COIN) stake := by
  refine ⟨?_, ?_⟩
  · intro entry hentry
    simp only [charityMint, List.mem_cons, not_mem_nil, or_false] at hentry
    rcases hentry with rfl | rfl <;> decide
  · have hrun : ((charityRun stakeWorld (charityMint 2 60 60)).any fun run =>
        (charityMint 2 60 60).inputValue run.1 + (getProofOfStakeReward (10 * COIN)).toInt <
          sumValues run.1.vout) = true := by decide +kernel
    rw [Option.any_eq_true] at hrun
    obtain ⟨⟨stake, key⟩, hstake, hmore⟩ := hrun
    have hmore' := of_decide_eq_true hmore
    exact ⟨stake, key, hstake, hmore', fun hsplits => Int.ne_of_lt hmore' hsplits.total.symm⟩

end MaryJaneCoin
