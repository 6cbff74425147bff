import MaryJaneCoin.PayJoin.Client

/-!
# What a PayJoin costs its sender

`ValidateProposal` bounds what the change is reduced by, and says nothing about
the inputs that the receiver added.  `SignAndBroadcast` signs those too if they
are the sender's.  So the sender's loss is bounded as it should be exactly if
the sender's own coins among the added inputs are worth no more than what is left
of the allowance.
-/

namespace MaryJaneCoin

open Std WrappedSum Fallible Option Bool Int64 CScript

namespace CWallet

variable {H : Type} [Ord H] [TransOrd H] [DecidableEq H] [LawfulEqOrd H] {wallet : CWallet H}
  {sha : Sha256 H} {txOriginal txProposal signed tx : CTransaction H} {script : CScript}
  {nAmount : Int64}

/-- What the sender loses: the own inputs, less the own outputs that do not pay
the receiver. -/
def netLoss (wallet : CWallet H) (scriptReceiver : CScript) (tx : CTransaction H) : Int :=
  exact wallet.getDebit tx.vin - exact (wallet.changeValue scriptReceiver) tx.vout

/-- The fee of the original transaction, all inputs of which are the wallet's
own. -/
def originalFee (wallet : CWallet H) (txOriginal : CTransaction H) : Int :=
  exact wallet.getDebit txOriginal.vin - sumValues txOriginal.vout

/-- What the inputs beyond those of the original are worth to the sender. -/
def addedDebit (wallet : CWallet H) (txOriginal txProposal : CTransaction H) : Int :=
  exact (fun prevout => foundValue (wallet.ownOut prevout))
    ((txProposal.vin.map CTxIn.prevout).diff (txOriginal.vin.map CTxIn.prevout))

/-- What is left of the allowance: the fee increase that is accepted, and what
the original pays too little, less the reduction of the change. -/
def allowance (wallet : CWallet H) (scriptReceiver : CScript) (nAmount : Int64)
    (txOriginal txProposal : CTransaction H) : Int :=
  PAYJOIN_MAX_FEE_INCREASE.toInt +
    (nAmount.toInt - exact (valueTo scriptReceiver) txOriginal.vout) -
    (exact (wallet.changeValue scriptReceiver) txOriginal.vout -
      exact (wallet.changeValue scriptReceiver) txProposal.vout)

/-- What `CreateOriginalTx` makes: distinct inputs of the wallet's own, and
outputs that pay the receiver or the wallet.  If the receiver is someone else,
it gets at most the amount, and the change is an amount. -/
structure Original (wallet : CWallet H) (scriptReceiver : CScript) (nAmount : Int64)
    (tx : CTransaction H) : Prop where
  nodup : (tx.vin.map CTxIn.prevout).Nodup
  outputs : ∀ txout ∈ tx.vout,
    txout.scriptPubKey = scriptReceiver ∨ wallet.isMine txout.scriptPubKey = true
  sent : wallet.isMine scriptReceiver = false →
    exact (valueTo scriptReceiver) tx.vout ≤ nAmount.toInt
  change : wallet.isMine scriptReceiver = false →
    0 ≤ exact (wallet.changeValue scriptReceiver) tx.vout ∧
      exact (wallet.changeValue scriptReceiver) tx.vout < 2 ^ 63

omit [Ord H] [TransOrd H] [DecidableEq H] [LawfulEqOrd H] in
theorem exact_valueTo_of_pays {s : Recipient} {vout : List CTxOut} (h : Pays s vout) :
    exact (valueTo s.1) vout = sumValues vout := by
  refine exact_congr ?_
  intro txout htxout
  rw [valueTo, if_pos (h.1 txout htxout)]

section

omit [TransOrd H] [DecidableEq H] [LawfulEqOrd H]

theorem exact_changeValue_of_pays (wallet : CWallet H) {s : Recipient}
    {vout : List CTxOut} (h : Pays s vout) :
    exact (wallet.changeValue s.1) vout = 0 := by
  refine exact_eq_zero ?_
  intro txout htxout
  rw [changeValue, h.1 txout htxout, bne_self_eq_false, Bool.and_false, if_neg Bool.false_ne_true]

theorem original_vout {s : Recipient} {vout vout' : List CTxOut} {drawn : Nat} {nChange : Int64}
    (hpays : Pays s vout) (h : wallet.withChange drawn nChange vout = some vout') :
    (∀ txout ∈ vout', txout.scriptPubKey = s.1 ∨ wallet.isMine txout.scriptPubKey = true) ∧
      (wallet.isMine s.1 = false → exact (valueTo s.1) vout' ≤ s.2.toInt ∧ 0 ≤
        exact (wallet.changeValue s.1) vout' ∧ exact (wallet.changeValue s.1) vout' < 2 ^ 63) := by
  have hsent : exact (valueTo s.1) vout ≤ s.2.toInt := (exact_valueTo_of_pays hpays).trans_le hpays.2
  have hnone := exact_changeValue_of_pays wallet hpays
  unfold withChange at h
  split at h
  · rename_i hpos
    obtain ⟨keyID, hkey, rfl⟩ := map_eq_some_iff.mp h
    have hmine := wallet.reservedKey_mine keyID hkey
    have hperm := List.perm_insertIdx (⟨nChange, setDestination (.keyID keyID)⟩ : CTxOut) vout
      (getRandInt_le drawn vout.length)
    constructor
    · intro txout htxout
      rcases List.mem_cons.mp (hperm.mem_iff.mp htxout) with rfl | htxout
      · exact Or.inr hmine
      · exact Or.inl (hpays.1 txout htxout)
    · intro hother
      have hne : setDestination (.keyID keyID) ≠ s.1 := by
        rintro heq
        rw [heq, hother] at hmine
        cases hmine
      have hlt := nChange.toInt_lt
      rw [gt_iff_lt, lt_iff_toInt_lt, toInt_zero] at hpos
      rw [exact_perm hperm, exact_perm hperm, exact_cons, exact_cons, valueTo, if_neg hne,
        changeValue, hmine, bne_iff_ne.mpr hne, Bool.and_self, if_pos rfl, toInt_zero, hnone]
      simp only
      omega
  · cases h
    refine ⟨fun txout htxout => Or.inl (hpays.1 txout htxout), fun _ => ⟨hsent, ?_⟩⟩
    rw [hnone]
    decide

end

/-- **What `CreateOriginalTx` makes.** -/
theorem original_of_createOriginalTx {settings : WalletSettings}
    {selectCoins : Int64 → Option (CoinSelection sha wallet)} {draw : Int64 → Nat}
    {wtxNew : CTransaction H} {fuel : Nat} {strAddress : String} {address : Option CTxDestination}
    (h : wallet.createOriginalTx sha settings selectCoins draw wtxNew fuel strAddress address nAmount =
      some (.ok txOriginal)) : ∃ dest, address = some dest ∧
      wallet.Original (setDestination dest) nAmount txOriginal := by
  unfold createOriginalTx at h
  split at h
  · cases h
  · rename_i dest
    split at h
    · cases h
    · rename_i hpos
      obtain ⟨nBalance, _, h⟩ := bind_eq_some_iff.mp h
      split at h
      · cases h
      · obtain ⟨⟨created, nFee⟩, hcreated, h⟩ := map_eq_some_iff.mp h
        simp only at h
        split at h
        · cases h
          obtain ⟨vout, nRemainder, selection, drawn, nChange, hsend, hvin, hchange⟩ :=
            createTransaction_created hcreated
          have hamount : 0 < nAmount.toInt := by
            rw [le_iff_toInt_le, toInt_zero] at hpos
            omega
          obtain ⟨houtputs, hvalues⟩ := original_vout (pays_sendOutputs hamount hsend) hchange
          refine ⟨dest, rfl, ?_, houtputs, fun hother => (hvalues hother).1, fun hother => (hvalues hother).2⟩
          rw [hvin]
          refine selection.nodup.map_on ?_
          intro coin hcoin coin' hcoin' heq
          exact eq_of_mem_availableCoins (selection.available coin hcoin)
            (selection.available coin' hcoin') heq
        · split at h
          · cases h
          · cases h

omit [TransOrd H] [LawfulEqOrd H] in
/-- **What `ValidateProposal` makes sure of**, as far as the sender's own coins
are concerned. -/
theorem validateProposal_ok {dest : CTxDestination}
    (h : wallet.validateProposal txOriginal txProposal (some dest) nAmount = .ok ()) :
    txOriginal.vin.map CTxIn.prevout ⊆ txProposal.vin.map CTxIn.prevout ∧
      wrapped (wallet.changeValue (setDestination dest)) txOriginal.vout -
        wrapped (wallet.changeValue (setDestination dest)) txProposal.vout ≤
          PAYJOIN_MAX_FEE_INCREASE := by
  unfold validateProposal at h
  split at h
  · cases h
  · rename_i hnone
    simp only [ite_error_eq_ok] at h
    obtain ⟨_, _, hreduction, _⟩ := h
    constructor
    · intro prevout hprevout
      obtain ⟨txin, htxin, rfl⟩ := List.mem_map.mp hprevout
      have hkept := List.find?_eq_none.mp hnone txin htxin
      simpa using hkept
    · exact Int64.not_lt.mp hreduction

omit [LawfulEqOrd H] in
theorem exact_getDebit_proposal (hnodup : (txOriginal.vin.map CTxIn.prevout).Nodup)
    (hkept : txOriginal.vin.map CTxIn.prevout ⊆ txProposal.vin.map CTxIn.prevout) :
    exact wallet.getDebit txProposal.vin =
      exact wallet.getDebit txOriginal.vin + wallet.addedDebit txOriginal txProposal := by
  have hperm := List.subperm_append_diff_self_of_count_le fun prevout _ =>
    (hnodup.subperm hkept).count_le prevout
  rw [exact_getDebit, exact_getDebit, ← exact_perm hperm, exact_append]
  rfl

omit [TransOrd H] [DecidableEq H] [LawfulEqOrd H] in
theorem sumValues_original (h : wallet.Original script nAmount tx) : sumValues tx.vout =
      exact (valueTo script) tx.vout + exact (wallet.changeValue script) tx.vout := by
  refine exact_add ?_
  intro txout htxout
  rw [valueTo, changeValue]
  by_cases hpays : txout.scriptPubKey = script
  · rw [if_pos hpays, hpays, bne_self_eq_false, Bool.and_false, if_neg Bool.false_ne_true,
      toInt_zero, Int.add_zero]
  · rw [if_neg hpays, (h.outputs txout htxout).resolve_left hpays, bne_iff_ne.mpr hpays,
      Bool.and_self, if_pos rfl, toInt_zero, Int.zero_add]

omit [LawfulEqOrd H] in
/-- **The loss in numbers**: it is bounded as it should be if and only if the
added inputs are worth no more than what is left of the allowance. -/
theorem netLoss_le_iff (horiginal : wallet.Original script nAmount txOriginal)
    (hkept : txOriginal.vin.map CTxIn.prevout ⊆ txProposal.vin.map CTxIn.prevout)
    (hsigned : SameCoins txProposal signed) : wallet.netLoss script signed ≤
        nAmount.toInt + wallet.originalFee txOriginal + PAYJOIN_MAX_FEE_INCREASE.toInt ↔
      wallet.addedDebit txOriginal txProposal ≤ wallet.allowance script nAmount txOriginal txProposal := by
  rw [netLoss, exact_getDebit signed.vin, hsigned.vin, ← exact_getDebit, hsigned.vout,
    exact_getDebit_proposal horiginal.nodup hkept, originalFee, sumValues_original horiginal, allowance]
  constructor
  · intro hle
    omega
  · intro hle
    omega

end CWallet

/-- The checks of `CheckTransaction` on outputs imply those of `GetValueOut`. -/
theorem valueOut_of_checks {refused : CTxOut → Bool} {vout : List CTxOut} {start nValueOut : Int64}
    (h : vout.foldlM (fun nValueOut txout =>
      if refused txout then none
      else if txout.nValue < 0 then none
      else if txout.nValue > MAX_MONEY then none
      else if !moneyRange (nValueOut + txout.nValue) then none
      else some (nValueOut + txout.nValue)) start = some nValueOut) :
    vout.foldlM (fun nValueOut txout =>
      if !moneyRange txout.nValue || !moneyRange (nValueOut + txout.nValue) then none
      else some (nValueOut + txout.nValue)) start = some nValueOut := by
  induction vout generalizing start with
  | nil => exact h
  | cons txout vout ih =>
    obtain ⟨mid, hmid, hrest⟩ := OptionLoop.foldlM_cons h
    rw [List.foldlM_cons]
    split at hmid
    · cases hmid
    · split at hmid
      · cases hmid
      · rename_i hlow
        split at hmid
        · cases hmid
        · rename_i hhigh
          split at hmid
          · cases hmid
          · rename_i hsum
            have hrange : moneyRange txout.nValue = true := by
              rw [moneyRange, and_eq_true, decide_eq_true_iff, decide_eq_true_iff]
              exact ⟨Int64.not_lt.mp hlow, Int64.not_lt.mp hhigh⟩
            rw [not_eq_true, not_eq_false'] at hsum
            rw [hrange, hsum]
            cases hmid
            exact ih hrest

variable {H : Type} [Ord H] [TransOrd H] [DecidableEq H] [LawfulEqOrd H] {wallet : CWallet H}
  {sha : Sha256 H} {txOriginal txProposal signed : CTransaction H} {nAmount : Int64}

omit [TransOrd H] [LawfulEqOrd H] in
theorem CWallet.changeValue_of_checkTransaction (wallet : CWallet H) {crypto : MWCrypto H} (script : CScript)
    (h : signed.checkTransaction crypto = true) : 0 ≤ exact (wallet.changeValue script) signed.vout ∧
      exact (wallet.changeValue script) signed.vout < 2 ^ 63 := by
  unfold CTransaction.checkTransaction at h
  simp only [and_eq_true] at h
  obtain ⟨⟨⟨⟨⟨⟨⟨_, _⟩, _⟩, houtputs⟩, _⟩, _⟩, _⟩, _⟩ := h
  obtain ⟨nValueOut, houtputs⟩ := isSome_iff_exists.mp houtputs
  obtain ⟨hrange, hsum, hnonneg⟩ := CTransaction.getValueOut_spec (valueOut_of_checks houtputs)
  have hbounds : ∀ txout ∈ signed.vout, 0 ≤ (wallet.changeValue script txout).toInt ∧
      (wallet.changeValue script txout).toInt ≤ txout.nValue.toInt := by
    intro txout htxout
    have hvalue := hnonneg txout htxout
    rw [CWallet.changeValue]
    split
    · exact ⟨hvalue, Int.le_refl _⟩
    · exact ⟨toInt_zero.ge, toInt_zero.le.trans hvalue⟩
  have hle := exact_le fun txout htxout => (hbounds txout htxout).2
  rw [← sumValues_eq_exact, ← hsum] at hle
  exact ⟨exact_nonneg fun txout htxout => (hbounds txout htxout).1, Int.lt_of_le_of_lt hle nValueOut.toInt_lt⟩

omit [LawfulEqOrd H] in
theorem CWallet.checkTransaction_of_signAndBroadcast {c : Consensus H} {chain : ChainView H}
    {policy : RelayPolicy H} {result : CPayJoinResult H}
    (h : wallet.signAndBroadcast c chain policy txProposal txOriginal = .ok (signed, result)) :
    signed.checkTransaction c.toMWCrypto = true := by
  obtain ⟨_, _, h⟩ := bind_eq_ok.mp h
  simp only [ite_error_eq_ok, Except.ok.injEq, Prod.mk.injEq] at h
  obtain ⟨_, haccept, hsame, _⟩ := h
  rw [hsame] at haccept
  by_contra hcheck
  have hrules : CTxMemPool.checkRules c chain.node policy signed = false := by
    rw [CTxMemPool.checkRules, eq_false_iff.mpr hcheck]
    simp only [Bool.false_and]
  refine haccept ?_
  rw [CTxMemPool.accept]
  simp only [hrules, Bool.not_false, if_true]

/-- **When a PayJoin is safe for its sender.**  Every input that is the sender's
own is signed.  The loss is bounded as it should be if and only if the sender's
own coins among the added inputs are worth no more than what is left of the
allowance.  If the transaction is broadcast and pays someone else, the allowance
is not overdrawn, so a proposal that adds no coin of the sender is safe. -/
theorem sender_safety {settings : WalletSettings}
    {selectCoins : Int64 → Option (CoinSelection sha wallet)} {draw : Int64 → Nat}
    {wtxNew : CTransaction H} {fuel : Nat} {strAddress : String} {address : Option CTxDestination}
    (hcreate : wallet.createOriginalTx sha settings selectCoins draw wtxNew fuel strAddress address
      nAmount = some (.ok txOriginal))
    (hvalid : wallet.validateProposal txOriginal txProposal address nAmount = .ok ())
    (hsign : wallet.signOwn txProposal = .ok signed) : ∃ dest, address = some dest ∧
      wallet.AllSigned signed ∧ (wallet.netLoss (CScript.setDestination dest) signed ≤
          nAmount.toInt + wallet.originalFee txOriginal + PAYJOIN_MAX_FEE_INCREASE.toInt ↔
        wallet.addedDebit txOriginal txProposal ≤
          wallet.allowance (CScript.setDestination dest) nAmount txOriginal txProposal) ∧
      ∀ (c : Consensus H) (chain : ChainView H) (policy : RelayPolicy H)
        (result : CPayJoinResult H), wallet.signAndBroadcast c chain policy txProposal txOriginal =
        .ok (signed, result) → wallet.isMine (CScript.setDestination dest) = false →
        0 ≤ wallet.allowance (CScript.setDestination dest) nAmount txOriginal txProposal := by
  obtain ⟨dest, rfl, horiginal⟩ := CWallet.original_of_createOriginalTx hcreate
  obtain ⟨hkept, hreduction⟩ := CWallet.validateProposal_ok hvalid
  have hsame := CWallet.signOwn_ok hsign
  refine ⟨dest, rfl, CWallet.signOwn_allSigned hsign, CWallet.netLoss_le_iff horiginal hkept hsame, ?_⟩
  intro c chain policy result hbroadcast hother
  have hcheck := CWallet.checkTransaction_of_signAndBroadcast hbroadcast
  have hsent := horiginal.sent hother
  obtain ⟨hlow, hhigh⟩ := horiginal.change hother
  obtain ⟨hlow', hhigh'⟩ := CWallet.changeValue_of_checkTransaction wallet
    (CScript.setDestination dest) hcheck
  rw [hsame.vout] at hlow' hhigh'
  rw [Int64.le_iff_toInt_le, Int64.toInt_sub, toInt_wrapped_of_fits (by omega) hhigh,
    toInt_wrapped_of_fits (by omega) hhigh', Int.bmod_eq_of_le (by omega) (by omega)] at hreduction
  rw [CWallet.allowance]
  omega

/-- The first available coins of a sample wallet. -/
def firstCoins (wallet : CWallet (List Nat)) (n : Nat) :
    CoinSelection sampleConsensus.toSha256 wallet where
  coins := (wallet.availableCoins sampleConsensus.toSha256 true).dedup.take n
  nValueRet := wrapped (fun coin => coin.txout.nValue)
    ((wallet.availableCoins sampleConsensus.toSha256 true).dedup.take n)
  available := fun _ hcoin => List.mem_dedup.mp (List.mem_of_mem_take hcoin)
  nodup := (List.nodup_dedup _).sublist (List.take_sublist n _)

/-- The wallet of the sender has a coin of ten and one of twenty, and the
receiver has one of three. -/
def payerCoins : List (CWalletTx (List Nat)) := [sampleCoin 1 (10 * COIN) 1, sampleCoin 2 (20 * COIN) 1]

def payeeCoin : CWalletTx (List Nat) := sampleCoin 3 (3 * COIN) 2

/-- One coin is to be sent to the key 2. -/
def originalRun : Option (Except (CPayJoinClient.Error (List Nat)) (CTransaction (List Nat))) :=
  (sampleCWallet payerCoins).createOriginalTx sampleConsensus.toSha256 ⟨0, false, 900⟩
    (fun _ => some (firstCoins (sampleCWallet payerCoins) 1)) (fun _ => 0) (sampleTx 4 [] []) 5 ""
    (some (.keyID (Vector.replicate 20 2))) COIN

/-- The original with one more input, the value of which is paid to the key 2. -/
def proposalWith (added : CWalletTx (List Nat)) (nValue : Int64)
    (txOriginal : CTransaction (List Nat)) : CTransaction (List Nat) :=
  { txOriginal with
    vin := txOriginal.vin ++ [added.outPoint.newInput]
    vout := txOriginal.vout ++ [⟨nValue, payTo 2⟩] }

/-- `ValidateProposal` for the sample payment. -/
def validationRun (txOriginal txProposal : CTransaction (List Nat)) :
    Except (CPayJoinClient.Error (List Nat)) Unit :=
  (sampleCWallet payerCoins).validateProposal txOriginal txProposal
    (some (.keyID (Vector.replicate 20 2))) COIN

/-- What the sender of the sample payment may lose. -/
def lossBound (txOriginal : CTransaction (List Nat)) : Int :=
  COIN.toInt + (sampleCWallet payerCoins).originalFee txOriginal + PAYJOIN_MAX_FEE_INCREASE.toInt

theorem sender_safety_honest : ∃ txOriginal signed, originalRun = some (.ok txOriginal) ∧
      (sampleCWallet payerCoins).signOwn (proposalWith payeeCoin (3 * COIN) txOriginal) =
      .ok signed ∧ (sampleCWallet payerCoins).netLoss (payTo 2) signed ≤ lossBound txOriginal := by
  have hrun : (originalRun.any fun made => made.toOption.any fun txOriginal =>
      let txProposal := proposalWith payeeCoin (3 * COIN) txOriginal
      (validationRun txOriginal txProposal).toOption.isSome &&
        ((sampleCWallet payerCoins).signOwn txProposal).toOption.isSome &&
        decide ((sampleCWallet payerCoins).addedDebit txOriginal txProposal ≤
          (sampleCWallet payerCoins).allowance (payTo 2) COIN txOriginal txProposal)) = true := by
    decide +kernel
  rw [any_eq_true] at hrun
  obtain ⟨made, hmade, hrun⟩ := hrun
  rw [any_eq_true] at hrun
  obtain ⟨txOriginal, hcreated, hrun⟩ := hrun
  simp only [Bool.and_eq_true, decide_eq_true_iff] at hrun
  obtain ⟨⟨hvalid, hsign⟩, hadded⟩ := hrun
  obtain ⟨_, hvalid⟩ := isSome_iff_exists.mp hvalid
  obtain ⟨signed, hsign⟩ := isSome_iff_exists.mp hsign
  rw [toOption_eq_some] at hcreated hvalid hsign
  subst hcreated
  obtain ⟨dest, hdest, _, hsafe, _⟩ := sender_safety hmade hvalid hsign
  cases hdest
  exact ⟨txOriginal, signed, hmade, hsign, hsafe.mpr hadded⟩

/-- **A receiver who adds a coin of the sender.**  The coin of twenty is signed
and the transaction is accepted; its value goes to the receiver. -/
theorem sender_coin_taken : ∃ txOriginal signed result, originalRun = some (.ok txOriginal) ∧
      validationRun txOriginal (proposalWith (sampleCoin 2 (20 * COIN) 1) (20 * COIN) txOriginal) =
      .ok () ∧ (sampleCWallet payerCoins).signAndBroadcast sampleConsensus
        (sampleView (payeeCoin :: payerCoins)) sampleRelay
        (proposalWith (sampleCoin 2 (20 * COIN) 1) (20 * COIN) txOriginal) txOriginal = .ok (signed,
      result) ∧ ¬ (sampleCWallet payerCoins).netLoss (payTo 2) signed ≤ lossBound txOriginal := by
  have hrun : (originalRun.any fun made => made.toOption.any fun txOriginal =>
      let txProposal := proposalWith (sampleCoin 2 (20 * COIN) 1) (20 * COIN) txOriginal
      (validationRun txOriginal txProposal).toOption.isSome &&
        ((sampleCWallet payerCoins).signAndBroadcast sampleConsensus
          (sampleView (payeeCoin :: payerCoins)) sampleRelay txProposal txOriginal).toOption.any
          fun sent => decide (lossBound txOriginal < (sampleCWallet payerCoins).netLoss (payTo 2) sent.1)) =
      true := by decide +kernel
  rw [any_eq_true] at hrun
  obtain ⟨made, hmade, hrun⟩ := hrun
  rw [any_eq_true] at hrun
  obtain ⟨txOriginal, hcreated, hrun⟩ := hrun
  simp only [Bool.and_eq_true] at hrun
  obtain ⟨hvalid, hsent⟩ := hrun
  obtain ⟨_, hvalid⟩ := isSome_iff_exists.mp hvalid
  rw [any_eq_true] at hsent
  obtain ⟨⟨signed, result⟩, hsent, hloss⟩ := hsent
  rw [toOption_eq_some] at hcreated hvalid hsent
  subst hcreated
  exact ⟨txOriginal, signed, result, hmade, hvalid, hsent, Int.not_le.mpr (of_decide_eq_true hloss)⟩

end MaryJaneCoin
