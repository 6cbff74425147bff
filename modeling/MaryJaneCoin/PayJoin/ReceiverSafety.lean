import MaryJaneCoin.PayJoin.Server

/-!
# What a PayJoin costs its receiver

`CreateProposal` takes the value that it added to be the difference of two sums:
the inputs of the proposal, less the inputs of the original.  An input of the
original that is the receiver's own and that `GetTransaction` finds is in both,
so it cancels.  It is signed all the same, and the receiver gets no change for
it.
-/

namespace MaryJaneCoin

open Std WrappedSum Fallible List Int64

section

variable {H α : Type}

theorem perm_insertAt (draw : Nat) (items : List α) (item : α) :
    (insertAt draw items item).Perm (item :: items) :=
  perm_insertIdx item items (Nat.le_of_lt_succ (getRandInt_lt draw (Nat.succ_pos _)))

/-- **The inputs of the proposal**: the coins, and what was there. -/
theorem perm_insertInputs (draw : Nat → Nat) (coins : List (COutput H)) (vin : List (CTxIn H)) :
    (insertInputs draw coins vin).Perm (coins.map (fun coin => coin.prevout.newInput) ++ vin) := by
  have hloop : ∀ start, ((coins.zipIdx start).foldl (fun vin coin =>
      insertAt (draw coin.2) vin coin.1.prevout.newInput) vin).Perm
      (coins.map (fun coin => coin.prevout.newInput) ++ vin) := by
    induction coins generalizing vin with
    | nil => exact fun start => List.Perm.refl _
    | cons coin coins ih =>
      intro start
      rw [zipIdx_cons, foldl_cons, map_cons]
      refine (ih _ (start + 1)).trans ?_
      refine ((perm_insertAt (draw start) vin coin.prevout.newInput).append_left _).trans ?_
      exact perm_middle
  exact hloop 0

theorem selectLoop_subset {nPaymentAmount nValueIn : Int64} {nSelected : Nat} {coins : List (COutput H)} :
    (selectLoop nPaymentAmount nSelected nValueIn coins).1 ⊆ coins := by
  induction coins generalizing nSelected nValueIn with
  | nil => exact List.Subset.refl _
  | cons coin coins ih =>
    rw [selectLoop]
    split
    · split
      · exact nil_subset _
      · exact cons_subset_cons coin ih
    · exact nil_subset _

end

namespace CWallet

variable {H : Type} [Ord H] [TransOrd H] [DecidableEq H] {sha : Sha256 H} {wallet : CWallet H}
  {chain : ChainView H} {txOriginal tx tx' : CTransaction H} {coin : COutput H}

/-- A transaction that both the wallet and the node have is the same. -/
def Agrees (wallet : CWallet H) (chain : ChainView H) : Prop :=
  ∀ (hash : H) (wtx : CWalletTx H) (tx : CTransaction H), wallet.mapWallet[hash]? = some wtx →
    chain.getTransaction hash = some tx → tx.vout = wtx.vout

/-- The coins that `CreateProposal` adds. -/
def addedCoins (sha : Sha256 H) (wallet : CWallet H) (txOriginal : CTransaction H) :
    List (COutput H) := (wallet.selectReceiverInputs sha txOriginal).1

/-- The value of an own input that `GetTransaction` finds. -/
def knownDebit (wallet : CWallet H) (chain : ChainView H) (txin : CTxIn H) : Int64 :=
  if (chain.prevOut txin.prevout).isSome then wallet.getDebit txin else 0

/-- The value of an own input that `GetTransaction` does not find. -/
def unknownDebit (wallet : CWallet H) (chain : ChainView H) (txin : CTxIn H) : Int64 :=
  if (chain.prevOut txin.prevout).isSome then 0 else wallet.getDebit txin

section

omit [DecidableEq H]

theorem toInt_getDebit (wallet : CWallet H) (chain : ChainView H) (txin : CTxIn H) :
    (wallet.getDebit txin).toInt =
      (wallet.knownDebit chain txin).toInt + (wallet.unknownDebit chain txin).toInt := by
  rw [knownDebit, unknownDebit]
  split
  · rw [toInt_zero, Int.add_zero]
  · rw [toInt_zero, Int.zero_add]

theorem ownOut_of_prevOut (hagree : wallet.Agrees chain) {prevout : COutPoint H}
    {own found : CTxOut} (hown : wallet.ownOut prevout = some own)
    (hfound : chain.prevOut prevout = some found) : found = own := by
  obtain ⟨wtx, hwtx, hget⟩ := Option.bind_eq_some_iff.mp (Option.filter_eq_some_iff.mp hown).1
  obtain ⟨tx, htx, hget'⟩ := Option.bind_eq_some_iff.mp hfound
  rw [hagree _ _ _ hwtx htx, hget] at hget'
  exact (Option.some.inj hget').symm

/-- **One input of the original in the two sums**: what remains is an own input
that `GetTransaction` does not find. -/
theorem getDebit_add_foreignValue (hagree : wallet.Agrees chain) (txin : CTxIn H) :
    wallet.getDebit txin + wallet.foreignValue chain txin =
      wallet.unknownDebit chain txin + inputValue chain txin := by
  rw [foreignValue, unknownDebit, inputValue, getDebit]
  cases hown : wallet.ownOut txin.prevout with
  | none =>
    rw [if_neg (by simp), foundValue, Option.map_none, Option.getD_none, ite_self]
  | some own =>
    rw [Option.isSome_some, if_pos rfl]
    cases hfound : chain.prevOut txin.prevout with
    | none => rfl
    | some found =>
      rw [ownOut_of_prevOut hagree hown hfound, Option.isSome_some, if_pos rfl, Int64.add_zero,
        Int64.zero_add]

end

theorem mem_availableCoins_of_added (h : coin ∈ wallet.addedCoins sha txOriginal) :
    coin ∈ wallet.availableCoins sha true := by
  obtain ⟨⟨score, out⟩, hsorted, rfl⟩ := mem_map.mp (selectLoop_subset h)
  obtain ⟨⟨out, i⟩, hzip, hscored⟩ := mem_filterMap.mp ((mem_insertionSort _).mp hsorted)
  simp only at hscored
  split at hscored
  · cases hscored
  · split at hscored
    · cases hscored
    · cases hscored
      exact mem_of_getElem? (mem_zipIdx_iff_getElem?.mp hzip)

variable [LawfulEqOrd H]

theorem ownOut_of_added (h : coin ∈ wallet.addedCoins sha txOriginal) :
    wallet.ownOut coin.prevout.newInput.prevout = some coin.txout :=
  ownOut_of_mem_availableCoins (mem_availableCoins_of_added h)

/-- What `CreateProposal` counts as added: the coins it takes, and the own
inputs of the original that `GetTransaction` does not find. -/
def contribution (sha : Sha256 H) (wallet : CWallet H) (chain : ChainView H)
    (txOriginal : CTransaction H) : Int64 :=
  wrapped (fun coin => coin.txout.nValue) (wallet.addedCoins sha txOriginal) +
    wrapped (wallet.unknownDebit chain) txOriginal.vin

/-- **`nReceiverAddedValue`**: own inputs that `GetTransaction` finds cancel. -/
theorem receiverAddedValue_eq (hagree : wallet.Agrees chain) (hvin : tx.vin.Perm
    ((wallet.addedCoins sha txOriginal).map (fun coin => coin.prevout.newInput) ++
      txOriginal.vin)) :
    wallet.receiverAddedValue chain txOriginal tx = wallet.contribution sha chain txOriginal := by
  have hcoins : ∀ coin ∈ wallet.addedCoins sha txOriginal,
      wallet.getDebit coin.prevout.newInput + wallet.foreignValue chain coin.prevout.newInput =
        coin.txout.nValue := by
    intro coin hcoin
    rw [getDebit, foreignValue, ownOut_of_added hcoin, Option.isSome_some, if_pos rfl, Int64.add_zero]
    rfl
  rw [receiverAddedValue, wrapped_add, wrapped_perm hvin, wrapped_append, wrapped_map,
    wrapped_congr hcoins, wrapped_congr fun txin _ => getDebit_add_foreignValue hagree txin,
    ← wrapped_add, ← Int64.add_assoc, Int64.add_sub_cancel]
  rfl

theorem exact_getDebit_added (hvin : tx.vin.Perm
    ((wallet.addedCoins sha txOriginal).map (fun coin => coin.prevout.newInput) ++
      txOriginal.vin)) : exact wallet.getDebit tx.vin =
      exact (fun coin => coin.txout.nValue) (wallet.addedCoins sha txOriginal) +
        exact wallet.getDebit txOriginal.vin := by
  have hcoins : ∀ coin ∈ wallet.addedCoins sha txOriginal,
      wallet.getDebit coin.prevout.newInput = coin.txout.nValue := by
    intro coin hcoin
    rw [getDebit, ownOut_of_added hcoin]
    rfl
  rw [exact_perm hvin, exact_append, exact_map, exact_congr hcoins]

omit [TransOrd H] [DecidableEq H] [LawfulEqOrd H] in
/-- **The change of the receiver**: what was added, less the fee, if that is
something. -/
theorem adjustOutputs_ok {draw : Nat} {nReceiverAmount nAddedInputValue : Int64}
    (h : wallet.adjustOutputs draw tx nReceiverAmount nAddedInputValue = .ok tx') :
    tx'.vin = tx.vin ∧ exact wallet.ownValue tx'.vout =
      exact wallet.ownValue tx.vout + max MIN_TX_FEE.toInt nAddedInputValue.toInt - MIN_TX_FEE.toInt := by
  unfold adjustOutputs at h
  split at h
  · cases h
  · rename_i hpos
    have hadded : 0 < nAddedInputValue.toInt := by
      rw [le_iff_toInt_le, toInt_zero] at hpos
      omega
    have hchange : (nAddedInputValue - MIN_TX_FEE).toInt =
        nAddedInputValue.toInt - MIN_TX_FEE.toInt := by
      have hfee : MIN_TX_FEE.toInt = 42000000 := by decide
      have hlt := nAddedInputValue.toInt_lt
      rw [toInt_sub]
      exact Int.bmod_eq_of_le (by omega) (by omega)
    simp only at h
    split at h
    · rename_i hnone
      cases h
      rw [le_iff_toInt_le, hchange, toInt_zero] at hnone
      rw [max_eq_left (by omega)]
      exact ⟨rfl, by omega⟩
    · rename_i hsome
      rw [le_iff_toInt_le, hchange, toInt_zero] at hsome
      split at h
      · cases h
      · rename_i keyID hkey
        cases h
        refine ⟨rfl, ?_⟩
        simp only
        rw [exact_perm (perm_insertAt _ _ _), exact_cons, ownValue,
          if_pos (wallet.keyFromPool_mine keyID hkey), hchange, max_eq_right (by omega)]
        omega

section

omit [LawfulEqOrd H]

theorem validateOriginalTx_ok {nReceiverAmount : Int64}
    (h : wallet.validateOriginalTx sha tx = .ok nReceiverAmount) :
    nReceiverAmount = wrapped wallet.ownValue tx.vout := by
  simp only [validateOriginalTx, ite_error_eq_ok, Except.ok.injEq] at h
  exact h.2.2.2.2.2.2.2.symm

theorem addReceiverInputs_ok {draw : Nat → Nat}
    (h : wallet.addReceiverInputs sha draw tx txOriginal = .ok tx') :
    tx'.vin = insertInputs draw (wallet.addedCoins sha txOriginal) tx.vin ∧ tx'.vout = tx.vout := by
  simp only [addReceiverInputs, ite_error_eq_ok, Except.ok.injEq] at h
  obtain ⟨_, _, rfl⟩ := h
  exact ⟨rfl, rfl⟩

/-- **What `CreateProposal` did** when it returns a proposal. -/
theorem createProposal_ok {draw : Nat → Nat} {nTime : Int64} {proposal : CPayJoinProposal H}
    (h : wallet.createProposal sha chain draw nTime txOriginal = .ok proposal) :
    ∃ txAdded txAdjusted, txAdded.vin = insertInputs draw (wallet.addedCoins sha txOriginal)
        txOriginal.vin ∧ txAdded.vout = txOriginal.vout ∧
      wallet.adjustOutputs (draw PAYJOIN_MAX_RECEIVER_INPUTS) txAdded
        (wrapped wallet.ownValue txOriginal.vout)
        (wallet.receiverAddedValue chain txOriginal txAdded) = .ok txAdjusted ∧
      wallet.signOwn txAdjusted = .ok proposal.txProposal ∧ proposal.txOriginal = txOriginal ∧
      proposal.nReceiverAmount = wrapped wallet.ownValue txOriginal.vout := by
  obtain ⟨_, h⟩ := ite_error_eq_ok.mp h
  obtain ⟨nReceiverAmount, hvalid, h⟩ := bind_eq_ok.mp h
  obtain ⟨txAdded, hadd, h⟩ := bind_eq_ok.mp h
  obtain ⟨txAdjusted, hadjust, h⟩ := bind_eq_ok.mp h
  obtain ⟨txProposal, hsign, h⟩ := bind_eq_ok.mp h
  cases h
  have hamount := validateOriginalTx_ok hvalid
  obtain ⟨hvin, hvout⟩ := addReceiverInputs_ok hadd
  rw [hamount] at hadjust
  exact ⟨txAdded, txAdjusted, hvin, hvout, hadjust, mapError_eq_ok.mp hsign, rfl, hamount⟩

end

/-- What the receiver gets back: its outputs make up for its signed inputs and
for what it was paid, but for one fee. -/
def MadeWhole (wallet : CWallet H) (txProposal : CTransaction H) (nReceiverAmount : Int64) : Prop :=
  exact wallet.getDebit txProposal.vin + nReceiverAmount.toInt - MIN_TX_FEE.toInt ≤
    exact wallet.ownValue txProposal.vout

omit [DecidableEq H] [LawfulEqOrd H] in
instance (txProposal : CTransaction H) (nReceiverAmount : Int64) :
    Decidable (wallet.MadeWhole txProposal nReceiverAmount) :=
  inferInstanceAs (Decidable (_ ≤ _))

/-- What `CreateProposal` signs: the coins it adds, and the own inputs of the
original. -/
def signedValue (sha : Sha256 H) (wallet : CWallet H) (txOriginal : CTransaction H) : Int :=
  exact (fun coin => coin.txout.nValue) (wallet.addedCoins sha txOriginal) +
    exact wallet.getDebit txOriginal.vin

/-- **A proposal in numbers.** -/
theorem createProposal_madeWhole (hagree : wallet.Agrees chain) {draw : Nat → Nat} {nTime : Int64}
    {proposal : CPayJoinProposal H}
    (h : wallet.createProposal sha chain draw nTime txOriginal = .ok proposal) :
    wallet.MadeWhole proposal.txProposal proposal.nReceiverAmount ↔ wallet.signedValue sha txOriginal ≤
        max MIN_TX_FEE.toInt (wallet.contribution sha chain txOriginal).toInt +
          (exact wallet.ownValue txOriginal.vout - (wrapped wallet.ownValue txOriginal.vout).toInt) := by
  obtain ⟨txAdded, txAdjusted, hvin, hvout, hadjust, hsign, _, hamount⟩ := createProposal_ok h
  have hperm := perm_insertInputs draw (wallet.addedCoins sha txOriginal) txOriginal.vin
  rw [← hvin] at hperm
  obtain ⟨hadjustVin, hadjustVout⟩ := adjustOutputs_ok hadjust
  have hsigned := signOwn_ok hsign
  rw [MadeWhole, exact_getDebit proposal.txProposal.vin, hsigned.vin,
    ← exact_getDebit, hsigned.vout, hadjustVin, hadjustVout, exact_getDebit_added hperm,
    receiverAddedValue_eq hagree hperm, hvout, hamount, ← signedValue]
  constructor
  · intro hle
    omega
  · intro hle
    omega

end CWallet

variable {H : Type} [Ord H] [TransOrd H] [DecidableEq H] [LawfulEqOrd H] {sha : Sha256 H}

/-- **When a PayJoin is safe for its receiver.**  The server remembers the
proposal that it returns.  In it every own input is signed, and the receiver is
made whole if and only if what it signs is worth no more than what it counted as
added, or than the fee.
Without overflow this says that the own inputs of the original that
`GetTransaction` finds are worth nothing, or all that is signed at most a fee. -/
theorem receiver_safety {server server' : CPayJoinServer H} {wallet : CWallet H}
    {chain : ChainView H} {draw : Nat → Nat} {nTime : Int64} {txOriginal txProposal : CTransaction H}
    (hwallet : server.pWallet = some wallet) (hagree : wallet.Agrees chain)
    (h : server.createProposal sha chain draw nTime txOriginal = .ok (txProposal, server')) :
    ∃ proposal, server'.mapProposals[txOriginal.getHash sha]? = some proposal ∧
      proposal.txProposal = txProposal ∧ wallet.AllSigned txProposal ∧
      (wallet.MadeWhole txProposal proposal.nReceiverAmount ↔ wallet.signedValue sha txOriginal ≤
          max MIN_TX_FEE.toInt (wallet.contribution sha chain txOriginal).toInt +
            (exact wallet.ownValue txOriginal.vout - (wrapped wallet.ownValue txOriginal.vout).toInt)) ∧
      (exact wallet.ownValue txOriginal.vout = (wrapped wallet.ownValue txOriginal.vout).toInt →
        exact (fun coin => coin.txout.nValue) (wallet.addedCoins sha txOriginal) +
            exact (wallet.unknownDebit chain) txOriginal.vin =
          (wallet.contribution sha chain txOriginal).toInt →
        (wallet.MadeWhole txProposal proposal.nReceiverAmount ↔
          exact (wallet.knownDebit chain) txOriginal.vin ≤ 0 ∨
            wallet.signedValue sha txOriginal ≤ MIN_TX_FEE.toInt)) := by
  rw [CPayJoinServer.createProposal, hwallet] at h
  simp only at h
  cases hproposal : wallet.createProposal sha chain draw nTime txOriginal with
  | error =>
    rw [hproposal] at h
    cases h
  | ok proposal =>
    rw [hproposal] at h
    cases h
    have hiff := CWallet.createProposal_madeWhole hagree hproposal
    obtain ⟨_, _, _, _, _, hsign, _⟩ := CWallet.createProposal_ok hproposal
    refine ⟨proposal, ExtTreeMap.getElem?_insert_self, rfl, CWallet.signOwn_allSigned hsign, hiff, ?_⟩
    intro hamount hcontribution
    have hdebit : exact wallet.getDebit txOriginal.vin =
        exact (wallet.knownDebit chain) txOriginal.vin + exact (wallet.unknownDebit chain) txOriginal.vin :=
      exact_add fun txin _ => wallet.toInt_getDebit chain txin
    rw [hiff, ← hamount, ← hcontribution, Int.sub_self, Int.add_zero, le_max_iff,
      CWallet.signedValue, hdebit, or_comm]
    refine or_congr_left ?_
    constructor
    · intro hle
      omega
    · intro hle
      omega

/-- The wallet of the receiver has a coin of ten and one of five, and the sender
has one of two. -/
def receiverCoins : List (CWalletTx (List Nat)) := [sampleCoin 1 (10 * COIN) 1, sampleCoin 2 (5 * COIN) 1]

def senderCoin : CWalletTx (List Nat) := sampleCoin 3 (2 * COIN) 2

def payJoinView : ChainView (List Nat) := sampleView (senderCoin :: receiverCoins)

def sampleServer : CPayJoinServer (List Nat) := ⟨some (sampleCWallet receiverCoins), ∅⟩

/-- The sender pays one coin, and spends these outputs of the receiver too. -/
def originalTx (stolen : List (CWalletTx (List Nat))) : CTransaction (List Nat) :=
  sampleTx 4 ((senderCoin :: stolen).map fun wtx => wtx.outPoint.newInput)
    [⟨COIN, payTo 1⟩, ⟨COIN / 2, payTo 2⟩]

def proposalRun (stolen : List (CWalletTx (List Nat))) :
    Except CPayJoinServer.Error (CTransaction (List Nat) × CPayJoinServer (List Nat)) :=
  sampleServer.createProposal sampleConsensus.toSha256 payJoinView (fun _ => 0) 0 (originalTx stolen)

theorem receiverCoins_agree : (sampleCWallet receiverCoins).Agrees payJoinView := by
  intro hash wtx tx hwtx htx
  have hall : ((sampleCWallet receiverCoins).mapWallet.toList.all fun entry =>
      (payJoinView.getTransaction entry.1).all fun tx => tx.vout == entry.2.vout) = true := by
    decide +kernel
  have hentry := all_eq_true.mp hall (hash, wtx)
    (ExtTreeMap.mem_toList_iff_getElem?_eq_some.mpr hwtx)
  rw [htx, Option.all_some, beq_iff_eq] at hentry
  exact hentry

theorem receiver_safety_honest : ∃ txProposal server' proposal, proposalRun [] = .ok (txProposal, server') ∧
      server'.mapProposals[(originalTx []).getHash sampleConsensus.toSha256]? = some proposal ∧
      (sampleCWallet receiverCoins).MadeWhole txProposal proposal.nReceiverAmount := by
  have hrun : (proposalRun []).toOption.isSome = true := by decide +kernel
  obtain ⟨⟨txProposal, server'⟩, hrun⟩ := Option.isSome_iff_exists.mp hrun
  rw [toOption_eq_some] at hrun
  obtain ⟨proposal, hstored, _, _, hsafe, _⟩ := receiver_safety rfl receiverCoins_agree hrun
  exact ⟨txProposal, server', proposal, hrun, hstored, hsafe.mpr (by decide +kernel)⟩

/-- **A sender who spends a coin of the receiver.**  The coin of ten is signed,
and what comes back is change for the coin of five. -/
theorem receiver_coin_taken : (sampleCWallet receiverCoins).Agrees payJoinView ∧
      ∃ txProposal server' proposal, proposalRun [sampleCoin 1 (10 * COIN) 1] = .ok (txProposal,
        server') ∧ server'.mapProposals[(originalTx [sampleCoin 1 (10 * COIN) 1]).getHash
          sampleConsensus.toSha256]? = some proposal ∧
        ¬ (sampleCWallet receiverCoins).MadeWhole txProposal proposal.nReceiverAmount := by
  have hrun : ((proposalRun [sampleCoin 1 (10 * COIN) 1]).toOption.any fun made =>
      made.2.mapProposals[(originalTx [sampleCoin 1 (10 * COIN) 1]).getHash
        sampleConsensus.toSha256]?.any fun proposal =>
          !decide ((sampleCWallet receiverCoins).MadeWhole made.1 proposal.nReceiverAmount)) =
      true := by decide +kernel
  rw [Option.any_eq_true] at hrun
  obtain ⟨⟨txProposal, server'⟩, hmade, hrun⟩ := hrun
  rw [Option.any_eq_true] at hrun
  obtain ⟨proposal, hstored, hrun⟩ := hrun
  rw [Bool.not_eq_true', decide_eq_false_iff_not] at hrun
  exact ⟨receiverCoins_agree, txProposal, server', proposal, toOption_eq_some.mp hmade, hstored, hrun⟩

end MaryJaneCoin
