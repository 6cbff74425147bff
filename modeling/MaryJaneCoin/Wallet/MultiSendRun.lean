import MaryJaneCoin.Chain.LedgerFresh
import MaryJaneCoin.Chain.MemPoolIndex
import MaryJaneCoin.Wallet.MultiSend
import MaryJaneCoin.Wallet.PegIn
import MaryJaneCoin.Wallet.SpentRun

/-!
# What `MultiSend` sends over a run

What is sent for an output is a share of the reward of the whole transaction.  So no recipient
gets more than his share when a transaction is paid for once: when it has been paid for, no other
output of it is paid for, and the output stays marked as spent.
-/

namespace MaryJaneCoin

open List hiding Vector
open Std StoredTx WalletMap

/-- **The share that is sent** is no more than the percentage, also where the product wraps. -/
theorem hundred_share_le {nReward : Int64} {nPercent : Int32} (hreward : 0 ≤ nReward.toInt)
    (hpercent : 0 ≤ nPercent.toInt) :
    100 * (nReward * nPercent.toInt64 / 100).toInt ≤ nPercent.toInt * nReward.toInt := by
  have hproduct : 0 ≤ nReward.toInt * nPercent.toInt := Int.mul_nonneg hreward hpercent
  have hwrapped : (nReward.toInt * nPercent.toInt).bmod (2 ^ 64) ≤ nReward.toInt * nPercent.toInt := by
    rw [Int.bmod_def]
    omega
  rw [Int64.toInt_div_of_ne_right _ _ (by decide), Int64.toInt_mul, Int32.toInt_toInt64,
    show (100 : Int64).toInt = 100 from rfl, Int.mul_comm nPercent.toInt]
  generalize nReward.toInt * nPercent.toInt = nProduct at hproduct hwrapped ⊢
  generalize nProduct.bmod (2 ^ 64) = nAmount at hwrapped ⊢
  rcases Int.le_total 0 nAmount with hpos | hneg
  · rw [Int.tdiv_eq_ediv_of_nonneg hpos]
    omega
  · have hnone : 0 ≤ (-nAmount).tdiv 100 := Int.tdiv_nonneg (by omega) (by decide)
    rw [Int.neg_tdiv] at hnone
    omega

section

variable {H : Type} [Ord H] [TransOrd H] [DecidableEq H] [LawfulEqOrd H]

/-- **A commit takes no mark** for a transaction that is in no block. -/
theorem CWalletState.commitTransaction_keeps {world : WalletWorld H} {c : Consensus H}
    {wallet after : CWalletState H} {pool pool' : CTxMemPool H} {s : Node H} {env : Env H}
    {policy : RelayPolicy H} {wtxNew : StoredTx H} {reservekey reservekey' : CReserveKey}
    {fAccepted : Bool} (hblock : wtxNew.hashBlock = c.zero)
    (h : commitTransaction world c wallet pool s env policy wtxNew reservekey =
      some (fAccepted, after, reservekey', pool')) {hash : H} {i : Nat}
    (hspent : SpentAt wallet.mapWallet hash i) : SpentAt after.mapWallet hash i := by
  obtain ⟨keys, fResult, mid, mapWallet, -, hadd, hmark, rfl, -⟩ := commitTransaction_cases h
  obtain ⟨-, hleaves⟩ := addToWallet_effect hadd
  refine ((commitEffect_leaves hleaves hmark).2 hash i).mpr ⟨.inl (spentAt_committed hspent), ?_⟩
  rintro ⟨⟨-, hin, -⟩, -⟩
  rw [hblock, bne_self_eq_false] at hin
  cases hin

theorem CWallet.isSpent_of_mem_availableCoins {wallet : CWallet H} {sha : Sha256 H}
    {fOnlyConfirmed : Bool} {coin : COutput H} (h : coin ∈ wallet.availableCoins sha fOnlyConfirmed) :
    ∃ wtx, wallet.mapWallet[coin.prevout.hash]? = some wtx ∧ wtx.isSpent coin.prevout.n.toNat = false := by
  obtain ⟨⟨hash, wtx⟩, hwtx, h⟩ := mem_flatMap.mp h
  rw [ExtTreeMap.mem_toList_iff_getElem?_eq_some] at hwtx
  simp only [spendable] at h
  split at h
  · cases h
  · obtain ⟨⟨txout, i⟩, hout, rfl⟩ := mem_map.mp h
    obtain ⟨hzip, hfree⟩ := mem_filter.mp hout
    have hget := mem_zipIdx_iff_getElem?.mp hzip
    have hlt : i < 2 ^ 32 := Nat.lt_trans (List.getElem?_eq_some_iff.mp hget).1 wtx.vout_lt
    simp only [Bool.and_eq_true, Bool.not_eq_true'] at hfree
    refine ⟨wtx, hwtx, ?_⟩
    rw [UInt32.toNat_ofNat_of_lt' hlt]
    exact hfree.1.1

/-- What `MultiSend` goes through is not marked as spent. -/
theorem MultiSendState.not_spentAt_of_mem_vCoins {world : MultiSendWorld H} {s : MultiSendState H}
    {out : COutput H} (h : out ∈ s.vCoins world) :
    ¬SpentAt s.wallet.mapWallet out.prevout.hash out.prevout.n.toNat := by
  rintro ⟨stored, hstored, -, hflag⟩
  obtain ⟨wtx, hwtx, hfree⟩ := CWallet.isSpent_of_mem_availableCoins h
  have hview : (world.viewTx stored) = some wtx := by
    rw [MultiSendWorld.view, ExtTreeMap.getElem?_filterMap', hstored] at hwtx
    exact hwtx
  rw [MultiSendWorld.viewTx] at hview
  split at hview
  · cases hview
    rw [StoredTx.isSpent] at hflag
    rw [CWalletTx.isSpent, hflag] at hfree
    cases hfree
  · cases hview

end

namespace MultiSendSettings

variable {H : Type} [Ord H] [TransOrd H] [DecidableEq H] {settings : MultiSendSettings}
  {world : MultiSendWorld H}

def amounts (settings : MultiSendSettings) (nReward : Int64) : List Recipient :=
  settings.vMultiSend.map fun entry =>
    (CScript.setDestination (settings.getAddress entry.1), nReward * entry.2.toInt64 / 100)

omit [DecidableEq H] in
theorem vecSend_some {s : MultiSendState H} {out : COutput H} {nReward : Int64}
    {vecSend : List Recipient} (h : settings.vecSend world s out = some (nReward, vecSend)) :
    vecSend = settings.amounts nReward := by
  obtain ⟨sent, hsent, hpair⟩ := Option.map_eq_some_iff.mp h
  cases hpair
  cases hreward : (s.wallet.mapWallet[out.prevout.hash]?).bind fun tx =>
      (world.view s.wallet).reward tx.toCTransaction with
  | none =>
    rw [hreward] at hsent
    rw [amounts]
    cases hentries : settings.vMultiSend with
    | nil =>
      rw [hentries] at hsent
      exact (Option.some.inj hsent).symm
    | cons entry entries =>
      rw [hentries, mapM_cons] at hsent
      cases hsent
  | some nReward =>
    rw [hreward] at hsent
    have hall : settings.vMultiSend.mapM (fun entry => (some nReward).map fun nReward =>
        (CScript.setDestination (settings.getAddress entry.1), nReward * entry.2.toInt64 / 100)) =
          some (settings.amounts nReward) := mapM_pure
    exact Option.some.inj (hsent.symm.trans hall)

end MultiSendSettings

namespace MultiSendState

variable {H : Type} [Ord H] [TransOrd H] [DecidableEq H] [LawfulEqOrd H]
  {settings : MultiSendSettings} {world : MultiSendWorld H} {s s' : MultiSendState H}
  {out : COutput H}

theorem prevout_of_selectControlled {wallet : CWallet H} {sha : Sha256 H} {prevout : COutPoint H}
    {nTargetValue : Int64} {selection : CoinSelection sha wallet} {coin : COutput H}
    (h : wallet.selectControlled sha ⟨.CNoDestination, true, [prevout], []⟩ nTargetValue =
      some selection) (hcoin : coin ∈ selection.coins) : coin.prevout = prevout := by
  unfold CWallet.selectControlled at h
  simp only at h
  split at h
  · cases h
    simpa [isAdmitted] using (mem_filter.mp hcoin).2
  · cases h

/-- What is created spends only the output that was selected. -/
theorem prevout_of_create {vecSend : List Recipient} {tx : CTransaction H} {txin : CTxIn H}
    (h : s.create world out vecSend = some tx) (hin : txin ∈ tx.vin) : txin.prevout = out.prevout := by
  obtain ⟨⟨made, nFee⟩, hmade, rfl⟩ := Option.bind_eq_some_iff.mp h
  obtain ⟨-, nValue, nFeeRet, -, -, ⟨parts⟩⟩ :=
    CWallet.createTransaction_round (fun _ => True) trivial (fun _ _ _ _ => trivial) hmade
  have hvin := (CWallet.signCoins_some parts.sign).vin
  rw [map_map] at hvin
  have hmem := mem_map_of_mem (f := CTxIn.prevout) hin
  rw [hvin] at hmem
  obtain ⟨coin, hcoin, hprevout⟩ := mem_map.mp hmem
  rw [← hprevout]
  exact prevout_of_selectControlled parts.select hcoin

/-- The round pays for the output. -/
structure PaysFor (settings : MultiSendSettings) (world : MultiSendWorld H) (s : MultiSendState H)
    (out : COutput H) (s' : MultiSendState H) : Prop where
  wants : settings.wants world out = true
  mature : world.isMatureStake s out = true
  sent : ∃ nReward, s'.sent = s.sent ++ [⟨out.prevout, nReward, settings.amounts nReward⟩]
  spent : SpentAt s'.wallet.mapWallet out.prevout.hash out.prevout.n.toNat

/-- **What a round does**: it takes no mark, and it pays for its output or sends nothing. -/
theorem payFor_cases (h : payFor settings world s out = .ok s') :
    (∀ hash i, SpentAt s.wallet.mapWallet hash i → SpentAt s'.wallet.mapWallet hash i) ∧
      (s'.sent = s.sent ∨ PaysFor settings world s out s') := by
  unfold payFor at h
  split at h
  · cases h
    exact ⟨fun _ _ => id, .inl rfl⟩
  · rename_i hpays
    simp only [Bool.or_eq_true, Bool.not_eq_true', not_or, Bool.not_eq_false] at hpays
    split at h
    · cases h
    · rename_i nReward vecSend hsend
      split at h
      · cases h
        exact ⟨fun _ _ => id, .inl rfl⟩
      · rename_i tx hcreate
        split at h
        · cases h
        · rename_i fAccepted wallet reservekey pool hcommit
          have hkeeps : ∀ hash i, SpentAt s.wallet.mapWallet hash i → SpentAt wallet.mapWallet hash i :=
            fun hash i => CWalletState.commitTransaction_keeps rfl hcommit
          split at h
          · rename_i haccepted
            cases h
            refine ⟨hkeeps, .inr ⟨hpays.1, hpays.2, ⟨nReward, ?_⟩, ?_⟩⟩
            · rw [MultiSendSettings.vecSend_some hsend]
            · -- An accepted transaction has an input, and that is the output.
              obtain ⟨keys, fResult, mid, mapWallet, -, -, -, -, haccept⟩ :=
                CWalletState.commitTransaction_cases hcommit
              rw [haccepted] at haccept
              rcases CTxMemPool.accept_cases world.consensus s.pool world.node world.env world.policy
                tx true with hrefused | ⟨-, hrules, -⟩
              · rw [created, hrefused] at haccept
                cases haccept
              · simp only [CTxMemPool.checkRules, Bool.and_eq_true] at hrules
                obtain ⟨txin, hin⟩ := exists_mem_of_ne_nil _
                  (CTransaction.checkTransaction_vin hrules.1.1.1.1.1.1.1).1
                have hprevout := prevout_of_create hcreate hin
                exact CWalletState.commitTransaction_spends hcommit
                  ⟨txin, hin, congrArg COutPoint.hash hprevout,
                    congrArg (fun prevout => prevout.n.toNat) hprevout⟩
          · cases h
            exact ⟨hkeeps, .inl rfl⟩

/-- A round that throws leaves the state as it was. -/
theorem payFor_error (h : payFor settings world s out = .error s') : s' = s := by
  unfold payFor at h
  split at h
  · cases h
  · split at h
    · cases h
      rfl
    · split at h
      · cases h
      · split at h
        · cases h
          rfl
        · split at h
          · cases h
          · cases h

/-- The output is not paid for after another one of its transaction. -/
def PaysOnce (settings : MultiSendSettings) (world : MultiSendWorld H) (s : MultiSendState H)
    (out : COutput H) : Prop :=
  settings.wants world out = true → world.isMatureStake s out = true →
    ∀ payment ∈ s.sent, payment.outpt.hash = out.prevout.hash → payment.outpt = out.prevout

/-- The rounds of a call pay for the transaction once. -/
def RoundsPayOnce (settings : MultiSendSettings) (world : MultiSendWorld H) (hash : H) :
    MultiSendState H → List (COutput H) → Prop
  | _, [] => True
  | s, out :: outs => (out.prevout.hash = hash → PaysOnce settings world s out) ∧
      ∀ s', payFor settings world s out = .ok s' → RoundsPayOnce settings world hash s' outs

/-- A call comes to its loop. -/
def isDue (world : MultiSendWorld H) (s : MultiSendState H) : Bool :=
  !(world.isInitialBlockDownload || world.isLocked || world.node.nBestHeight <
    world.numBlocksOfPeers) && s.nLastMultiSendHeight < world.node.nBestHeight

/-- The state that a call leaves. -/
def left (result : Except (MultiSendState H) (Bool × MultiSendState H)) : MultiSendState H :=
  match result with
  | .ok (_, s) => s
  | .error s => s

/-- What was sent to the recipient at this place on account of the transaction. -/
def sentTo (s : MultiSendState H) (hash : H) (i : Nat) : Int :=
  ((s.sent.filter fun payment => payment.outpt.hash == hash).map fun payment =>
    ((payment.vecSend[i]?).map fun recipient => recipient.2.toInt).getD 0).sum

/-- The transaction was paid for once at most, and then for an output that is marked. -/
structure PaidOnce (settings : MultiSendSettings) (hash : H) (s : MultiSendState H) : Prop where
  once : (s.sent.filter fun payment => payment.outpt.hash == hash).length ≤ 1
  shares : ∀ payment ∈ s.sent, payment.vecSend = settings.amounts payment.nReward
  spent : ∀ payment ∈ s.sent, payment.outpt.hash = hash →
    SpentAt s.wallet.mapWallet hash payment.outpt.n.toNat

variable {hash : H}

/-- **One round** for an output that is not paid for yet. -/
theorem PaidOnce.payFor (hpaid : PaidOnce settings hash s)
    (hfree : out.prevout.hash = hash → ∀ payment ∈ s.sent, payment.outpt ≠ out.prevout)
    (honce : out.prevout.hash = hash → PaysOnce settings world s out)
    (h : payFor settings world s out = .ok s') : PaidOnce settings hash s' := by
  obtain ⟨hkeeps, hcases⟩ := payFor_cases h
  rcases hcases with hsame | hpays
  · refine ⟨hsame ▸ hpaid.once, hsame ▸ hpaid.shares, ?_⟩
    rw [hsame]
    exact fun payment hpayment hhash => hkeeps _ _ (hpaid.spent payment hpayment hhash)
  · obtain ⟨nReward, hsent⟩ := hpays.sent
    refine ⟨?_, ?_, ?_⟩
    · rw [hsent, filter_append, length_append]
      by_cases hhash : out.prevout.hash = hash
      · -- Another payment for the transaction would be one for this output.
        have hnone : s.sent.filter (fun payment => payment.outpt.hash == hash) = [] := by
          refine filter_eq_nil_iff.mpr fun payment hpayment hsame => ?_
          have hother := honce hhash hpays.wants hpays.mature payment hpayment
            ((beq_iff_eq.mp hsame).trans hhash.symm)
          exact hfree hhash payment hpayment hother
        rw [hnone]
        exact Nat.le_trans (Nat.le_of_eq (Nat.zero_add _)) (length_filter_le _ _)
      · rw [filter_cons_of_neg (by simpa using hhash), filter_nil]
        exact hpaid.once
    · rw [hsent]
      intro payment hpayment
      rcases mem_append.mp hpayment with hpayment | hpayment
      · exact hpaid.shares payment hpayment
      · rw [mem_singleton.mp hpayment]
    · rw [hsent]
      intro payment hpayment hhash
      rcases mem_append.mp hpayment with hpayment | hpayment
      · exact hkeeps _ _ (hpaid.spent payment hpayment hhash)
      · rw [mem_singleton.mp hpayment] at hhash ⊢
        exact hhash ▸ hpays.spent

/-- **The rounds of a call**, for outputs that are not paid for yet and stand at different
places. -/
theorem PaidOnce.rounds {outs : List (COutput H)} (hpaid : PaidOnce settings hash s)
    (hnodup : (outs.map COutput.prevout).Nodup) (hfree : ∀ out ∈ outs, out.prevout.hash = hash →
    ∀ payment ∈ s.sent, payment.outpt ≠ out.prevout)
    (honce : RoundsPayOnce settings world hash s outs) : PaidOnce settings hash
      (left ((outs.foldlM (MultiSendState.payFor settings world) s).map (true, ·))) := by
  induction outs generalizing s with
  | nil => exact hpaid
  | cons out outs ih =>
    rw [List.foldlM_cons]
    cases hround : MultiSendState.payFor settings world s out with
    | error s' =>
      obtain rfl := payFor_error hround
      exact hpaid
    | ok s' =>
      rw [map_cons, nodup_cons] at hnodup
      refine ih (hpaid.payFor (hfree out mem_cons_self) honce.1 hround) hnodup.2 ?_
        (honce.2 s' hround)
      intro later hlater hhash payment hpayment
      have hbefore := hfree later (mem_cons_of_mem _ hlater) hhash
      rcases (payFor_cases hround).2 with hsame | hpays
      · exact hbefore payment (hsame ▸ hpayment)
      · obtain ⟨nReward, hsent⟩ := hpays.sent
        rw [hsent] at hpayment
        rcases mem_append.mp hpayment with hpayment | hpayment
        · exact hbefore payment hpayment
        · rw [mem_singleton.mp hpayment]
          intro hsame
          have hprevout : out.prevout = later.prevout := hsame
          exact hnodup.1 (hprevout ▸ mem_map_of_mem hlater)

variable (settings) in
/-- **A call** of `MultiSend`. -/
theorem PaidOnce.multiSend (hpaid : PaidOnce settings hash s)
    (honce : s.isDue world = true → RoundsPayOnce settings world hash s (s.vCoins world)) :
    PaidOnce settings hash (left (multiSend settings world s)) := by
  unfold MultiSendState.multiSend
  split
  · exact hpaid
  · rename_i hready
    split
    · exact hpaid
    · rename_i hheight
      have hdue : s.isDue world = true := by
        rw [isDue, Bool.not_eq_true] at *
        simpa [hready] using hheight
      refine hpaid.rounds CWallet.nodup_availableCoins ?_ (honce hdue)
      -- What is available is not marked, so it was not paid for.
      intro out hout hhash payment hpayment hsame
      have hspent := hpaid.spent payment hpayment (hsame ▸ hhash)
      rw [hsame, ← hhash] at hspent
      exact not_spentAt_of_mem_vCoins hout hspent

/-- Calls of `MultiSend`, each in the world as it is then, with whatever the wallet does in
between.  A call pays for the transaction once, and the outputs that were paid for stay marked. -/
inductive MultiSendRun (settings : MultiSendSettings) (hash : H) : MultiSendState H → Prop where
  | start {s : MultiSendState H} (hsent : s.sent = []) : MultiSendRun settings hash s
  | call {s : MultiSendState H} (world : MultiSendWorld H) (hrun : MultiSendRun settings hash s)
      (honce : s.isDue world = true → RoundsPayOnce settings world hash s (s.vCoins world)) :
      MultiSendRun settings hash (left (multiSend settings world s))
  | outside {s s' : MultiSendState H} (hrun : MultiSendRun settings hash s)
      (hsent : s'.sent = s.sent)
      (hspent : ∀ payment ∈ s.sent, payment.outpt.hash = hash →
        SpentAt s.wallet.mapWallet hash payment.outpt.n.toNat →
          SpentAt s'.wallet.mapWallet hash payment.outpt.n.toNat) :
      MultiSendRun settings hash s'

theorem MultiSendRun.paidOnce (hrun : MultiSendRun settings hash s) : PaidOnce settings hash s := by
  induction hrun with
  | start hsent =>
    refine ⟨?_, ?_, ?_⟩
    · rw [hsent]
      exact Nat.zero_le 1
    · rw [hsent]
      exact fun payment hpayment => nomatch hpayment
    · rw [hsent]
      exact fun payment hpayment => nomatch hpayment
  | call world hrun honce ih => exact ih.multiSend settings honce
  | outside hrun hsent hspent ih =>
    refine ⟨hsent ▸ ih.once, hsent ▸ ih.shares, ?_⟩
    rw [hsent]
    exact fun payment hpayment hhash => hspent payment hpayment hhash (ih.spent payment hpayment hhash)

/-- **No recipient gets more than his share.**  In a run that pays for the transaction once, what
is sent on account of it is at most the percentage of its reward. -/
theorem multiSend_share (hrun : MultiSendRun settings hash s) {i : Nat} {entry : String × Int32}
    (hentry : settings.vMultiSend[i]? = some entry) (hpercent : 0 ≤ entry.2.toInt) {nReward : Int64}
    (hpositive : 0 ≤ nReward.toInt)
    (hreward : ∀ payment ∈ s.sent, payment.outpt.hash = hash → payment.nReward = nReward) :
    100 * s.sentTo hash i ≤ entry.2.toInt * nReward.toInt := by
  obtain ⟨honce, hshares, -⟩ := hrun.paidOnce
  rw [sentTo]
  cases hsent : s.sent.filter fun payment => payment.outpt.hash == hash with
  | nil => exact Int.mul_nonneg hpercent hpositive
  | cons payment payments =>
    have hmem := mem_cons_self (a := payment) (l := payments)
    rw [← hsent] at hmem
    obtain ⟨hpayment, hhash⟩ := mem_filter.mp hmem
    have hlast : payments = [] := by
      rw [hsent, length_cons] at honce
      exact eq_nil_of_length_eq_zero (by omega)
    have hamount : payment.vecSend[i]? = some (CScript.setDestination (settings.getAddress entry.1),
        nReward * entry.2.toInt64 / 100) := by
      rw [hshares payment hpayment, hreward payment hpayment (beq_iff_eq.mp hhash),
        MultiSendSettings.amounts, getElem?_map, hentry]
      rfl
    rw [hlast, map_singleton, sum_singleton, hamount]
    exact hundred_share_le hpositive hpercent

end MultiSendState

def stakeParent : CTransaction (List Nat) := samplePayment 1 ⟨[7], 0⟩ [⟨1000 * COIN, payTo 1⟩]

/-- A coinstake of the parent. -/
def stakeInto (vout : List CTxOut) : CTransaction (List Nat) :=
  samplePayment 2 ⟨stakeParent.getHash transparent, 0⟩ (⟨0, []⟩ :: vout)

def wholeStake : CTransaction (List Nat) := stakeInto [⟨1010 * COIN, payTo 1⟩]

def splitStake : CTransaction (List Nat) := stakeInto [⟨505 * COIN, payTo 1⟩, ⟨505 * COIN, payTo 1⟩]

/-- A wallet with the coinstake and its parent, before any call. -/
def stakeState (stake : CTransaction (List Nat)) : MultiSendState (List Nat) where
  wallet :=
    { mapWallet := ((∅ : WalletMap (List Nat)).insert (stakeParent.getHash transparent)
        { CWalletState.ownTx stakeParent with vfSpent := [true] }).insert
          (stake.getHash transparent) (CWalletState.ownTx stake)
      keys := ⟨[Vector.replicate 20 1], 0, false, ∅, ∅, []⟩
      nOrderPosNext := 2 }
  pool := CTxMemPool.empty
  nLastMultiSendHeight := 0
  sent := []

def stakeBlockOf (stake : CTransaction (List Nat)) : CBlock (List Nat) :=
  sampleBlock 2 transparent.zero [sampleCoinbase 2 [⟨0, []⟩], stake]

/-- The chain with that coinstake, long mature. -/
def multiWorld (stake : CTransaction (List Nat)) : MultiSendWorld (List Nat) where
  toWalletWorld := CWalletState.coinWorld
  consensus := sampleConsensus
  hashes := pegSigCrypto.hashes
  node :=
    { (sampleView []).node with
      txdb := ⟨⟨(∅ : TxIndexMap (List Nat)).insert (stake.getHash transparent)
        (.new ⟨1, 0, (stakeBlockOf stake).firstTxPos 0 + (sampleCoinbase 2 [⟨0, []⟩]).serializeSize⟩
          stake.vout.length), ∅, none⟩, none⟩
      blockFiles := fun _ _ => some (stakeBlockOf stake) }
  env := sampleEnv 0
  policy := sampleRelay
  isInitialBlockDownload := false
  isLocked := false
  numBlocksOfPeers := 0
  nTransactionFee := 0
  nMinimumInputValue := 0
  signSignature _ _ _ := some [1]
  isFinal _ := true
  depthInMainChain _ := 800
  blocksToMaturity _ := 0
  vDisabledAddresses := []
  nTime := 3
  draw _ _ := 0
  fuel := 5

/-- Half of each reward goes to one recipient. -/
def halfToCharity : MultiSendSettings where
  vMultiSend := [("charity", 50)]
  getAddress _ := .keyID (Vector.replicate 20 3)
  addressText _ := ""

def stakeCall (stake : CTransaction (List Nat)) :
    Except (MultiSendState (List Nat)) (Bool × MultiSendState (List Nat)) :=
  MultiSendState.multiSend halfToCharity (multiWorld stake) (stakeState stake)

namespace MultiSendState

/-- Five of the ten coins that the whole stake earned are sent. -/
theorem multiSend_share_whole : ∃ s, stakeCall wholeStake = .ok (true, s) ∧ s.sent.length = 1 ∧
      100 * s.sentTo (wholeStake.getHash transparent) 0 ≤ 50 * (10 * COIN).toInt := by
  have hcall : ((stakeCall wholeStake).toOption.any fun result => result.1 &&
      result.2.sent.length == 1 && result.2.sent.all fun payment => payment.nReward == 10 * COIN) =
        true := by decide +kernel
  rw [Option.any_eq_true] at hcall
  obtain ⟨⟨fResult, s⟩, hresult, hsent⟩ := hcall
  rw [Fallible.toOption_eq_some] at hresult
  simp only [Bool.and_eq_true, beq_iff_eq, all_eq_true] at hsent
  obtain ⟨⟨rfl, hlength⟩, hreward⟩ := hsent
  have hcoins : ((stakeState wholeStake).vCoins (multiWorld wholeStake)).length = 1 := by
    decide +kernel
  obtain ⟨out, hout⟩ := length_eq_one_iff.mp hcoins
  have hrun : MultiSendRun halfToCharity (wholeStake.getHash transparent)
      (left (stakeCall wholeStake)) := by
    refine .call (multiWorld wholeStake) (.start rfl) fun _ => ?_
    rw [hout]
    exact ⟨fun _ _ _ _ hpayment => (not_mem_nil hpayment).elim, fun _ _ => trivial⟩
  rw [hresult] at hrun
  have hentry : halfToCharity.vMultiSend[0]? = some ("charity", 50) := rfl
  exact ⟨s, hresult, hlength, multiSend_share hrun hentry (by decide) (by decide)
    fun payment hpayment _ => hreward payment hpayment⟩

/-- **All of the reward is sent instead of half of it.**  The split stake earned ten coins, five
are due, and five are sent for each of its two outputs. -/
theorem multiSend_overpays :
    ∃ s, stakeCall splitStake = .ok (true, s) ∧ splitStake.isCoinStake transparent = true ∧
      ((multiWorld splitStake).view (stakeState splitStake).wallet).reward splitStake =
      some (10 * COIN) ∧ halfToCharity.vMultiSend[0]? = some ("charity", 50) ∧
      s.sentTo (splitStake.getHash transparent) 0 = (10 * COIN).toInt ∧
      ¬100 * s.sentTo (splitStake.getHash transparent) 0 ≤ 50 * (10 * COIN).toInt := by
  have hcall : ((stakeCall splitStake).toOption.any fun result => result.1 &&
      result.2.sentTo (splitStake.getHash transparent) 0 == (10 * COIN).toInt) = true := by
    decide +kernel
  rw [Option.any_eq_true] at hcall
  obtain ⟨⟨fResult, s⟩, hresult, hsent⟩ := hcall
  rw [Fallible.toOption_eq_some] at hresult
  simp only [Bool.and_eq_true, beq_iff_eq] at hsent
  obtain ⟨rfl, hall⟩ := hsent
  refine ⟨s, hresult, by decide, by decide +kernel, rfl, hall, ?_⟩
  rw [hall]
  decide

end MultiSendState

end MaryJaneCoin
