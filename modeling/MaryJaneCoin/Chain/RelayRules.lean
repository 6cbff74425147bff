import MaryJaneCoin.Chain.Identity
import MaryJaneCoin.Chain.MemPool

/-!
# Relay rules and block rules

`accept` applies the marker, ring mixing, structure and fee rules at
`nBestHeight`, `ConnectBlock` and `ConnectInputs` at the height of the block,
which is at least one more.  The rules only change at their activation heights,
so the two agree for the next block unless it is the first one of a rule.
-/

namespace MaryJaneCoin

open Std CTransaction

variable {H : Type} [Ord H] [TransOrd H] [DecidableEq H]

namespace CTransaction

variable (c : Consensus H)

/-- The rules of `ConnectBlock` and `ConnectInputs` on an ordinary transaction
with this fee, in a block of this height. -/
structure BlockRules (tx : CTransaction H) (nHeight : Nat) (nFees : Int64) : Prop where
  marker : STEALTH_MANDATORY_HEIGHT ≤ nHeight →
    tx.hasStealthMarker ∨ TWO_POOL_ACTIVATION_HEIGHT ≤ nHeight ∧ tx.hasPegoutMarker
  ringMixing : RING_MIXING_MANDATORY_HEIGHT ≤ nHeight →
    tx.hasPegoutMarker ∨ RING_MIXING_MIN_EQUAL_OUTPUTS ≤ Node.maxEqualOutputs tx
  canonical : tx.checkCanonicalStructure c.toSha256 nHeight
  feeFloor : ¬ nFees < tx.getTxTypeFeeFloor c.toSha256 nHeight

/-- What `accept` does not see to: the rules that start with the block, and the
fee of a transaction whose inputs are not checked. -/
structure BoundaryRules (tx : CTransaction H) (nHeight : Nat) (nFees : Int64)
    (fCheckInputs : Bool) : Prop where
  marker : nHeight = STEALTH_MANDATORY_HEIGHT → tx.hasStealthMarker
  ringMixing : nHeight = RING_MIXING_MANDATORY_HEIGHT →
    tx.hasPegoutMarker ∨ RING_MIXING_MIN_EQUAL_OUTPUTS ≤ Node.maxEqualOutputs tx
  canonical : nHeight = L5_GRAPH_NORM_ACTIVATION_HEIGHT →
    tx.checkCanonicalStructure c.toSha256 nHeight
  feeFloor : nHeight = FEE_TIER_ACTIVATION_HEIGHT ∨ fCheckInputs = false →
    ¬ nFees < tx.getTxTypeFeeFloor c.toSha256 nHeight

end CTransaction

namespace CTransaction

variable {c : Consensus H} {tx : CTransaction H}

section

omit [Ord H] [TransOrd H]

variable {nHeight : Nat}

theorem checkCanonicalStructure_below (h : nHeight < L5_GRAPH_NORM_ACTIVATION_HEIGHT) :
    tx.checkCanonicalStructure c.toSha256 nHeight = true := by
  rw [checkCanonicalStructure, decide_eq_true h, Bool.true_or, Bool.true_or]

theorem checkCanonicalStructure_succ (h : nHeight + 1 ≠ L5_GRAPH_NORM_ACTIVATION_HEIGHT) :
    tx.checkCanonicalStructure c.toSha256 (nHeight + 1) = tx.checkCanonicalStructure c.toSha256 nHeight := by
  have hsame : decide (nHeight + 1 < L5_GRAPH_NORM_ACTIVATION_HEIGHT) =
      decide (nHeight < L5_GRAPH_NORM_ACTIVATION_HEIGHT) := by
    rw [decide_eq_decide]
    omega
  rw [checkCanonicalStructure, checkCanonicalStructure, hsame]

theorem getTxTypeFeeFloor_succ (h : nHeight + 1 ≠ FEE_TIER_ACTIVATION_HEIGHT) :
    tx.getTxTypeFeeFloor c.toSha256 (nHeight + 1) = tx.getTxTypeFeeFloor c.toSha256 nHeight := by
  have hsame : (nHeight + 1 < FEE_TIER_ACTIVATION_HEIGHT) = (nHeight < FEE_TIER_ACTIVATION_HEIGHT) := by
    apply propext
    omega
  simp only [getTxTypeFeeFloor, hsame]

theorem not_lt_max_iff {nFees nMinFee nTierFee : Int64} :
    ¬ nFees < (if nTierFee > nMinFee then nTierFee else nMinFee) ↔
      ¬ nFees < nTierFee ∧ ¬ nFees < nMinFee := by
  simp only [Int64.lt_iff_toInt_lt, gt_iff_lt]
  split <;> omega

/-- **The fee rules of `ConnectInputs`** are the floor and what does not change with the height. -/
theorem checkFee_iff {nValueIn nValueOut : Int64} (hstake : tx.isCoinStake c.toSha256 = false)
    (hout : tx.getValueOut = some nValueOut) : tx.checkFee c nValueIn nHeight = true ↔
      ¬ nValueIn - nValueOut < tx.getTxTypeFeeFloor c.toSha256 nHeight ∧
        ¬ nValueIn - nValueOut < tx.getMinFee 1 .GMF_BLOCK 0 ∧ ¬ nValueIn < nValueOut ∧
          ¬ nValueIn - nValueOut < 0 ∧ moneyRange (0 + (nValueIn - nValueOut)) = true := by
  rw [checkFee, hstake, hout, Bool.false_or, Option.any_some]
  simp only [Bool.and_eq_true, Bool.not_eq_true', decide_eq_false_iff_not, not_lt_max_iff]
  tauto

end

end CTransaction

namespace Node

variable {c : Consensus H} {block : CBlock H} {nHeight : Nat}

omit [Ord H] [TransOrd H] in
/-- **The privacy rules of `ConnectBlock`** are rules on each of its transactions. -/
theorem checkPrivacyRules_iff : checkPrivacyRules c block nHeight = true ↔ ∀ tx ∈ block.vtx,
    (tx.isCoinBase c.toSha256 = false → tx.isCoinStake c.toSha256 = false →
      (STEALTH_MANDATORY_HEIGHT ≤ nHeight →
        tx.hasStealthMarker ∨ TWO_POOL_ACTIVATION_HEIGHT ≤ nHeight ∧ tx.hasPegoutMarker) ∧
      (RING_MIXING_MANDATORY_HEIGHT ≤ nHeight →
        tx.hasPegoutMarker ∨ RING_MIXING_MIN_EQUAL_OUTPUTS ≤ maxEqualOutputs tx)) ∧
    tx.checkCanonicalStructure c.toSha256 nHeight := by
  simp only [checkPrivacyRules, Bool.and_eq_true, Bool.or_eq_true, decide_eq_true_eq,
    List.all_eq_true, List.mem_filter, Bool.not_eq_true', ge_iff_le]
  constructor
  · rintro ⟨⟨hmarker, hring⟩, hcanonical⟩ tx htx
    refine ⟨fun hbase hstake => ⟨fun hle => ?_, fun hle => ?_⟩, ?_⟩
    · exact hmarker.resolve_left (Nat.not_lt.mpr hle) tx ⟨htx, hbase, hstake⟩
    · exact hring.resolve_left (Nat.not_lt.mpr hle) tx ⟨htx, hbase, hstake⟩
    · rcases hcanonical with hlt | hall
      · exact checkCanonicalStructure_below hlt
      · exact hall tx htx
  · intro h
    refine ⟨⟨?_, ?_⟩, .inr fun tx htx => (h tx htx).2⟩
    · refine (Nat.lt_or_ge nHeight STEALTH_MANDATORY_HEIGHT).imp_right fun hle tx htx => ?_
      exact ((h tx htx.1).1 htx.2.1 htx.2.2).1 hle
    · refine (Nat.lt_or_ge nHeight RING_MIXING_MANDATORY_HEIGHT).imp_right fun hle tx htx => ?_
      exact ((h tx htx.1).1 htx.2.1 htx.2.2).2 hle

omit [Ord H] [TransOrd H] in
/-- **A block of ordinary transactions** passes the privacy rules and each of its transactions the
fee rules exactly if the transactions meet `BlockRules` and the fee rules of every height. -/
theorem checks_iff_blockRules {fees : CTransaction H → Int64 × Int64} (hordinary : ∀ tx ∈ block.vtx,
    tx.isCoinBase c.toSha256 = false ∧ tx.isCoinStake c.toSha256 = false)
    (hout : ∀ tx ∈ block.vtx, tx.getValueOut = some (fees tx).2) :
    (checkPrivacyRules c block nHeight = true ∧ ∀ tx ∈ block.vtx, tx.checkFee c (fees tx).1 nHeight = true) ↔
      ∀ tx ∈ block.vtx, tx.BlockRules c nHeight ((fees tx).1 - (fees tx).2) ∧
        ¬ (fees tx).1 - (fees tx).2 < tx.getMinFee 1 .GMF_BLOCK 0 ∧ ¬ (fees tx).1 < (fees tx).2 ∧
          ¬ (fees tx).1 - (fees tx).2 < 0 ∧ moneyRange (0 + ((fees tx).1 - (fees tx).2)) = true := by
  rw [checkPrivacyRules_iff, ← forall₂_and]
  refine forall₂_congr fun tx htx => ?_
  obtain ⟨hbase, hstake⟩ := hordinary tx htx
  rw [checkFee_iff hstake (hout tx htx)]
  constructor
  · rintro ⟨⟨hprivacy, hcanonical⟩, hfloor, hrest⟩
    obtain ⟨hmarker, hring⟩ := hprivacy hbase hstake
    exact ⟨⟨hmarker, hring, hcanonical, hfloor⟩, hrest⟩
  · rintro ⟨hrules, hrest⟩
    exact ⟨⟨fun _ _ => ⟨hrules.marker, hrules.ringMixing⟩, hrules.canonical⟩, hrules.feeFloor, hrest⟩

end Node

namespace CTxMemPool

variable {c : Consensus H} {pool pool' : CTxMemPool H} {s : Node H} {env : Env H}
  {policy : RelayPolicy H} {tx : CTransaction H} {fCheckInputs : Bool}

/-- The rules that an accepted transaction has passed, at the height of the
tip. -/
structure Relayed (c : Consensus H) (tx : CTransaction H) (nBestHeight : Int) : Prop where
  notCoinBase : tx.isCoinBase c.toSha256 = false
  notCoinStake : tx.isCoinStake c.toSha256 = false
  marker : (STEALTH_MANDATORY_HEIGHT : Int) ≤ nBestHeight →
    tx.hasStealthMarker ∨ (TWO_POOL_ACTIVATION_HEIGHT : Int) ≤ nBestHeight ∧ tx.hasPegoutMarker
  ringMixing : (RING_MIXING_MANDATORY_HEIGHT : Int) ≤ nBestHeight →
    tx.hasPegoutMarker ∨ RING_MIXING_MIN_EQUAL_OUTPUTS ≤ Node.maxEqualOutputs tx
  canonical : tx.checkCanonicalStructure c.toSha256 nBestHeight.toNat

omit [TransOrd H] in
theorem relayed_of_checkRules (h : checkRules c s policy tx) : Relayed c tx s.nBestHeight := by
  simp only [checkRules, Bool.and_eq_true, Bool.or_eq_true, decide_eq_true_eq, Bool.not_eq_true',
    ge_iff_le] at h
  obtain ⟨⟨⟨⟨⟨⟨⟨_, hbase⟩, hstake⟩, hmarker⟩, hring⟩, hcanonical⟩, _⟩, _⟩ := h
  refine ⟨hbase, hstake, fun hle => ?_, fun hle => ?_, hcanonical⟩
  · rcases hmarker with (hlt | hstealth) | hpegout
    · exact absurd hle (Int.not_le.mpr hlt)
    · exact Or.inl hstealth
    · exact Or.inr hpegout
  · rcases hring with (hlt | hpegout) | hequal
    · exact absurd hle (Int.not_le.mpr hlt)
    · exact Or.inl hpegout
    · exact Or.inr hequal

omit [TransOrd H] in
theorem feeFloor_of_checkFee {nFees : Int64} (h : checkFee c s policy tx nFees) :
    ¬ nFees < tx.getTxTypeFeeFloor c.toSha256 s.nBestHeight.toNat := by
  unfold checkFee at h
  simp only [Bool.and_eq_true, Bool.not_eq_true', decide_eq_false_iff_not] at h
  exact (CTransaction.not_lt_max_iff.mp h.1).1

theorem accept_true (h : (pool.accept c s env policy tx fCheckInputs).1 = true) :
    checkRules c s policy tx = true ∧ (fCheckInputs = true → pool.checkInputs c s env policy tx = true) := by
  unfold accept at h
  simp only at h
  split_ifs at h with hrules hknown hindexed hspent hinputs
  refine ⟨by simpa using hrules, fun hcheck => ?_⟩
  simpa [hcheck] using hinputs

omit [DecidableEq H] in
theorem valueMapIn_congr {inputs inputs' : MapPrevTx H} {vin : List (CTxIn H)}
    (h : ∀ txin ∈ vin, getOutputFor txin inputs = getOutputFor txin inputs') :
    valueMapIn inputs vin = valueMapIn inputs' vin := by
  unfold valueMapIn
  generalize (0 : Int64) = nResult
  induction vin generalizing nResult with
  | nil => rfl
  | cons txin vin ih =>
    rw [List.foldlM_cons, List.foldlM_cons, h txin List.mem_cons_self]
    congr 1
    funext nResult
    exact ih (fun txin hmem => h txin (List.mem_cons_of_mem _ hmem)) nResult

theorem feeFloor_of_accept {inputs : MapPrevTx H} {nValueIn nValueOut : Int64}
    (h : (pool.accept c s env policy tx true).1 = true)
    (hin : valueMapIn inputs tx.vin = some nValueIn) (hout : tx.getValueOut = some nValueOut)
    (hsame : ∀ relayed, pool.fetchInputs s env tx = some relayed → ∀ txin ∈ tx.vin,
      getOutputFor txin relayed = getOutputFor txin inputs) :
    ¬ nValueIn - nValueOut < tx.getTxTypeFeeFloor c.toSha256 s.nBestHeight.toNat := by
  have hcheck := (accept_true h).2 rfl
  unfold checkInputs at hcheck
  rw [Option.any_eq_true] at hcheck
  obtain ⟨relayed, hfetch, hcheck⟩ := hcheck
  rw [valueMapIn_congr (hsame relayed hfetch), hin, hout] at hcheck
  simp only [Option.any_some, Bool.and_eq_true] at hcheck
  exact feeFloor_of_checkFee hcheck.1.2

/-- **Relay rules and the next block.**  A transaction that `accept` admits
meets the rules of a block at the next height, whose inputs name the same
outputs, exactly when it meets those that start there, and the fee floor if its
inputs were not checked. -/
theorem relay_rules_next_block {nHeight : Nat} {inputs : MapPrevTx H} {nValueIn nValueOut : Int64}
    (haccept : (pool.accept c s env policy tx fCheckInputs).1 = true)
    (hheight : (nHeight : Int) = s.nBestHeight + 1)
    (hin : valueMapIn inputs tx.vin = some nValueIn) (hout : tx.getValueOut = some nValueOut)
    (hsame : ∀ relayed, pool.fetchInputs s env tx = some relayed → ∀ txin ∈ tx.vin,
      getOutputFor txin relayed = getOutputFor txin inputs) :
    tx.BlockRules c nHeight (nValueIn - nValueOut) ↔
      tx.BoundaryRules c nHeight (nValueIn - nValueOut) fCheckInputs := by
  have hrelayed := relayed_of_checkRules (accept_true haccept).1
  constructor
  · intro h
    refine ⟨fun heq => ?_, fun heq => ?_, fun _ => h.canonical, fun _ => h.feeFloor⟩
    · rcases h.marker (Nat.le_of_eq heq.symm) with hstealth | ⟨hpool, _⟩
      · exact hstealth
      · rw [heq] at hpool
        exact absurd hpool (by decide)
    · exact h.ringMixing (Nat.le_of_eq heq.symm)
  · intro h
    refine ⟨fun hle => ?_, fun hle => ?_, ?_, ?_⟩
    · by_cases heq : nHeight = STEALTH_MANDATORY_HEIGHT
      · exact Or.inl (h.marker heq)
      · rcases hrelayed.marker (by omega) with hstealth | ⟨hpool, hpegout⟩
        · exact Or.inl hstealth
        · exact Or.inr ⟨by omega, hpegout⟩
    · by_cases heq : nHeight = RING_MIXING_MANDATORY_HEIGHT
      · exact h.ringMixing heq
      · exact hrelayed.ringMixing (by omega)
    · by_cases heq : nHeight = L5_GRAPH_NORM_ACTIVATION_HEIGHT
      · exact h.canonical heq
      · cases nHeight with
        | zero => exact CTransaction.checkCanonicalStructure_below (by decide)
        | succ nBestHeight =>
          rw [CTransaction.checkCanonicalStructure_succ heq]
          have htip : s.nBestHeight.toNat = nBestHeight := by omega
          rw [← htip]
          exact hrelayed.canonical
    · by_cases heq : nHeight = FEE_TIER_ACTIVATION_HEIGHT ∨ fCheckInputs = false
      · exact h.feeFloor heq
      · obtain ⟨hne, hcheck⟩ := not_or.mp heq
        rw [Bool.not_eq_false] at hcheck
        subst hcheck
        have hfloor := feeFloor_of_accept haccept hin hout hsame
        cases nHeight with
        | zero =>
          have htip : s.nBestHeight.toNat = 0 := by omega
          rwa [htip] at hfloor
        | succ nBestHeight =>
          rw [CTransaction.getTxTypeFeeFloor_succ hne]
          have htip : s.nBestHeight.toNat = nBestHeight := by omega
          rwa [htip] at hfloor

/-- A node whose tip has this height. -/
def relayNode (nHeight : Nat) : Node (List Nat) :=
  { Node.genesis sampleConsensus sampleGenesis with
    pindexBest := Node.samplePath nHeight
    nBestHeight := nHeight }

/-- A transaction of the pool. -/
def fundingTx : CTransaction (List Nat) := samplePayment 1 ⟨[7], 0⟩ [⟨100 * COIN, []⟩]

def relayPool : CTxMemPool (List Nat) := empty.addUnchecked (fundingTx.getHash transparent) fundingTx

/-- A transaction without any marker that spends it. -/
def unmarkedTx : CTransaction (List Nat) :=
  samplePayment 2 ⟨fundingTx.getHash transparent, 0⟩ [⟨99 * COIN, []⟩]

/-- One with a stealth marker and three equal outputs. -/
def markedTx : CTransaction (List Nat) :=
  samplePayment 2 ⟨fundingTx.getHash transparent, 0⟩
    (⟨0, [0x6a, 0x21] ++ List.replicate 33 2⟩ :: List.replicate 3 ⟨30 * COIN, []⟩)

/-- The inputs that `accept` fetches for it. -/
def markedInputs : MapPrevTx (List Nat) :=
  (relayPool.fetchInputs (relayNode 60000) (sampleEnv 0) markedTx).getD ∅

/-- Above the activation heights the transaction is relayed and mined under all four rules. -/
theorem relay_rules_next_block_marked :
    markedTx.BlockRules sampleConsensus 60001 (100 * COIN - 90 * COIN) := by
  have haccept : (relayPool.accept sampleConsensus (relayNode 60000) (sampleEnv 0) sampleRelay
      markedTx true).1 = true := by decide +kernel
  have hin : valueMapIn markedInputs markedTx.vin = some (100 * COIN) := by
    decide +kernel
  refine (relay_rules_next_block haccept rfl hin (by decide +kernel) ?_).mpr ?_
  · intro relayed hrelayed txin _
    rw [markedInputs, hrelayed, Option.getD_some]
  · refine ⟨fun heq => ?_, fun heq => ?_, fun heq => ?_, fun heq => ?_⟩
    · exact absurd heq (by decide)
    · exact absurd heq (by decide)
    · exact absurd heq (by decide)
    · exact absurd heq (by decide)

/-- **The last tip before the markers.**  At height 999 a transaction without a
marker is admitted, and a block of height 1000 cannot contain it. -/
theorem unmarked_transaction_relayed :
    (relayNode 999).nBestHeight = 999 ∧ unmarkedTx.isCoinBase transparent = false ∧
      unmarkedTx.isCoinStake transparent = false ∧
      (relayPool.accept sampleConsensus (relayNode 999)
      (sampleEnv 0) sampleRelay unmarkedTx true).1 = true ∧ Node.checkPrivacyRules sampleConsensus
        (sampleBlock 1000 [999] [sampleCoinbase 1000 [⟨0, []⟩], unmarkedTx]) 1000 = false := by
  decide +kernel

end CTxMemPool

end MaryJaneCoin
