import MaryJaneCoin.Chain.Pegs

/-!
# Fee tiers against the canonical structure

`GetTxTypeFeeFloor` knows transactions by their markers, and `CheckCanonicalStructure` wants every
`OP_RETURN` output to be 35 bytes long.  A stealth marker is, and a peg-out marker exempts its
transaction; the markers of bridges and of peg-ins have other lengths and exempt nothing.
-/

namespace MaryJaneCoin

open CTransaction
open List hiding Vector
open Codec

/-- A marker output, as `HasStealthMarker` and its likes look for it. -/
def CTxOut.isMarker (txout : CTxOut) (length : Nat) (start : Bytes) : Bool :=
  txout.nValue == 0 && txout.scriptPubKey.length == length && txout.scriptPubKey.take start.length == start

def CTxOut.isStealthMarker (txout : CTxOut) : Bool := txout.isMarker 35 [0x6a, 0x21]
def CTxOut.isPegoutMarker (txout : CTxOut) : Bool := txout.isMarker 8 ([0x6a, 0x06] ++ "PEGOUT".toUTF8.toList)
def CTxOut.isBridgeMarker (txout : CTxOut) : Bool := txout.isMarker 8 ([0x6a, 0x06] ++ "BRIDGE".toUTF8.toList)

/-- An output that `GetPegInMarkerScript` made. -/
def CTxOut.IsPegInMarker (txout : CTxOut) : Prop :=
  ∃ commitment, txout.scriptPubKey = getPegInMarkerScript commitment

theorem length_getPegInMarkerScript (commitment : Commitment) :
    (getPegInMarkerScript commitment).length = 39 := by
  have hdata : (CScript.PEGIN_MARKER ++ commitment.toList).length = 37 := by
    rw [length_append, Vector.length_toList]
    rfl
  rw [getPegInMarkerScript, CScript.pushData, if_pos (by rw [hdata]; decide), length_cons, length_cons, hdata]

variable {txout : CTxOut}

theorem isReturn_getPegInMarkerScript (h : txout.IsPegInMarker) : txout.isReturn = true := by
  obtain ⟨commitment, hscript⟩ := h
  rw [CTxOut.isReturn, hscript]
  rfl

theorem CTxOut.isMarker_spec {length : Nat} {start : Bytes}
    (h : txout.isMarker length (OP_RETURN :: start) = true) :
    txout.isReturn = true ∧ txout.scriptPubKey.length = length := by
  rw [isMarker, Bool.and_eq_true, Bool.and_eq_true, beq_iff_eq, beq_iff_eq, beq_iff_eq] at h
  refine ⟨?_, h.1.2⟩
  rw [isReturn]
  cases hscript : txout.scriptPubKey with
  | nil =>
    rw [hscript, take_nil] at h
    cases h.2
  | cons op rest =>
    rw [hscript, length_cons, length_cons, take_succ_cons] at h
    rw [head?_cons, (List.cons.inj h.2).1]
    exact beq_self_eq_true _

/-- The rule of `CheckCanonicalStructure` for one output. -/
def CTxOut.isCanonical (txout : CTxOut) : Bool :=
  txout.scriptPubKey.head? != some OP_RETURN || txout.scriptPubKey.length == CANONICAL_OPRETURN_LEN

theorem CTxOut.isCanonical_of_isReturn (h : txout.isReturn = true) :
    txout.isCanonical = true ↔ txout.scriptPubKey.length = CANONICAL_OPRETURN_LEN := by
  rw [isReturn, beq_iff_eq] at h
  rw [isCanonical, h, bne_self_eq_false, Bool.false_or, beq_iff_eq]

/-- A transaction with a fee tier of its own, whose peg-in is marked as `CheckTransaction` demands
and whose other outputs are ordinary payments. -/
structure TierTransaction {H : Type} [DecidableEq H] (sha : Sha256 H) (nHeight : Nat) (tx : CTransaction H) :
    Prop where
  tier : tx.getTxTypeFeeFloor sha nHeight = MARYJ_STANDARD_FEE ∨
    tx.getTxTypeFeeFloor sha nHeight = MARYJ_POOL_FEE
  pegIn : tx.hasMWEB = true → 0 < tx.mwTx.body.getTotalPegIn → ∃ txout ∈ tx.vout, txout.IsPegInMarker
  outputs : ∀ txout ∈ tx.vout, txout.isReturn = false ∨ txout.isStealthMarker = true ∨
    txout.isPegoutMarker = true ∨ txout.isBridgeMarker = true ∨ txout.IsPegInMarker

variable {H : Type} [DecidableEq H] {sha : Sha256 H} {nHeight : Nat} {tx : CTransaction H}

theorem TierTransaction.not_coin (h : TierTransaction sha nHeight tx) :
    tx.isCoinBase sha = false ∧ tx.isCoinStake sha = false := by
  have htier := h.tier
  rw [getTxTypeFeeFloor] at htier
  split at htier
  · exact absurd htier (by decide)
  · split at htier
    · exact absurd htier (by decide)
    · rename_i hcoin
      rwa [Bool.or_eq_true, not_or, Bool.not_eq_true, Bool.not_eq_true] at hcoin

theorem TierTransaction.isCanonical_iff (h : TierTransaction sha nHeight tx)
    (hpegout : tx.hasPegoutMarker = false) (hmem : txout ∈ tx.vout) :
    txout.isCanonical = true ↔ txout.isBridgeMarker = false ∧ ¬txout.IsPegInMarker := by
  have hnone : txout.isPegoutMarker = false := by
    rw [hasPegoutMarker, hasMarker, any_eq_false] at hpegout
    exact Bool.eq_false_iff.mpr (hpegout txout hmem)
  have hbridge : txout.isBridgeMarker = true → txout.isReturn = true ∧ txout.scriptPubKey.length = 8 :=
    CTxOut.isMarker_spec
  constructor
  · intro hcanonical
    refine ⟨Bool.eq_false_iff.mpr fun hmarker => ?_, fun hmarker => ?_⟩
    · obtain ⟨hreturn, hlength⟩ := hbridge hmarker
      rw [CTxOut.isCanonical_of_isReturn hreturn, hlength] at hcanonical
      exact absurd hcanonical (by decide)
    · rw [CTxOut.isCanonical_of_isReturn (isReturn_getPegInMarkerScript hmarker)] at hcanonical
      obtain ⟨commitment, hscript⟩ := hmarker
      rw [hscript, length_getPegInMarkerScript] at hcanonical
      exact absurd hcanonical (by decide)
  · intro hother
    rcases h.outputs txout hmem with hordinary | hstealth | hmarker | hmarker | hmarker
    · rw [CTxOut.isReturn, beq_eq_false_iff_ne] at hordinary
      rw [CTxOut.isCanonical, bne_iff_ne.mpr hordinary, Bool.true_or]
    · obtain ⟨hreturn, hlength⟩ := CTxOut.isMarker_spec hstealth
      exact (CTxOut.isCanonical_of_isReturn hreturn).mpr hlength
    · rw [hnone] at hmarker
      cases hmarker
    · rw [hother.1] at hmarker
      cases hmarker
    · exact absurd hmarker hother.2

/-- **The tiers that the structure rule admits**: a transaction with a fee tier of its own is
accepted exactly if it has a peg-out marker, or neither a bridge marker nor a peg-in marker. -/
theorem tier_admissible_iff (hheight : L5_GRAPH_NORM_ACTIVATION_HEIGHT ≤ nHeight)
    (h : TierTransaction sha nHeight tx) :
    tx.checkCanonicalStructure sha nHeight = true ↔ tx.hasPegoutMarker = true ∨
        (tx.hasBridgeMarker = false ∧ ∀ txout ∈ tx.vout, ¬txout.IsPegInMarker) := by
  obtain ⟨hcoinBase, hcoinStake⟩ := h.not_coin
  have hrule : tx.checkCanonicalStructure sha nHeight = true ↔
      tx.hasPegoutMarker = true ∨ ∀ txout ∈ tx.vout, txout.isCanonical = true := by
    rw [CTransaction.checkCanonicalStructure, decide_eq_false (Nat.not_lt.mpr hheight), hcoinBase,
      hcoinStake, Bool.false_or, Bool.false_or, Bool.false_or, Bool.or_eq_true, all_eq_true]
    rfl
  rw [hrule]
  cases hpegout : tx.hasPegoutMarker with
  | true => exact iff_of_true (Or.inl rfl) (Or.inl rfl)
  | false =>
    have hbridge : tx.hasBridgeMarker = false ↔ ∀ txout ∈ tx.vout, txout.isBridgeMarker = false := by
      rw [CTransaction.hasBridgeMarker, CTransaction.hasMarker, any_eq_false]
      simp only [Bool.not_eq_true]
      rfl
    rw [hbridge]
    simp only [Bool.false_eq_true, false_or]
    constructor
    · intro hall
      exact ⟨fun txout hmem => ((h.isCanonical_iff hpegout hmem).mp (hall txout hmem)).1,
        fun txout hmem => ((h.isCanonical_iff hpegout hmem).mp (hall txout hmem)).2⟩
    · intro hnone txout hmem
      exact (h.isCanonical_iff hpegout hmem).mpr ⟨hnone.1 txout hmem, hnone.2 txout hmem⟩

/-- A payment of 50 next to a marker. -/
def markedPayment (marker : CScript) : CTransaction (List Nat) :=
  samplePayment 1 ⟨[1], 0⟩ [⟨50, [0x51]⟩, ⟨0, marker⟩]

def stealthMarker : CScript := [0x6a, 0x21] ++ List.replicate 33 2
def bridgeMarker : CScript := [0x6a, 0x06] ++ "BRIDGE".toUTF8.toList

def markedPegIn : CTransaction (List Nat) :=
  { markedPayment (getPegInMarkerScript (sampleCommitment 5)) with
    nVersion := CT_TX_VERSION
    mwTx := ⟨⟨[], [], [⟨KERNEL_PEGIN, 0, 5, 0, sampleCommitment 2, Vector.replicate 64 1, []⟩]⟩,
      Vector.replicate 32 0⟩ }

theorem TierTransaction.of_markers {tx : CTransaction (List Nat)} {nHeight : Nat}
    (htier : tx.getTxTypeFeeFloor transparent nHeight = MARYJ_STANDARD_FEE ∨
      tx.getTxTypeFeeFloor transparent nHeight = MARYJ_POOL_FEE) (hplain : tx.hasMWEB = false)
    (houtputs : ∀ txout ∈ tx.vout, txout.isReturn = false ∨ txout.isStealthMarker = true ∨
      txout.isPegoutMarker = true ∨ txout.isBridgeMarker =
        true) : TierTransaction transparent nHeight tx where
  tier := htier
  pegIn hmweb := by
    rw [hplain] at hmweb
    cases hmweb
  outputs txout hmem := by
    rcases houtputs txout hmem with h | h | h | h
    · exact Or.inl h
    · exact Or.inr (Or.inl h)
    · exact Or.inr (Or.inr (Or.inl h))
    · exact Or.inr (Or.inr (Or.inr (Or.inl h)))

theorem tier_admissible_stealth : TierTransaction transparent 60000 (markedPayment stealthMarker) ∧
      (markedPayment stealthMarker).checkCanonicalStructure transparent 60000 = true := by
  have htier : TierTransaction transparent 60000 (markedPayment stealthMarker) :=
    .of_markers (by decide +kernel) (by decide +kernel) (by decide +kernel)
  refine ⟨htier, (tier_admissible_iff (by decide) htier).mpr (Or.inr ⟨by decide +kernel, ?_⟩)⟩
  intro txout hmem hmarker
  obtain ⟨commitment, hscript⟩ := hmarker
  have hlength := length_getPegInMarkerScript commitment
  rw [← hscript] at hlength
  have hshort : ∀ txout ∈ (markedPayment stealthMarker).vout, txout.scriptPubKey.length ≠ 39 := by
    decide +kernel
  exact hshort txout hmem hlength

/-- **A bridge and a peg-in that are refused**, although each has a tier of its own. -/
theorem tier_refused : TierTransaction transparent 60000 (markedPayment bridgeMarker) ∧
      (markedPayment bridgeMarker).checkCanonicalStructure transparent 60000 = false ∧
      TierTransaction transparent 60000 markedPegIn ∧
      markedPegIn.checkCanonicalStructure transparent 60000 = false := by
  refine ⟨.of_markers (by decide +kernel) (by decide +kernel) (by decide +kernel), by decide +kernel,
    ⟨by decide +kernel, fun _ _ => ?_, ?_⟩, by decide +kernel⟩
  · exact ⟨_, mem_cons_of_mem _ mem_cons_self, sampleCommitment 5, rfl⟩
  · intro txout hmem
    rcases List.mem_cons.mp hmem with rfl | hmem
    · exact Or.inl rfl
    · rw [mem_singleton.mp hmem]
      exact Or.inr (Or.inr (Or.inr (Or.inr ⟨sampleCommitment 5, rfl⟩)))

end MaryJaneCoin
