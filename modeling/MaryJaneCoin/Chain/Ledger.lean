import MaryJaneCoin.Chain.ConnectSpec
import MaryJaneCoin.Lib.OptionLoop

/-!
# The transaction index as a ledger

What a transaction does to the transaction index, without the checks around it:
it marks the outputs it spends and enters itself.  `ConnectBlock` works on an
overlay of queued changes instead; the refinement lemmas at the end of this
file say that laying the queued changes over the database gives the ledger
after the transactions.
-/

namespace MaryJaneCoin

open Std Option ExtTreeMap CTransaction

namespace Ledger

variable {H : Type} [Ord H] [TransOrd H]

/-- The entry with one output marked. -/
def mark (txindex : CTxIndex) (n : Nat) (pos : Option CDiskTxPos) : CTxIndex :=
  { txindex with vSpent := txindex.vSpent.set n pos }

/-- Mark an unspent output as spent at `pos`. -/
def spend (pos : CDiskTxPos) (index : TxIndexMap H) (prevout : COutPoint H) :
    Option (TxIndexMap H) :=
  index[prevout.hash]?.bind fun txindex =>
    if txindex.vSpent[prevout.n.toNat]? = some none then
      some (index.insert prevout.hash (mark txindex prevout.n.toNat (some pos)))
    else none

theorem spend_eq_some {pos : CDiskTxPos} {index index' : TxIndexMap H} {prevout : COutPoint H} :
    spend pos index prevout = some index' ↔
      ∃ txindex, index[prevout.hash]? = some txindex ∧ txindex.vSpent[prevout.n.toNat]? = some none ∧
        index' = index.insert prevout.hash (mark txindex prevout.n.toNat (some pos)) := by
  unfold spend
  rw [bind_eq_some_iff]
  constructor
  · intro ⟨txindex, hlook, hif⟩
    split at hif
    · rename_i hnull
      exact ⟨txindex, hlook, hnull, (Option.some.inj hif).symm⟩
    · cases hif
  · intro ⟨txindex, hlook, hnull, heq⟩
    exact ⟨txindex, hlook, by rw [if_pos hnull, heq]⟩

variable [DecidableEq H] (sha : Sha256 H)

/-- The outputs a transaction spends. -/
def spends (tx : CTransaction H) : List (COutPoint H) :=
  if tx.isCoinBase sha then [] else tx.vin.map CTxIn.prevout

/-- The effect of a transaction that stands at `pos`. -/
def connectTx (pos : CDiskTxPos) (index : TxIndexMap H) (tx : CTransaction H) :
    Option (TxIndexMap H) :=
  ((spends sha tx).foldlM (spend pos) index).map fun spent =>
    spent.insert (tx.getHash sha) (CTxIndex.new pos tx.vout.length)

/-- The effect of transactions that stand in a row from `nTxPos` on. -/
def connectTxs (nFile nBlockPos : Nat) :
    Nat → List (CTransaction H) → TxIndexMap H → Option (TxIndexMap H)
  | _, [], index => some index
  | nTxPos, tx :: rest, index =>
    (connectTx sha ⟨nFile, nBlockPos, nTxPos⟩ index tx).bind
      (connectTxs nFile nBlockPos (nTxPos + tx.serializeSize) rest)

/-- The effect of a block. -/
def connectBlock (block : CBlock H) (pindex : CBlockIndex H) (index : TxIndexMap H) :
    Option (TxIndexMap H) :=
  connectTxs sha pindex.nFile pindex.nBlockPos (block.firstTxPos pindex.nBlockPos) block.vtx index

end Ledger

namespace CTransaction

variable {H : Type} [Ord H] [TransOrd H] [LawfulEqOrd H] {s : Node H} {env : Env H}
  {base queued : TxIndexMap H}

/-- The fetched entries are those of the database under the queued changes. -/
def Fetched (base queued : TxIndexMap H) (inputs : MapPrevTx H) : Prop :=
  ∀ (hash : H) (prev : CTxIndex × CTransaction H), inputs[hash]? = some prev →
    (FinMap.overlay base queued)[hash]? = some prev.1

/-- The fetched transactions are those at the positions of their entries. -/
def ReadFrom (s : Node H) (env : Env H) (inputs : MapPrevTx H) : Prop :=
  ∀ (hash : H) (prev : CTxIndex × CTransaction H), inputs[hash]? = some prev →
    (if prev.1.pos = ⟨1, 1, 1⟩ then env.mempool hash else s.readTxFromDisk env prev.1.pos) =
      some prev.2

theorem fetchInput_spec {inputs inputs' : MapPrevTx H} {txin : CTxIn H}
    (hfetched : Fetched s.txdb.view.txindex queued inputs) (hread : ReadFrom s env inputs)
    (h : fetchInput s env queued inputs txin = some inputs') :
    Fetched s.txdb.view.txindex queued inputs' ∧ ReadFrom s env inputs' := by
  unfold fetchInput at h
  split at h
  · cases h
    exact ⟨hfetched, hread⟩
  · obtain ⟨txindex, hlook, hmap⟩ := bind_eq_some_iff.mp h
    obtain ⟨txPrev, htx, rfl⟩ := map_eq_some_iff.mp hmap
    constructor
    · intro hash prev hprev
      by_cases hash' : txin.prevout.hash = hash
      · subst hash'
        rw [getElem?_insert_self] at hprev
        cases hprev
        rw [FinMap.getElem?_overlay]
        exact hlook
      · rw [FinMap.getElem?_insert_ne _ _ hash'] at hprev
        exact hfetched hash prev hprev
    · intro hash prev hprev
      by_cases hash' : txin.prevout.hash = hash
      · subst hash'
        rw [getElem?_insert_self] at hprev
        cases hprev
        exact htx
      · rw [FinMap.getElem?_insert_ne _ _ hash'] at hprev
        exact hread hash prev hprev

/-- **`FetchInputs`.** -/
theorem fetchInputs_spec {tx : CTransaction H} {inputs : MapPrevTx H}
    (h : tx.fetchInputs s env queued = some inputs) :
    Fetched s.txdb.view.txindex queued inputs ∧ ReadFrom s env inputs ∧
      ∀ txin ∈ tx.vin, inRange inputs txin := by
  unfold fetchInputs at h
  obtain ⟨hloop, hrange⟩ := filter_eq_some_iff.mp h
  have hstep := OptionLoop.foldlM_invariant
    (fun inputs => Fetched s.txdb.view.txindex queued inputs ∧ ReadFrom s env inputs)
    (fun _ _ _ _ hinv hnext => fetchInput_spec hinv.1 hinv.2 hnext) hloop
    ⟨by intro hash prev hprev; simp at hprev, by intro hash prev hprev; simp at hprev⟩
  exact ⟨hstep.1, hstep.2, by simpa using hrange⟩

variable [DecidableEq H] {c : Consensus H} {tx : CTransaction H} {pos : CDiskTxPos}
  {nBestHeight : Int}

variable {acc acc' : MapPrevTx H × TxIndexMap H}

theorem spendInput_spec {input : CTxIn H × Nat} (hfetched : Fetched base acc.2 acc.1)
    (h : tx.spendInput c pos nBestHeight acc input = some acc') :
    Fetched base acc'.2 acc'.1 ∧ Ledger.spend pos (FinMap.overlay base acc.2) input.1.prevout =
        some (FinMap.overlay base acc'.2) := by
  unfold spendInput at h
  obtain ⟨prev, hprev, hif⟩ := bind_eq_some_iff.mp h
  split at hif
  · cases hif
  · rename_i hnull
    split at hif
    · cases hif
    · cases hif
      constructor
      · intro hash prev' hlook
        rw [FinMap.overlay_insert]
        by_cases hhash : input.1.prevout.hash = hash
        · subst hhash
          rw [getElem?_insert_self] at hlook ⊢
          cases hlook
          rfl
        · rw [FinMap.getElem?_insert_ne _ _ hhash] at hlook ⊢
          exact hfetched hash prev' hlook
      · rw [Ledger.spend_eq_some]
        refine ⟨prev.1, hfetched _ _ hprev, not_not.mp hnull, ?_⟩
        rw [FinMap.overlay_insert]
        rfl

theorem spendInputs_spec {vin : List (CTxIn H × Nat)} (hfetched : Fetched base acc.2 acc.1)
    (h : vin.foldlM (tx.spendInput c pos nBestHeight) acc = some acc') :
    (vin.map fun input => input.1.prevout).foldlM (Ledger.spend pos)
      (FinMap.overlay base acc.2) = some (FinMap.overlay base acc'.2) := by
  induction vin generalizing acc with
  | nil => cases h; rfl
  | cons input vin ih =>
    obtain ⟨mid, hmid, hrest⟩ := OptionLoop.foldlM_cons h
    obtain ⟨hfetched', hspend⟩ := spendInput_spec hfetched hmid
    rw [List.map_cons, List.foldlM_cons, hspend]
    exact ih hfetched' hrest

/-- **`ConnectInputs`.** -/
theorem connectInputs_spec {inputs : MapPrevTx H} {queued' : TxIndexMap H}
    {pindex : CBlockIndex H} {pprev : PIndex H} (hfetched : Fetched base queued inputs)
    (h : tx.connectInputs c inputs queued pos pindex pprev nBestHeight = some queued') :
    ∃ nValueIn, tx.vin.foldlM (tx.checkInput c inputs pindex pprev) 0 = some nValueIn ∧
      tx.checkFee c nValueIn pindex.nHeight ∧
      (tx.vin.map CTxIn.prevout).foldlM (Ledger.spend pos) (FinMap.overlay base queued) =
        some (FinMap.overlay base queued') := by
  unfold connectInputs at h
  obtain ⟨nValueIn, hvalue, h⟩ := bind_eq_some_iff.mp h
  obtain ⟨spent, hspent, h⟩ := bind_eq_some_iff.mp h
  split at h
  · rename_i hfee
    cases h
    refine ⟨nValueIn, hvalue, hfee, ?_⟩
    have hvin : tx.vin = tx.vin.zipIdx.map Prod.fst := (List.zipIdx_map_fst 0 tx.vin).symm
    rw [hvin, List.map_map]
    exact spendInputs_spec hfetched hspent
  · cases h

end CTransaction

namespace Node

variable {H : Type} [Ord H] [TransOrd H] [DecidableEq H] {c : Consensus H} {s t : Node H}
  {env : Env H} {block : CBlock H} {pindex : CBlockIndex H} {pprev : PIndex H}
  {acc acc' : ConnectState H} {tx : CTransaction H}

theorem connectTx_overwritesUnspent {fJustCheck : Bool}
    (h : s.connectTx c env pindex pprev fJustCheck acc tx = some acc') :
    s.overwritesUnspent (tx.getHash c.toSha256) = false := by
  unfold connectTx at h
  simp only at h
  split at h
  · cases h
  · rename_i hover
    simpa using hover

theorem connectTx_coinbase (hcoinbase : tx.isCoinBase c.toSha256)
    (h : s.connectTx c env pindex pprev false acc tx = some acc') :
    ∃ nTxValueOut nSigOps, tx.getValueOut = some nTxValueOut ∧
      acc' =
        { acc with
          mapQueuedChanges := acc.mapQueuedChanges.insert (tx.getHash c.toSha256)
            (CTxIndex.new ⟨pindex.nFile, pindex.nBlockPos, acc.nTxPos⟩ tx.vout.length)
          nValueOut := acc.nValueOut + nTxValueOut
          nSigOps := nSigOps
          nTxPos := acc.nTxPos + tx.serializeSize } := by
  unfold connectTx at h
  simp only [hcoinbase, if_true, Bool.false_eq_true, if_false] at h
  split at h
  · cases h
  · split at h
    · cases h
    · obtain ⟨nTxValueOut, hvalue, rfl⟩ := map_eq_some_iff.mp h
      exact ⟨nTxValueOut, _, hvalue, rfl⟩

theorem valueMapIn_of_checkInput {inputs : MapPrevTx H} {vin : List (CTxIn H)} {start nValueIn : Int64}
    (h : vin.foldlM (tx.checkInput c inputs pindex pprev) start = some nValueIn) :
    vin.foldlM (fun nResult txin =>
      (getOutputFor txin inputs).map fun prevout => nResult + prevout.nValue) start =
        some nValueIn := by
  induction vin generalizing start with
  | nil => exact h
  | cons txin vin ih =>
    obtain ⟨mid, hmid, hrest⟩ := OptionLoop.foldlM_cons h
    have hout : (getOutputFor txin inputs).map
        (fun prevout => start + prevout.nValue) = some mid := by
      unfold checkInput at hmid
      obtain ⟨prev, hprev, hmid⟩ := bind_eq_some_iff.mp hmid
      obtain ⟨prevout, hprevout, hmid⟩ := bind_eq_some_iff.mp hmid
      have heq : start + prevout.nValue = mid := by grind
      rw [getOutputFor, hprev, bind_some, hprevout, map_some, heq]
    rw [List.foldlM_cons, hout]
    exact ih hrest

variable [LawfulEqOrd H]

theorem connectTx_inputs (hcoinbase : tx.isCoinBase c.toSha256 = false)
    (h : s.connectTx c env pindex pprev false acc tx = some acc') : ∃ inputs queued nTxValueIn nTxValueOut,
      CTransaction.Fetched s.txdb.view.txindex acc.mapQueuedChanges inputs ∧
      CTransaction.ReadFrom s env inputs ∧
      tx.vin.foldlM (tx.checkInput c inputs pindex pprev) 0 = some nTxValueIn ∧
      tx.getValueOut = some nTxValueOut ∧ tx.checkFee c nTxValueIn pindex.nHeight ∧
      (tx.vin.map CTxIn.prevout).foldlM (Ledger.spend ⟨pindex.nFile, pindex.nBlockPos, acc.nTxPos⟩)
          (FinMap.overlay s.txdb.view.txindex acc.mapQueuedChanges) =
        some (FinMap.overlay s.txdb.view.txindex queued) ∧
      acc'.mapQueuedChanges = queued.insert (tx.getHash c.toSha256)
        (CTxIndex.new ⟨pindex.nFile, pindex.nBlockPos, acc.nTxPos⟩ tx.vout.length) ∧ acc'.nFees =
      (if tx.isCoinStake c.toSha256 then acc.nFees else acc.nFees + (nTxValueIn - nTxValueOut)) ∧
      acc'.nValueIn = acc.nValueIn + nTxValueIn ∧ acc'.nValueOut = acc.nValueOut + nTxValueOut ∧
      acc'.nStakeReward = (if tx.isCoinStake c.toSha256 then nTxValueOut - nTxValueIn else acc.nStakeReward) ∧
      acc'.nTxPos = acc.nTxPos + tx.serializeSize := by
  unfold connectTx at h
  simp only [hcoinbase, Bool.false_eq_true, if_false] at h
  split at h
  · cases h
  · split at h
    · cases h
    · obtain ⟨inputs, hinputs, h⟩ := bind_eq_some_iff.mp h
      split at h
      · cases h
      · obtain ⟨nTxValueIn, hvalueIn, h⟩ := bind_eq_some_iff.mp h
        obtain ⟨nTxValueOut, hvalueOut, h⟩ := bind_eq_some_iff.mp h
        obtain ⟨queued, hqueued, rfl⟩ := map_eq_some_iff.mp h
        obtain ⟨hfetched, hread, _⟩ := CTransaction.fetchInputs_spec hinputs
        obtain ⟨nValueIn, hcheck, hfee, hspends⟩ := CTransaction.connectInputs_spec hfetched hqueued
        have hsame : nValueIn = nTxValueIn := by
          have hsum := valueMapIn_of_checkInput hcheck
          unfold valueMapIn at hvalueIn
          exact Option.some.inj (hsum.symm.trans hvalueIn)
        subst hsame
        exact ⟨inputs, queued, nValueIn, nTxValueOut, hfetched, hread, hcheck, hvalueOut, hfee,
          hspends, rfl, rfl, rfl, rfl, rfl, rfl⟩

/-- **A round of the transaction loop connects the transaction in the
ledger.** -/
theorem connectTx_ledger (h : s.connectTx c env pindex pprev false acc tx = some acc') :
    Ledger.connectTx c.toSha256 ⟨pindex.nFile, pindex.nBlockPos, acc.nTxPos⟩
        (FinMap.overlay s.txdb.view.txindex acc.mapQueuedChanges) tx =
      some (FinMap.overlay s.txdb.view.txindex acc'.mapQueuedChanges) ∧
    acc'.nTxPos = acc.nTxPos + tx.serializeSize := by
  unfold Ledger.connectTx Ledger.spends
  cases hcoinbase : tx.isCoinBase c.toSha256 with
  | true =>
    obtain ⟨_, _, _, rfl⟩ := connectTx_coinbase hcoinbase h
    refine ⟨?_, rfl⟩
    rw [if_pos rfl, FinMap.overlay_insert]
    rfl
  | false =>
    obtain ⟨_, queued, _, _, _, _, _, _, _, hspends, hqueued, _, _, _, _, hpos⟩ :=
      connectTx_inputs hcoinbase h
    refine ⟨?_, hpos⟩
    rw [if_neg (by simp), hspends, map_some, hqueued, FinMap.overlay_insert]

/-- **The transaction loop connects the block in the ledger.** -/
theorem connectTxs_ledger {txs : List (CTransaction H)}
    (h : txs.foldlM (s.connectTx c env pindex pprev false) acc = some acc') :
    Ledger.connectTxs c.toSha256 pindex.nFile pindex.nBlockPos acc.nTxPos txs
        (FinMap.overlay s.txdb.view.txindex acc.mapQueuedChanges) =
      some (FinMap.overlay s.txdb.view.txindex acc'.mapQueuedChanges) := by
  induction txs generalizing acc with
  | nil => cases h; rfl
  | cons tx txs ih =>
    obtain ⟨mid, hmid, hrest⟩ := OptionLoop.foldlM_cons h
    obtain ⟨hledger, hpos⟩ := connectTx_ledger hmid
    rw [Ledger.connectTxs, hledger, bind_some, ← hpos]
    exact ih hrest

/-- **`ConnectBlock` connects the block in the ledger.** -/
theorem connectBlock_ledger (h : s.connectBlock c env block pindex pprev false = (true, t)) :
    Ledger.connectBlock c.toSha256 block pindex s.txdb.view.txindex = some t.txdb.view.txindex := by
  obtain ⟨acc, mwState, hchecks, _, rfl⟩ := connectBlock_true h
  have hloop := connectTxs_ledger (connectChecks_some hchecks).2.1
  rw [connectStart, FinMap.overlay_empty] at hloop
  rw [Ledger.connectBlock, txindex_connected]
  exact hloop

end Node

end MaryJaneCoin
