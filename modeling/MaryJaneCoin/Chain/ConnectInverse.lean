import MaryJaneCoin.Chain.LedgerFresh
import MaryJaneCoin.Mw.StateUndo
import MaryJaneCoin.Mw.UndoRecords

/-!
# `DisconnectBlock` after `ConnectBlock`

`ConnectBlock` queues its changes over a whole block and writes them at the
end, `DisconnectBlock` edits the entries one input at a time.  For a block of
new transactions the second still undoes the first.  The Mimblewimble state has
a say in what `DisconnectBlock` returns, so the states are those which
connecting and disconnecting blocks leads to.
-/

namespace MaryJaneCoin

open Std List

/-- The negation of `fNoMWChange` in `DisconnectBlock`. -/
def CBlock.hasMWChange {H : Type} [DecidableEq H] (sha : Sha256 H) (block : CBlock H) : Bool :=
  block.hasMWEBVersion && !block.mwExtBlock.isNull sha

namespace Ledger

variable {H : Type} [Ord H] [TransOrd H] [LawfulEqOrd H] [DecidableEq H] {sha : Sha256 H}
  {index index' : TxIndexMap H}

/-- A transaction adds its own entry and no other. -/
theorem mem_connectTx {pos : CDiskTxPos} {tx : CTransaction H}
    (h : connectTx sha pos index tx = some index') (hash : H) :
    hash ∈ index' ↔ tx.getHash sha = hash ∨ hash ∈ index := by
  obtain ⟨spent, hspent, rfl⟩ := Option.map_eq_some_iff.mp h
  rw [ExtTreeMap.mem_insert, LawfulEqCmp.compare_eq_iff_eq, (foldlM_spend_marked hspent).2.2]

/-- Distinct transactions that are new to the index are new one after the
other, whatever they spend of each other. -/
theorem freshTxs_of_nodup {nFile nBlockPos nTxPos : Nat} {txs : List (CTransaction H)}
    (hdistinct : (txs.map (CTransaction.getHash sha)).Nodup) (hnew : ∀ tx ∈ txs,
    tx.getHash sha ∉ index) : FreshTxs sha nFile nBlockPos nTxPos txs index := by
  induction txs generalizing nTxPos index with
  | nil => exact trivial
  | cons tx txs ih =>
    rw [map_cons, nodup_cons] at hdistinct
    refine ⟨hnew tx mem_cons_self, ?_⟩
    intro index' hconnect
    apply ih hdistinct.2
    intro other hother hmem
    rcases (mem_connectTx hconnect _).mp hmem with heq | hold
    · exact hdistinct.1 (heq ▸ mem_map_of_mem hother)
    · exact hnew other (mem_cons_of_mem _ hother) hold

end Ledger

namespace Node

variable {H : Type} [Ord H] [TransOrd H] [DecidableEq H] {c : Consensus H} {blockOf : H → CBlock H}

/-- The Mimblewimble states that connecting and disconnecting blocks leads to,
in any order and whatever `DisconnectBlock` returns.  A hash stands for one
block, since `mapBlockIndex` takes no second one. -/
inductive MWRun (c : Consensus H) (blockOf : H → CBlock H) : CMWState H → Prop
  | start : MWRun c blockOf (CMWState.empty c.toSha256)
  | connect {mwState mwState' : CMWState H} (pindex : CBlockIndex H) : MWRun c blockOf mwState →
      connectMWEB c mwState (blockOf pindex.hash) pindex = some mwState' → MWRun c blockOf mwState'
  | disconnect {mwState : CMWState H} (pindex : CBlockIndex H) : MWRun c blockOf mwState →
      MWRun c blockOf (mwState.disconnectBlock pindex.hash
        (!(blockOf pindex.hash).hasMWChange c.toSha256)).2

variable {pindex : CBlockIndex H}

variable {mwState mwState' : CMWState H}

theorem connectMWEB_cases {block : CBlock H} (h : connectMWEB c mwState block pindex = some mwState') :
    (mwState' = mwState ∧ (MWEB_ACTIVATION_HEIGHT ≤ pindex.nHeight → block.hasMWChange c.toSha256 = false)) ∨
      (block.hasMWChange c.toSha256 ∧ mwState.apply c.toSha256
        ⟨block.mwExtBlock, Int32.ofNat pindex.nHeight, pindex.hash,
          block.mwExtBlock.body.getTotalPegIn - block.mwExtBlock.body.getTotalPegOut⟩ = some mwState') := by
  unfold connectMWEB at h
  split at h
  · rename_i hearly
    cases h
    exact Or.inl ⟨rfl, fun hlate => absurd hearly (by omega)⟩
  · split at h
    · cases h
    · split at h
      · rename_i hchange
        simp only at h
        split at h
        · exact Or.inr ⟨hchange, h⟩
        · cases h
      · rename_i hchange
        cases h
        exact Or.inl ⟨rfl, fun _ => Bool.eq_false_iff.mpr hchange⟩

variable [LawfulEqOrd H]

/-- **Run lemma.**  The state is well formed, and only blocks that change it
have a record. -/
theorem MWRun.records {mwState : CMWState H} (hrun : MWRun c blockOf mwState) :
    mwState.WF ∧ ∀ hash ∈ mwState.mapBlockUndo, (blockOf hash).hasMWChange c.toSha256 := by
  induction hrun with
  | start =>
    refine ⟨CMWState.wf_empty, ?_⟩
    intro hash hmem
    simp [CMWState.empty] at hmem
  | connect pindex _ hconnect ih =>
    rcases connectMWEB_cases hconnect with ⟨rfl, _⟩ | ⟨hchange, happly⟩
    · exact ih
    · refine ⟨(ih.1.apply happly).1, ?_⟩
      intro hash hmem
      rcases (ih.1.apply happly).2.origin hash hmem with hold | rfl
      · exact ih.2 hash hold
      · exact hchange
  | @disconnect mwState pindex _ ih =>
    refine ⟨ih.1.disconnect _ _, ?_⟩
    intro hash hmem
    apply ih.2
    cases hresult : mwState.disconnectBlock pindex.hash
        (!(blockOf pindex.hash).hasMWChange c.toSha256) with
    | mk ok mwState' =>
      rw [hresult] at hmem
      cases ok with
      | false => exact CMWState.disconnectBlock_false hresult ▸ hmem
      | true =>
        rcases CMWState.disconnectBlock_true hresult with ⟨_, rfl⟩ | ⟨_, herase⟩
        · exact hmem
        · rw [herase] at hmem
          exact (ExtTreeMap.mem_erase.mp hmem).2

/-- What `ConnectBlock` did to the Mimblewimble state, `DisconnectBlock` can
unwind. -/
theorem MWRun.disconnect_connect
    (hrun : MWRun c blockOf mwState) (hheight : MWEB_ACTIVATION_HEIGHT ≤ pindex.nHeight)
    (hconnect : connectMWEB c mwState (blockOf pindex.hash) pindex = some mwState') :
    (mwState'.disconnectBlock pindex.hash (!(blockOf pindex.hash).hasMWChange c.toSha256)).1 = true := by
  rcases connectMWEB_cases hconnect with ⟨rfl, hsame⟩ | ⟨_, happly⟩
  · have hno := hsame hheight
    have hrecord : mwState'.mapBlockUndo[pindex.hash]? = none := by
      rw [Option.eq_none_iff_forall_ne_some]
      intro undo hundo
      rw [hrun.records.2 _ ((FinMap.mem_iff_exists _ _).mpr ⟨undo, hundo⟩)] at hno
      cases hno
    unfold CMWState.disconnectBlock
    rw [hrecord, hno]
    rfl
  · have hnewest := (hrun.records.1.apply happly).2.newest
    obtain ⟨undone, hundone, _⟩ := hrun.records.1.disconnect_apply happly rfl hnewest
      (!(blockOf pindex.hash).hasMWChange c.toSha256)
    rw [hundone]

omit [LawfulEqOrd H] in
/-- What `DisconnectBlock` returns, once its transaction loop is through. -/
theorem disconnectBlock_eq {s : Node H} {block : CBlock H} {pprev : PIndex H} {txdb : CTxDB H}
    (hloop : EarlyExit.loop (disconnectInputs c) s.txdb block.vtx.reverse = (true, txdb)) :
    (s.disconnectBlock c block pindex pprev).1 =
      (decide (pindex.nHeight < MWEB_ACTIVATION_HEIGHT) ||
        (s.g_mwState.disconnectBlock pindex.hash (!block.hasMWChange c.toSha256)).1) := by
  unfold disconnectBlock CBlock.hasMWChange
  simp only [hloop, Bool.not_true, Bool.false_eq_true, if_false]
  split
  · rename_i hearly
    rw [decide_eq_true hearly, Bool.true_or]
  · rename_i hlate
    rw [decide_eq_false hlate, Bool.false_or]

/-- **Disconnecting is the inverse of connecting.**  For every database and
every block whose transactions the index does not have yet, `DisconnectBlock`
after `ConnectBlock` succeeds and gives the transaction index back. -/
theorem disconnectBlock_connectBlock {s t : Node H} {env : Env H} {block : CBlock H}
    {pindex : CBlockIndex H} {pprev : PIndex H} (hblock : blockOf pindex.hash = block)
    (hmw : MWRun c blockOf s.g_mwState) (hnew : ∀ tx ∈ block.vtx, tx.getHash c.toSha256 ∉ s.txdb.view.txindex)
    (h : s.connectBlock c env block pindex pprev false = (true, t)) :
    ∃ u, t.disconnectBlock c block pindex pprev = (true, u) ∧ u.txdb.view.txindex = s.txdb.view.txindex := by
  subst hblock
  have hledger := connectBlock_ledger h
  obtain ⟨acc, mwState, hchecks, hconnect, rfl⟩ := connectBlock_true h
  obtain ⟨coinbase, rest, hshape⟩ := CBlock.checkBlock_shape (connectChecks_some hchecks).1
  have hfresh : Ledger.FreshTxs c.toSha256 pindex.nFile pindex.nBlockPos
      ((blockOf pindex.hash).firstTxPos pindex.nBlockPos) (blockOf pindex.hash).vtx
      s.txdb.view.txindex := Ledger.freshTxs_of_nodup hshape.distinct hnew
  obtain ⟨txdb, hloop, _⟩ := disconnectInputs_loop hfresh hledger
  have hflag : ((s.connected c pindex pprev acc mwState).disconnectBlock c (blockOf pindex.hash)
      pindex pprev).1 = true := by
    rw [disconnectBlock_eq hloop]
    by_cases hearly : pindex.nHeight < MWEB_ACTIVATION_HEIGHT
    · rw [decide_eq_true hearly, Bool.true_or]
    · rw [decide_eq_false hearly, Bool.false_or]
      exact hmw.disconnect_connect (by omega) hconnect
  cases hresult : (s.connected c pindex pprev acc mwState).disconnectBlock c (blockOf pindex.hash)
      pindex pprev with
  | mk ok u =>
    rw [hresult] at hflag
    cases hflag
    exact ⟨u, rfl, disconnectBlock_ledger hfresh hledger hresult⟩

/-- The funded node with the chained block in its files. -/
def chainedNode : Node (List Nat) :=
  { fundedNode with
    blockFiles := fun nFile nBlockPos =>
      if nFile = 1 ∧ nBlockPos = 12000 then some chainedBlock else fundedNode.blockFiles nFile nBlockPos
    g_mwState := CMWState.empty transparent }

/-- What `ConnectBlock` makes of it. -/
def chainedCall : Bool × Node (List Nat) :=
  chainedNode.connectBlock sampleConsensus (sampleEnv 12000) chainedBlock chainedIndex
    chainedNode.pindexBest false

/-- The theorem at a block that spends an output of the index and an output of its own. -/
theorem disconnectBlock_connectBlock_chained :
    chainedCall.1 = true ∧
      chainedCall.2.txdb.view.txindex[fundedOutput.hash]? ≠
        chainedNode.txdb.view.txindex[fundedOutput.hash]? ∧
      ∃ u, chainedCall.2.disconnectBlock sampleConsensus chainedBlock chainedIndex
          chainedNode.pindexBest = (true, u) ∧
        u.txdb.view.txindex = chainedNode.txdb.view.txindex := by
  obtain ⟨hok, hmoved, hnew⟩ : chainedCall.1 = true ∧
      chainedCall.2.txdb.view.txindex[fundedOutput.hash]? ≠
        chainedNode.txdb.view.txindex[fundedOutput.hash]? ∧
      ∀ tx ∈ chainedBlock.vtx, tx.getHash transparent ∉ chainedNode.txdb.view.txindex := by
    decide +kernel
  have hrun : MWRun sampleConsensus (fun _ => chainedBlock) chainedNode.g_mwState := MWRun.start
  exact ⟨hok, hmoved, disconnectBlock_connectBlock rfl hrun hnew (EarlyExit.eq_of_fst hok)⟩

end Node

end MaryJaneCoin
