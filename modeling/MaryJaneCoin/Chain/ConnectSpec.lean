import MaryJaneCoin.Chain.ConnectBlock

/-!
# What a successful `ConnectBlock` did

One inversion lemma for `connectBlock` and one equation for each part of the
node it leaves behind.  Everything later is proved from these and never unfolds
`connectBlock` again.
-/

namespace MaryJaneCoin

open Std List

namespace CTxDB

variable {H : Type} [Ord H]

@[simp] theorem view_write (txdb : CTxDB H) (f : TxDBContent H → TxDBContent H) :
    (txdb.write f).view = f txdb.view := by
  unfold write view
  cases txdb.activeBatch with
  | none => rfl
  | some batch => rfl

/-- A batch is open. -/
def InTxn (txdb : CTxDB H) : Prop := txdb.activeBatch.isSome

theorem InTxn.write {txdb : CTxDB H} (h : txdb.InTxn) (f : TxDBContent H → TxDBContent H) :
    (txdb.write f).InTxn ∧ (txdb.write f).pdb = txdb.pdb := by
  unfold InTxn CTxDB.write at *
  cases hbatch : txdb.activeBatch with
  | none => simp [hbatch] at h
  | some batch => exact ⟨rfl, rfl⟩

variable [TransOrd H]

@[simp] theorem view_updateTxIndex (txdb : CTxDB H) (hash : H) (txindex : CTxIndex) :
    (txdb.updateTxIndex hash txindex).view =
      { txdb.view with txindex := txdb.view.txindex.insert hash txindex } := by
  rw [updateTxIndex, view_write]

@[simp] theorem view_eraseTxIndex (txdb : CTxDB H) (hash : H) : (txdb.eraseTxIndex hash).view =
      { txdb.view with txindex := txdb.view.txindex.erase hash } := by
  rw [eraseTxIndex, view_write]

@[simp] theorem txindex_writeBlockIndex (txdb : CTxDB H) (hash : H) (entry : CDiskBlockIndex H) :
    (txdb.writeBlockIndex hash entry).view.txindex = txdb.view.txindex := by
  rw [writeBlockIndex, view_write]

end CTxDB

/-- The shape of a block that passed `CheckBlock`: one coinbase in front, and
in a proof-of-stake block the only coinstake behind it. -/
structure CBlock.Shape {H : Type} [DecidableEq H] (c : Consensus H) (block : CBlock H)
    (coinbase : CTransaction H) (rest : List (CTransaction H)) : Prop where
  vtx : block.vtx = coinbase :: rest
  isCoinBase : coinbase.isCoinBase c.toSha256
  noCoinBase : ∀ tx ∈ rest, tx.isCoinBase c.toSha256 = false
  checked : ∀ tx ∈ block.vtx, tx.checkTransaction c.toMWCrypto
  distinct : (block.vtx.map (CTransaction.getHash c.toSha256)).Nodup
  stake : block.isProofOfStake c → ∃ coinstake others, rest = coinstake :: others ∧
    (∀ txout ∈ coinbase.vout, txout.isEmpty) ∧ coinstake.isCoinStake c.toSha256 ∧
    ∀ tx ∈ others, tx.isCoinStake c.toSha256 = false

/-- **`CheckBlock`.** -/
theorem CBlock.checkBlock_shape {H : Type} [DecidableEq H] {c : Consensus H} {block : CBlock H}
    {adjustedTime : Int} {fCheckPOW fCheckMerkleRoot fCheckSig : Bool}
    (h : block.checkBlock c adjustedTime fCheckPOW fCheckMerkleRoot fCheckSig) :
    ∃ coinbase rest, block.Shape c coinbase rest := by
  unfold checkBlock at h
  simp only [Bool.and_eq_true] at h
  obtain ⟨⟨⟨⟨⟨⟨⟨_, hfirst, htail⟩, _⟩, hstake⟩, htxs⟩, hdistinct⟩, _⟩, _⟩ := h
  cases hvtx : block.vtx with
  | nil => simp [hvtx] at hfirst
  | cons coinbase rest =>
    refine ⟨coinbase, rest, hvtx, by simpa [hvtx] using hfirst, ?_, ?_, by simpa using hdistinct, ?_⟩
    · intro tx htx
      have hno := all_eq_true.mp htail tx (by simpa [hvtx] using htx)
      simpa using hno
    · intro tx htx
      have hchecked := all_eq_true.mp htxs tx htx
      exact (Bool.and_eq_true_iff.mp hchecked).1
    · intro hpos
      rw [hpos, Bool.not_true, Bool.false_or] at hstake
      unfold checkProofOfStakeShape at hstake
      rw [hvtx] at hstake
      cases rest with
      | nil => cases hstake
      | cons coinstake others =>
        simp only [Bool.and_eq_true, all_eq_true] at hstake
        obtain ⟨⟨⟨⟨⟨_, hempty⟩, hcoinstake⟩, hothers⟩, _⟩, _⟩ := hstake
        exact ⟨coinstake, others, rfl, hempty, hcoinstake, fun tx htx => by
          simpa using hothers tx htx⟩

namespace Node

variable {H : Type} [Ord H] [TransOrd H] {c : Consensus H} {s t : Node H} {env : Env H}
  {block : CBlock H} {pindex : CBlockIndex H} {pprev : PIndex H}

/-- The node a successful `ConnectBlock` leaves behind. -/
def connected (c : Consensus H) (s : Node H) (pindex : CBlockIndex H) (pprev : PIndex H)
    (acc : ConnectState H) (mwState : CMWState H) : Node H :=
  { (s.recordSupply c pindex pprev acc).writeChanges c pindex pprev acc.mapQueuedChanges with
    g_mwState := mwState }

theorem txindex_connected (c : Consensus H) (s : Node H) (pindex : CBlockIndex H)
    (pprev : PIndex H) (acc : ConnectState H) (mwState : CMWState H) :
    (s.connected c pindex pprev acc mwState).txdb.view.txindex =
      FinMap.overlay s.txdb.view.txindex acc.mapQueuedChanges := by
  have hloop : ∀ (changes : List (H × CTxIndex)) (txdb : CTxDB H),
      (changes.foldl (fun txdb change => txdb.updateTxIndex change.1 change.2) txdb).view.txindex =
        changes.foldl (fun m entry => m.insert entry.1 entry.2) txdb.view.txindex := by
    intro changes
    induction changes with
    | nil => intro txdb; rfl
    | cons change changes ih =>
      intro txdb
      rw [foldl_cons, foldl_cons, ih, CTxDB.view_updateTxIndex]
  unfold connected writeChanges FinMap.overlay
  cases pprev with
  | nil =>
    simp only [hloop]
    simp [recordSupply]
  | cons prev rest =>
    simp only [CTxDB.txindex_writeBlockIndex, hloop]
    simp [recordSupply]

/-- Apart from the database, the recorded supply and the Mimblewimble state,
`ConnectBlock` changes nothing. -/
theorem connected_frame (c : Consensus H) (s : Node H) (pindex : CBlockIndex H)
    (pprev : PIndex H) (acc : ConnectState H) (mwState : CMWState H) :
    s.connected c pindex pprev acc mwState =
      { s with
        txdb := (s.connected c pindex pprev acc mwState).txdb
        nMint := s.nMint.insert pindex.hash (acc.nValueOut - acc.nValueIn + acc.nFees)
        nMoneySupply := s.nMoneySupply.insert pindex.hash
          ((pprev.head?.map fun prev => s.nMoneySupply[prev.hash]?.getD 0).getD 0 +
            acc.nValueOut - acc.nValueIn)
        g_mwState := mwState } := by
  unfold connected writeChanges
  cases pprev with
  | nil => rfl
  | cons prev rest => rfl

variable [DecidableEq H]

/-- `ConnectBlock` by its checks and its extension block.  When the latter is
refused, the database has been written to already. -/
theorem connectBlock_eq (c : Consensus H) (s : Node H) (env : Env H) (block : CBlock H)
    (pindex : CBlockIndex H) (pprev : PIndex H) : s.connectBlock c env block pindex pprev false =
    match s.connectChecks c env block pindex pprev false with
      | none => (false, s)
      | some acc =>
        match connectMWEB c s.g_mwState block pindex with
        | none => (false, s.connected c pindex pprev acc s.g_mwState)
        | some mwState => (true, s.connected c pindex pprev acc mwState) := by
  have hmw : ∀ acc : ConnectState H, ((s.recordSupply c pindex pprev acc).writeChanges c pindex
      pprev acc.mapQueuedChanges).g_mwState = s.g_mwState := by
    intro acc
    unfold writeChanges
    cases pprev with
    | nil => rfl
    | cons prev rest => rfl
  unfold connectBlock
  cases s.connectChecks c env block pindex pprev false with
  | none => rfl
  | some acc =>
    simp only [Bool.false_eq_true, if_false, hmw]
    cases connectMWEB c s.g_mwState block pindex with
    | none =>
      simp only [connected, ← hmw acc]
    | some mwState => rfl

/-- **Inversion.**  `ConnectBlock` returns `true` when its checks pass and the
extension block applies. -/
theorem connectBlock_true (h : s.connectBlock c env block pindex pprev false = (true, t)) :
    ∃ acc mwState, s.connectChecks c env block pindex pprev false = some acc ∧
      connectMWEB c s.g_mwState block pindex = some mwState ∧ t = s.connected c pindex pprev acc mwState := by
  rw [connectBlock_eq] at h
  cases hchecks : s.connectChecks c env block pindex pprev false with
  | none => simp [hchecks] at h
  | some acc =>
    cases happly : connectMWEB c s.g_mwState block pindex with
    | none => simp [hchecks, happly] at h
    | some mwState =>
      simp only [hchecks, happly, Prod.mk.injEq, true_and] at h
      exact ⟨acc, mwState, rfl, rfl, h.symm⟩

theorem connectChecks_some {acc : ConnectState H}
    (h : s.connectChecks c env block pindex pprev false = some acc) :
    block.checkBlock c env.adjustedTime true true false ∧
      block.vtx.foldlM (s.connectTx c env pindex pprev false) (connectStart block pindex false) = some acc ∧
      checkPrivacyRules c block pindex.nHeight ∧ s.checkRewards c env block pindex.nHeight acc := by
  unfold connectChecks at h
  split at h
  · rename_i hcheck
    obtain ⟨hloop, hrules⟩ := Option.filter_eq_some_iff.mp h
    obtain ⟨hprivacy, hrewards⟩ := Bool.and_eq_true_iff.mp hrules
    exact ⟨hcheck, hloop, hprivacy, hrewards⟩
  · cases h

end Node

end MaryJaneCoin
