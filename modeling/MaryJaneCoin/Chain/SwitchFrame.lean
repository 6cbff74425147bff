import MaryJaneCoin.Chain.ConnectSpec
import MaryJaneCoin.Chain.IndexPath

/-!
# Working in a batch

While a batch is open, `ConnectBlock` and `DisconnectBlock` change the batch,
the recorded supply, the stakes seen and the Mimblewimble state, and nothing
else.  A `SetBestChain` that fails drops the batch, so the committed database
and the chain stay where they are.
-/

namespace MaryJaneCoin

open Std EarlyExit

namespace CTxDB

variable {H : Type} [Ord H]

/-- A batch is open over this content. -/
structure OpenOver (txdb : CTxDB H) (pdb : TxDBContent H) : Prop where
  inTxn : txdb.InTxn
  pdb_eq : txdb.pdb = pdb

variable {txdb : CTxDB H} {pdb : TxDBContent H}

theorem OpenOver.write (h : txdb.OpenOver pdb) (f : TxDBContent H → TxDBContent H) :
    (txdb.write f).OpenOver pdb := by
  obtain ⟨hopen, hpdb⟩ := h.inTxn.write f
  exact ⟨hopen, hpdb.trans h.pdb_eq⟩

theorem OpenOver.txnCommit_false (h : txdb.OpenOver pdb) {ok : Bool}
    (hfail : (txdb.txnCommit ok).1 = false) : (txdb.txnCommit ok).2.pdb = pdb := by
  unfold txnCommit at hfail ⊢
  split at hfail
  · cases hfail
  · rename_i hok
    rw [if_neg hok]
    exact h.pdb_eq

end CTxDB

namespace Node

variable {H : Type} [Ord H]

/-- The committed database and the chain are those of `s`. -/
structure Unmoved (s t : Node H) : Prop where
  pdb : t.txdb.pdb = s.txdb.pdb
  frame : t =
    { s with
      txdb := t.txdb
      nMint := t.nMint
      nMoneySupply := t.nMoneySupply
      setStakeSeen := t.setStakeSeen
      g_mwState := t.g_mwState }

/-- The node works in a batch over `s`. -/
structure Working (s t : Node H) : Prop extends Unmoved s t where
  inTxn : t.txdb.InTxn

variable {s t : Node H}

theorem Working.openOver (h : Working s t) : t.txdb.OpenOver s.txdb.pdb := ⟨h.inTxn, h.pdb⟩

theorem working_txnBegin (s : Node H) : Working s s.txnBegin := ⟨⟨rfl, rfl⟩, rfl⟩

theorem Unmoved.blockFiles (h : Unmoved s t) : t.blockFiles = s.blockFiles := by
  rw [h.frame]

theorem Unmoved.txnAbort (h : Unmoved s t) : Unmoved s t.txnAbort := by
  refine ⟨h.pdb, ?_⟩
  unfold Node.txnAbort
  rw [h.frame]

/-- Anything done in the batch. -/
theorem Working.update {u : Node H} (h : Working s t) (hopen : u.txdb.OpenOver s.txdb.pdb)
    (hframe : u =
      { t with
        txdb := u.txdb
        nMint := u.nMint
        nMoneySupply := u.nMoneySupply
        setStakeSeen := u.setStakeSeen
        g_mwState := u.g_mwState }) : Working s u := by
  refine ⟨⟨hopen.pdb_eq, ?_⟩, hopen.inTxn⟩
  rw [hframe, h.frame]

variable {relink : ExtTreeMap H H → ExtTreeMap H H}

variable {hash : H}

theorem commitTip_true {env : Env H} (h : s.commitTip env hash relink = (true, t)) :
    t = { s with
      txdb := ⟨{ s.txdb.view with hashBestChain := some hash }, none⟩
      pnext := relink s.pnext } := by
  unfold commitTip CTxDB.txnCommit at h
  simp only at h
  split at h
  · cases h
    rw [CTxDB.writeHashBestChain, CTxDB.view_write]
  · cases h

/-- A commit that fails changes the database only. -/
theorem commitTip_false {env : Env H} (h : s.commitTip env hash relink = (false, t)) :
    t.setStakeSeen = s.setStakeSeen ∧ t.g_mwState = s.g_mwState := by
  unfold commitTip at h
  simp only at h
  split at h
  · cases h
  · cases h
    exact ⟨rfl, rfl⟩

/-- A commit that fails drops the batch. -/
theorem Working.commitTip_false {u : Node H} {env : Env H} (h : Working s t)
    (hfail : t.commitTip env hash relink = (false, u)) : Unmoved s u := by
  unfold commitTip at hfail
  simp only at hfail
  split at hfail
  · cases hfail
  · rename_i hcommit
    cases hfail
    have hopen : (t.txdb.writeHashBestChain hash).OpenOver s.txdb.pdb := h.openOver.write _
    refine ⟨hopen.txnCommit_false (by simpa using hcommit), ?_⟩
    rw [h.frame]

variable {start : Node H}

theorem setGenesis_false {env : Env H}
    {pindex : CBlockIndex H} {pprev : PIndex H} (hwork : Working start s)
    (h : s.setGenesis env hash pindex pprev = (false, t)) :
    Unmoved start t ∧ t.setStakeSeen = s.setStakeSeen ∧ t.g_mwState = s.g_mwState := by
  unfold setGenesis at h
  cases hcommit : s.commitTip env hash id with
  | mk flag u =>
    simp only [hcommit] at h
    cases flag with
    | false =>
      simp only [Bool.not_false, if_true, Prod.mk.injEq, true_and] at h
      subst h
      exact ⟨hwork.commitTip_false hcommit, commitTip_false hcommit⟩
    | true => simp at h

variable [TransOrd H] {c : Consensus H} {env : Env H} {block : CBlock H}
  {pindex : CBlockIndex H} {pprev : PIndex H} {entry : CBlockIndex H × PIndex H}

theorem Working.connected (h : Working s t) (acc : ConnectState H) (mwState : CMWState H) :
    Working s (t.connected c pindex pprev acc mwState) := by
  refine h.update ?_ (by rw [connected_frame])
  have hrecorded : (t.recordSupply c pindex pprev acc).txdb.OpenOver s.txdb.pdb := h.openOver.write _
  have hwrites : ∀ (changes : List (H × CTxIndex)) (txdb : CTxDB H), txdb.OpenOver s.txdb.pdb →
      (changes.foldl (fun txdb change => txdb.updateTxIndex change.1 change.2) txdb).OpenOver
        s.txdb.pdb := by
    intro changes
    induction changes with
    | nil => intro txdb hopen; exact hopen
    | cons change changes ih => intro txdb hopen; exact ih _ (hopen.write _)
  unfold Node.connected writeChanges
  cases pprev with
  | nil => exact hwrites _ _ hrecorded
  | cons prev rest => exact (hwrites _ _ hrecorded).write _

variable [DecidableEq H]

theorem Working.connectBlock (h : Working s t) :
    Working s (t.connectBlock c env block pindex pprev false).2 := by
  rw [connectBlock_eq]
  cases t.connectChecks c env block pindex pprev false with
  | none => exact h
  | some acc =>
    cases connectMWEB c t.g_mwState block pindex with
    | none => exact h.connected acc _
    | some mwState => exact h.connected acc mwState

theorem Working.disconnectBlock (h : Working s t) : Working s (t.disconnectBlock c block pindex pprev).2 := by
  have hinput : ∀ (txin : CTxIn H) (txdb : CTxDB H), txdb.OpenOver s.txdb.pdb →
      (disconnectInput txdb txin).2.OpenOver s.txdb.pdb := by
    intro txin txdb hopen
    unfold disconnectInput
    split
    · exact hopen
    · split
      · exact hopen
      · exact hopen.write _
  have htx : ∀ (tx : CTransaction H) (txdb : CTxDB H), txdb.OpenOver s.txdb.pdb →
      (disconnectInputs c txdb tx).2.OpenOver s.txdb.pdb := by
    intro tx txdb hopen
    unfold disconnectInputs
    generalize (if tx.isCoinBase c.toSha256 then [] else tx.vin) = inputs
    have hloop := loop_invariant (fun txdb : CTxDB H => txdb.OpenOver s.txdb.pdb)
      (fun txin (_ : txin ∈ inputs) => hinput txin) hopen
    simp only
    split
    · exact hloop.write _
    · exact hloop
  have hundone := loop_invariant (fun txdb : CTxDB H => txdb.OpenOver s.txdb.pdb)
    (fun tx (_ : tx ∈ block.vtx.reverse) => htx tx) h.openOver
  unfold Node.disconnectBlock
  simp only
  split
  · exact h.update hundone rfl
  · cases pprev with
    | nil =>
      split
      · exact h.update hundone rfl
      · exact h.update hundone rfl
    | cons prev rest =>
      split
      · exact h.update (hundone.write _) rfl
      · exact h.update (hundone.write _) rfl

theorem Working.disconnectIndex (h : Working s t) : Working s (disconnectIndex c env t entry).2 := by
  unfold Node.disconnectIndex
  split
  · exact h
  · rename_i block _
    have hundone : Working s (t.disconnectBlock c block entry.1 entry.2).2 := h.disconnectBlock
    simp only
    split
    · exact hundone.update hundone.openOver rfl
    · exact hundone

theorem Working.connectIndex (h : Working s t) : Working s (connectIndex c env t entry).2 := by
  unfold Node.connectIndex
  split
  · exact h
  · exact h.connectBlock

theorem working_disconnecting (env : Env H) (vDisconnect : List (CBlockIndex H × PIndex H))
    (h : Working s t) : Working s (loop (disconnectIndex c env) t vDisconnect).2 :=
  loop_invariant (Working s) (fun _ _ _ hs => hs.disconnectIndex) h

theorem working_connecting (env : Env H) (vConnect : List (CBlockIndex H × PIndex H))
    (h : Working s t) : Working s (loop (connectIndex c env) t vConnect).2 :=
  loop_invariant (Working s) (fun _ _ _ hs => hs.connectIndex) h

variable {pindexNew : CBlockIndex H}

/-- **What `Reorganize` does**, whatever it returns. -/
theorem reorganize_cases {done : Bool} (h : s.reorganize c env pindexNew pprev = (done, t)) :
    (findFork (pindexNew :: pprev) s.pindexBest = none ∧ done = false ∧ t = s) ∨
      ∃ pfork, findFork (pindexNew :: pprev) s.pindexBest = some pfork ∧
        (loop (disconnectIndex c env) s (downTo pfork s.pindexBest) = (false, t) ∧ done = false ∨
          ∃ u, loop (disconnectIndex c env) s (downTo pfork s.pindexBest) = (true, u) ∧
            (loop (connectIndex c env) u (downTo pfork (pindexNew :: pprev)).reverse = (false, t) ∧
                done = false ∨
              ∃ v, loop (connectIndex c env) u
                  (downTo pfork (pindexNew :: pprev)).reverse = (true, v) ∧
                v.commitTip env pindexNew.hash (fun pnext =>
                  (downTo pfork (pindexNew :: pprev)).reverse.foldl link
                    ((downTo pfork s.pindexBest).foldl unlink pnext)) = (done, t))) := by
  unfold reorganize at h
  cases hfork : findFork (pindexNew :: pprev) s.pindexBest with
  | none =>
    simp only [hfork, Prod.mk.injEq] at h
    exact Or.inl ⟨rfl, h.1.symm, h.2.symm⟩
  | some pfork =>
    refine Or.inr ⟨pfork, rfl, ?_⟩
    simp only [hfork] at h
    cases hdisconnect : loop (disconnectIndex c env) s (downTo pfork s.pindexBest) with
    | mk finished u =>
      simp only [hdisconnect] at h
      cases finished with
      | false =>
        cases h
        exact Or.inl ⟨rfl, rfl⟩
      | true =>
        refine Or.inr ⟨u, rfl, ?_⟩
        cases hconnect : loop (connectIndex c env) u
            (downTo pfork (pindexNew :: pprev)).reverse with
        | mk finished v =>
          simp only [hconnect] at h
          cases finished with
          | false =>
            cases h
            exact Or.inl ⟨rfl, rfl⟩
          | true =>
            simp only [Bool.not_true, Bool.false_eq_true, if_false] at h
            exact Or.inr ⟨v, rfl, h⟩

theorem reorganize_true (h : s.reorganize c env pindexNew pprev = (true, t)) :
    ∃ pfork u v, findFork (pindexNew :: pprev) s.pindexBest = some pfork ∧
      loop (disconnectIndex c env) s (downTo pfork s.pindexBest) = (true, u) ∧
      loop (connectIndex c env) u (downTo pfork (pindexNew :: pprev)).reverse = (true, v) ∧
      v.commitTip env pindexNew.hash (fun pnext => (downTo pfork (pindexNew :: pprev)).reverse.foldl link
          ((downTo pfork s.pindexBest).foldl unlink pnext)) = (true, t) := by
  obtain ⟨-, ⟨⟩, -⟩ | ⟨pfork, hfork, ⟨-, ⟨⟩⟩ | ⟨u, hdisconnect, ⟨-, ⟨⟩⟩ | ⟨v, hconnect, hcommit⟩⟩⟩ :=
    reorganize_cases h
  exact ⟨pfork, u, v, hfork, hdisconnect, hconnect, hcommit⟩

/-- **What `SetBestChainInner` does**, whatever it returns. -/
theorem setBestChainInner_cases {done : Bool}
    (h : s.setBestChainInner c env block pindex pprev = (done, t)) :
    (∃ u, s.connectBlock c env block pindex pprev false = (false, u) ∧ done = false ∧
        t = u.txnAbort) ∨
      ∃ u, s.connectBlock c env block pindex pprev false = (true, u) ∧
        u.commitTip env (block.getHash c) (fun pnext => link pnext (pindex, pprev)) = (done, t) := by
  unfold setBestChainInner at h
  cases hconnect : s.connectBlock c env block pindex pprev false with
  | mk flag u =>
    simp only [hconnect] at h
    cases flag with
    | false =>
      cases h
      exact Or.inl ⟨u, rfl, rfl, rfl⟩
    | true =>
      simp only [Bool.not_true, Bool.false_eq_true, if_false] at h
      exact Or.inr ⟨u, rfl, h⟩

section Branch

variable {hash : H} {pindexNew : CBlockIndex H} {postponed : List (CBlockIndex H × PIndex H)}
  {intermediate : CBlockIndex H × PIndex H}

section

variable (hpostpone : postpone ((s.pindexBest.head?.map CBlockIndex.nChainTrust).getD 0) pindexNew
  pprev = (postponed, intermediate))
include hpostpone

theorem switchBranch_false (h : s.switchBranch c env hash pindexNew pprev = (false, t)) :
    ∃ u, s.reorganize c env intermediate.1 intermediate.2 = (false, u) ∧ t = u.txnAbort := by
  unfold switchBranch at h
  simp only [hpostpone] at h
  cases hreorganize : s.reorganize c env intermediate.1 intermediate.2 with
  | mk flag u =>
    simp only [hreorganize] at h
    cases flag with
    | false => exact ⟨u, rfl, (Prod.mk.inj h).2.symm⟩
    | true => cases h

theorem switchBranch_true (h : s.switchBranch c env hash pindexNew pprev = (true, t)) :
    ∃ u, s.reorganize c env intermediate.1 intermediate.2 = (true, u) ∧
      t = (loop (connectSecondary c env) u postponed.reverse).2.setTip hash pindexNew pprev := by
  unfold switchBranch at h
  simp only [hpostpone] at h
  cases hreorganize : s.reorganize c env intermediate.1 intermediate.2 with
  | mk flag u =>
    simp only [hreorganize] at h
    cases flag with
    | false => cases h
    | true => exact ⟨u, rfl, (Prod.mk.inj h).2.symm⟩

end

end Branch

/-- **A failed `Reorganize`** has moved nothing. -/
theorem Working.reorganize_false (hwork : Working start s)
    (h : s.reorganize c env pindexNew pprev = (false, t)) : Unmoved start t := by
  rcases reorganize_cases h with ⟨_, -, rfl⟩ | ⟨pfork, _, hloops⟩
  · exact hwork.toUnmoved
  · have hundone := working_disconnecting (c := c) env (downTo pfork s.pindexBest) hwork
    rcases hloops with ⟨hfail, -⟩ | ⟨u, hdisconnect, hloops⟩
    · rw [hfail] at hundone
      exact hundone.toUnmoved
    · rw [hdisconnect] at hundone
      have hdone := working_connecting (c := c) env (downTo pfork (pindexNew :: pprev)).reverse hundone
      rcases hloops with ⟨hfail, -⟩ | ⟨v, hconnect, hcommit⟩
      · rw [hfail] at hdone
        exact hdone.toUnmoved
      · rw [hconnect] at hdone
        exact hdone.commitTip_false hcommit

/-- A failed `SetBestChainInner` has moved nothing. -/
theorem Working.setBestChainInner_false (hwork : Working start s)
    (h : s.setBestChainInner c env block pindex pprev = (false, t)) : Unmoved start t := by
  have hconnected : Working start (s.connectBlock c env block pindex pprev false).2 := hwork.connectBlock
  rcases setBestChainInner_cases h with ⟨u, hconnect, -, rfl⟩ | ⟨u, hconnect, hcommit⟩
  · rw [hconnect] at hconnected
    exact hconnected.toUnmoved.txnAbort
  · rw [hconnect] at hconnected
    exact hconnected.commitTip_false hcommit

/-- **A failed `SetBestChain` has moved nothing.** -/
theorem setBestChain_unmoved
    (h : s.setBestChain c env block pindexNew pprev = (false, t)) : Unmoved s t := by
  have hwork := working_txnBegin s
  unfold setBestChain at h
  simp only at h
  split at h
  · exact (setGenesis_false hwork h).1
  · split at h
    · split at h
      · exact hwork.setBestChainInner_false h
      · cases h
    · obtain ⟨u, hreorganize, rfl⟩ := switchBranch_false rfl h
      exact (hwork.reorganize_false hreorganize).txnAbort

end Node

end MaryJaneCoin
