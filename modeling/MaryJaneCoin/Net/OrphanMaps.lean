import MaryJaneCoin.Net.OrphanTransactions

/-!
# The orphan maps stay in step

`mapOrphanTransactionsByPrev` is an index of `mapOrphanTransactions` by the transactions that
the orphans spend from.  Each operation on the two maps keeps it exact, and so does the loop
that resolves orphans, which reads one of its sets while the erasures still wait.
-/

namespace MaryJaneCoin

open Std ExtTreeMap

namespace TxNode

variable {H : Type} [Ord H] [TransOrd H] [DecidableEq H] [LawfulEqOrd H] {c : Consensus H}
  {s : TxNode H}

/-- The orphans are kept under their hashes, and behind each hash stand exactly the orphans
that spend from it. -/
structure Exact (c : Consensus H) (s : TxNode H) : Prop where
  owner : ∀ (hash : H) (orphanTx : CTransaction H),
    s.mapOrphanTransactions[hash]? = some orphanTx → orphanTx.getHash c.toSha256 = hash
  under : ∀ hashPrev hash, hash ∈ s.orphansUnder hashPrev ↔
    ∃ orphanTx, s.mapOrphanTransactions[hash]? = some orphanTx ∧
      hashPrev ∈ orphanTx.vin.map fun txin => txin.prevout.hash

section

omit [DecidableEq H] [LawfulEqOrd H]

theorem Exact.inv (h : Exact c s) : Inv c s := ⟨h.owner, fun hashPrev hash => (h.under hashPrev hash).mp⟩

theorem Exact.empty (mempool : CTxMemPool H) : Exact c ⟨mempool, ∅, ∅⟩ where
  owner hash orphanTx hlook := by simp at hlook
  under hashPrev hash := by simp [orphansUnder]

theorem Exact.pool (h : Exact c s) (mempool : CTxMemPool H) : Exact c { s with mempool := mempool } :=
  ⟨h.owner, h.under⟩

end

theorem Exact.addOrphanTx (h : Exact c s) (tx : CTransaction H) : Exact c (s.addOrphanTx c tx) := by
  refine ⟨(h.inv.addOrphanTx tx).owner, fun hashPrev hash => ?_⟩
  rw [TxNode.addOrphanTx]
  split
  · exact h.under hashPrev hash
  · next hnew =>
      split
      · exact h.under hashPrev hash
      · rw [orphansUnder, mem_addRefs]
        by_cases hkey : tx.getHash c.toSha256 = hash
        · have hold : hash ∉ s.orphansUnder hashPrev := by
            intro hmem
            obtain ⟨orphanTx, hlook, -⟩ := (h.under hashPrev hash).mp hmem
            exact hnew (hkey ▸ (FinMap.mem_iff_exists _ _).mpr ⟨orphanTx, hlook⟩)
          rw [orphansUnder] at hold
          rw [or_iff_right hold, hkey, getElem?_insert_self]
          simp
        · rw [FinMap.getElem?_insert_ne _ _ hkey, ← h.under hashPrev hash,
            or_iff_left fun hsame => hkey hsame.1.symm]
          rfl

theorem Exact.eraseOrphanTx (h : Exact c s) (erased : H) : Exact c (s.eraseOrphanTx erased) := by
  refine ⟨(h.inv.eraseOrphanTx erased).owner, fun hashPrev hash => ?_⟩
  rw [TxNode.eraseOrphanTx]
  split
  · exact h.under hashPrev hash
  · next tx htx =>
      rw [orphansUnder, mem_eraseRefs]
      by_cases hkey : erased = hash
      · rw [← hkey, getElem?_erase_self]
        refine iff_of_false (fun hmem => ?_) (by simp)
        obtain ⟨orphanTx, hlook, hprev⟩ := (h.under hashPrev erased).mp hmem.1
        have hsame : tx = orphanTx := Option.some.inj (htx.symm.trans hlook)
        exact hmem.2 ⟨rfl, hsame ▸ hprev⟩
      · rw [FinMap.getElem?_erase_ne _ hkey, ← h.under hashPrev hash,
          and_iff_left fun hsame => hkey hsame.1.symm]
        rfl

theorem Exact.limitOrphanTxSize (h : Exact c s) (nMaxOrphans : Nat) (randHash : Nat → H)
    (rounds : Nat) : Exact c (limitOrphanTxSize nMaxOrphans randHash rounds s) :=
  limitOrphanTxSize_keeps h (fun _ hash h => h.eraseOrphanTx hash) nMaxOrphans randHash rounds

omit [DecidableEq H] [LawfulEqOrd H] in
/-- The loop changes neither the orphans nor their sets. -/
theorem Exact.continues {tx : CTransaction H} {work work' : OrphanWork H} (h : Exact c work.node)
    (hcontinues : Continues c tx work work') : Exact c work'.node where
  owner := (h.inv.continues hcontinues).owner
  under hashPrev hash := by
    rw [hcontinues.under, hcontinues.orphans]
    exact h.under hashPrev hash

omit [DecidableEq H] in
theorem evicted_mem (randomhash : H) (hsize : 0 < s.mapOrphanTransactions.size) :
    ∃ hash ∈ s.mapOrphanTransactions, s.evicted randomhash = some hash := by
  rw [← length_keys] at hsize
  rw [evicted]
  cases hfind : s.mapOrphanTransactions.keys.find? fun hash => compare hash randomhash != .lt with
  | some hash => exact ⟨hash, mem_keys.mp (List.mem_of_find?_eq_some hfind), rfl⟩
  | none =>
    refine ⟨s.mapOrphanTransactions.keys.head (List.ne_nil_of_length_pos hsize), ?_, ?_⟩
    · exact mem_keys.mp (List.head_mem _)
    · exact List.head?_eq_some_head _

omit [DecidableEq H] [LawfulEqOrd H] in
theorem size_eraseOrphanTx {hash : H} (hmem : hash ∈ s.mapOrphanTransactions) :
    (s.eraseOrphanTx hash).mapOrphanTransactions.size = s.mapOrphanTransactions.size - 1 := by
  obtain ⟨tx, htx⟩ := (FinMap.mem_iff_exists _ _).mp hmem
  simp only [TxNode.eraseOrphanTx, htx]
  rw [size_erase, if_pos (contains_iff_mem.mpr hmem)]

omit [DecidableEq H] in
/-- **The bound.**  Each round erases one orphan, so as many rounds as there are orphans leave
no more than the bound. -/
theorem size_limitOrphanTxSize (nMaxOrphans : Nat) (randHash : Nat → H) {rounds : Nat}
    (hrounds : s.mapOrphanTransactions.size ≤ rounds) :
    (limitOrphanTxSize nMaxOrphans randHash rounds s).mapOrphanTransactions.size ≤ nMaxOrphans := by
  induction rounds generalizing s with
  | zero =>
    rw [TxNode.limitOrphanTxSize, Nat.le_zero.mp hrounds]
    exact Nat.zero_le _
  | succ rounds ih =>
    rw [TxNode.limitOrphanTxSize]
    split
    · assumption
    · next hmore =>
        obtain ⟨hash, hmem, hdrawn⟩ := evicted_mem (randHash rounds)
          (Nat.zero_lt_of_lt (Nat.lt_of_not_le hmore))
        rw [hdrawn]
        refine ih ?_
        rw [size_eraseOrphanTx hmem]
        omega

/-- Runs of the operations on the orphan maps from a node without orphans.  The memory pool may
change in any way between two of them, and the loop over the orphans may stand at any of the
hashes in its queue. -/
inductive OrphanRun (c : Consensus H) : TxNode H → Prop
  | start (mempool : CTxMemPool H) : OrphanRun c ⟨mempool, ∅, ∅⟩
  | pool {s : TxNode H} (mempool : CTxMemPool H) (hrun : OrphanRun c s) :
      OrphanRun c { s with mempool := mempool }
  | add {s : TxNode H} (tx : CTransaction H) (hrun : OrphanRun c s) :
      OrphanRun c (s.addOrphanTx c tx)
  | erase {s : TxNode H} (hash : H) (hrun : OrphanRun c s) : OrphanRun c (s.eraseOrphanTx hash)
  | limit {s : TxNode H} (nMaxOrphans : Nat) (randHash : Nat → H) (rounds : Nat)
      (hrun : OrphanRun c s) : OrphanRun c (limitOrphanTxSize nMaxOrphans randHash rounds s)
  | resolve {work : OrphanWork H} (env : TxEnv H) (tx : CTransaction H) (hashPrev : H)
      (hrun : OrphanRun c work.node) : OrphanRun c (tryOrphans c env tx hashPrev work).node

theorem OrphanRun.exact (h : OrphanRun c s) : Exact c s := by
  induction h with
  | start mempool => exact .empty mempool
  | pool mempool hrun ih => exact ih.pool mempool
  | add tx hrun ih => exact ih.addOrphanTx tx
  | erase hash hrun ih => exact ih.eraseOrphanTx hash
  | limit nMaxOrphans randHash rounds hrun ih => exact ih.limitOrphanTxSize nMaxOrphans randHash rounds
  | resolve env tx hashPrev hrun ih => exact ih.continues (continues_tryOrphans env tx ih.inv hashPrev)

section

omit [LawfulEqOrd H]

theorem OrphanRun.workLoop {env : TxEnv H} {tx : CTransaction H} {fuel : Nat}
    {work done : OrphanWork H} (h : OrphanRun c work.node)
    (hdone : workLoop c env tx fuel work = some done) : OrphanRun c done.node := by
  induction fuel generalizing work with
  | zero =>
    cases hqueue : work.vWorkQueue with
    | nil => exact Option.some.inj ((workLoop_nil _ hqueue).symm.trans hdone) ▸ h
    | cons hashPrev queue =>
      rw [TxNode.workLoop.eq_def] at hdone
      simp only [hqueue] at hdone
      cases hdone
  | succ fuel ih =>
    cases hqueue : work.vWorkQueue with
    | nil => exact Option.some.inj ((workLoop_nil _ hqueue).symm.trans hdone) ▸ h
    | cons hashPrev queue =>
      rw [workLoop_cons fuel hqueue] at hdone
      have hnext : OrphanRun c (next work queue).node := h
      exact ih (hnext.resolve env tx hashPrev) hdone

theorem OrphanRun.eraseAll (h : OrphanRun c s) (erased : List H) :
    OrphanRun c (erased.foldl TxNode.eraseOrphanTx s) := by
  induction erased generalizing s with
  | nil => exact h
  | cons hash erased ih => exact ih (h.erase hash)

/-- The handler is made of these operations. -/
theorem OrphanRun.processTx {env : TxEnv H} {tx : CTransaction H} {calls : List (TxCall H)}
    {t : TxNode H} (h : OrphanRun c s) (hhandled : s.processTx c env tx = some (calls, t)) :
    OrphanRun c t := by
  rw [TxNode.processTx] at hhandled
  dsimp only at hhandled
  split at hhandled
  · obtain ⟨done, hdone, hafter⟩ := Option.map_eq_some_iff.mp hhandled
    rw [← (Prod.mk.inj hafter).2]
    have hstart := h.pool (s.mempool.accept c env.node env.env env.direct tx true).2
    exact (OrphanRun.workLoop hstart hdone).eraseAll _
  · split at hhandled
    · rw [← (Prod.mk.inj (Option.some.inj hhandled)).2]
      exact (h.add tx).limit _ _ _
    · rw [← (Prod.mk.inj (Option.some.inj hhandled)).2]
      exact h

end

/-- **The orphan maps.**  After any operations behind each hash stand exactly the stored orphans
that spend from it, `LimitOrphanTxSize` leaves no more orphans than it is told to, and the
handler ends and goes on from there by these operations. -/
theorem orphanMaps_exact (hrun : OrphanRun c s) : (∀ hashPrev hash, hash ∈ s.orphansUnder hashPrev ↔
      ∃ orphanTx, s.mapOrphanTransactions[hash]? = some orphanTx ∧
        orphanTx.getHash c.toSha256 = hash ∧ ∃ txin ∈ orphanTx.vin, txin.prevout.hash = hashPrev) ∧
    (∀ (nMaxOrphans : Nat) (randHash : Nat → H) (rounds : Nat), s.mapOrphanTransactions.size ≤ rounds →
        (limitOrphanTxSize nMaxOrphans randHash rounds s).mapOrphanTransactions.size ≤ nMaxOrphans) ∧
    ∀ env tx, ∃ calls t, s.processTx c env tx = some (calls, t) ∧ OrphanRun c t := by
  have hexact := hrun.exact
  refine ⟨fun hashPrev hash => ?_, fun nMaxOrphans randHash rounds hrounds =>
    size_limitOrphanTxSize nMaxOrphans randHash hrounds, fun env tx => ?_⟩
  · rw [hexact.under]
    refine exists_congr fun orphanTx => and_congr_right fun hlook => ?_
    rw [and_iff_right (hexact.owner hash orphanTx hlook), List.mem_map]
  · obtain ⟨calls, t, hhandled, -⟩ := processTx_some hexact.inv env tx
    exact ⟨calls, t, hhandled, hrun.processTx hhandled⟩

/-- A payment that spends two outputs of `pooledTx`. -/
def doubleChild : CTransaction (List Nat) :=
  { samplePayment 12 ⟨Node.pooledTx.getHash transparent, 0⟩ [⟨COIN, []⟩] with
    vin := [0, 1].map fun n => ⟨⟨Node.pooledTx.getHash transparent, n⟩, [], 0xFFFFFFFF⟩ }

/-- The node that keeps the payment. -/
def keepsChild : TxNode (List Nat) := emptyNode.addOrphanTx sampleConsensus doubleChild

theorem orphanMaps_exact_child :
    OrphanRun sampleConsensus keepsChild ∧ keepsChild.mapOrphanTransactions.size = 1 ∧
      doubleChild.getHash transparent ∈ keepsChild.orphansUnder (Node.pooledTx.getHash transparent) ∧
      (limitOrphanTxSize 0 (fun _ => []) 1 keepsChild).mapOrphanTransactions.size ≤ 0 := by
  have hrun : OrphanRun sampleConsensus keepsChild := .add doubleChild (.start .empty)
  have hsize : keepsChild.mapOrphanTransactions.size = 1 := by decide +kernel
  have hlook : keepsChild.mapOrphanTransactions[doubleChild.getHash transparent]? = some doubleChild := by
    decide +kernel
  obtain ⟨hunder, hlimit, -⟩ := orphanMaps_exact hrun
  exact ⟨hrun, hsize, (hunder _ _).mpr ⟨doubleChild, hlook, rfl, _, List.mem_cons_self, rfl⟩,
    hlimit 0 (fun _ => []) 1 hsize.le⟩

end TxNode

end MaryJaneCoin
