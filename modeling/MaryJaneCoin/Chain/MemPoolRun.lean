import MaryJaneCoin.Chain.MemPoolChain

/-!
# Runs of the node with its memory pool

Blocks arrive and are connected, transactions arrive and are accepted.  As long
as no transaction of the pool disputes a block that `SetBestChainInner`
connects, nothing in the pool spends what the best chain has spent.
-/

namespace MaryJaneCoin

open Std List

namespace Node

variable {H : Type} [Ord H] [TransOrd H] [DecidableEq H]

/-- The node and its pool in a run.  A transaction that arrives is looked up in
the committed database, since `accept` is called with a handle of its own. -/
inductive PoolRun (c : Consensus H) (first : CBlock H) (txs : Set (CTransaction H)) :
    Node H → CTxMemPool H → Prop
  | genesis (hfirst : ∀ tx ∈ first.vtx, tx ∈ txs) :
      PoolRun c first txs (Node.genesis c first) CTxMemPool.empty
  | index {s written : Node H} {pool : CTxMemPool H} {env : Env H} {block : CBlock H}
      {pindexPrev : CBlockIndex H} {pprev : PIndex H} {nFile nBlockPos : Nat}
      (hs : PoolRun c first txs s pool)
      (hprev : s.mapBlockIndex[block.hashPrevBlock]? = some (pindexPrev :: pprev))
      (hrules : block.acceptRules c pindexPrev pprev (env.checksProofOfStake block)
        (env.checksSync (block.getHash c)))
      (hwritten : s.writeToDisk env block = some (nFile, nBlockPos, written))
      (hvtx : ∀ tx ∈ block.vtx, tx ∈ txs) :
      PoolRun c first txs (written.storeIndex c env block nFile nBlockPos).2 pool
  | switch {s : Node H} {pool pool' : CTxMemPool H} {env : Env H} {policy : RelayPolicy H}
      {depth : Nat} {block : CBlock H} {pindex : CBlockIndex H} {pprev : PIndex H}
      (hs : PoolRun c first txs s pool)
      (hlook : s.mapBlockIndex[pindex.hash]? = some (pindex :: pprev))
      (hfile : s.blockFiles pindex.nFile pindex.nBlockPos = some block)
      (hroot : pprev = [] → block.hashPrevBlock ≠ s.hashBestChain)
      (hsecondaries : SecondariesConnect c s env block pindex pprev)
      (hundisputed : Undisputed c s pool block pindex pprev)
      (hpool : s.setBestChainPool c env policy depth block pindex pprev pool = some pool') :
      PoolRun c first txs (s.setBestChain c env block pindex pprev).2 pool'
  | accept {s : Node H} {pool : CTxMemPool H} {tx : CTransaction H} (env : Env H)
      (policy : RelayPolicy H) (hs : PoolRun c first txs s pool) (htx : tx ∈ txs) :
      PoolRun c first txs s (pool.accept c s.txnAbort env policy tx true).2
  | clear {s : Node H} {pool : CTxMemPool H} (hs : PoolRun c first txs s pool) :
      PoolRun c first txs s pool.clear

variable {c : Consensus H} {first : CBlock H} {txs : Set (CTransaction H)} {s t written : Node H}
  {pool pool' : CTxMemPool H} {env : Env H} {policy : RelayPolicy H} {depth : Nat}
  {block : CBlock H} {pindex : CBlockIndex H} {pprev path : PIndex H}

theorem PoolRun.reachable (h : PoolRun c first txs s pool) : Reachable c first s := by
  induction h with
  | genesis _ => exact .genesis
  | index _ hprev hrules hwritten _ ih => exact ih.index hprev hrules hwritten
  | switch _ hlook hfile hroot hsecondaries _ _ ih => exact ih.switch hlook hfile hroot hsecondaries
  | accept _ _ _ _ ih => exact ih
  | clear _ ih => exact ih

/-- Invariant of the run, next to that of the node. -/
structure PoolInv (c : Consensus H) (txs : Set (CTransaction H)) (s : Node H)
    (pool : CTxMemPool H) : Prop where
  files : FilesIn s.blockFiles txs
  inv : CTxMemPool.Inv c.toSha256 txs pool
  ordinary : CTxMemPool.Ordinary c.toSha256 pool
  noConflict : NoConflict c s pool

omit [TransOrd H] [DecidableEq H] in
theorem FilesIn.writeToDisk {nFile nBlockPos : Nat} (h : FilesIn s.blockFiles txs)
    (hwritten : s.writeToDisk env block = some (nFile, nBlockPos, written))
    (hvtx : ∀ tx ∈ block.vtx, tx ∈ txs) : FilesIn written.blockFiles txs := by
  unfold Node.writeToDisk at hwritten
  obtain ⟨pos, _, hfree⟩ := Option.bind_eq_some_iff.mp hwritten
  split at hfree
  · cases hfree
  · cases hfree
    intro nFile nBlockPos other hother
    simp only at hother
    split at hother
    · cases hother
      exact hvtx
    · exact h _ _ _ hother

theorem storeIndex_frame (c : Consensus H) (s : Node H) (env : Env H) (block : CBlock H)
    (nFile nBlockPos : Nat) : (s.storeIndex c env block nFile nBlockPos).2.blockFiles =
      s.blockFiles ∧ (s.storeIndex c env block nFile nBlockPos).2.pindexBest = s.pindexBest := by
  unfold storeIndex
  simp only
  split
  · exact ⟨rfl, rfl⟩
  · split
    · exact ⟨rfl, rfl⟩
    · exact ⟨rfl, rfl⟩

theorem noConflict_empty (c : Consensus H) (s : Node H) : NoConflict c s CTxMemPool.empty := by
  rintro _ _ _ _ ⟨hash, tx, htx, _⟩
  simp [CTxMemPool.empty] at htx

theorem poolInv_empty (c : Consensus H) (hfiles : FilesIn s.blockFiles txs) :
    PoolInv c txs s CTxMemPool.empty := by
  refine ⟨hfiles, CTxMemPool.inv_empty, ?_, noConflict_empty c s⟩
  intro hash tx htx
  simp [CTxMemPool.empty] at htx

variable [LawfulEqOrd H]

/-- **A transaction that arrives** is refused if the best chain has spent one of
its inputs. -/
theorem PoolInv.accept (hinj : Function.Injective c.sha256) (htip : TipInv c s)
    (h : PoolInv c txs s pool) {tx : CTransaction H} (htx : tx ∈ txs) :
    PoolInv c txs s (pool.accept c s.txnAbort env policy tx true).2 := by
  obtain ⟨hinv, hordinary, _, hentries⟩ := h.inv.accept_entries (s := s.txnAbort) h.ordinary htx
  refine ⟨h.files, hinv, hordinary, ?_⟩
  rintro other hother o ho ⟨hash, tx', htx', hin⟩
  rcases hentries hash tx' htx' with hold | ⟨rfl, hchecked⟩
  · exact h.noConflict other hother o ho ⟨hash, tx', hold, hin⟩
  · exact CTxMemPool.not_marked_of_checkInputs (hchecked rfl) hin
      (htip.tip.chained.marked hinj hother ho)

omit [LawfulEqOrd H] in
/-- **A block that arrives** is written and entered into the index. -/
theorem PoolInv.index (htip : TipInv c s) (h : PoolInv c txs s pool) {nFile nBlockPos : Nat}
    (hwritten : s.writeToDisk env block = some (nFile, nBlockPos, written))
    (hvtx : ∀ tx ∈ block.vtx, tx ∈ txs) :
    PoolInv c txs (written.storeIndex c env block nFile nBlockPos).2 pool := by
  obtain ⟨hext, _, hframe⟩ := writeToDisk_some hwritten
  obtain ⟨hblocks, hbest⟩ := storeIndex_frame c written env block nFile nBlockPos
  refine ⟨hblocks ▸ h.files.writeToDisk hwritten hvtx, h.inv, h.ordinary, ?_⟩
  unfold NoConflict
  rw [hblocks, hbest, show written.pindexBest = s.pindexBest by rw [hframe],
    htip.tip.chained.txsOf_extend hext]
  exact h.noConflict

omit [LawfulEqOrd H] in
theorem setBestChainPool_false (hcall : s.setBestChain c env block pindex pprev = (false, t))
    (hpool : s.setBestChainPool c env policy depth block pindex pprev pool = some pool') : pool' = pool := by
  unfold setBestChain at hcall
  unfold setBestChainPool at hpool
  simp only at hcall
  split at hpool
  · exact (Option.some.inj hpool).symm
  · rename_i hfirst
    rw [if_neg hfirst] at hcall
    split at hpool
    · rename_i hextends
      rw [if_pos hextends] at hcall
      split at hpool
      · rename_i hinner
        rw [hinner] at hcall
        cases hcall
      · exact (Option.some.inj hpool).symm
    · rename_i hother
      rw [if_neg hother] at hcall
      obtain ⟨u, hreorganize, _⟩ := switchBranch_false rfl hcall
      have hfailed : s.txnBegin.reorganize c env (s.txnBegin.postponedFor pindex pprev).2.1
        (s.txnBegin.postponedFor pindex pprev).2.2 = (false, u) := hreorganize
      unfold switchPool at hpool
      simp only [hfailed, Bool.not_false, if_true] at hpool
      exact (Option.some.inj hpool).symm

/-- **A call of `SetBestChain` that returns `true`** and meets the condition. -/
theorem PoolInv.setBestChain_true (hinj : Function.Injective c.sha256)
    (hcoll : Set.InjOn (CTransaction.getHash c.toSha256) txs) (hacyclic : c.toSha256.Acyclic)
    (htip : TipInv c s) (h : PoolInv c txs s pool)
    (hlook : s.mapBlockIndex[pindex.hash]? = some (pindex :: pprev))
    (hfile : s.blockFiles pindex.nFile pindex.nBlockPos = some block)
    (hroot : pprev = [] → block.hashPrevBlock ≠ s.hashBestChain)
    (hcall : s.setBestChain c env block pindex pprev = (true, t))
    (hsecondaries : SecondariesConnect c s env block pindex pprev)
    (hundisputed : Undisputed c s pool block pindex pprev)
    (hpool : s.setBestChainPool c env policy depth block pindex pprev pool = some pool') :
    Follows c txs t (resurrectedPool c s env policy block pindex pprev pool) pool' := by
  obtain ⟨rank, hrank⟩ := hacyclic
  have hrank' := fun (tx : CTransaction H) (txin : CTxIn H) (hmem : txin ∈ tx.vin) =>
    CTransaction.rank_lt hrank hmem
  unfold setBestChain at hcall
  unfold setBestChainPool at hpool
  simp only at hcall
  split at hcall
  · rename_i hfirst
    obtain ⟨first, hgenesis, _⟩ := htip.genesis
    rw [hgenesis] at hfirst
    exact absurd hfirst.1 (cons_ne_nil _ _)
  · rename_i hfirst
    rw [if_neg hfirst] at hpool
    split at hcall
    · rename_i hextends
      rw [if_pos hextends] at hpool
      have hsame : resurrectedPool c s env policy block pindex pprev pool = pool := if_pos hextends
      rw [hsame]
      cases hinner : s.txnBegin.setBestChainInner c env block pindex pprev with
      | mk flag u =>
        rw [hinner] at hcall hpool
        cases flag with
        | false => cases hcall
        | true =>
          cases hcall
          exact htip.follows_extension hcoll h.files h.inv h.ordinary h.noConflict hlook hfile
            hroot hextends hinner (hundisputed.extension hextends) hpool
    · rename_i hother
      rw [if_neg hother] at hpool
      exact htip.follows_switch hcoll hinj hrank' h.files h.inv h.ordinary h.noConflict hlook hother
        hcall hsecondaries hundisputed hpool

/-- **Run lemma.** -/
theorem PoolRun.poolInv (hinj : Function.Injective c.sha256)
    (hcoll : Set.InjOn (CTransaction.getHash c.toSha256) txs) (hacyclic : c.toSha256.Acyclic)
    (h : PoolRun c first txs s pool) : PoolInv c txs s pool := by
  induction h with
  | genesis hfirst =>
    apply poolInv_empty
    intro nFile nBlockPos block hfile
    unfold Node.genesis at hfile
    simp only at hfile
    split at hfile
    · cases hfile
      exact hfirst
    · cases hfile
  | index hs _ _ hwritten hvtx ih => exact ih.index (hs.reachable.tipInv hinj) hwritten hvtx
  | accept env policy hs htx ih => exact ih.accept hinj (hs.reachable.tipInv hinj) htx
  | clear _ ih => exact poolInv_empty c ih.files
  | @switch s pool pool' env policy depth block pindex pprev hs hlook hfile hroot hsecondaries
      hundisputed hpool ih =>
      cases hcall : s.setBestChain c env block pindex pprev with
      | mk flag t =>
        cases flag with
        | true =>
          have hfollows := ih.setBestChain_true hinj hcoll hacyclic (hs.reachable.tipInv hinj)
            hlook hfile hroot hcall hsecondaries hundisputed hpool
          refine ⟨hfollows.files, hfollows.cleaned.inv, ?_, hfollows.noConflict⟩
          intro hash tx htx
          exact hfollows.ordinary hash tx (hfollows.cleaned.kept hash tx htx)
        | false =>
          have hframe := (setBestChain_unmoved hcall).frame
          rw [setBestChainPool_false hcall hpool]
          refine ⟨?_, ih.inv, ih.ordinary, ?_⟩
          · rw [hframe]
            exact ih.files
          · unfold NoConflict
            rw [hframe]
            exact ih.noConflict

/-- **The memory pool follows the chain.**  In every run whose calls of
`SetBestChain` meet the condition, nothing in the pool spends what the best
chain has spent.  After each such call that returns `true` this holds again, and
what descends from a transaction that is gone from the pool and not on the
chain is gone as well. -/
theorem mempool_follows_chain (hinj : Function.Injective c.sha256)
    (hcoll : Set.InjOn (CTransaction.getHash c.toSha256) txs) (hacyclic : c.toSha256.Acyclic)
    (h : PoolRun c first txs s pool) :
    NoConflict c s pool ∧ ∀ (env : Env H) (policy : RelayPolicy H) (block : CBlock H)
      (pindex : CBlockIndex H) (pprev : PIndex H) (t : Node H),
      s.mapBlockIndex[pindex.hash]? = some (pindex :: pprev) →
      s.blockFiles pindex.nFile pindex.nBlockPos = some block →
      (pprev = [] → block.hashPrevBlock ≠ s.hashBestChain) →
      s.setBestChain c env block pindex pprev = (true, t) → SecondariesConnect c s env block pindex pprev →
      Undisputed c s pool block pindex pprev → ∃ depth₀ pool', (∀ depth ≥ depth₀,
          s.setBestChainPool c env policy depth block pindex pprev pool = some pool') ∧
        NoConflict c t pool' ∧ ∀ hash hash', hash ∉ pool'.mapTx →
          ¬ CTxMemPool.HasHash c.toSha256 (Ledger.txsOf t.blockFiles t.pindexBest) hash →
          Relation.TransGen (Child (resurrectedPool c s env policy block pindex pprev pool)) hash
            hash' → hash' ∉ pool'.mapTx := by
  have hinv := h.poolInv hinj hcoll hacyclic
  have htip := h.reachable.tipInv hinj
  refine ⟨hinv.noConflict, ?_⟩
  intro env policy block pindex pprev t hlook hfile hroot hcall hsecondaries hundisputed
  have hranked := hacyclic
  obtain ⟨rank, hrank⟩ := hranked
  have hends : ∃ depth₀ pool', ∀ depth ≥ depth₀,
      s.setBestChainPool c env policy depth block pindex pprev pool = some pool' :=
    setBestChainPool_total hcoll (fun tx txin hmem => CTransaction.rank_lt hrank hmem)
      hinv.files hfile hinv.inv hinv.ordinary
  obtain ⟨depth₀, pool', htotal⟩ := hends
  have hfollows := hinv.setBestChain_true hinj hcoll hacyclic htip hlook hfile hroot hcall
    hsecondaries hundisputed (htotal depth₀ le_rfl)
  have htip' := (htip.setBestChain_true hinj hlook hfile hroot hcall).1 hsecondaries
  refine ⟨depth₀, pool', htotal, hfollows.noConflict, ?_⟩
  intro hash hash' hout hoff hdescends
  exact (descendants_gone hinj hcoll htip'.tip.chained hfollows.files hfollows.inv hfollows.ordinary
    hfollows.cleaned hout hoff hdescends).1

/-- The rules of `AcceptBlock` on a block behind the tip. -/
def tipRules (c : Consensus H) (s : Node H) (env : Env H) (block : CBlock H) : Bool :=
  match s.pindexBest with
  | [] => false
  | pindexPrev :: pprev => block.acceptRules c pindexPrev pprev (env.checksProofOfStake block)
      (env.checksSync (block.getHash c))

/-- `AcceptBlock` up to the call of `SetBestChain`. -/
def indexBlock (c : Consensus H) (s : Node H) (env : Env H) (block : CBlock H) : Node H :=
  match s.writeToDisk env block with
  | none => s
  | some (nFile, nBlockPos, written) => (written.storeIndex c env block nFile nBlockPos).2

omit [LawfulEqOrd H] in
theorem indexBlock_cases (hrules : tipRules c s env block)
    (hlook : s.mapBlockIndex[block.hashPrevBlock]? = some s.pindexBest) :
    indexBlock c s env block = s ∨ ∃ pindexPrev pprev nFile nBlockPos written,
      s.mapBlockIndex[block.hashPrevBlock]? = some (pindexPrev :: pprev) ∧
      block.acceptRules c pindexPrev pprev (env.checksProofOfStake block) (env.checksSync
      (block.getHash c)) ∧ s.writeToDisk env block = some (nFile, nBlockPos, written) ∧
      indexBlock c s env block = (written.storeIndex c env block nFile nBlockPos).2 := by
  unfold indexBlock
  split
  · exact Or.inl rfl
  · rename_i nFile nBlockPos written hwritten
    unfold tipRules at hrules
    split at hrules
    · cases hrules
    · rename_i pindexPrev pprev hpath
      exact Or.inr ⟨pindexPrev, pprev, nFile, nBlockPos, written, hlook.trans (congrArg some hpath),
        hrules, hwritten, rfl⟩

omit [LawfulEqOrd H] in
theorem undisputed_empty (hextends : block.hashPrevBlock = s.hashBestChain) :
    Undisputed c s CTxMemPool.empty block pindex pprev := by
  refine ⟨?_, fun hother => absurd hextends hother, fun hother => absurd hextends hother⟩
  intro _ hash tx htx
  simp [CTxMemPool.empty] at htx

/-- **A block that extends the tip** of a node with an empty pool continues the run. -/
theorem PoolRun.acceptBlock (hinj : Function.Injective c.sha256)
    (hcoll : Set.InjOn (CTransaction.getHash c.toSha256) txs) (hacyclic : c.toSha256.Acyclic)
    (policy : RelayPolicy H) (h : PoolRun c first txs s CTxMemPool.empty) (env : Env H)
    (hextends : block.hashPrevBlock = s.hashBestChain) (hvtx : ∀ tx ∈ block.vtx, tx ∈ txs) :
    PoolRun c first txs (s.acceptBlock c env block).2 CTxMemPool.empty := by
  rcases acceptBlock_cases c s env block with
    hsame | ⟨pindexPrev, pprev, _, _, _, hprev, hrules, hwritten, hend⟩
  · exact hsame.symm ▸ h
  · have hindex := h.index hprev hrules hwritten hvtx
    rcases hend with hsame | ⟨pindex, u, hu, hlook, hfile, htip, hcall⟩
    · exact hsame.symm ▸ hindex
    · rw [hcall]
      rw [← hu] at hindex
      have hinv := hindex.poolInv hinj hcoll hacyclic
      obtain ⟨rank, hrank⟩ := hacyclic
      have hends : ∃ depth₀ pool', ∀ depth ≥ depth₀, u.setBestChainPool c env policy depth block
          pindex (pindexPrev :: pprev) CTxMemPool.empty = some pool' :=
        setBestChainPool_total hcoll (fun tx txin hmem => CTransaction.rank_lt hrank hmem) hinv.files hfile
          hinv.inv hinv.ordinary
      obtain ⟨depth, pool', htotal⟩ := hends
      have htip := hextends.trans htip.symm
      exact (hindex.switch hlook hfile (fun hnil => absurd hnil (cons_ne_nil _ _))
        (fun hother => absurd htip hother) (undisputed_empty htip) (htotal depth le_rfl)).clear

theorem PoolRun.acceptAll (hinj : Function.Injective c.sha256)
    (hcoll : Set.InjOn (CTransaction.getHash c.toSha256) txs) (hacyclic : c.toSha256.Acyclic)
    (policy : RelayPolicy H) {links : List (Env H × CBlock H)} (h : PoolRun c first txs s CTxMemPool.empty)
    (hextends : extendsTip c s links) (hvtx : ∀ link ∈ links, ∀ tx ∈ link.2.vtx, tx ∈ txs) :
    PoolRun c first txs (s.acceptAll c links) CTxMemPool.empty := by
  induction links generalizing s with
  | nil => exact h
  | cons link links ih =>
    rw [extendsTip, Bool.and_eq_true, beq_iff_eq] at hextends
    have hfirst := h.acceptBlock hinj hcoll hacyclic policy link.1 hextends.1 (hvtx link mem_cons_self)
    exact ih hfirst hextends.2 fun link' hmem => hvtx link' (mem_cons_of_mem _ hmem)

/-- A payment of the other output of the coinbase. -/
def unrelatedTx : CTransaction (List Nat) :=
  samplePayment 12 ⟨fundedOutput.hash, 1⟩ [⟨COIN - MIN_TX_FEE, []⟩]

def sampleTxs : List (CTransaction (List Nat)) :=
  sampleGenesis.vtx ++ fundedChain.flatMap (fun link => link.2.vtx) ++ chainedBlock.vtx ++ [unrelatedTx]

/-- The node that has the chained block in its index and has not connected it yet. -/
def indexedNode : Node (List Nat) :=
  indexBlock sampleConsensus fundedNode (sampleEnv 12000) chainedBlock

/-- A pool with a transaction of the block and an unrelated one. -/
def minedPool : CTxMemPool (List Nat) :=
  [pooledTx, unrelatedTx].foldl (fun pool tx =>
    (pool.accept sampleConsensus indexedNode.txnAbort (sampleEnv 0) sampleRelay tx true).2) .empty

/-- The call that connects the block. -/
def minedCall : Bool × Node (List Nat) :=
  indexedNode.setBestChain sampleConsensus (sampleEnv 12000) chainedBlock chainedIndex
    indexedNode.pindexBest

theorem mined_run :
    tipRules sampleConsensus fundedNode (sampleEnv 12000) chainedBlock ∧
      fundedNode.mapBlockIndex[chainedBlock.hashPrevBlock]? = some fundedNode.pindexBest ∧
      extendsTip sampleConsensus (genesis sampleConsensus sampleGenesis) fundedChain ∧
      indexedNode.mapBlockIndex[chainedIndex.hash]? = some (chainedIndex :: indexedNode.pindexBest) ∧
      indexedNode.blockFiles chainedIndex.nFile chainedIndex.nBlockPos = some chainedBlock ∧
      indexedNode.pindexBest ≠ [] ∧ chainedBlock.hashPrevBlock = indexedNode.hashBestChain ∧
      minedCall.1 = true ∧ (sampleTxs.map (CTransaction.getHash transparent)).Nodup ∧
      minedPool.mapTx.toList.map Prod.snd = [pooledTx, unrelatedTx] := by
  decide +kernel

theorem sampleTxs_injOn : Set.InjOn (CTransaction.getHash sampleConsensus.toSha256)
    {tx | tx ∈ sampleTxs} := by
  obtain ⟨_, _, _, _, _, _, _, _, hnodup, _⟩ := mined_run
  exact fun tx htx tx' htx' heq => inj_on_of_nodup_map hnodup htx htx' heq

theorem poolRun_minedPool :
    PoolRun sampleConsensus sampleGenesis {tx | tx ∈ sampleTxs} indexedNode minedPool := by
  obtain ⟨hrules, hlook, hextends, _⟩ := mined_run
  have hgenesis : PoolRun sampleConsensus sampleGenesis {tx | tx ∈ sampleTxs}
      (genesis sampleConsensus sampleGenesis) CTxMemPool.empty := .genesis fun tx htx => by
    simp only [sampleTxs, Set.mem_ofPred_eq, mem_append, htx, true_or]
  have hfunded : PoolRun sampleConsensus sampleGenesis {tx | tx ∈ sampleTxs} fundedNode CTxMemPool.empty := by
    refine hgenesis.acceptAll transparent_injective sampleTxs_injOn
      transparent_acyclic sampleRelay hextends ?_
    intro link hlink tx htx
    have hmem : tx ∈ fundedChain.flatMap fun link => link.2.vtx := mem_flatMap.mpr ⟨link, hlink, htx⟩
    simp only [sampleTxs, Set.mem_ofPred_eq, mem_append, hmem, true_or, or_true]
  have hindexed :
      PoolRun sampleConsensus sampleGenesis {tx | tx ∈ sampleTxs} indexedNode CTxMemPool.empty := by
    rcases indexBlock_cases hrules hlook with h | ⟨_, _, _, _, _, hprev, hrules, hwritten, h⟩
    · exact (congrArg (PoolRun _ _ _ · _) h).mpr hfunded
    · refine (congrArg (PoolRun _ _ _ · _) h).mpr (hfunded.index hprev hrules hwritten fun tx htx => ?_)
      simp only [sampleTxs, Set.mem_ofPred_eq, mem_append, htx, true_or, or_true]
  have hpooled : pooledTx ∈ sampleTxs ∧ unrelatedTx ∈ sampleTxs := by decide +kernel
  exact (hindexed.accept (sampleEnv 0) sampleRelay hpooled.1).accept (sampleEnv 0) sampleRelay hpooled.2

/-- The theorem at the call that connects the block: the pool holds one of its transactions and one
that it does not dispute. -/
theorem mempool_follows_chain_mined :
    minedPool.mapTx.toList.map Prod.snd = [pooledTx, unrelatedTx] ∧ pooledTx ∈ chainedBlock.vtx ∧
      ∃ t pool', minedCall = (true, t) ∧ (∃ depth, indexedNode.setBestChainPool sampleConsensus
        (sampleEnv 12000) sampleRelay depth chainedBlock chainedIndex indexedNode.pindexBest
        minedPool = some pool') ∧ NoConflict sampleConsensus t pool' := by
  obtain ⟨_, _, _, hlook, hfile, hroot, hextends, hflag, _, hpool⟩ := mined_run
  obtain ⟨_, hcalls⟩ := mempool_follows_chain transparent_injective sampleTxs_injOn
    transparent_acyclic poolRun_minedPool
  have hundisputed : Undisputed sampleConsensus indexedNode minedPool chainedBlock chainedIndex
      indexedNode.pindexBest := by
    refine ⟨?_, fun hother => absurd hextends hother, fun hother => absurd hextends hother⟩
    intro _ hash tx htx
    have hmem : tx ∈ minedPool.mapTx.toList.map Prod.snd :=
      mem_map.mpr ⟨(hash, tx), ExtTreeMap.mem_toList_iff_getElem?_eq_some.mpr htx, rfl⟩
    rw [hpool] at hmem
    have hdisputes : (∀ other ∈ chainedBlock.vtx, ∀ o ∈ Ledger.spends transparent other,
        o ∉ unrelatedTx.vin.map CTxIn.prevout) ∧ pooledTx ∈ chainedBlock.vtx := by decide +kernel
    rcases mem_cons.mp hmem with rfl | hmem
    · exact fun h => h.2 ⟨pooledTx, hdisputes.2, rfl⟩
    · obtain rfl := mem_singleton.mp hmem
      rintro ⟨⟨other, hother, o, ho, hspent⟩, _⟩
      exact hdisputes.1 other hother o ho hspent
  obtain ⟨depth₀, pool', htotal, hno, _⟩ := hcalls (sampleEnv 12000) sampleRelay chainedBlock
    chainedIndex indexedNode.pindexBest minedCall.2 hlook hfile (fun h => absurd h hroot)
    (EarlyExit.eq_of_fst hflag) (fun hother => absurd hextends hother) hundisputed
  exact ⟨hpool, mem_cons_of_mem _ mem_cons_self, minedCall.2, pool', EarlyExit.eq_of_fst hflag,
    ⟨depth₀, htotal depth₀ le_rfl⟩, hno⟩

/-- A block with another payment of the output that `pooledTx` spends. -/
def disputedBlock : CBlock (List Nat) :=
  sampleBlock 12 fundedNode.hashBestChain
    [sampleCoinbase 12 [⟨0, []⟩], samplePayment 12 fundedOutput [⟨COIN - MIN_TX_FEE, [OP_1]⟩]]

/-- The node that has the block in its index and has not connected it yet. -/
def disputedNode : Node (List Nat) :=
  indexBlock sampleConsensus fundedNode (sampleEnv 12000) disputedBlock

def disputedIndex : CBlockIndex (List Nat) :=
  newIndex sampleConsensus disputedBlock 1 12000 fundedNode.pindexBest

/-- The pool that has accepted the transaction. -/
def disputedPool : CTxMemPool (List Nat) :=
  ((CTxMemPool.empty : CTxMemPool (List Nat)).accept sampleConsensus disputedNode.txnAbort
    (sampleEnv 0) sampleRelay pooledTx true).2

/-- What a call of `SetBestChain` with the block returns. -/
def disputedCall : Bool × Node (List Nat) :=
  disputedNode.setBestChain sampleConsensus (sampleEnv 12000) disputedBlock disputedIndex
    disputedNode.pindexBest

theorem disputed_run : extendsTip sampleConsensus (genesis sampleConsensus sampleGenesis) fundedChain ∧
      fundedNode.mapBlockIndex[disputedBlock.hashPrevBlock]? = some fundedNode.pindexBest ∧
      tipRules sampleConsensus fundedNode (sampleEnv 12000) disputedBlock ∧
      (∀ tx ∈ Ledger.txsOf disputedNode.blockFiles disputedNode.pindexBest,
        Ledger.spends transparent tx = []) ∧ disputedNode.mapBlockIndex[disputedIndex.hash]? =
      some (disputedIndex :: disputedNode.pindexBest) ∧
      disputedNode.blockFiles disputedIndex.nFile disputedIndex.nBlockPos = some disputedBlock ∧
      disputedCall.1 = true ∧
      (disputedNode.setBestChainPool sampleConsensus (sampleEnv 12000) sampleRelay 1 disputedBlock
        disputedIndex disputedNode.pindexBest disputedPool).any
          (fun pool => decide (pool.mapTx[pooledTx.getHash transparent]? = some pooledTx)) ∧
      (∃ tx ∈ Ledger.txsOf disputedCall.2.blockFiles disputedCall.2.pindexBest,
        fundedOutput ∈ Ledger.spends transparent tx) := by
  decide +kernel

theorem reachable_disputedNode : Reachable sampleConsensus sampleGenesis disputedNode := by
  obtain ⟨hextends, hlook, hrules, _⟩ := disputed_run
  have hfunded : Reachable sampleConsensus sampleGenesis fundedNode := Reachable.genesis.acceptAll hextends
  rcases indexBlock_cases hrules hlook with h | ⟨_, _, _, _, _, hprev, hrules, hwritten, h⟩
  · exact (congrArg (Reachable _ _) h).mpr hfunded
  · exact (congrArg (Reachable _ _) h).mpr (hfunded.index hprev hrules hwritten)

/-- **A conflict stays in the pool.**  The pool holds a transaction that spends
an unspent output, and a block extends the tip that spends the same output with
another transaction.  The block becomes the tip and the transaction stays. -/
theorem conflict_stays_in_pool : Reachable sampleConsensus sampleGenesis disputedNode ∧
      NoConflict sampleConsensus disputedNode disputedPool ∧
      disputedNode.mapBlockIndex[disputedIndex.hash]? = some (disputedIndex :: disputedNode.pindexBest) ∧
      disputedNode.blockFiles disputedIndex.nFile disputedIndex.nBlockPos = some disputedBlock ∧
      ∃ t pool', disputedCall = (true, t) ∧
        disputedNode.setBestChainPool sampleConsensus (sampleEnv 12000) sampleRelay 1 disputedBlock
          disputedIndex disputedNode.pindexBest disputedPool = some pool' ∧
        ¬ NoConflict sampleConsensus t pool' := by
  obtain ⟨_, _, _, hcoinbases, hlook, hfile, hflag, hpool, tx, htx, ho⟩ := disputed_run
  rw [Option.any_eq_true] at hpool
  obtain ⟨pool', hpool', hstays⟩ := hpool
  refine ⟨reachable_disputedNode, ?_, hlook, hfile, disputedCall.2, pool',
    EarlyExit.eq_of_fst hflag, hpool', ?_⟩
  · intro tx htx o ho
    rw [show Ledger.spends sampleConsensus.toSha256 tx = [] from hcoinbases tx htx] at ho
    cases ho
  · intro hno
    exact hno tx htx fundedOutput ho ⟨_, pooledTx, of_decide_eq_true hstays, mem_cons_self⟩

end Node

end MaryJaneCoin
