import MaryJaneCoin.Chain.MemPoolIndex
import MaryJaneCoin.Chain.TipCoherence

/-!
# The memory pool follows the chain

`SetBestChain` cleans the pool in three ways.  A block connected by
`SetBestChainInner`, directly or postponed, has its own transactions removed.
`Reorganize` first resurrects the transactions of the blocks it disconnected,
then removes those of the blocks it connected, together with what conflicts
with them.

So after a reorganization no conflict is left, except with a transaction that
differs in nothing but its Mimblewimble part; `SetBestChainInner` removes no
conflict at all.
-/

namespace MaryJaneCoin

open Std List Option FinMap

namespace CTxMemPool

variable {H : Type} [Ord H] [TransOrd H]

/-- The loop of `SetBestChainInner` over the transactions of its block. -/
def removeAll (sha : Sha256 H) (depth : Nat) (pool : CTxMemPool H) (vtx : List (CTransaction H)) :
    Option (CTxMemPool H) :=
  vtx.foldlM (fun pool tx => pool.remove sha depth tx false) pool

variable [DecidableEq H]

/-- The last loop of `Reorganize`. -/
def deleteAll (sha : Sha256 H) (depth : Nat) (pool : CTxMemPool H)
    (vDelete : List (CTransaction H)) : Option (CTxMemPool H) :=
  vDelete.foldlM (fun pool tx => (pool.remove sha depth tx false).bind fun pool =>
    pool.removeConflicts sha depth tx) pool

/-- The loop of `Reorganize` before it. -/
def resurrectAll (c : Consensus H) (s : Node H) (env : Env H) (policy : RelayPolicy H)
    (pool : CTxMemPool H) (vResurrect : List (CTransaction H)) : CTxMemPool H :=
  vResurrect.foldl (fun pool tx => (pool.accept c s env policy tx false).2) pool

end CTxMemPool

namespace Node

variable {H : Type} [Ord H] [TransOrd H] [DecidableEq H] (c : Consensus H)

/-- `vResurrect` of `Reorganize`.  The blocks could all be read, or it would
have failed. -/
def vResurrect (s : Node H) (vDisconnect : List (CBlockIndex H × PIndex H)) :
    List (CTransaction H) :=
  vDisconnect.flatMap fun entry => (Ledger.vtxOf s.blockFiles entry.1).filter fun tx =>
    !(tx.isCoinBase c.toSha256 || tx.isCoinStake c.toSha256)

/-- `vDelete` of `Reorganize`. -/
def vDelete (s : Node H) (vConnect : List (CBlockIndex H × PIndex H)) : List (CTransaction H) :=
  vConnect.flatMap fun entry => Ledger.vtxOf s.blockFiles entry.1

/-- The pool in a `Reorganize` that ends in `t`, once the transactions of the
disconnected blocks are back in it. -/
def resurrectPool (s t : Node H) (env : Env H) (policy : RelayPolicy H)
    (pindexNew : CBlockIndex H) (pprev : PIndex H) (pool : CTxMemPool H) : CTxMemPool H :=
  match findFork (pindexNew :: pprev) s.pindexBest with
  | none => pool
  | some pfork => pool.resurrectAll c t env policy (s.vResurrect c (downTo pfork s.pindexBest))

/-- What a `Reorganize` that ends in `t` does to the pool. -/
def reorganizePool (s t : Node H) (env : Env H) (policy : RelayPolicy H) (depth : Nat)
    (pindexNew : CBlockIndex H) (pprev : PIndex H) (pool : CTxMemPool H) : Option (CTxMemPool H) :=
  match findFork (pindexNew :: pprev) s.pindexBest with
  | none => some pool
  | some pfork => (resurrectPool c s t env policy pindexNew pprev pool).deleteAll c.toSha256 depth
      (s.vDelete (downTo pfork (pindexNew :: pprev)).reverse)

/-- Where `SetBestChain` reorganizes to, and the entries it postpones. -/
def postponedFor (s : Node H) (pindexNew : CBlockIndex H) (pprev : PIndex H) :
    List (CBlockIndex H × PIndex H) × (CBlockIndex H × PIndex H) :=
  postpone ((s.pindexBest.head?.map CBlockIndex.nChainTrust).getD 0) pindexNew pprev

/-- What the third branch of `SetBestChain` does to the pool: each postponed
block that was connected has its transactions removed. -/
def switchPool (s : Node H) (env : Env H) (policy : RelayPolicy H) (depth : Nat)
    (pindexNew : CBlockIndex H) (pprev : PIndex H) (pool : CTxMemPool H) : Option (CTxMemPool H) :=
  let postponed := s.postponedFor pindexNew pprev
  let reorganized := s.reorganize c env postponed.2.1 postponed.2.2
  if !reorganized.1 then some pool
  else
    (reorganizePool c s reorganized.2 env policy depth postponed.2.1 postponed.2.2 pool).bind
      fun pool => pool.removeAll c.toSha256 depth
        (s.vDelete (EarlyExit.passed (connectSecondary c env) reorganized.2 postponed.1.reverse))

/-- What `SetBestChain` does to the pool. -/
def setBestChainPool (s : Node H) (env : Env H) (policy : RelayPolicy H) (depth : Nat)
    (block : CBlock H) (pindexNew : CBlockIndex H) (pprev : PIndex H) (pool : CTxMemPool H) :
    Option (CTxMemPool H) :=
  if s.pindexGenesisBlock = [] ∧ pindexNew.nHeight = 0 then some pool
  else if block.hashPrevBlock = s.hashBestChain then
    if (s.txnBegin.setBestChainInner c env block pindexNew pprev).1 then
      pool.removeAll c.toSha256 depth block.vtx
    else some pool
  else s.txnBegin.switchPool c env policy depth pindexNew pprev pool

end Node

namespace CTxMemPool

variable {H : Type} [Ord H] [TransOrd H] [LawfulEqOrd H] {sha : Sha256 H}
  {txs : Set (CTransaction H)} {rank : H → Nat} {pool pool' : CTxMemPool H} {depth : Nat}

/-- One of these transactions has this hash. -/
def HasHash (sha : Sha256 H) (vtx : List (CTransaction H)) (hash : H) : Prop :=
  ∃ tx ∈ vtx, tx.getHash sha = hash

variable {vtx : List (CTransaction H)}

theorem Inv.removeAll_some (hcoll : Set.InjOn (CTransaction.getHash sha) txs)
    (hinv : Inv sha txs pool) (htxs : ∀ tx ∈ vtx, tx ∈ txs)
    (h : pool.removeAll sha depth vtx = some pool') : Cleaned sha txs (HasHash sha vtx) pool pool' ∧
      ∀ hash, HasHash sha vtx hash → hash ∉ pool'.mapTx := by
  unfold removeAll at h
  induction vtx generalizing pool with
  | nil =>
    cases h
    exact ⟨Cleaned.refl hinv _, by simp [HasHash]⟩
  | cons tx vtx ih =>
    obtain ⟨mid, hmid, hrest⟩ := OptionLoop.foldlM_cons h
    obtain ⟨hfirst, hout⟩ := hinv.remove_one hcoll (htxs tx mem_cons_self) hmid
    obtain ⟨hlast, hothers⟩ := ih hfirst.inv (fun tx' htx' => htxs tx' (mem_cons_of_mem _ htx')) hrest
    constructor
    · refine (hfirst.weaken ?_).trans (hlast.weaken ?_)
      · rintro hash rfl
        exact ⟨tx, mem_cons_self, rfl⟩
      · rintro hash ⟨tx', htx', rfl⟩
        exact ⟨tx', mem_cons_of_mem _ htx', rfl⟩
    · rintro hash ⟨tx', htx', rfl⟩
      rcases List.mem_cons.mp htx' with rfl | htx'
      · exact fun hmem => hout (hlast.mem hmem)
      · exact hothers _ ⟨tx', htx', rfl⟩

variable [DecidableEq H]

variable {vDelete : List (CTransaction H)}

/-- Removing the transactions of the connected blocks and their conflicts: what
still spends the same as one of them is a twin of it, with another hash. -/
theorem Inv.deleteAll_some (hcoll : Set.InjOn (CTransaction.getHash sha) txs)
    (hrank : ∀ (tx : CTransaction H), ∀ txin ∈ tx.vin, rank txin.prevout.hash < rank
    (tx.getHash sha)) (hinv : Inv sha txs pool) (htxs : ∀ tx ∈ vDelete, tx ∈ txs)
    (h : pool.deleteAll sha depth vDelete = some pool') : Cleaned sha txs (HasHash sha vDelete) pool pool' ∧
      ∀ tx ∈ vDelete, ∀ o ∈ tx.vin.map CTxIn.prevout, ∀ (hash : H) (tx' : CTransaction H),
        pool'.mapTx[hash]? = some tx' → o ∈ tx'.vin.map CTxIn.prevout →
          tx'.sameAs tx ∧ hash ≠ tx.getHash sha := by
  unfold deleteAll at h
  induction vDelete generalizing pool with
  | nil =>
    cases h
    exact ⟨Cleaned.refl hinv _, by simp⟩
  | cons tx vDelete ih =>
    obtain ⟨mid, hmid, hrest⟩ := OptionLoop.foldlM_cons h
    obtain ⟨removed, hremove, hconflicts⟩ := bind_eq_some_iff.mp hmid
    obtain ⟨hfirst, hout⟩ := hinv.remove_one hcoll (htxs tx mem_cons_self) hremove
    obtain ⟨hsecond, hsame⟩ := hfirst.inv.removeConflicts_some hcoll hrank hconflicts
    obtain ⟨hlast, hothers⟩ := ih hsecond.inv (fun tx' htx' => htxs tx' (mem_cons_of_mem _ htx')) hrest
    constructor
    · refine (hfirst.weaken ?_).trans ((hsecond.toCleaned.weaken ?_).trans (hlast.weaken ?_))
      · rintro hash rfl
        exact ⟨tx, mem_cons_self, rfl⟩
      · exact fun _ hfalse => hfalse.elim
      · rintro hash ⟨tx', htx', rfl⟩
        exact ⟨tx', mem_cons_of_mem _ htx', rfl⟩
    · intro tx' htx' o ho hash other hother hin
      rcases List.mem_cons.mp htx' with rfl | htx'
      · refine ⟨hsame o ho hash other (hlast.kept hash other hother) hin, ?_⟩
        rintro rfl
        exact hout (hsecond.mem (hlast.mem ((mem_iff_exists _ _).mpr ⟨other, hother⟩)))
      · exact hothers tx' htx' o ho hash other hother hin

omit [DecidableEq H] in
theorem Inv.removeAll_total (hcoll : Set.InjOn (CTransaction.getHash sha) txs)
    (hinv : Inv sha txs pool) (htxs : ∀ tx ∈ vtx, tx ∈ txs) :
    ∃ depth₀ pool', (∀ depth ≥ depth₀, pool.removeAll sha depth vtx = some pool') ∧ Inv sha txs pool' := by
  refine OptionLoop.foldlM_eventually (Inv sha txs) ?_ hinv
  intro tx htx mid hmid
  exact ⟨1, hmid.remove_one_total hcoll (htxs tx htx)⟩

theorem Inv.deleteAll_total (hcoll : Set.InjOn (CTransaction.getHash sha) txs)
    (hrank : ∀ (tx : CTransaction H), ∀ txin ∈ tx.vin, rank txin.prevout.hash < rank
    (tx.getHash sha)) (hinv : Inv sha txs pool) (htxs : ∀ tx ∈ vDelete, tx ∈ txs) :
    ∃ depth₀ pool', (∀ depth ≥ depth₀, pool.deleteAll sha depth vDelete = some pool') ∧
      Inv sha txs pool' := by
  refine OptionLoop.foldlM_eventually (Inv sha txs) ?_ hinv
  intro tx htx mid hmid
  obtain ⟨removed, hremove, hremoved⟩ := hmid.remove_one_total hcoll (htxs tx htx)
  obtain ⟨depth₀, pool', hconflicts, hpool'⟩ := hremoved.removeConflicts_total hcoll hrank tx
  refine ⟨max 1 depth₀, pool', ?_, hpool'⟩
  intro depth hdepth
  rw [hremove depth (Nat.le_trans (Nat.le_max_left _ _) hdepth), bind_some]
  exact hconflicts depth (Nat.le_trans (Nat.le_max_right _ _) hdepth)

/-- No transaction of the pool is a coinbase. -/
def Ordinary (sha : Sha256 H) (pool : CTxMemPool H) : Prop :=
  ∀ (hash : H) (tx : CTransaction H), pool.mapTx[hash]? = some tx → tx.isCoinBase sha = false

variable {c : Consensus H} {s : Node H} {env : Env H} {policy : RelayPolicy H}
  {tx : CTransaction H} {fCheckInputs : Bool}

theorem Inv.accept_entries (hinv : Inv c.toSha256 txs pool) (hordinary : Ordinary c.toSha256 pool)
    (htx : tx ∈ txs) :
    let pool' := (pool.accept c s env policy tx fCheckInputs).2
    Inv c.toSha256 txs pool' ∧ Ordinary c.toSha256 pool' ∧ (∀ (hash : H) (tx' : CTransaction H),
      pool.mapTx[hash]? = some tx' → pool'.mapTx[hash]? = some tx') ∧
      ∀ (hash : H) (tx' : CTransaction H), pool'.mapTx[hash]? = some tx' →
        pool.mapTx[hash]? = some tx' ∨
          (tx' = tx ∧ (fCheckInputs → pool.checkInputs c s env policy tx)) := by
  refine ⟨hinv.accept htx, ?_⟩
  rcases accept_cases c pool s env policy tx fCheckInputs with h | ⟨h, hrules, hnew, _, hinputs⟩
  · rw [h]
    exact ⟨hordinary, fun _ _ hlook => hlook, fun _ _ hlook => Or.inl hlook⟩
  · rw [h]
    have hentry : ∀ (hash : H) (tx' : CTransaction H),
        (pool.mapTx.insert (tx.getHash c.toSha256) tx)[hash]? = some tx' →
          pool.mapTx[hash]? = some tx' ∨ tx' = tx := by
      intro hash tx' hlook
      rw [ExtTreeMap.getElem?_insert] at hlook
      split at hlook
      · cases hlook
        exact Or.inr rfl
      · exact Or.inl hlook
    refine ⟨?_, ?_, ?_⟩
    · intro hash tx' hlook
      rcases hentry hash tx' hlook with hold | rfl
      · exact hordinary hash tx' hold
      · unfold checkRules at hrules
        simp only [Bool.and_eq_true] at hrules
        simpa using hrules.1.1.1.1.1.1.2
    · intro hash tx' hlook
      have hne : tx.getHash c.toSha256 ≠ hash := by
        rintro rfl
        exact hnew ((mem_iff_exists _ _).mpr ⟨tx', hlook⟩)
      exact (getElem?_insert_ne _ _ hne).trans hlook
    · intro hash tx' hlook
      rcases hentry hash tx' hlook with hold | rfl
      · exact Or.inl hold
      · exact Or.inr ⟨rfl, fun hcheck => (hinputs hcheck).2⟩

theorem Inv.resurrectAll (hinv : Inv c.toSha256 txs pool) (hordinary : Ordinary c.toSha256 pool)
    {vResurrect : List (CTransaction H)} (htxs : ∀ tx ∈ vResurrect, tx ∈ txs) :
    let pool' := pool.resurrectAll c s env policy vResurrect
    Inv c.toSha256 txs pool' ∧ Ordinary c.toSha256 pool' ∧ (∀ (hash : H) (tx' : CTransaction H),
      pool.mapTx[hash]? = some tx' → pool'.mapTx[hash]? = some tx') ∧
      ∀ (hash : H) (tx' : CTransaction H), pool'.mapTx[hash]? = some tx' →
        pool.mapTx[hash]? = some tx' ∨ tx' ∈ vResurrect := by
  induction vResurrect generalizing pool with
  | nil => exact ⟨hinv, hordinary, fun _ _ hlook => hlook, fun _ _ hlook => Or.inl hlook⟩
  | cons tx vResurrect ih =>
    obtain ⟨hinv', hordinary', hadds, hentries⟩ :=
      hinv.accept_entries (s := s) hordinary (htxs tx mem_cons_self)
    obtain ⟨hinv'', hordinary'', hadds', hentries'⟩ :=
      ih hinv' hordinary' fun tx' htx' => htxs tx' (mem_cons_of_mem _ htx')
    refine ⟨hinv'', hordinary'', fun hash tx' hlook => hadds' hash tx' (hadds hash tx' hlook), ?_⟩
    intro hash tx' hlook
    rcases hentries' hash tx' hlook with hmid | hin
    · rcases hentries hash tx' hmid with hold | ⟨rfl, _⟩
      · exact Or.inl hold
      · exact Or.inr mem_cons_self
    · exact Or.inr (mem_cons_of_mem _ hin)

/-- What `FetchInputs` takes from the database is what the database holds. -/
theorem fetchInputs_known {inputs : MapPrevTx H} (h : pool.fetchInputs s env tx = some inputs)
    (hash : H) (prev : CTxIndex × CTransaction H) (hprev : inputs[hash]? = some prev)
    (txindex : CTxIndex) (hread : s.txdb.readTxIndex hash = some txindex) : prev.1 = txindex := by
  obtain ⟨hloop, _⟩ := filter_eq_some_iff.mp h
  refine OptionLoop.foldlM_invariant (fun inputs : MapPrevTx H =>
    ∀ (hash : H) (prev : CTxIndex × CTransaction H), inputs[hash]? = some prev →
      ∀ txindex, s.txdb.readTxIndex hash = some txindex → prev.1 = txindex) ?_ hloop
    (by intro hash prev hprev; simp at hprev) hash prev hprev txindex hread
  intro txin _ inputs inputs' hinv hstep hash prev hprev txindex hread
  unfold fetchInput at hstep
  split at hstep
  · cases hstep
    exact hinv hash prev hprev txindex hread
  · by_cases hhash : txin.prevout.hash = hash
    · subst hhash
      simp only [hread] at hstep
      obtain ⟨txPrev, _, rfl⟩ := map_eq_some_iff.mp hstep
      rw [ExtTreeMap.getElem?_insert_self] at hprev
      cases hprev
      rfl
    · apply hinv hash prev ?_ txindex hread
      split at hstep
      · obtain ⟨txPrev, _, rfl⟩ := map_eq_some_iff.mp hstep
        rwa [getElem?_insert_ne _ _ hhash] at hprev
      · obtain ⟨txPrev, _, rfl⟩ := map_eq_some_iff.mp hstep
        rwa [getElem?_insert_ne _ _ hhash] at hprev

/-- **The input checks of `accept`** refuse what spends a spent output. -/
theorem not_marked_of_checkInputs (h : pool.checkInputs c s env policy tx) {o : COutPoint H}
    (ho : o ∈ tx.vin.map CTxIn.prevout) : ¬ Ledger.Marked s.txdb.view.txindex o := by
  unfold checkInputs at h
  rw [Option.any_eq_true] at h
  obtain ⟨inputs, hfetch, h⟩ := h
  cases hbest : s.pindexBest with
  | nil => simp [hbest] at h
  | cons pindexBest pprev =>
    simp only [hbest, Bool.and_eq_true] at h
    obtain ⟨queued, hconnect⟩ := isSome_iff_exists.mp h.2
    -- the database with the entries of previous transactions of the pool
    have hfetched : CTransaction.Fetched
        (overlay s.txdb.view.txindex (inputs.map fun _ prev => prev.1)) ∅ inputs := by
      intro hash prev hprev
      rw [overlay_empty, getElem?_overlay, ExtTreeMap.getElem?_map, hprev]
      rfl
    obtain ⟨_, _, _, hspends⟩ := CTransaction.connectInputs_spec hfetched hconnect
    rw [overlay_empty] at hspends
    intro hmarked
    refine Ledger.not_marked_of_foldlM_spend hspends ho ?_
    obtain ⟨txindex, pos, hlook, hspent⟩ := hmarked
    refine ⟨txindex, pos, ?_, hspent⟩
    rw [getElem?_overlay, ExtTreeMap.getElem?_map]
    cases hprev : inputs[o.hash]? with
    | none => exact hlook
    | some prev =>
      rw [map_some, some_or, fetchInputs_known hfetch o.hash prev hprev txindex hlook]

end CTxMemPool

namespace Node

variable {H : Type} [Ord H] [TransOrd H] [DecidableEq H]

/-- No transaction of the pool spends what a transaction of the best chain has
spent. -/
def NoConflict (c : Consensus H) (s : Node H) (pool : CTxMemPool H) : Prop :=
  ∀ tx ∈ Ledger.txsOf s.blockFiles s.pindexBest, ∀ o ∈ Ledger.spends c.toSha256 tx, ¬ pool.Spends o

/-- The transaction spends the same output as one of these and is none of
them. -/
def Disputes (sha : Sha256 H) (vtx : List (CTransaction H)) (tx : CTransaction H) : Prop :=
  (∃ other ∈ vtx, ∃ o ∈ Ledger.spends sha other, o ∈ tx.vin.map CTxIn.prevout) ∧
    ¬ CTxMemPool.HasHash sha vtx (tx.getHash sha)

/-- The transactions that are in the pool, or that the switch to another branch
puts back into it. -/
def Pooled (c : Consensus H) (s : Node H) (pool : CTxMemPool H) (pindexNew : CBlockIndex H)
    (pprev : PIndex H) (tx : CTransaction H) : Prop :=
  (∃ hash : H, pool.mapTx[hash]? = some tx) ∨
    ∃ pfork, findFork ((s.postponedFor pindexNew pprev).2.1 :: (s.postponedFor pindexNew pprev).2.2)
        s.pindexBest = some pfork ∧ tx ∈ s.vResurrect c (downTo pfork s.pindexBest)

/-- No transaction of the pool disputes a block that `SetBestChainInner`
connects, and none is a twin of a transaction that `Reorganize` connects. -/
structure Undisputed (c : Consensus H) (s : Node H) (pool : CTxMemPool H) (block : CBlock H)
    (pindexNew : CBlockIndex H) (pprev : PIndex H) : Prop where
  extension : block.hashPrevBlock = s.hashBestChain →
    ∀ (hash : H) (tx : CTransaction H), pool.mapTx[hash]? = some tx →
      ¬ Disputes c.toSha256 block.vtx tx
  postponed : block.hashPrevBlock ≠ s.hashBestChain → ∀ tx, Pooled c s pool pindexNew pprev tx →
      ¬ Disputes c.toSha256 (s.vDelete (s.postponedFor pindexNew pprev).1.reverse) tx
  twins : block.hashPrevBlock ≠ s.hashBestChain →
    ∀ tx, Pooled c s pool pindexNew pprev tx → ∀ pfork,
      findFork ((s.postponedFor pindexNew pprev).2.1 :: (s.postponedFor pindexNew pprev).2.2)
        s.pindexBest = some pfork →
      ∀ other ∈ s.vDelete (downTo pfork ((s.postponedFor pindexNew pprev).2.1 ::
          (s.postponedFor pindexNew pprev).2.2)).reverse,
        tx.sameAs other → tx.getHash c.toSha256 = other.getHash c.toSha256

/-- The pool that `SetBestChain` cleans: with the transactions of disconnected
blocks, if it reorganizes. -/
def resurrectedPool (c : Consensus H) (s : Node H) (env : Env H) (policy : RelayPolicy H)
    (block : CBlock H) (pindexNew : CBlockIndex H) (pprev : PIndex H) (pool : CTxMemPool H) :
    CTxMemPool H :=
  if block.hashPrevBlock = s.hashBestChain then pool
  else
    let intermediate := (s.postponedFor pindexNew pprev).2
    resurrectPool c s (s.txnBegin.reorganize c env intermediate.1 intermediate.2).2 env policy
      intermediate.1 intermediate.2 pool

/-- One transaction of the pool spends an output of another one. -/
def Child (pool : CTxMemPool H) (hash hash' : H) : Prop :=
  ∃ (tx tx' : CTransaction H) (n : UInt32), pool.mapTx[hash]? = some tx ∧
    n.toNat < tx.vout.length ∧ pool.mapTx[hash']? = some tx' ∧
      ⟨hash, n⟩ ∈ tx'.vin.map CTxIn.prevout

/-- The transactions in the block files are among these. -/
def FilesIn (files : Nat → Nat → Option (CBlock H)) (txs : Set (CTransaction H)) : Prop :=
  ∀ nFile nBlockPos block, files nFile nBlockPos = some block → ∀ tx ∈ block.vtx, tx ∈ txs

variable {c : Consensus H} {s t : Node H} {env : Env H} {policy : RelayPolicy H} {depth : Nat}
  {block : CBlock H} {pindex : CBlockIndex H} {pprev path : PIndex H} {txs : Set (CTransaction H)}
  {pool pool' : CTxMemPool H} {rank : H → Nat} {files : Nat → Nat → Option (CBlock H)}

section

omit [Ord H] [TransOrd H] [DecidableEq H]

theorem FilesIn.vtxOf (h : FilesIn files txs) {tx : CTransaction H}
    (htx : tx ∈ Ledger.vtxOf files pindex) : tx ∈ txs := by
  unfold Ledger.vtxOf at htx
  cases hfile : files pindex.nFile pindex.nBlockPos with
  | none => simp [hfile] at htx
  | some block =>
    rw [hfile] at htx
    exact h _ _ _ hfile tx htx

theorem FilesIn.txsOf (h : FilesIn files txs) {tx : CTransaction H}
    (htx : tx ∈ Ledger.txsOf files path) : tx ∈ txs := by
  induction path using Ledger.txsOf.induct with
  | case1 => cases htx
  | case2 pindex => cases htx
  | case3 pindex prev rest ih =>
    rw [Ledger.txsOf] at htx
    rcases mem_append.mp htx with hbelow | hlast
    · exact ih hbelow
    · exact h.vtxOf hlast

end

variable {entries : List (CBlockIndex H × PIndex H)}

omit [TransOrd H] [DecidableEq H] in
theorem FilesIn.vDelete (h : FilesIn s.blockFiles txs) : ∀ tx ∈ s.vDelete entries, tx ∈ txs := by
  intro tx htx
  obtain ⟨entry, _, htx⟩ := mem_flatMap.mp htx
  exact h.vtxOf htx

variable [LawfulEqOrd H]

section

variable {index : TxIndexMap H} {hash hash' : H} (hinj : Function.Injective c.sha256)
  (hcoll : Set.InjOn (CTransaction.getHash c.toSha256) txs) (hchained : Ledger.Chained c files path index)
  (hfiles : FilesIn files txs) (hinv : CTxMemPool.Inv c.toSha256 txs pool)
  (hordinary : CTxMemPool.Ordinary c.toSha256 pool) (hcleaned : CTxMemPool.Cleaned c.toSha256 txs
    (CTxMemPool.HasHash c.toSha256 (Ledger.txsOf files path)) pool pool')

include hinj hcoll hchained hfiles hinv hordinary hcleaned

theorem child_gone (hchild : Child pool hash hash') (hout : hash ∉ pool'.mapTx)
    (hoff : ¬ CTxMemPool.HasHash c.toSha256 (Ledger.txsOf files path) hash) : hash' ∉ pool'.mapTx ∧
      ¬ CTxMemPool.HasHash c.toSha256 (Ledger.txsOf files path) hash' := by
  obtain ⟨tx, tx', n, htx, hn, htx', hin⟩ := hchild
  constructor
  · intro hmem
    obtain ⟨tx'', htx''⟩ := (mem_iff_exists _ _).mp hmem
    have hsame := hcleaned.kept hash' tx'' htx''
    rw [htx'] at hsame
    cases hsame
    exact hcleaned.clean hash tx htx hout hoff n hn ⟨hash', tx', htx'', hin⟩
  · rintro ⟨other, hother, hhash⟩
    obtain ⟨hfiled, hknown⟩ := hinv.filed hash' tx' htx'
    cases hcoll (hfiles.txsOf hother) hknown (hhash.trans hfiled.symm)
    have hspends : (⟨hash, n⟩ : COutPoint H) ∈ Ledger.spends c.toSha256 tx' := by
      unfold Ledger.spends
      rw [hordinary hash' tx' htx', if_neg Bool.false_ne_true]
      exact hin
    obtain ⟨prev, hprev, heq⟩ := hchained.spends_entered hinj hother hspends
    exact hoff ⟨prev, hprev, heq⟩

theorem descendants_gone (hout : hash ∉ pool'.mapTx)
    (hoff : ¬ CTxMemPool.HasHash c.toSha256 (Ledger.txsOf files path) hash)
    (hdescends : Relation.TransGen (Child pool) hash hash') : hash' ∉ pool'.mapTx ∧
      ¬ CTxMemPool.HasHash c.toSha256 (Ledger.txsOf files path) hash' := by
  induction hdescends with
  | single hchild => exact child_gone hinj hcoll hchained hfiles hinv hordinary hcleaned hchild hout hoff
  | tail _ hchild ih =>
    exact child_gone hinj hcoll hchained hfiles hinv hordinary hcleaned hchild ih.1 ih.2

end

/-- What a call of `SetBestChain` leaves of the pool. -/
structure Follows (c : Consensus H) (txs : Set (CTransaction H)) (t : Node H)
    (resurrected pool' : CTxMemPool H) : Prop where
  files : FilesIn t.blockFiles txs
  noConflict : NoConflict c t pool'
  inv : CTxMemPool.Inv c.toSha256 txs resurrected
  ordinary : CTxMemPool.Ordinary c.toSha256 resurrected
  cleaned : CTxMemPool.Cleaned c.toSha256 txs
    (CTxMemPool.HasHash c.toSha256 (Ledger.txsOf t.blockFiles t.pindexBest)) resurrected pool'

theorem follows_removeAll (hcoll : Set.InjOn (CTransaction.getHash c.toSha256) txs)
    {resurrected : CTxMemPool H} {below vtx : List (CTransaction H)} (hfiles : FilesIn t.blockFiles txs)
    (hchain : Ledger.txsOf t.blockFiles t.pindexBest = below ++ vtx) (hvtx : ∀ tx ∈ vtx, tx ∈ txs)
    (hinv : CTxMemPool.Inv c.toSha256 txs resurrected)
    (hordinary : CTxMemPool.Ordinary c.toSha256 resurrected)
    (hcleaned : CTxMemPool.Cleaned c.toSha256 txs (CTxMemPool.HasHash c.toSha256 below) resurrected pool)
    (hbelow : ∀ tx ∈ below, ∀ o ∈ Ledger.spends c.toSha256 tx, ¬ pool.Spends o)
    (hundisputed : ∀ (hash : H) (tx : CTransaction H), pool.mapTx[hash]? = some tx →
      ¬ Disputes c.toSha256 vtx tx) (hpool : pool.removeAll c.toSha256 depth vtx = some pool') :
    Follows c txs t resurrected pool' := by
  obtain ⟨hcleaned', hgone⟩ := hcleaned.inv.removeAll_some hcoll hvtx hpool
  refine ⟨hfiles, ?_, hinv, hordinary, ?_⟩
  · intro tx htx o ho
    rw [hchain] at htx
    rcases mem_append.mp htx with hlower | hlast
    · exact hcleaned'.not_spends (hbelow tx hlower o ho)
    · rintro ⟨hash, other, hother, hin⟩
      have hbefore := hcleaned'.kept hash other hother
      have hfiled := (hcleaned.inv.filed hash other hbefore).1
      apply hundisputed hash other hbefore
      refine ⟨⟨tx, hlast, o, ho, hin⟩, ?_⟩
      intro hhas
      rw [hfiled] at hhas
      exact hgone hash hhas ((mem_iff_exists _ _).mpr ⟨other, hother⟩)
  · rw [hchain]
    refine (hcleaned.weaken ?_).trans (hcleaned'.weaken ?_)
    · rintro hash ⟨tx, htx, heq⟩
      exact ⟨tx, mem_append_left _ htx, heq⟩
    · rintro hash ⟨tx, htx, heq⟩
      exact ⟨tx, mem_append_right _ htx, heq⟩

omit [TransOrd H] [LawfulEqOrd H] in
theorem mem_vResurrect {tx : CTransaction H}
    (htx : tx ∈ s.vResurrect c entries) : tx.isCoinBase c.toSha256 = false ∧
      ∃ entry ∈ entries, tx ∈ Ledger.vtxOf s.blockFiles entry.1 := by
  obtain ⟨entry, hentry, htx⟩ := mem_flatMap.mp htx
  obtain ⟨hmem, hordinary⟩ := mem_filter.mp htx
  simp only [Bool.not_eq_true', Bool.or_eq_false_iff] at hordinary
  exact ⟨hordinary.1, entry, hentry, hmem⟩

/-- **Reorganizing.**  Afterwards nothing in the pool spends what the new chain
up to the intermediate entry spends. -/
theorem reorganizePool_some (hinj : Function.Injective c.sha256)
    (hcoll : Set.InjOn (CTransaction.getHash c.toSha256) txs) (hrank : ∀ (tx : CTransaction H),
    ∀ txin ∈ tx.vin, rank txin.prevout.hash < rank (tx.getHash c.toSha256))
    {u : Node H} {pfork : PIndex H} (htip : At c s s.pindexBest) (hfiles : FilesIn s.blockFiles txs)
    (hinv : CTxMemPool.Inv c.toSha256 txs pool) (hordinary : CTxMemPool.Ordinary c.toSha256 pool)
    (hno : NoConflict c s pool) (hfork : findFork (pindex :: pprev) s.pindexBest = some pfork)
    (htwins : ∀ tx, ((∃ hash : H, pool.mapTx[hash]? = some tx) ∨
        tx ∈ s.vResurrect c (downTo pfork s.pindexBest)) →
      ∀ other ∈ s.vDelete (downTo pfork (pindex :: pprev)).reverse,
        tx.sameAs other → tx.getHash c.toSha256 = other.getHash c.toSha256)
    (hpool : reorganizePool c s u env policy depth pindex pprev pool = some pool') :
    let resurrected := resurrectPool c s u env policy pindex pprev pool
    CTxMemPool.Inv c.toSha256 txs resurrected ∧ CTxMemPool.Ordinary c.toSha256 resurrected ∧
      (∀ (hash : H) (tx : CTransaction H), resurrected.mapTx[hash]? = some tx →
        (pool.mapTx[hash]? = some tx ∨ tx ∈ s.vResurrect c (downTo pfork s.pindexBest))) ∧
      CTxMemPool.Cleaned c.toSha256 txs (CTxMemPool.HasHash c.toSha256
        (Ledger.txsOf s.blockFiles (pindex :: pprev))) resurrected pool' ∧
      ∀ tx ∈ Ledger.txsOf s.blockFiles (pindex :: pprev), ∀ o ∈ Ledger.spends c.toSha256 tx,
        ¬ pool'.Spends o := by
  obtain ⟨hold, hnew⟩ := findFork_suffix hfork
  have hne := findFork_ne_nil hfork
  have hresurrect : ∀ tx ∈ s.vResurrect c (downTo pfork s.pindexBest), tx ∈ txs := by
    intro tx htx
    obtain ⟨_, entry, _, hmem⟩ := mem_vResurrect htx
    exact hfiles.vtxOf hmem
  unfold reorganizePool at hpool
  unfold resurrectPool at hpool ⊢
  simp only [hfork] at hpool ⊢
  obtain ⟨hinv', hordinary', _, hentries⟩ := hinv.resurrectAll (s := u) hordinary hresurrect
  obtain ⟨hcleaned, htwin⟩ := hinv'.deleteAll_some hcoll hrank hfiles.vDelete hpool
  refine ⟨hinv', hordinary', hentries, ?_, ?_⟩
  · rw [Ledger.txsOf_downTo s.blockFiles hne hnew]
    refine hcleaned.weaken ?_
    rintro hash ⟨tx, htx, heq⟩
    exact ⟨tx, mem_append_right _ htx, heq⟩
  · rintro tx htx o ho ⟨hash, other, hother, hin⟩
    have hbefore := hcleaned.kept hash other hother
    have hfiled := (hinv'.filed hash other hbefore).1
    rw [Ledger.txsOf_downTo s.blockFiles hne hnew] at htx
    rcases mem_append.mp htx with hbelow | habove
    · rcases hentries hash other hbefore with hpooled | hback
      · -- it was in the pool, and the chain below the fork was there already
        refine hno tx ?_ o ho ⟨hash, other, hpooled, hin⟩
        rw [Ledger.txsOf_downTo s.blockFiles hne hold]
        exact mem_append_left _ hbelow
      · -- it was on the old chain, above the fork
        obtain ⟨hcoinbase, entry, hentry, hmem⟩ := mem_vResurrect hback
        have hspends : o ∈ Ledger.spends c.toSha256 other := by
          unfold Ledger.spends
          rw [hcoinbase, if_neg Bool.false_ne_true]
          exact hin
        exact htip.chained.not_spent_below hinj hne hold hentry hmem hspends hbelow ho
    · have hvin : o ∈ tx.vin.map CTxIn.prevout := by
        unfold Ledger.spends at ho
        split at ho
        · cases ho
        · exact ho
      obtain ⟨hsame, hhash⟩ := htwin tx habove o hvin hash other hother hin
      apply hhash
      rw [← hfiled]
      refine htwins other ?_ tx habove hsame
      rcases hentries hash other hbefore with hpooled | hback
      · exact Or.inl ⟨hash, hpooled⟩
      · exact Or.inr hback

section

variable (hcoll : Set.InjOn (CTransaction.getHash c.toSha256) txs)

include hcoll

theorem TipInv.follows_extension (h : TipInv c s) (hfiles : FilesIn s.blockFiles txs)
    (hinv : CTxMemPool.Inv c.toSha256 txs pool) (hordinary : CTxMemPool.Ordinary c.toSha256 pool)
    (hno : NoConflict c s pool) (hlook : s.mapBlockIndex[pindex.hash]? = some (pindex :: pprev))
    (hfile : s.blockFiles pindex.nFile pindex.nBlockPos = some block)
    (hroot : pprev = [] → block.hashPrevBlock ≠ s.hashBestChain)
    (hextends : block.hashPrevBlock = s.hashBestChain) {hash : H}
    (hinner : s.txnBegin.setBestChainInner c env block pindex pprev = (true, t))
    (hundisputed : ∀ (hash : H) (tx : CTransaction H), pool.mapTx[hash]? = some tx →
      ¬ Disputes c.toSha256 block.vtx tx) (hpool : pool.removeAll c.toSha256 depth block.vtx =
    some pool') : Follows c txs (t.setTip hash pindex pprev) pool pool' := by
  have hindexed := (h.index.path _ _ hlook).1
  have hstored := h.index.stored_suffix hindexed suffix_rfl hfile
  have hprev := h.pprev_eq hlook hfile hroot hextends
  cases hpprev : pprev with
  | nil => exact absurd (hprev.symm.trans hpprev) h.tip.chained.ne_nil
  | cons prev rest =>
    rw [hpprev] at hindexed hstored hinner hprev
    have hat := h.tip
    rw [← hprev] at hat
    obtain ⟨_, hsame⟩ := hat.setBestChainInner hindexed hstored hinner
    have hchain : Ledger.txsOf (t.setTip hash pindex (prev :: rest)).blockFiles
        (t.setTip hash pindex (prev :: rest)).pindexBest =
        Ledger.txsOf s.blockFiles s.pindexBest ++ block.vtx := by
      show Ledger.txsOf t.blockFiles (pindex :: prev :: rest) = _
      rw [hsame.blockFiles, Ledger.txsOf, Ledger.vtxOf, hfile, hprev]
      rfl
    have hblocks : (t.setTip hash pindex (prev :: rest)).blockFiles = s.blockFiles := hsame.blockFiles
    exact follows_removeAll hcoll (hblocks ▸ hfiles) hchain
      (fun tx htx => hfiles _ _ _ hfile tx htx) hinv hordinary
      (CTxMemPool.Cleaned.refl hinv _) hno hundisputed hpool

variable (hinj : Function.Injective c.sha256) (hrank : ∀ (tx : CTransaction H), ∀ txin ∈ tx.vin,
    rank txin.prevout.hash < rank (tx.getHash c.toSha256))

include hinj hrank

theorem TipInv.follows_switch (h : TipInv c s) (hfiles : FilesIn s.blockFiles txs)
    (hinv : CTxMemPool.Inv c.toSha256 txs pool) (hordinary : CTxMemPool.Ordinary c.toSha256 pool)
    (hno : NoConflict c s pool) (hlook : s.mapBlockIndex[pindex.hash]? = some (pindex :: pprev))
    (hother : block.hashPrevBlock ≠ s.hashBestChain) {hash : H}
    (hswitch : s.txnBegin.switchBranch c env hash pindex pprev = (true, t))
    (hsecondaries : SecondariesConnect c s env block pindex pprev)
    (hundisputed : Undisputed c s pool block pindex pprev)
    (hpool : s.txnBegin.switchPool c env policy depth pindex pprev pool = some pool') :
    Follows c txs t (resurrectedPool c s env policy block pindex pprev pool) pool' := by
  have hindexed := (h.index.path _ _ hlook).1
  obtain ⟨u, hreorganize, rfl⟩ := switchBranch_true rfl hswitch
  obtain ⟨hsuffix, hpostponed⟩ :=
    postpone_eq ((s.pindexBest.head?.map CBlockIndex.nChainTrust).getD 0) pindex pprev
  obtain ⟨hat, hsame⟩ := h.tip.reorganize hinj h.index (hindexed.suffix hsuffix) hreorganize
  have hindexed' := hindexed
  rw [← hsame.mapBlockIndex] at hindexed'
  obtain ⟨_, _, _, hsame', _⟩ := hat.secondaries env (h.index.same hsame) hindexed' hsuffix
  obtain ⟨pfork, _, _, hfork, _⟩ := reorganize_true hreorganize
  have hall := hsecondaries hother u hreorganize
  unfold switchPool at hpool
  have hreorganize' : s.txnBegin.reorganize c env (s.txnBegin.postponedFor pindex pprev).2.1
      (s.txnBegin.postponedFor pindex pprev).2.2 = (true, u) := hreorganize
  simp only [hreorganize', Bool.not_true, Bool.false_eq_true, if_false] at hpool
  obtain ⟨mid, hmid, hremove⟩ := bind_eq_some_iff.mp hpool
  have hpassed : EarlyExit.passed (connectSecondary c env) u
      (s.txnBegin.postponedFor pindex pprev).1.reverse =
      (s.txnBegin.postponedFor pindex pprev).1.reverse := EarlyExit.passed_of_loop_true hall
  rw [hpassed] at hremove
  obtain ⟨hinv', hordinary', hentries, hcleaned, hbelow⟩ := reorganizePool_some hinj hcoll hrank
    h.tip hfiles hinv hordinary hno hfork (fun tx htx => hundisputed.twins hother tx
      (htx.imp_right fun hback => ⟨pfork, hfork, hback⟩) pfork hfork) hmid
  have hresurrected : resurrectedPool c s env policy block pindex pprev pool =
      resurrectPool c s u env policy (s.postponedFor pindex pprev).2.1
        (s.postponedFor pindex pprev).2.2 pool := by
    unfold resurrectedPool
    rw [if_neg hother]
    simp only
    rw [show s.txnBegin.reorganize c env (s.postponedFor pindex pprev).2.1
      (s.postponedFor pindex pprev).2.2 = (true, u) from hreorganize]
  rw [hresurrected]
  have hsplit := Ledger.txsOf_downTo s.blockFiles (cons_ne_nil _ _) hsuffix
  rw [← hpostponed] at hsame' hsplit
  have hblocks := hsame'.blockFiles.trans hsame.blockFiles
  refine follows_removeAll hcoll ?_ ?_ hfiles.vDelete hinv' hordinary' hcleaned hbelow ?_ hremove
  · have hfiles' := hfiles
    rw [← hblocks] at hfiles'
    exact hfiles'
  · exact (congrArg (fun files => Ledger.txsOf files (pindex :: pprev)) hblocks).trans hsplit
  · intro hash other hother'
    apply hundisputed.postponed hother
    rcases hentries hash other (hcleaned.kept hash other hother') with hpooled | hback
    · exact Or.inl ⟨hash, hpooled⟩
    · exact Or.inr ⟨pfork, hfork, hback⟩

omit hinj in
/-- What `SetBestChain` does to the pool comes to an end. -/
theorem setBestChainPool_total (hfiles : FilesIn s.blockFiles txs)
    (hfile : s.blockFiles pindex.nFile pindex.nBlockPos = some block)
    (hinv : CTxMemPool.Inv c.toSha256 txs pool) (hordinary : CTxMemPool.Ordinary c.toSha256 pool) :
    ∃ depth₀ pool', ∀ depth ≥ depth₀,
      s.setBestChainPool c env policy depth block pindex pprev pool = some pool' := by
  unfold setBestChainPool
  split
  · exact ⟨0, pool, fun _ _ => rfl⟩
  · split
    · split
      · obtain ⟨depth₀, pool', htotal, _⟩ :=
          hinv.removeAll_total hcoll fun tx htx => hfiles _ _ _ hfile tx htx
        exact ⟨depth₀, pool', htotal⟩
      · exact ⟨0, pool, fun _ _ => rfl⟩
    · unfold switchPool
      simp only
      split
      · exact ⟨0, pool, fun _ _ => rfl⟩
      · generalize (s.txnBegin.reorganize c env _ _).2 = u
        have hreorganize : ∃ depth₀ pool', (∀ depth ≥ depth₀, reorganizePool c s.txnBegin u env policy depth
            (s.txnBegin.postponedFor pindex pprev).2.1 (s.txnBegin.postponedFor pindex pprev).2.2
            pool = some pool') ∧ CTxMemPool.Inv c.toSha256 txs pool' := by
          unfold reorganizePool resurrectPool
          split
          · exact ⟨0, pool, fun _ _ => rfl, hinv⟩
          · rename_i pfork _
            have hresurrect : ∀ tx ∈ s.vResurrect c (downTo pfork s.pindexBest), tx ∈ txs := by
              intro tx htx
              obtain ⟨_, entry, _, hmem⟩ := mem_vResurrect htx
              exact hfiles.vtxOf hmem
            exact (hinv.resurrectAll (s := u) hordinary hresurrect).1.deleteAll_total hcoll hrank
              hfiles.vDelete
        obtain ⟨depth₁, mid, hmid, hinv'⟩ := hreorganize
        have hpassed : ∀ tx ∈ s.vDelete (EarlyExit.passed (connectSecondary c env) u
            (s.txnBegin.postponedFor pindex pprev).1.reverse), tx ∈ txs := hfiles.vDelete
        obtain ⟨depth₂, pool', hremove, _⟩ := hinv'.removeAll_total hcoll hpassed
        refine ⟨max depth₁ depth₂, pool', ?_⟩
        intro depth hdepth
        rw [hmid depth (Nat.le_trans (Nat.le_max_left _ _) hdepth), bind_some]
        exact hremove depth (Nat.le_trans (Nat.le_max_right _ _) hdepth)

end

end Node

end MaryJaneCoin
