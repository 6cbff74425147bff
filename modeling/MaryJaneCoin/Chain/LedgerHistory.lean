import MaryJaneCoin.Chain.TipCoherence

/-!
# The unspent outputs of the best chain

The transaction index keeps an entry for each transaction of the best chain, with a mark for
each output that was spent.  Here it is read as a set: what the transactions of the chain made
less what they spent.  A transaction spends what one before it made, and nothing is
spent twice. -/

namespace MaryJaneCoin

open Std List

namespace Ledger

variable {H : Type}

section

variable [DecidableEq H] (sha : Sha256 H)

/-- The outputs that transactions make. -/
def makes (txs : List (CTransaction H)) : Set (COutPoint H) :=
  {o | ∃ tx ∈ txs, tx.getHash sha = o.hash ∧ o.n.toNat < tx.vout.length}

/-- A history of payments: no output is spent twice, and one that is spent was made before. -/
structure History (txs : List (CTransaction H)) : Prop where
  once : (txs.flatMap (spends sha)).Nodup
  made : ∀ before tx behind, txs = before ++ tx :: behind → ∀ o ∈ spends sha tx, o ∈ makes sha before

variable {sha} {txs : List (CTransaction H)}

theorem History.makes_of_spends (h : History sha txs) {o : COutPoint H}
    (ho : o ∈ txs.flatMap (spends sha)) : o ∈ makes sha txs := by
  obtain ⟨tx, htx, hspends⟩ := mem_flatMap.mp ho
  obtain ⟨before, behind, rfl⟩ := append_of_mem htx
  obtain ⟨prev, hprev, hmade⟩ := h.made before tx behind rfl o hspends
  exact ⟨prev, mem_append_left _ hprev, hmade⟩

/-- A transaction that spends what is there, each output once, continues the history. -/
theorem History.snoc (h : History sha txs) {tx : CTransaction H} (hnodup : (spends sha tx).Nodup)
    (hthere : ∀ o ∈ spends sha tx, o ∈ makes sha txs ∧ o ∉ txs.flatMap (spends sha)) :
    History sha (txs ++ [tx]) where
  once := by
    rw [flatMap_append, flatMap_singleton]
    exact h.once.append hnodup fun o ho ho' => (hthere o ho').2 ho
  made before tx' behind hsplit o ho := by
    rcases eq_nil_or_concat' behind with rfl | ⟨front, last, rfl⟩
    · obtain ⟨rfl, heq⟩ := append_inj' hsplit rfl
      cases heq
      exact (hthere o ho).1
    · rw [← cons_append, ← append_assoc] at hsplit
      exact h.made before tx' front (append_inj' hsplit rfl).1 o ho

end

variable [Ord H] [TransOrd H]

/-- The output is entered and not marked. -/
def Unspent (index : TxIndexMap H) (o : COutPoint H) : Prop :=
  ∃ txindex, index[o.hash]? = some txindex ∧ txindex.vSpent[o.n.toNat]? = some none

/-- The index holds the unspent outputs of a history. -/
structure Booked [DecidableEq H] (sha : Sha256 H) (index : TxIndexMap H)
    (txs : List (CTransaction H)) : Prop extends History sha txs where
  entered : ∀ tx ∈ txs, tx.getHash sha ∈ index
  unspent : ∀ o, Unspent index o ↔ o ∈ makes sha txs ∧ o ∉ txs.flatMap (spends sha)

variable [LawfulEqOrd H] {index index' : TxIndexMap H} {pos : CDiskTxPos}

theorem unspent_spend {p : COutPoint H} (h : spend pos index p = some index') :
    Unspent index p ∧ ∀ o, Unspent index' o ↔ Unspent index o ∧ o ≠ p := by
  obtain ⟨e, hlook, hnull, rfl⟩ := spend_eq_some.mp h
  refine ⟨⟨e, hlook, hnull⟩, fun o => ?_⟩
  unfold Unspent
  by_cases hhash : p.hash = o.hash
  · rw [← hhash, ExtTreeMap.getElem?_insert_self, hlook]
    by_cases hn : p.n = o.n
    · have heq : o = p := by
        cases o
        cases p
        simp_all
      subst heq
      have hlt := (List.getElem?_eq_some_iff.mp hnull).1
      simp [mark, getElem?_set_self hlt]
    · have hne : p.n.toNat ≠ o.n.toNat := fun heq => hn (UInt32.toNat_inj.mp heq)
      have hother : o ≠ p := fun heq => hn (congrArg COutPoint.n heq.symm)
      simp [mark, getElem?_set_ne hne, hother]
  · have hother : o ≠ p := fun heq => hhash (congrArg COutPoint.hash heq.symm)
    rw [FinMap.getElem?_insert_ne _ _ hhash]
    simp [hother]

/-- **A row of marks** takes what it marks, each output once. -/
theorem unspent_spends {ps : List (COutPoint H)} (h : ps.foldlM (spend pos) index = some index') :
    ps.Nodup ∧ (∀ p ∈ ps, Unspent index p) ∧ ∀ o, Unspent index' o ↔ Unspent index o ∧ o ∉ ps := by
  induction ps generalizing index with
  | nil =>
    cases h
    exact ⟨nodup_nil, fun _ hp => absurd hp not_mem_nil, fun o => by simp⟩
  | cons p ps ih =>
    obtain ⟨mid, hmid, hrest⟩ := OptionLoop.foldlM_cons h
    obtain ⟨hfree, hstep⟩ := unspent_spend hmid
    obtain ⟨hnodup, hall, hleft⟩ := ih hrest
    refine ⟨nodup_cons.mpr ⟨fun hmem => ((hstep p).mp (hall p hmem)).2 rfl, hnodup⟩, ?_, ?_⟩
    · intro q hq
      rcases List.mem_cons.mp hq with rfl | hq
      · exact hfree
      · exact ((hstep q).mp (hall q hq)).1
    · intro o
      rw [hleft, hstep, List.mem_cons, not_or, and_assoc]

variable [DecidableEq H] {sha : Sha256 H} {txs : List (CTransaction H)}

/-- **One transaction.** -/
theorem Booked.connectTx {tx : CTransaction H} (h : Booked sha index txs) (hnew : tx.getHash sha ∉ index)
    (hconnect : connectTx sha pos index tx = some index') : Booked sha index' (txs ++ [tx]) := by
  obtain ⟨spent, hspent, rfl⟩ := Option.map_eq_some_iff.mp hconnect
  obtain ⟨hnodup, hfree, hleft⟩ := unspent_spends hspent
  obtain ⟨_, _, hkeys⟩ := foldlM_spend_marked hspent
  refine ⟨h.toHistory.snoc hnodup fun o ho => (h.unspent o).mp (hfree o ho), ?_, fun o => ?_⟩
  · intro tx' htx'
    rw [ExtTreeMap.mem_insert]
    rcases mem_append.mp htx' with hold | htx'
    · exact .inr ((hkeys _).mpr (h.entered tx' hold))
    · rw [mem_singleton.mp htx']
      exact .inl ReflCmp.compare_self
  · rw [flatMap_append, flatMap_singleton, mem_append, not_or]
    have hmakes : o ∈ makes sha (txs ++ [tx]) ↔
        o ∈ makes sha txs ∨ tx.getHash sha = o.hash ∧ o.n.toNat < tx.vout.length := by
      simp [makes, or_and_right, exists_or]
    have hold : o ∈ makes sha txs → o.hash ∈ index := fun ⟨prev, hprev, hhash, _⟩ =>
      hhash ▸ h.entered prev hprev
    by_cases hhash : tx.getHash sha = o.hash
    · have hmade : o ∉ makes sha txs := fun hmem => hnew (hhash ▸ hold hmem)
      have hpast : o ∉ txs.flatMap (spends sha) := fun hmem => hmade (h.makes_of_spends hmem)
      have hown : o ∉ spends sha tx := fun hmem => hmade ((h.unspent o).mp (hfree o hmem)).1
      rw [hmakes, Unspent, ← hhash, ExtTreeMap.getElem?_insert_self]
      simp [CTxIndex.new, getElem?_replicate, hmade, hpast, hown]
    · have hsame : Unspent (spent.insert (tx.getHash sha) (CTxIndex.new pos tx.vout.length)) o ↔
          Unspent spent o := by
        rw [Unspent, FinMap.getElem?_insert_ne _ _ hhash, Unspent]
      rw [hsame, hleft, h.unspent, hmakes]
      simp [hhash, and_assoc]

theorem Booked.connectTxs {nFile nBlockPos nTxPos : Nat} {row : List (CTransaction H)}
    (h : Booked sha index txs) (hfresh : FreshTxs sha nFile nBlockPos nTxPos row index)
    (hconnect : connectTxs sha nFile nBlockPos nTxPos row index = some index') :
    Booked sha index' (txs ++ row) := by
  induction row generalizing index nTxPos txs with
  | nil =>
    cases hconnect
    rwa [append_nil]
  | cons tx row ih =>
    obtain ⟨mid, hmid, hrest⟩ := Option.bind_eq_some_iff.mp hconnect
    have hlast := ih (h.connectTx hfresh.1 hmid) (hfresh.2 mid hmid) hrest
    rwa [append_assoc, singleton_append] at hlast

/-- **A path**: the index after its blocks holds what they left unspent. -/
theorem Chained.booked {c : Consensus H} {files : Nat → Nat → Option (CBlock H)} {path : PIndex H}
    (hinj : Function.Injective c.sha256) (h : Chained c files path index) :
    Booked c.toSha256 index (txsOf files path) := by
  induction h with
  | genesis pindex =>
    refine ⟨⟨nodup_nil, ?_⟩, fun tx htx => absurd htx not_mem_nil, ?_⟩
    · intro before tx behind hsplit
      simp [txsOf] at hsplit
    · simp [Unspent, makes, txsOf]
  | connect hprev hfile hshape htagged hheight hconnect ih =>
    obtain ⟨_, _, hpath, hconnected⟩ := hprev.connected hinj
    cases hpath
    obtain ⟨hfresh, _⟩ := hconnected.block hinj hshape htagged (by omega) hconnect
    rw [txsOf, vtxOf, hfile]
    exact ih.connectTxs hfresh hconnect

end Ledger

namespace Node

variable {H : Type} [Ord H] [TransOrd H] [LawfulEqOrd H] [DecidableEq H] {c : Consensus H}
  {s : Node H} {first : CBlock H}

/-- **No output is spent twice.**  In every reachable state the transactions of the best chain
are a history of payments, and the unspent outputs of the database are what they made less what
they spent. -/
theorem best_chain_history (hinj : Function.Injective c.sha256) (h : Reachable c first s) :
    let txs := Ledger.txsOf s.blockFiles s.pindexBest
    Ledger.History c.toSha256 txs ∧ ∀ o, Ledger.Unspent s.txdb.pdb.txindex o ↔
      o ∈ Ledger.makes c.toSha256 txs ∧ o ∉ txs.flatMap (Ledger.spends c.toSha256) := by
  have hbooked := (h.tipInv hinj).tip.chained.booked hinj
  exact ⟨hbooked.toHistory, hbooked.unspent⟩

/-- The funded node after the chained block. -/
def respentNode : Node (List Nat) :=
  (fundedNode.acceptBlock sampleConsensus (sampleEnv 12000) chainedBlock).2

/-- Two transactions of the chain spend an output.  What the second one makes is unspent, what the
first one makes is not. -/
theorem best_chain_history_chained :
    Ledger.History transparent (Ledger.txsOf respentNode.blockFiles respentNode.pindexBest) ∧
      Ledger.Unspent respentNode.txdb.pdb.txindex ⟨followingTx.getHash transparent, 0⟩ ∧
      ¬ Ledger.Unspent respentNode.txdb.pdb.txindex ⟨pooledTx.getHash transparent, 0⟩ := by
  have hextends : extendsTip sampleConsensus (genesis sampleConsensus sampleGenesis) fundedChain ∧
      chainedBlock.hashPrevBlock = fundedNode.hashBestChain := by decide +kernel
  have hreach : Reachable sampleConsensus sampleGenesis respentNode :=
    (Reachable.genesis.acceptAll hextends.1).acceptBlock_extends _ hextends.2
  obtain ⟨hhistory, hunspent⟩ := best_chain_history transparent_injective hreach
  have hchain : followingTx ∈ Ledger.txsOf respentNode.blockFiles respentNode.pindexBest ∧
      (⟨followingTx.getHash transparent, 0⟩ : COutPoint (List Nat)) ∉
        (Ledger.txsOf respentNode.blockFiles respentNode.pindexBest).flatMap (Ledger.spends transparent) := by
    decide +kernel
  refine ⟨hhistory, (hunspent _).mpr ⟨⟨followingTx, hchain.1, rfl, Nat.one_pos⟩, hchain.2⟩, ?_⟩
  exact fun hpooled => ((hunspent _).mp hpooled).2 (mem_flatMap.mpr ⟨followingTx, hchain.1, mem_cons_self⟩)

end Node

end MaryJaneCoin
