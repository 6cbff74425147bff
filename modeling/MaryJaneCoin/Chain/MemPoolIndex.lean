import MaryJaneCoin.Chain.BestChain
import MaryJaneCoin.Chain.MemPool
import MaryJaneCoin.Lib.OptionLoop
import MaryJaneCoin.Mw.UndoRecords

/-!
# The two maps of the memory pool agree

`mapNextTx` is the index of the inputs of the transactions in `mapTx`.  Every
operation keeps it so, and from that follows what a recursive `remove` does: it
ends, since a transaction ranks above those it spends, and leaves nothing
behind that spends an output of what it removed.
-/

namespace MaryJaneCoin

open Std List CTxIn FinMap

theorem CTransaction.rank_lt {H : Type} {sha : Sha256 H} {rank : H → Nat}
    (hrank : ∀ (data : Preimage H) (h : H), .digest h ∈ data → rank h < rank (sha.sha256 data))
    {tx : CTransaction H} {txin : CTxIn H} (hmem : txin ∈ tx.vin) :
    rank txin.prevout.hash < rank (tx.getHash sha) := by
  unfold getHash Sha256.sha256d
  refine Nat.lt_trans ?_ (hrank _ _ mem_cons_self)
  apply hrank
  have hvin : .digest txin.prevout.hash ∈ tx.vin.flatMap CTxIn.serialize :=
    mem_flatMap.mpr ⟨txin, hmem, mem_cons_self⟩
  unfold serialize
  simp only [mem_append]
  exact Or.inr (Or.inr (Or.inr (Or.inl hvin)))

namespace CTxMemPool

variable {H : Type} [Ord H] [TransOrd H] {sha : Sha256 H} {txs : Set (CTransaction H)}
  {pool pool' : CTxMemPool H} {hash : H} {tx : CTransaction H} {o : COutPoint H}

/-- A transaction of the pool spends this output. -/
def Spends (pool : CTxMemPool H) (o : COutPoint H) : Prop :=
  ∃ (hash : H) (tx : CTransaction H), pool.mapTx[hash]? = some tx ∧ o ∈ tx.vin.map prevout

/-- Transactions are filed under their hash, and `mapNextTx` holds exactly
their inputs. -/
structure Inv (sha : Sha256 H) (txs : Set (CTransaction H)) (pool : CTxMemPool H) : Prop where
  filed : ∀ (hash : H) (tx : CTransaction H), pool.mapTx[hash]? = some tx →
    tx.getHash sha = hash ∧ tx ∈ txs
  next : ∀ (o : COutPoint H) (hash : H) (i : Nat),
    pool.mapNextTx[o]? = some (⟨hash, i⟩ : CInPoint H) ↔
      ∃ tx : CTransaction H, pool.mapTx[hash]? = some tx ∧
        tx.vin[i]?.map prevout = some o

theorem inv_empty : Inv sha txs (empty : CTxMemPool H) where
  filed := by simp [empty]
  next := by simp [empty]

theorem Inv.entry (hinv : Inv sha txs pool) (htx : pool.mapTx[hash]? = some tx)
    (ho : o ∈ tx.vin.map prevout) : ∃ i, pool.mapNextTx[o]? = some (⟨hash, i⟩ : CInPoint H) := by
  obtain ⟨i, hi⟩ := mem_iff_getElem?.mp ho
  rw [getElem?_map] at hi
  exact ⟨i, (hinv.next o hash i).mpr ⟨tx, htx, hi⟩⟩

theorem Inv.unique (hinv : Inv sha txs pool) {hash' : H} {tx' : CTransaction H}
    (htx : pool.mapTx[hash]? = some tx) (ho : o ∈ tx.vin.map prevout)
    (htx' : pool.mapTx[hash']? = some tx') (ho' : o ∈ tx'.vin.map prevout) : hash = hash' := by
  obtain ⟨i, hi⟩ := hinv.entry htx ho
  obtain ⟨j, hj⟩ := hinv.entry htx' ho'
  rw [hi] at hj
  exact congrArg CInPoint.ptx (Option.some.inj hj)

/-- **`mapNextTx` finds the spender**, and its pointers lead somewhere. -/
theorem Inv.spender_cases (hinv : Inv sha txs pool) (o : COutPoint H) :
    (pool.spender o = none ∧ ¬ pool.Spends o) ∨
      ∃ (hash : H) (tx : CTransaction H), pool.spender o = some (some tx) ∧
        pool.mapTx[hash]? = some tx ∧ o ∈ tx.vin.map prevout := by
  cases hlook : pool.mapNextTx[o]? with
  | none =>
    refine Or.inl ⟨by rw [spender, hlook]; rfl, ?_⟩
    rintro ⟨hash, tx, htx, ho⟩
    obtain ⟨i, hi⟩ := hinv.entry htx ho
    rw [hlook] at hi
    cases hi
  | some inpoint =>
    obtain ⟨tx, htx, hi⟩ := (hinv.next o inpoint.ptx inpoint.n).mp hlook
    refine Or.inr ⟨inpoint.ptx, tx, by rw [spender, hlook, Option.map_some, htx], htx, ?_⟩
    obtain ⟨txin, htxin, rfl⟩ := Option.map_eq_some_iff.mp hi
    exact mem_map_of_mem (mem_of_getElem? htxin)

variable [LawfulEqOrd H]

/-- **`addUnchecked`** of a transaction that is new and has no conflict. -/
theorem Inv.addUnchecked (hinv : Inv sha txs pool) (htx : tx ∈ txs)
    (hnew : tx.getHash sha ∉ pool.mapTx) (hdistinct : (tx.vin.map prevout).Nodup)
    (hfree : ∀ txin ∈ tx.vin, txin.prevout ∉ pool.mapNextTx) :
    Inv sha txs (pool.addUnchecked (tx.getHash sha) tx) where
  filed := by
    intro hash tx' hlook
    rw [CTxMemPool.addUnchecked, ExtTreeMap.getElem?_insert] at hlook
    split at hlook
    · rename_i heq
      cases hlook
      exact ⟨LawfulEqCmp.eq_of_compare heq, htx⟩
    · exact hinv.filed hash tx' hlook
  next := by
    intro o hash i
    have hkeys : (tx.vin.zipIdx.map fun input => input.1.prevout).Nodup := by
      show (tx.vin.zipIdx.map (prevout ∘ Prod.fst)).Nodup
      rw [← map_map, zipIdx_map_fst]
      exact hdistinct
    show (addInputs (tx.getHash sha) pool.mapNextTx tx.vin)[o]? = some (⟨hash, i⟩ : CInPoint H) ↔
      ∃ tx' : CTransaction H, (pool.mapTx.insert (tx.getHash sha) tx)[hash]? = some tx' ∧
        tx'.vin[i]?.map prevout = some o
    unfold addInputs
    by_cases hhash : tx.getHash sha = hash
    · subst hhash
      rw [ExtTreeMap.getElem?_insert_self]
      constructor
      · intro hlook
        rcases FinMap.getElem?_foldl_insert (fun input : CTxIn H × Nat => input.1.prevout)
          (fun input => (⟨tx.getHash sha, input.2⟩ : CInPoint H)) tx.vin.zipIdx pool.mapNextTx o with
          ⟨_, hold⟩ | ⟨input, hmem, hkey, hwritten⟩
        · rw [hold] at hlook
          obtain ⟨old, hold, _⟩ := (hinv.next o _ i).mp hlook
          exact absurd ((mem_iff_exists _ _).mpr ⟨old, hold⟩) hnew
        · rw [hwritten] at hlook
          cases hlook
          refine ⟨tx, rfl, ?_⟩
          rw [mem_zipIdx_iff_getElem?.mp hmem, Option.map_some, hkey]
      · rintro ⟨tx', htx', hi⟩
        cases htx'
        obtain ⟨txin, htxin, rfl⟩ := Option.map_eq_some_iff.mp hi
        exact FinMap.getElem?_foldl_insert_of_mem (fun input : CTxIn H × Nat => input.1.prevout)
          (fun input => (⟨tx.getHash sha, input.2⟩ : CInPoint H)) pool.mapNextTx hkeys
          (x := (txin, i)) (mem_zipIdx_iff_getElem?.mpr htxin)
    · rw [FinMap.getElem?_insert_ne _ _ hhash, ← hinv.next]
      rcases FinMap.getElem?_foldl_insert (fun input : CTxIn H × Nat => input.1.prevout)
        (fun input => (⟨tx.getHash sha, input.2⟩ : CInPoint H)) tx.vin.zipIdx pool.mapNextTx o with
        ⟨_, hold⟩ | ⟨input, hmem, hkey, hwritten⟩
      · rw [hold]
      · -- the transaction spends it, so nobody did before
        have hin := mem_of_getElem? (mem_zipIdx_iff_getElem?.mp hmem)
        rw [hwritten]
        constructor
        · intro hlook
          cases hlook
          exact absurd rfl hhash
        · intro hlook
          exact absurd ((mem_iff_exists _ _).mpr ⟨_, hkey ▸ hlook⟩) (hfree _ hin)

/-- **The end of `remove`** for a transaction of the pool. -/
theorem Inv.eraseTx (hinv : Inv sha txs pool) (htx : pool.mapTx[hash]? = some tx) :
    Inv sha txs (pool.eraseTx hash tx) where
  filed := by
    intro hash' tx' hlook
    rw [CTxMemPool.eraseTx, ExtTreeMap.getElem?_erase] at hlook
    split at hlook
    · cases hlook
    · exact hinv.filed hash' tx' hlook
  next := by
    intro o hash' i
    obtain ⟨hin, hout⟩ := FinMap.getElem?_foldl_erase (tx.vin.map prevout) pool.mapNextTx o
    show ((tx.vin.map prevout).foldl _ pool.mapNextTx)[o]? = some (⟨hash', i⟩ : CInPoint H) ↔
      ∃ tx' : CTransaction H, (pool.mapTx.erase hash)[hash']? = some tx' ∧ tx'.vin[i]?.map prevout = some o
    have hmine : ∀ tx' : CTransaction H, pool.mapTx[hash']? = some tx' →
        tx'.vin[i]?.map prevout = some o → (hash = hash' ↔ o ∈ tx.vin.map prevout) := by
      intro tx' htx' hi
      have ho' : o ∈ tx'.vin.map prevout := by
        rw [← getElem?_map] at hi
        exact mem_of_getElem? hi
      constructor
      · intro heq
        subst heq
        rw [htx] at htx'
        cases htx'
        exact ho'
      · intro ho
        exact hinv.unique htx ho htx' ho'
    constructor
    · intro hlook
      have ho : o ∉ tx.vin.map prevout := by
        intro ho
        rw [hin ho] at hlook
        cases hlook
      rw [hout ho] at hlook
      obtain ⟨tx', htx', hi⟩ := (hinv.next o hash' i).mp hlook
      refine ⟨tx', ?_, hi⟩
      rw [FinMap.getElem?_erase_ne _ (fun heq => ho ((hmine tx' htx' hi).mp heq)), htx']
    · rintro ⟨tx', hlook, hi⟩
      rw [ExtTreeMap.getElem?_erase] at hlook
      split at hlook
      · cases hlook
      · rename_i hne
        rw [hout fun ho => hne (by simpa using (hmine tx' hlook hi).mpr ho)]
        exact (hinv.next o hash' i).mpr ⟨tx', hlook, hi⟩

/-- What cleaning the pool leaves: a part of it that spends no output of what
is gone, apart from the transactions with certain hashes. -/
structure Cleaned (sha : Sha256 H) (txs : Set (CTransaction H)) (except : H → Prop)
    (pool pool' : CTxMemPool H) : Prop where
  inv : Inv sha txs pool'
  kept : ∀ (hash : H) (tx : CTransaction H), pool'.mapTx[hash]? = some tx →
    pool.mapTx[hash]? = some tx
  clean : ∀ (hash : H) (tx : CTransaction H), pool.mapTx[hash]? = some tx → hash ∉ pool'.mapTx →
    ¬ except hash → ∀ n : UInt32, n.toNat < tx.vout.length → ¬ pool'.Spends ⟨hash, n⟩

/-- What removing with all descendants leaves.  What is gone does not rank below
`floor`. -/
structure Removes (sha : Sha256 H) (txs : Set (CTransaction H)) (rank : H → Nat) (floor : Nat)
    (pool pool' : CTxMemPool H) : Prop extends Cleaned sha txs (fun _ => False) pool pool' where
  gone : ∀ hash ∈ pool.mapTx, hash ∉ pool'.mapTx → floor ≤ rank hash

section

omit [LawfulEqOrd H]

variable {except : H → Prop}

theorem Cleaned.refl (hinv : Inv sha txs pool) (except : H → Prop) :
    Cleaned sha txs except pool pool where
  inv := hinv
  kept _ _ h := h
  clean _ tx hin hout := absurd ((mem_iff_exists _ _).mpr ⟨tx, hin⟩) hout

/-- What is not spent any more stays so. -/
theorem Cleaned.not_spends (h : Cleaned sha txs except pool pool') (ho : ¬ pool.Spends o) :
    ¬ pool'.Spends o := by
  rintro ⟨hash, tx, htx, hin⟩
  exact ho ⟨hash, tx, h.kept hash tx htx, hin⟩

theorem Cleaned.mem (h : Cleaned sha txs except pool pool') (hmem : hash ∈ pool'.mapTx) :
    hash ∈ pool.mapTx := by
  obtain ⟨tx, htx⟩ := (mem_iff_exists _ _).mp hmem
  exact (mem_iff_exists _ _).mpr ⟨tx, h.kept hash tx htx⟩

theorem Cleaned.trans {pool'' : CTxMemPool H} (h : Cleaned sha txs except pool pool')
    (h' : Cleaned sha txs except pool' pool'') : Cleaned sha txs except pool pool'' where
  inv := h'.inv
  kept hash tx hlook := h.kept hash tx (h'.kept hash tx hlook)
  clean := by
    intro hash tx hin hout hexcept n hn
    by_cases hmid : hash ∈ pool'.mapTx
    · obtain ⟨tx', htx'⟩ := (mem_iff_exists _ _).mp hmid
      have hsame := h.kept hash tx' htx'
      rw [hin] at hsame
      cases hsame
      exact h'.clean hash tx htx' hout hexcept n hn
    · exact h'.not_spends (h.clean hash tx hin hmid hexcept n hn)

theorem Cleaned.weaken {except' : H → Prop} (h : Cleaned sha txs except pool pool')
    (himp : ∀ hash, except hash → except' hash) : Cleaned sha txs except' pool pool' :=
  ⟨h.inv, h.kept, fun hash tx hin hout hexcept =>
    h.clean hash tx hin hout fun hold => hexcept (himp hash hold)⟩

variable {rank : H → Nat} {floor : Nat}

theorem Removes.refl (hinv : Inv sha txs pool) (rank : H → Nat) (floor : Nat) :
    Removes sha txs rank floor pool pool :=
  ⟨Cleaned.refl hinv _, fun _ hin hout => absurd hin hout⟩

theorem Removes.trans {pool'' : CTxMemPool H} (h : Removes sha txs rank floor pool pool')
    (h' : Removes sha txs rank floor pool' pool'') : Removes sha txs rank floor pool pool'' where
  toCleaned := h.toCleaned.trans h'.toCleaned
  gone := by
    intro hash hin hout
    by_cases hmid : hash ∈ pool'.mapTx
    · exact h'.gone hash hmid hout
    · exact h.gone hash hin hmid

theorem Removes.lower {floor' : Nat} (h : Removes sha txs rank floor pool pool')
    (hle : floor' ≤ floor) : Removes sha txs rank floor' pool pool' :=
  ⟨h.toCleaned, fun hash hin hout => Nat.le_trans hle (h.gone hash hin hout)⟩

end

variable {rank : H → Nat}

omit [LawfulEqOrd H] in
theorem mapTx_eraseTx (pool : CTxMemPool H) {hash hash' : H} {tx tx' : CTransaction H}
    (hlook : (pool.eraseTx hash tx).mapTx[hash']? = some tx') : pool.mapTx[hash']? = some tx' := by
  rw [CTxMemPool.eraseTx, ExtTreeMap.getElem?_erase] at hlook
  split at hlook
  · cases hlook
  · exact hlook

theorem not_mem_eraseTx (pool : CTxMemPool H) (hash : H) (tx : CTransaction H) :
    hash ∉ (pool.eraseTx hash tx).mapTx := by
  intro hmem
  exact (ExtTreeMap.mem_erase.mp hmem).1 (by simp)

theorem gone_eraseTx {hash' : H} (hin : hash' ∈ pool.mapTx)
    (hout : hash' ∉ (pool.eraseTx hash tx).mapTx) : hash' = hash := by
  by_contra hne
  exact hout (ExtTreeMap.mem_erase.mpr ⟨by simpa using Ne.symm hne, hin⟩)

/-- The end of `remove`, once nothing spends an output of the transaction. -/
theorem Removes.eraseTx (hinv : Inv sha txs pool) (htx : pool.mapTx[hash]? = some tx)
    (hfree : ∀ n : UInt32, n.toNat < tx.vout.length → ¬ pool.Spends ⟨hash, n⟩) :
    Removes sha txs rank (rank hash) pool (pool.eraseTx hash tx) := by
  refine ⟨⟨hinv.eraseTx htx, fun _ _ => mapTx_eraseTx pool, ?_⟩, ?_⟩
  · intro hash' tx' htx' hout _ n hn
    cases gone_eraseTx ((mem_iff_exists _ _).mpr ⟨tx', htx'⟩) hout
    rw [htx] at htx'
    cases htx'
    rintro ⟨other, spender, hlook, hin⟩
    exact hfree n hn ⟨other, spender, mapTx_eraseTx pool hlook, hin⟩
  · intro hash' hin hout
    rw [gone_eraseTx hin hout]

omit [LawfulEqOrd H] in
theorem Inv.remove_outputs {depth : Nat} (hash : H) (bound : Nat)
    (hrank : ∀ (tx : CTransaction H), ∀ txin ∈ tx.vin, rank txin.prevout.hash < rank
    (tx.getHash sha)) (hcall : ∀ (pool : CTxMemPool H) (tx : CTransaction H), Inv sha txs pool →
      (∀ hash' ∈ pool.mapTx, rank hash' < bound) → tx ∈ txs → rank hash < rank (tx.getHash sha) →
      ∃ pool', pool.remove sha depth tx true = some pool' ∧
        Removes sha txs rank (rank (tx.getHash sha)) pool pool' ∧ tx.getHash sha ∉ pool'.mapTx)
    (hinv : Inv sha txs pool) (hbound : ∀ hash' ∈ pool.mapTx, rank hash' < bound) (outputs : List Nat) :
    ∃ pool', outputs.foldlM
        (removeSpender (fun pool next => remove sha depth pool next true) hash) pool = some pool' ∧
      Removes sha txs rank (rank hash + 1) pool pool' ∧
      ∀ i ∈ outputs, ¬ pool'.Spends ⟨hash, UInt32.ofNat i⟩ := by
  induction outputs generalizing pool with
  | nil => exact ⟨pool, rfl, Removes.refl hinv _ _, by simp⟩
  | cons i outputs ih =>
    rw [List.foldlM_cons, removeSpender]
    rcases hinv.spender_cases ⟨hash, UInt32.ofNat i⟩ with ⟨hnone, hfree⟩ | ⟨other, next, hsome, hnext, hin⟩
    · obtain ⟨pool', hloop, hremoves, hrest⟩ := ih hinv hbound
      refine ⟨pool', by rw [hnone]; exact hloop, hremoves, ?_⟩
      intro j hj
      rcases List.mem_cons.mp hj with rfl | hj
      · exact hremoves.not_spends hfree
      · exact hrest j hj
    · obtain ⟨txin, htxin, hprevout⟩ := mem_map.mp hin
      have habove : rank hash < rank (next.getHash sha) := by
        have hlt := hrank next txin htxin
        rw [hprevout] at hlt
        exact hlt
      obtain ⟨hfiled, hknown⟩ := hinv.filed other next hnext
      obtain ⟨mid, hmid, hfirst, hout⟩ := hcall pool next hinv hbound hknown habove
      obtain ⟨pool', hloop, hremoves, hrest⟩ := ih hfirst.inv
        (fun hash' hmem => hbound hash' (hfirst.mem hmem))
      refine ⟨pool', ?_, (hfirst.lower habove).trans hremoves, ?_⟩
      · rw [hsome]
        simp only [Option.bind_some, hmid]
        exact hloop
      · intro j hj
        rcases List.mem_cons.mp hj with rfl | hj
        · apply hremoves.not_spends
          rintro ⟨hash', tx', htx', hin'⟩
          have heq := hinv.unique hnext hin (hfirst.kept hash' tx' htx') hin'
          rw [← heq, ← hfiled] at htx'
          exact hout ((mem_iff_exists _ _).mpr ⟨tx', htx'⟩)
        · exact hrest j hj

/-- **A recursive `remove` ends** within the ranks above the transaction, and
removes it together with what spends it. -/
theorem Inv.remove_recursive (hcoll : Set.InjOn (CTransaction.getHash sha) txs)
    (hrank : ∀ (tx : CTransaction H), ∀ txin ∈ tx.vin, rank txin.prevout.hash < rank
    (tx.getHash sha)) (depth : Nat) (hinv : Inv sha txs pool) (htx : tx ∈ txs)
    (hdepth : ∀ hash ∈ pool.mapTx, rank hash < rank (tx.getHash sha) + depth) :
    ∃ pool', pool.remove sha (depth + 1) tx true = some pool' ∧
      Removes sha txs rank (rank (tx.getHash sha)) pool pool' ∧ tx.getHash sha ∉ pool'.mapTx := by
  induction depth generalizing pool tx with
  | zero =>
    have hout : tx.getHash sha ∉ pool.mapTx := fun hin => absurd (hdepth _ hin) (by omega)
    exact ⟨pool, by rw [remove]; exact if_neg hout, Removes.refl hinv _ _, hout⟩
  | succ depth ih =>
    by_cases hin : tx.getHash sha ∈ pool.mapTx
    · obtain ⟨tx', hlook⟩ := (mem_iff_exists _ _).mp hin
      obtain ⟨hfiled, hknown⟩ := hinv.filed _ _ hlook
      cases hcoll hknown htx hfiled
      obtain ⟨mid, hloop, hremoves, hfree⟩ := hinv.remove_outputs (tx.getHash sha)
        (rank (tx.getHash sha) + (depth + 1)) hrank
        (fun pool tx' hinv' hbound htx' habove => ih hinv' htx' fun hash' hmem => by
          have hlt := hbound hash' hmem
          omega) hdepth (List.range tx.vout.length)
      -- the calls remove what ranks above the transaction, so it is still there
      have hstill : mid.mapTx[tx.getHash sha]? = some tx := by
        by_contra hne
        have hout : tx.getHash sha ∉ mid.mapTx := by
          intro hmem
          obtain ⟨tx', htx'⟩ := (mem_iff_exists _ _).mp hmem
          have hsame := hremoves.kept _ _ htx'
          rw [hlook] at hsame
          cases hsame
          exact hne htx'
        have hle := hremoves.gone _ hin hout
        omega
      have hunspent : ∀ n : UInt32, n.toNat < tx.vout.length →
          ¬ mid.Spends ⟨tx.getHash sha, n⟩ := by
        intro n hn
        have hlast := hfree n.toNat (mem_range.mpr hn)
        rw [UInt32.ofNat_toNat] at hlast
        exact hlast
      refine ⟨mid.eraseTx (tx.getHash sha) tx, ?_, ?_, not_mem_eraseTx _ _ _⟩
      · rw [remove]
        simp only [if_pos hin, if_true, hloop, Option.map_some]
      · exact (hremoves.lower (Nat.le_succ _)).trans
          (Removes.eraseTx hremoves.inv hstill hunspent)
    · exact ⟨pool, by rw [remove]; exact if_neg hin, Removes.refl hinv _ _, hin⟩

omit [LawfulEqOrd H] in
/-- A greater bound on the depth changes nothing. -/
theorem remove_mono {depth depth' : Nat} {fRecursive : Bool} (hle : depth ≤ depth')
    (h : pool.remove sha depth tx fRecursive = some pool') :
    pool.remove sha depth' tx fRecursive = some pool' := by
  induction depth generalizing depth' pool tx fRecursive pool' with
  | zero => cases h
  | succ depth ih =>
    obtain ⟨depth', rfl⟩ := Nat.exists_eq_add_of_le' (Nat.lt_of_lt_of_le (Nat.succ_pos depth) hle)
    rw [remove] at h ⊢
    simp only at h ⊢
    split at h
    · rename_i hin
      rw [if_pos hin]
      obtain ⟨mid, hmid, rfl⟩ := Option.map_eq_some_iff.mp h
      refine Option.map_eq_some_iff.mpr ⟨mid, ?_, rfl⟩
      split at hmid
      · rename_i hrecursive
        rw [if_pos hrecursive]
        refine OptionLoop.foldlM_mono ?_ hmid
        intro i pool pool' hstep
        unfold removeSpender at hstep ⊢
        cases hspender : pool.spender ⟨tx.getHash sha, UInt32.ofNat i⟩ with
        | none =>
          rw [hspender] at hstep
          exact hstep
        | some ptx =>
          simp only [hspender] at hstep ⊢
          obtain ⟨next, hnext, hcall⟩ := Option.bind_eq_some_iff.mp hstep
          exact Option.bind_eq_some_iff.mpr ⟨next, hnext, ih (Nat.le_of_succ_le_succ hle) hcall⟩
      · rename_i hrecursive
        rw [if_neg hrecursive]
        exact hmid
    · rename_i hout
      rw [if_neg hout]
      exact h

section

variable (hcoll : Set.InjOn (CTransaction.getHash sha) txs)
  (hrank : ∀ (tx : CTransaction H), ∀ txin ∈ tx.vin, rank txin.prevout.hash < rank (tx.getHash sha))

include hcoll hrank

/-- **A recursive `remove`** returns the same pool for every bound that is
great enough. -/
theorem Inv.remove_total (hinv : Inv sha txs pool) (htx : tx ∈ txs) :
    ∃ depth₀ pool', (∀ depth ≥ depth₀, pool.remove sha depth tx true = some pool') ∧
      Removes sha txs rank (rank (tx.getHash sha)) pool pool' ∧ tx.getHash sha ∉ pool'.mapTx := by
  obtain ⟨bound, hbound⟩ := exists_bound pool.mapTx rank
  obtain ⟨pool', hremove, hspec⟩ := hinv.remove_recursive hcoll hrank bound htx
    (fun hash hmem => Nat.lt_of_lt_of_le (hbound hash hmem) (Nat.le_add_left _ _))
  exact ⟨bound + 1, pool', fun depth hdepth => remove_mono hdepth hremove, hspec⟩

theorem Inv.remove_some (hinv : Inv sha txs pool) (htx : tx ∈ txs) {depth : Nat}
    (h : pool.remove sha depth tx true = some pool') :
    Removes sha txs rank (rank (tx.getHash sha)) pool pool' ∧ tx.getHash sha ∉ pool'.mapTx := by
  obtain ⟨depth₀, pool'', htotal, hspec⟩ := hinv.remove_total hcoll hrank htx
  have hsame := htotal (max depth depth₀) (Nat.le_max_right _ _)
  rw [remove_mono (Nat.le_max_left depth depth₀) h] at hsame
  cases hsame
  exact hspec

end

theorem Inv.remove_one (hcoll : Set.InjOn (CTransaction.getHash sha) txs)
    (hinv : Inv sha txs pool) (htx : tx ∈ txs) {depth : Nat}
    (h : pool.remove sha depth tx false = some pool') :
    Cleaned sha txs (fun hash => tx.getHash sha = hash) pool pool' ∧ tx.getHash sha ∉ pool'.mapTx := by
  cases depth with
  | zero => cases h
  | succ depth =>
    rw [remove] at h
    simp only [Bool.false_eq_true, if_false, Option.map_some] at h
    split at h
    · rename_i hin
      obtain ⟨tx', hlook⟩ := (mem_iff_exists _ _).mp hin
      obtain ⟨hfiled, hknown⟩ := hinv.filed _ _ hlook
      cases hcoll hknown htx hfiled
      cases h
      refine ⟨⟨hinv.eraseTx hlook, fun _ _ => mapTx_eraseTx pool, ?_⟩, not_mem_eraseTx _ _ _⟩
      intro hash tx' htx' hout hexcept
      exact absurd (gone_eraseTx ((mem_iff_exists _ _).mpr ⟨tx', htx'⟩) hout).symm hexcept
    · rename_i hout
      cases h
      exact ⟨Cleaned.refl hinv _, hout⟩

/-- It always returns. -/
theorem Inv.remove_one_total (hcoll : Set.InjOn (CTransaction.getHash sha) txs)
    (hinv : Inv sha txs pool) (htx : tx ∈ txs) :
    ∃ pool', (∀ depth ≥ 1, pool.remove sha depth tx false = some pool') ∧ Inv sha txs pool' := by
  obtain ⟨pool', hfirst⟩ : ∃ pool', pool.remove sha 1 tx false = some pool' := by
    rw [remove]
    simp only [Bool.false_eq_true, if_false, Option.map_some]
    split
    · exact ⟨_, rfl⟩
    · exact ⟨_, rfl⟩
  exact ⟨pool', fun depth hdepth => remove_mono hdepth hfirst, (hinv.remove_one hcoll htx hfirst).1.inv⟩

variable [DecidableEq H] {c : Consensus H} {s : Node H} {env : Env H} {policy : RelayPolicy H}
  {fCheckInputs : Bool}

omit [LawfulEqOrd H] in
/-- **Inversion of `accept`.**  A refused transaction changes nothing, an
accepted one is well formed, new and without conflict. -/
theorem accept_cases (c : Consensus H) (pool : CTxMemPool H) (s : Node H) (env : Env H)
    (policy : RelayPolicy H) (tx : CTransaction H) (fCheckInputs : Bool) :
    pool.accept c s env policy tx fCheckInputs = (false, pool) ∨ (pool.accept c s env policy tx fCheckInputs =
          (true, pool.addUnchecked (tx.getHash c.toSha256) tx) ∧
        checkRules c s policy tx ∧ tx.getHash c.toSha256 ∉ pool.mapTx ∧
        (∀ txin ∈ tx.vin, txin.prevout ∉ pool.mapNextTx) ∧
        (fCheckInputs → s.txdb.readTxIndex (tx.getHash c.toSha256) = none ∧
          pool.checkInputs c s env policy tx)) := by
  unfold accept
  simp only
  split
  · exact Or.inl rfl
  · rename_i hrules
    split
    · exact Or.inl rfl
    · rename_i hnew
      split
      · exact Or.inl rfl
      · rename_i hindexed
        split
        · exact Or.inl rfl
        · rename_i hconflict
          split
          · exact Or.inl rfl
          · rename_i hinputs
            refine Or.inr ⟨rfl, by simpa using hrules, hnew, ?_, ?_⟩
            · intro txin htxin hmem
              apply hconflict
              exact any_eq_true.mpr ⟨txin, htxin, by simpa using hmem⟩
            · intro hcheck
              rw [hcheck, Bool.true_and] at hindexed hinputs
              exact ⟨by simpa using hindexed, by simpa using hinputs⟩

omit [Ord H] [TransOrd H] [LawfulEqOrd H] in
/-- `CheckTransaction` refuses duplicate inputs. -/
theorem nodup_of_checkTransaction {crypto : MWCrypto H} {tx : CTransaction H}
    (h : tx.checkTransaction crypto) : (tx.vin.map prevout).Nodup := by
  unfold CTransaction.checkTransaction at h
  simp only [Bool.and_eq_true] at h
  exact of_decide_eq_true h.1.1.1.2

/-- `accept` keeps the maps in step. -/
theorem Inv.accept (hinv : Inv c.toSha256 txs pool) (htx : tx ∈ txs) :
    Inv c.toSha256 txs (pool.accept c s env policy tx fCheckInputs).2 := by
  rcases accept_cases c pool s env policy tx fCheckInputs with h | ⟨h, hrules, hnew, hfree, _⟩
  · rw [h]
    exact hinv
  · rw [h]
    unfold checkRules at hrules
    simp only [Bool.and_eq_true] at hrules
    exact hinv.addUnchecked htx hnew (nodup_of_checkTransaction hrules.1.1.1.1.1.1.1) hfree

section

variable (hcoll : Set.InjOn (CTransaction.getHash sha) txs)
  (hrank : ∀ (tx : CTransaction H), ∀ txin ∈ tx.vin, rank txin.prevout.hash < rank (tx.getHash sha))

include hcoll hrank

/-- One round of `removeConflicts` that returned: a conflict is gone with
everything that spends it. -/
theorem Inv.removeConflict_some (hinv : Inv sha txs pool) {depth : Nat} {txin : CTxIn H}
    (h : pool.removeConflict sha depth tx txin = some pool') :
    Removes sha txs rank 0 pool pool' ∧ ∀ (hash : H) (tx' : CTransaction H),
      pool'.mapTx[hash]? = some tx' → txin.prevout ∈ tx'.vin.map prevout → tx'.sameAs tx := by
  unfold removeConflict at h
  rcases hinv.spender_cases txin.prevout with ⟨hnone, hfree⟩ | ⟨other, next, hsome, hnext, hin⟩
  · rw [hnone] at h
    cases h
    exact ⟨Removes.refl hinv _ _, fun hash tx' htx' ho => absurd ⟨hash, tx', htx', ho⟩ hfree⟩
  · simp only [hsome, Option.bind_some] at h
    obtain ⟨hfiled, hknown⟩ := hinv.filed _ _ hnext
    split at h
    · obtain ⟨hremoves, hout⟩ := hinv.remove_some hcoll hrank hknown h
      refine ⟨hremoves.lower (Nat.zero_le _), ?_⟩
      intro hash tx' htx' ho
      have heq := hinv.unique hnext hin (hremoves.kept hash tx' htx') ho
      rw [← heq, ← hfiled] at htx'
      exact absurd ((mem_iff_exists _ _).mpr ⟨tx', htx'⟩) hout
    · rename_i hsame
      cases h
      refine ⟨Removes.refl hinv _ _, ?_⟩
      intro hash tx' htx' ho
      have heq := hinv.unique hnext hin htx' ho
      rw [← heq, hnext] at htx'
      cases htx'
      simpa using hsame

/-- **`removeConflicts`** that returned: what spends the same as the transaction
is the same, as far as `operator==` can tell. -/
theorem Inv.removeConflicts_some (hinv : Inv sha txs pool) {depth : Nat}
    (h : pool.removeConflicts sha depth tx = some pool') :
    Removes sha txs rank 0 pool pool' ∧ ∀ o ∈ tx.vin.map prevout,
      ∀ (hash : H) (tx' : CTransaction H), pool'.mapTx[hash]? = some tx' →
        o ∈ tx'.vin.map prevout → tx'.sameAs tx := by
  unfold removeConflicts at h
  generalize tx.vin = vin at h ⊢
  induction vin generalizing pool with
  | nil =>
    cases h
    exact ⟨Removes.refl hinv _ _, by simp⟩
  | cons txin vin ih =>
    obtain ⟨mid, hmid, hrest⟩ := OptionLoop.foldlM_cons h
    obtain ⟨hfirst, hsame⟩ := hinv.removeConflict_some hcoll hrank hmid
    obtain ⟨hlast, hothers⟩ := ih hfirst.inv hrest
    refine ⟨hfirst.trans hlast, ?_⟩
    intro o ho hash tx' htx' hin
    rw [map_cons, List.mem_cons] at ho
    rcases ho with rfl | ho
    · exact hsame hash tx' (hlast.kept hash tx' htx') hin
    · exact hothers o ho hash tx' htx' hin

theorem Inv.removeConflicts_total (hinv : Inv sha txs pool) (tx : CTransaction H) :
    ∃ depth₀ pool', (∀ depth ≥ depth₀, pool.removeConflicts sha depth tx = some pool') ∧
      Inv sha txs pool' := by
  refine OptionLoop.foldlM_eventually (Inv sha txs) ?_ hinv
  intro txin _ mid hmid
  unfold removeConflict
  rcases hmid.spender_cases txin.prevout with ⟨hnone, _⟩ | ⟨other, next, hsome, hnext, _⟩
  · rw [hnone]
    exact ⟨0, mid, fun _ _ => rfl, hmid⟩
  · simp only [hsome, Option.bind_some]
    split
    · obtain ⟨depth₀, pool', htotal, hremoves, _⟩ := hmid.remove_total hcoll hrank (hmid.filed _ _ hnext).2
      exact ⟨depth₀, pool', htotal, hremoves.inv⟩
    · exact ⟨0, mid, fun _ _ => rfl, hmid⟩

/-- The pools that calls of `accept`, `remove`, `removeConflicts` and `clear`
lead to.  The calls are about transactions of `txs`. -/
inductive Reachable (c : Consensus H) (txs : Set (CTransaction H)) : CTxMemPool H → Prop
  | empty : Reachable c txs empty
  | accept {pool : CTxMemPool H} {tx : CTransaction H} (s : Node H) (env : Env H)
      (policy : RelayPolicy H) (fCheckInputs : Bool) (hpool : Reachable c txs pool)
      (htx : tx ∈ txs) : Reachable c txs (pool.accept c s env policy tx fCheckInputs).2
  | remove {pool pool' : CTxMemPool H} {tx : CTransaction H} {depth : Nat} {fRecursive : Bool}
      (hpool : Reachable c txs pool) (htx : tx ∈ txs)
      (h : pool.remove c.toSha256 depth tx fRecursive = some pool') : Reachable c txs pool'
  | removeConflicts {pool pool' : CTxMemPool H} {tx : CTransaction H} {depth : Nat}
      (hpool : Reachable c txs pool) (htx : tx ∈ txs)
      (h : pool.removeConflicts c.toSha256 depth tx = some pool') : Reachable c txs pool'
  | clear {pool : CTxMemPool H} (hpool : Reachable c txs pool) : Reachable c txs pool.clear

end

/-- **Run lemma.** -/
theorem Reachable.inv (hcoll : Set.InjOn (CTransaction.getHash c.toSha256) txs)
    (hacyclic : c.toSha256.Acyclic) (h : Reachable c txs pool) : Inv c.toSha256 txs pool := by
  obtain ⟨rank, hrank⟩ := hacyclic
  have hrank' := fun (tx : CTransaction H) (txin : CTxIn H) (hmem : txin ∈ tx.vin) =>
    CTransaction.rank_lt hrank hmem
  induction h with
  | empty => exact inv_empty
  | accept s env policy fCheckInputs _ htx ih => exact ih.accept htx
  | @remove _ _ _ _ fRecursive _ htx hremove ih =>
    cases fRecursive with
    | false => exact (ih.remove_one hcoll htx hremove).1.inv
    | true => exact (ih.remove_some hcoll hrank' htx hremove).1.inv
  | removeConflicts _ _ hremove ih => exact (ih.removeConflicts_some hcoll hrank' hremove).1.inv
  | clear _ _ => exact inv_empty

/-- **The memory pool's index.**  In every reachable pool `mapNextTx` holds
exactly the inputs of the transactions in `mapTx`, no two of which spend the
same output; and a recursive `remove` ends and leaves nothing that spends an
output of a removed transaction. -/
theorem mempool_index (hcoll : Set.InjOn (CTransaction.getHash c.toSha256) txs)
    (hacyclic : c.toSha256.Acyclic) (h : Reachable c txs pool) : (∀ (o : COutPoint H) (hash : H) (i : Nat),
        pool.mapNextTx[o]? = some (⟨hash, i⟩ : CInPoint H) ↔
          ∃ tx : CTransaction H, pool.mapTx[hash]? = some tx ∧ tx.getHash c.toSha256 = hash ∧
            tx.vin[i]?.map prevout = some o) ∧
      (∀ (hash hash' : H) (tx tx' : CTransaction H) (i i' : Nat) (o : COutPoint H),
        pool.mapTx[hash]? = some tx → pool.mapTx[hash']? = some tx' →
        tx.vin[i]?.map prevout = some o → tx'.vin[i']?.map prevout = some o →
        hash = hash' ∧ i = i') ∧ ∀ tx ∈ txs, ∃ depth₀ pool',
        (∀ depth ≥ depth₀, pool.remove c.toSha256 depth tx true = some pool') ∧
        tx.getHash c.toSha256 ∉ pool'.mapTx ∧
        ∀ (hash : H) (removed : CTransaction H), pool.mapTx[hash]? = some removed →
          hash ∉ pool'.mapTx → ∀ n : UInt32, n.toNat < removed.vout.length → ¬ pool'.Spends ⟨hash, n⟩ := by
  have hinv := h.inv hcoll hacyclic
  refine ⟨?_, ?_, ?_⟩
  · intro o hash i
    rw [hinv.next]
    constructor
    · rintro ⟨tx, htx, hi⟩
      exact ⟨tx, htx, (hinv.filed hash tx htx).1, hi⟩
    · rintro ⟨tx, htx, _, hi⟩
      exact ⟨tx, htx, hi⟩
  · intro hash hash' tx tx' i i' o htx htx' hi hi'
    have hentry := (hinv.next o hash i).mpr ⟨tx, htx, hi⟩
    rw [(hinv.next o hash' i').mpr ⟨tx', htx', hi'⟩] at hentry
    cases hentry
    exact ⟨rfl, rfl⟩
  · intro tx htx
    obtain ⟨rank, hrank⟩ := hacyclic
    obtain ⟨depth₀, pool', htotal, hremoves, hout⟩ := hinv.remove_total hcoll
      (fun (tx : CTransaction H) (txin : CTxIn H) (hmem : txin ∈ tx.vin) =>
        CTransaction.rank_lt hrank hmem) htx
    exact ⟨depth₀, pool', htotal, hout,
      fun hash removed hin hgone => hremoves.clean hash removed hin hgone not_false⟩

/-- A transaction, and one that spends its output. -/
def parentTx : CTransaction (List Nat) := samplePayment 1 ⟨[7], 0⟩ [⟨COIN, []⟩]

def childTx : CTransaction (List Nat) :=
  samplePayment 2 ⟨parentTx.getHash transparent, 0⟩ [⟨COIN, []⟩]

/-- The pool that has accepted both, from an empty one and at the genesis
block. -/
def familyPool : CTxMemPool (List Nat) :=
  let s := Node.genesis sampleConsensus sampleGenesis
  (((empty : CTxMemPool (List Nat)).accept sampleConsensus s (sampleEnv 0) sampleRelay parentTx
    false).2.accept sampleConsensus s (sampleEnv 0) sampleRelay childTx false).2

theorem mempool_index_family : familyPool.mapTx.size = 2 ∧ ∃ depth₀ pool',
      (∀ depth ≥ depth₀, familyPool.remove transparent depth parentTx true = some pool') ∧
      parentTx.getHash transparent ∉ pool'.mapTx ∧ ¬ pool'.Spends ⟨parentTx.getHash transparent, 0⟩ := by
  have hcoll : Set.InjOn (CTransaction.getHash sampleConsensus.toSha256) {parentTx, childTx} := by
    have hne : parentTx.getHash transparent ≠ childTx.getHash transparent := by decide +kernel
    rintro a (rfl | rfl) b (rfl | rfl) heq
    · rfl
    · exact absurd heq hne
    · exact absurd heq.symm hne
    · rfl
  have hreach : Reachable sampleConsensus {parentTx, childTx} familyPool :=
    .accept _ _ _ _ (.accept _ _ _ _ .empty (Or.inl rfl)) (Or.inr rfl)
  obtain ⟨_, _, hremove⟩ := mempool_index hcoll transparent_acyclic hreach
  obtain ⟨depth₀, pool', htotal, hout, hclean⟩ := hremove parentTx (Or.inl rfl)
  refine ⟨by decide +kernel, depth₀, pool', htotal, hout, ?_⟩
  exact hclean _ parentTx (by decide +kernel) hout 0 (by decide)

end CTxMemPool

end MaryJaneCoin
