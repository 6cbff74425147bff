import MaryJaneCoin.Chain.OrphanBlocks
import MaryJaneCoin.Chain.StakeSeen

/-!
# What the orphan loops leave behind

The references of `mapOrphanBlocksByPrev` are those to the orphans and dangling
ones.  The loop over the work queue leaves none behind, the orphan pass leaves
one for every orphan it connects itself.  A dangling reference is under the hash
of a block that is in the index, so no work queue ever comes to it.
-/

namespace MaryJaneCoin

open Std List Option OwnedHeap

section

variable {H : Type} [DecidableEq H] {c : Consensus H} {block : CBlock H}

theorem CBlock.getProofOfStake_null :
    (block.isProofOfStake c → block.getProofOfStake c ≠ (⟨c.zero, 0xffffffff⟩, 0)) ∧
      (block.isProofOfStake c = false → block.getProofOfStake c = (⟨c.zero, 0xffffffff⟩, 0)) := by
  unfold CBlock.isProofOfStake CBlock.getProofOfStake
  cases hsecond : block.vtx[1]? with
  | none => simp
  | some coinstake =>
    cases hstake : coinstake.isCoinStake c.toSha256 with
    | false => simp [Option.filter, hstake]
    | true =>
      refine ⟨fun _ => ?_, by simp [hstake]⟩
      unfold CTransaction.isCoinStake at hstake
      split at hstake
      · rename_i txin rest first _ _ hvin hvout
        simp only [Option.filter, CTransaction.isCoinStake, hvin, hvout, hstake, if_true,
          bind_some, head?_cons, map_some, getD_some, ne_eq, Prod.mk.injEq, not_and]
        intro hnull
        simp [COutPoint.isNull, hnull] at hstake
      · cases hstake

end

namespace Node

variable {H : Type} [Ord H] [TransOrd H] [DecidableEq H] {c : Consensus H}

/-- What `AcceptBlock` and its parts do to the index: nothing is removed, and
the block is new there when they succeed. -/
structure Enters (c : Consensus H) (s : Node H) (block : CBlock H) (done : Bool × Node H) : Prop where
  keeps : ∀ hash ∈ s.mapBlockIndex, hash ∈ done.2.mapBlockIndex
  new : done.1 = true → block.getHash c ∉ s.mapBlockIndex
  enters : done.1 = true → block.getHash c ∈ done.2.mapBlockIndex

omit [DecidableEq H] in
theorem enters_nothing (s : Node H) (block : CBlock H) : Enters c s block (false, s) :=
  ⟨fun _ hmem => hmem, nofun, nofun⟩

theorem enters_storeIndex (s : Node H) (env : Env H) (block : CBlock H) (nFile nBlockPos : Nat) :
    Enters c s block (s.storeIndex c env block nFile nBlockPos) := by
  unfold storeIndex
  simp only
  split
  · exact enters_nothing s block
  · rename_i hnew
    split
    · exact enters_nothing s block
    · exact ⟨fun hash hmem => ExtTreeMap.mem_insert.mpr (Or.inr hmem), fun _ => hnew,
        fun _ => ExtTreeMap.mem_insert_self⟩

theorem enters_addToBlockIndex (s : Node H) (env : Env H) (block : CBlock H)
    (nFile nBlockPos : Nat) : Enters c s block (s.addToBlockIndex c env block nFile nBlockPos) := by
  have hstored := enters_storeIndex (c := c) s env block nFile nBlockPos
  unfold addToBlockIndex
  simp only
  split
  · exact hstored
  · rename_i hflag
    have hflag' : (s.storeIndex c env block nFile nBlockPos).1 = true := by simpa using hflag
    split
    · have hindex := (stakesFollow_setBestChain (c := c) env
        (s.storeIndex c env block nFile nBlockPos).2 block
        (newIndex c block nFile nBlockPos (s.mapBlockIndex[block.hashPrevBlock]?.getD []))
        (s.mapBlockIndex[block.hashPrevBlock]?.getD [])).mapBlockIndex
      refine ⟨?_, fun _ => hstored.new hflag', ?_⟩
      · rw [hindex]
        exact hstored.keeps
      · rw [hindex]
        exact fun _ => hstored.enters hflag'
    · exact ⟨hstored.keeps, fun _ => hstored.new hflag', fun _ => hstored.enters hflag'⟩

/-- **`AcceptBlock`** removes nothing from the index; a block it accepts is new
there. -/
theorem enters_acceptBlock (s : Node H) (env : Env H) (block : CBlock H) :
    Enters c s block (s.acceptBlock c env block) := by
  unfold acceptBlock
  split
  · exact enters_nothing s block
  · split
    · exact enters_nothing s block
    · split
      · exact enters_nothing s block
      · split
        · exact enters_nothing s block
        · rename_i nFile nBlockPos written hwritten
          have hadded := enters_addToBlockIndex (c := c) written env block nFile nBlockPos
          have hframe := (writeToDisk_some hwritten).2.2
          have hindex : written.mapBlockIndex = s.mapBlockIndex := by rw [hframe]
          refine ⟨?_, ?_, hadded.enters⟩
          · rw [← hindex]
            exact hadded.keeps
          · rw [← hindex]
            exact hadded.new

end Node

namespace OrphanNode

variable {H : Type} [Ord H] [TransOrd H] [DecidableEq H] {c : Consensus H}

/-- The invariant of the containers, with the dangling references. -/
abbrev Referenced (c : Consensus H) (s : OrphanNode H) (dangling : Set (H × Nat)) : Prop :=
  s.orphans.Inv (CBlock.getHash c) (fun block => block.hashPrevBlock) dangling

/-- `t` is `s` with some orphans deleted; a stake is gone when an orphan that
has it is. -/
structure Sheds (c : Consensus H) (s t : OrphanNode H) : Prop where
  index : ∀ hash ∈ s.node.mapBlockIndex, hash ∈ t.node.mapBlockIndex
  heap : ∀ (p : Nat) (block : CBlock H), t.orphans.heap[p]? = some block →
    s.orphans.heap[p]? = some block
  stakes : ∀ stake, stake ∈ t.setStakeSeenOrphan ↔ stake ∈ s.setStakeSeenOrphan ∧
    ∀ (p : Nat) (block : CBlock H), s.orphans.heap[p]? = some block →
      t.orphans.heap[p]? = none → block.isProofOfStake c → block.getProofOfStake c ≠ stake

/-- The null stake is not in the set. -/
def NoNullStake (c : Consensus H) (s : OrphanNode H) : Prop :=
  (⟨c.zero, 0xffffffff⟩, 0) ∉ s.setStakeSeenOrphan

variable {s t u : OrphanNode H} {dangling : Set (H × Nat)}

theorem sheds_node (node : Node H)
    (hindex : ∀ hash ∈ s.node.mapBlockIndex, hash ∈ node.mapBlockIndex) :
    Sheds c s { s with node := node } where
  index := hindex
  heap _ _ h := h
  stakes stake := by
    refine ⟨fun h => ⟨h, ?_⟩, fun h => h.1⟩
    intro p block hsome hnone
    rw [hsome] at hnone
    cases hnone

theorem Sheds.trans (h : Sheds c s t) (h' : Sheds c t u) : Sheds c s u where
  index hash hmem := h'.index hash (h.index hash hmem)
  heap p block hblock := h.heap p block (h'.heap p block hblock)
  stakes stake := by
    rw [h'.stakes, h.stakes]
    constructor
    · rintro ⟨⟨hmem, hfirst⟩, hsecond⟩
      refine ⟨hmem, ?_⟩
      intro p block hblock hgone hpos
      cases hmid : t.orphans.heap[p]? with
      | none => exact hfirst p block hblock hmid hpos
      | some block' =>
        have hsame := h.heap p block' hmid
        rw [hblock] at hsame
        cases hsame
        exact hsecond p block hmid hgone hpos
    · rintro ⟨hmem, hall⟩
      refine ⟨⟨hmem, ?_⟩, ?_⟩
      · intro p block hblock hgone hpos
        refine hall p block hblock ?_ hpos
        cases hlast : u.orphans.heap[p]? with
        | none => rfl
        | some block' =>
          rw [h'.heap p block' hlast] at hgone
          cases hgone
      · intro p block hblock hgone hpos
        exact hall p block (h.heap p block hblock) hgone hpos

theorem NoNullStake.sheds (h : NoNullStake c s) (hsheds : Sheds c s t) : NoNullStake c t :=
  fun hmem => h ((hsheds.stakes _).mp hmem).1

variable [LawfulEqOrd H] {p : Nat} {block : CBlock H}

omit [LawfulEqOrd H] in
/-- **Deleting an orphan.** -/
theorem sheds_deleteOrphan (fAsk : Bool) (hash : H) (hnull : NoNullStake c s)
    (hp : s.orphans.heap[p]? = some block) : Sheds c s (s.deleteOrphan c fAsk hash p block) := by
  have hheap : ∀ p', (s.deleteOrphan c fAsk hash p block).orphans.heap[p']? =
      if p = p' then none else s.orphans.heap[p']? := by
    intro p'
    unfold deleteOrphan free
    by_cases hsame : p = p'
    · subst hsame
      simp
    · simp only
      rw [FinMap.getElem?_erase_ne _ hsame, if_neg hsame]
  refine ⟨fun _ hmem => hmem, ?_, ?_⟩
  · intro p' block' hblock'
    rw [hheap] at hblock'
    split at hblock'
    · cases hblock'
    · exact hblock'
  · intro stake
    have hgone : ∀ p' : Nat, (s.deleteOrphan c fAsk hash p block).orphans.heap[p']? = none →
        ∀ block' : CBlock H, s.orphans.heap[p']? = some block' → block' = block := by
      intro p' hnone block' hblock'
      rw [hheap] at hnone
      split at hnone
      · rename_i hsame
        subst hsame
        rw [hp] at hblock'
        exact (Option.some.inj hblock').symm
      · rw [hblock'] at hnone
        cases hnone
    have hself : (s.deleteOrphan c fAsk hash p block).orphans.heap[p]? = none := by
      rw [hheap, if_pos rfl]
    have hset : stake ∈ (s.deleteOrphan c fAsk hash p block).setStakeSeenOrphan ↔
        stake ∈ s.setStakeSeenOrphan ∧
          (block.isProofOfStake c → block.getProofOfStake c ≠ stake) := by
      unfold deleteOrphan
      simp only
      cases hpos : block.isProofOfStake c with
      | true =>
        rw [CBlock.isProofOfWork, hpos, Bool.not_true, Bool.and_false, if_neg Bool.false_ne_true,
          Finset.mem_erase]
        grind
      | false =>
        -- the stake of a proof-of-work block is null
        rw [(CBlock.getProofOfStake_null (c := c)).2 hpos, Finset.erase_eq_of_notMem hnull, ite_self]
        simp
    rw [hset]
    refine and_congr_right fun _ => ⟨?_, ?_⟩
    · intro hne p' block' hblock' hnone hpos
      cases hgone p' hnone block' hblock'
      exact hne hpos
    · intro hall hpos
      exact hall p block hp hself hpos

omit [LawfulEqOrd H] in
theorem mem_of_sheds (hinv : Referenced c s dangling) {dangling' : Set (H × Nat)}
    (hinv' : Referenced c t dangling') (hsheds : Sheds c s t) {hash : H}
    (hmem : hash ∈ t.mapOrphanBlocks) : hash ∈ s.mapOrphanBlocks := by
  obtain ⟨p, hp⟩ := (FinMap.mem_iff_exists _ _).mp hmem
  obtain ⟨block, hblock, hhash⟩ := (hinv'.owner hash p).mp hp
  exact (FinMap.mem_iff_exists _ _).mpr
    ⟨p, (hinv.owner hash p).mpr ⟨block, hsheds.heap p block hblock, hhash⟩⟩

/-- **One round of the inner loop.** -/
theorem acceptChild_some (fAsk : Bool) (env : CBlock H → Env H) (queue : List H)
    (hinv : Referenced c s dangling) (hnull : NoNullStake c s) (hp : s.orphans.heap[p]? = some block) :
    ∃ pushed t, acceptChild c fAsk env (queue, s) p = some (queue ++ pushed, t) ∧
      Referenced c t (insert (block.hashPrevBlock, p) dangling) ∧ Sheds c s t ∧
      t.orphans.refs = s.orphans.refs ∧ t.orphans.heap = s.orphans.heap.erase p ∧
      pushed.length ≤ 1 ∧ ∀ hash ∈ pushed, hash ∉ s.node.mapBlockIndex := by
  have henters := Node.enters_acceptBlock (c := c) s.node (env block) block
  have hnode := sheds_node (c := c) (s := s) (s.node.acceptBlock c (env block) block).2 henters.keeps
  refine ⟨if (s.node.acceptBlock c (env block) block).1 then [block.getHash c] else [],
    { s with node := (s.node.acceptBlock c (env block) block).2 }.deleteOrphan c fAsk
      (block.getHash c) p block, ?_, ?_, ?_, rfl, rfl, ?_, ?_⟩
  · unfold acceptChild
    simp only [hp, map_some, Option.some.injEq, Prod.mk.injEq, and_true]
    split
    · rfl
    · rw [append_nil]
  · exact hinv.free hp
  · exact hnode.trans (sheds_deleteOrphan fAsk _ (hnull.sheds hnode) hp)
  · split
    · exact Nat.le_refl 1
    · exact Nat.zero_le 1
  · intro hash hmem
    split at hmem
    · rename_i haccepted
      rw [mem_singleton.mp hmem]
      exact henters.new haccepted
    · cases hmem

/-- **The inner loop** over the children under a key: they are deleted, and
their references are left dangling. -/
theorem acceptChildren_some (fAsk : Bool) (env : CBlock H → Env H) {key : H} {children : List Nat}
    (hdistinct : children.Nodup) (queue : List H) (hinv : Referenced c s dangling)
    (hnull : NoNullStake c s)
    (hlive : ∀ p ∈ children, ∃ block, s.orphans.heap[p]? = some block ∧ block.hashPrevBlock = key) :
    ∃ pushed t, children.foldlM (acceptChild c fAsk env) (queue, s) = some (queue ++ pushed, t) ∧
      Referenced c t (dangling ∪ {ref | ref.1 = key ∧ ref.2 ∈ children}) ∧ Sheds c s t ∧
      t.orphans.refs = s.orphans.refs ∧
      (∀ p ∉ children, t.orphans.heap[p]? = s.orphans.heap[p]?) ∧
      pushed.length ≤ children.length ∧ ∀ hash ∈ pushed, hash ∉ s.node.mapBlockIndex := by
  induction children generalizing s queue dangling with
  | nil =>
    refine ⟨[], s, ?_, ?_, sheds_node s.node fun _ h => h, rfl, fun _ _ => rfl, Nat.le_refl 0, nofun⟩
    · rw [append_nil]
      rfl
    · simpa using hinv
  | cons p children ih =>
    obtain ⟨hp, hrest⟩ := nodup_cons.mp hdistinct
    obtain ⟨block, hblock, hkey⟩ := hlive p mem_cons_self
    obtain ⟨first, mid, hstep, hmid, hsheds, hrefs, hheap, hlength, hnew⟩ :=
      acceptChild_some fAsk env queue hinv hnull hblock
    have hlook : ∀ p' : Nat, p ≠ p' → mid.orphans.heap[p']? = s.orphans.heap[p']? := by
      intro p' hne
      rw [hheap, FinMap.getElem?_erase_ne _ hne]
    have hlive' : ∀ p' ∈ children, ∃ block, mid.orphans.heap[p']? = some block ∧
        block.hashPrevBlock = key := by
      intro p' hmem
      have hne : p ≠ p' := by
        rintro rfl
        exact hp hmem
      rw [hlook p' hne]
      exact hlive p' (mem_cons_of_mem _ hmem)
    obtain ⟨pushed, t, hloop, ht, hsheds', hrefs', hlook', hlength', hnew'⟩ :=
      ih hrest (queue ++ first) hmid (hnull.sheds hsheds) hlive'
    refine ⟨first ++ pushed, t, ?_, ?_, hsheds.trans hsheds', hrefs'.trans hrefs, ?_, ?_, ?_⟩
    · rw [List.foldlM_cons, hstep, ← append_assoc]
      exact hloop
    · have hset : insert (block.hashPrevBlock, p) dangling ∪
          {ref | ref.1 = key ∧ ref.2 ∈ children} =
            dangling ∪ {ref | ref.1 = key ∧ ref.2 ∈ p :: children} := by
        ext ref
        simp only [Set.mem_union, Set.mem_insert_iff, Set.mem_ofPred_eq, List.mem_cons, Prod.ext_iff, hkey]
        grind
      rw [← hset]
      exact ht
    · intro p' hout
      rw [List.mem_cons, not_or] at hout
      rw [hlook' p' hout.2, hlook p' (Ne.symm hout.1)]
    · rw [length_append, length_cons]
      omega
    · intro hash hmem
      rcases mem_append.mp hmem with hmem | hmem
      · exact hnew hash hmem
      · exact fun hold => hnew' hash hmem (hsheds.index hash hold)

/-- **The loop over the work queue** ends and deletes the children of everything
that comes into the queue.  Nothing in the queue is a known hash, and everything
that dangles does so under one. -/
theorem workQueue_some (fAsk : Bool) (env : CBlock H → Env H) {known : Set H} {fuel : Nat}
    {queue : List H} (hfuel : queue.length + s.orphans.refs.length ≤ fuel)
    (hinv : Referenced c s dangling) (hnull : NoNullStake c s)
    (hdangling : ∀ ref ∈ dangling, ref.1 ∈ known) (hqueue : ∀ hash ∈ queue, hash ∉ known)
    (hknown : ∀ hash ∈ known, hash ∈ s.node.mapBlockIndex) :
    ∃ t, workQueue c fAsk env fuel queue s = some t ∧ Referenced c t dangling ∧ Sheds c s t ∧
      ∀ (p : Nat) (block : CBlock H), s.orphans.heap[p]? = some block →
        block.hashPrevBlock ∈ known → t.orphans.heap[p]? = some block := by
  induction fuel generalizing s queue with
  | zero =>
    have hnil : queue = [] := length_eq_zero_iff.mp (by omega)
    subst hnil
    exact ⟨s, by rw [workQueue], hinv, sheds_node s.node fun _ h => h, fun _ _ h _ => h⟩
  | succ fuel ih =>
    cases queue with
    | nil => exact ⟨s, by rw [workQueue], hinv, sheds_node s.node fun _ h => h, fun _ _ h _ => h⟩
    | cons hashPrev queue =>
      have hprev : hashPrev ∉ known := hqueue hashPrev mem_cons_self
      have hnone : ∀ p, (hashPrev, p) ∉ dangling := fun p hmem => hprev (hdangling _ hmem)
      have hlive : ∀ p ∈ s.orphans.refsUnder hashPrev, ∃ block,
          s.orphans.heap[p]? = some block ∧ block.hashPrevBlock = hashPrev :=
        fun p hmem => (hinv.refsUnder hnone).mp hmem
      obtain ⟨pushed, mid, hloop, hmid, hsheds, hrefs, hlook, hlength, hnew⟩ :=
        acceptChildren_some fAsk env (nodup_refsUnder hinv.nodup hashPrev) [] hinv
          hnull hlive
      -- no orphan has the previous block any more
      have hempty : ∀ (p : Nat) (block : CBlock H), mid.orphans.heap[p]? = some block →
          block.hashPrevBlock ≠ hashPrev := by
        intro p block hblock hkey
        have hchild := (hinv.refsUnder hnone).mpr ⟨block, hsheds.heap p block hblock, hkey⟩
        have hdead := hmid.dead hashPrev p (Or.inr ⟨rfl, hchild⟩)
        rw [hblock] at hdead
        cases hdead
      have hdropped := OwnedHeap.Inv.dropRefs hmid hempty
      have hset : {ref ∈ dangling ∪ {ref | ref.1 = hashPrev ∧
          ref.2 ∈ s.orphans.refsUnder hashPrev} | ref.1 ≠ hashPrev} = dangling := by
        ext ref
        simp only [Set.mem_union, Set.mem_ofPred_eq]
        have hne : ref ∈ dangling → ref.1 ≠ hashPrev := fun hmem heq => hprev (heq ▸ hdangling ref hmem)
        grind
      rw [hset] at hdropped
      have hshorter := length_dropRefs mid.orphans hashPrev
      have hsame : mid.orphans.refsUnder hashPrev = s.orphans.refsUnder hashPrev := by
        unfold refsUnder
        rw [hrefs]
      rw [hsame, hrefs] at hshorter
      have hfuel' : (queue ++ pushed).length + (mid.eraseByPrev hashPrev).orphans.refs.length ≤
          fuel := by
        simp only [length_append, length_cons, eraseByPrev] at hfuel ⊢
        omega
      have hsheds' : Sheds c s (mid.eraseByPrev hashPrev) := ⟨hsheds.index, hsheds.heap, hsheds.stakes⟩
      have hqueue' : ∀ hash ∈ queue ++ pushed, hash ∉ known := by
        intro hash hmem
        rcases mem_append.mp hmem with hmem | hmem
        · exact hqueue hash (mem_cons_of_mem _ hmem)
        · exact fun hold => hnew hash hmem (hknown hash hold)
      obtain ⟨t, hrest, ht, hsheds'', hkept⟩ := ih hfuel' hdropped (hnull.sheds hsheds') hqueue'
        (fun hash hmem => hsheds.index hash (hknown hash hmem))
      refine ⟨t, ?_, ht, hsheds'.trans hsheds'', ?_⟩
      · rw [workQueue, hloop]
        exact hrest
      · intro p block hblock hold
        refine hkept p block ?_ hold
        rw [← hblock]
        refine hlook p ?_
        intro hchild
        obtain ⟨block', hblock', hkey⟩ := hlive p hchild
        rw [hblock] at hblock'
        cases hblock'
        exact hprev (hkey ▸ hold)

/-- **`connectChildren`** behind an accepted block. -/
theorem connectChildren_some (fAsk : Bool) (env : CBlock H → Env H) {node : Node H} {hash : H}
    (hinv : Referenced c s dangling) (hnull : NoNullStake c s)
    (hdangling : ∀ ref ∈ dangling, ref.1 ∈ s.node.mapBlockIndex)
    (hindex : ∀ hash ∈ s.node.mapBlockIndex, hash ∈ node.mapBlockIndex)
    (hnew : hash ∉ s.node.mapBlockIndex) :
    ∃ t, connectChildren c fAsk env { s with node := node } hash = some t ∧
      Referenced c t dangling ∧ Sheds c s t ∧
      ∀ (p : Nat) (block : CBlock H), s.orphans.heap[p]? = some block →
        block.hashPrevBlock ∈ s.node.mapBlockIndex → t.orphans.heap[p]? = some block := by
  have hnode := sheds_node (c := c) (s := s) node hindex
  have hinv' : Referenced c { s with node := node } dangling := hinv
  have hqueue : ∀ h ∈ [hash], h ∉ {h | h ∈ s.node.mapBlockIndex} := by
    intro h hmem
    rw [mem_singleton.mp hmem]
    exact hnew
  have hfuel : [hash].length + ({ s with node := node } : OrphanNode H).orphans.refs.length ≤
      s.mapOrphanBlocksByPrev.length + 1 := by
    rw [length_singleton, Nat.add_comm]
    exact le_rfl
  obtain ⟨t, hloop, ht, hsheds, hkept⟩ :=
    workQueue_some fAsk env hfuel hinv' (hnull.sheds hnode) hdangling hqueue hindex
  exact ⟨t, hloop, ht, hnode.trans hsheds, hkept⟩

/-- What the orphan pass does: dangling references are added, under hashes that
are in the index. -/
structure Passes (c : Consensus H) (s t : OrphanNode H) (dangling dangling' : Set (H × Nat)) :
    Prop where
  referenced : Referenced c t dangling'
  sheds : Sheds c s t
  grows : dangling ⊆ dangling'
  indexed : ∀ ref ∈ dangling', ref.1 ∈ t.node.mapBlockIndex

variable {dangling' dangling'' : Set (H × Nat)} {flag flag' : Bool}

omit [LawfulEqOrd H] in
theorem Passes.trans (h : Passes c s t dangling dangling')
    (h' : Passes c t u dangling' dangling'') : Passes c s u dangling dangling'' :=
  ⟨h'.referenced, h.sheds.trans h'.sheds, h.grows.trans h'.grows, h'.indexed⟩

/-- **One round of the orphan pass**: nothing is left dangling and nothing is
reported, or an orphan is connected and its reference is left behind. -/
theorem passOrphan_some (env : CBlock H → Env H) (flag : Bool) (hash : H)
    (hinv : Referenced c s dangling) (hnull : NoNullStake c s)
    (hdangling : ∀ ref ∈ dangling, ref.1 ∈ s.node.mapBlockIndex) :
    ∃ flag' t dangling', passOrphan c env (flag, s) hash = some (flag', t) ∧
      Passes c s t dangling dangling' ∧ ((flag' = flag ∧ dangling' = dangling) ∨ (flag' = true ∧
        dangling' ≠ dangling ∧ hash ∈ s.mapOrphanBlocks ∧ hash ∉ t.mapOrphanBlocks)) := by
  unfold passOrphan
  cases howner : s.mapOrphanBlocks[hash]? with
  | none =>
    exact ⟨flag, s, dangling, rfl, ⟨hinv, sheds_node s.node fun _ h => h, subset_rfl, hdangling⟩,
      Or.inl ⟨rfl, rfl⟩⟩
  | some p =>
    obtain ⟨block, hblock, hhash⟩ := (hinv.owner hash p).mp howner
    simp only [hblock, bind_some]
    split
    · exact ⟨flag, s, dangling, rfl,
        ⟨hinv, sheds_node s.node fun _ h => h, subset_rfl, hdangling⟩, Or.inl ⟨rfl, rfl⟩⟩
    · rename_i hprev
      rw [Classical.not_not] at hprev
      have henters := Node.enters_acceptBlock (c := c) s.node (env block) block
      have hfresh : (block.hashPrevBlock, p) ∉ dangling := by
        intro hmem
        rw [hinv.dead _ _ hmem] at hblock
        cases hblock
      have hadded : insert (block.hashPrevBlock, p) dangling ≠ dangling :=
        fun heq => hfresh (heq ▸ Set.mem_insert _ _)
      split
      · rename_i haccepted
        have hnew := henters.new haccepted
        rw [hhash] at hnew
        obtain ⟨t, hloop, ht, hsheds, hkept⟩ :=
          connectChildren_some true env hinv hnull hdangling henters.keeps hnew
        have hlive := hkept p block hblock hprev
        have hdeleted := sheds_deleteOrphan true hash (hnull.sheds hsheds) hlive
        refine ⟨true, t.deleteOrphan c true hash p block, insert (block.hashPrevBlock, p) dangling,
          by simp [hloop, hlive], ⟨?_, hsheds.trans hdeleted, Set.subset_insert _ _, ?_⟩,
          Or.inr ⟨rfl, hadded, ?_, ?_⟩⟩
        · have hfreed := OwnedHeap.Inv.free ht hlive
          rw [hhash] at hfreed
          exact hfreed
        · intro ref hmem
          rcases Set.mem_insert_iff.mp hmem with rfl | hmem
          · exact hsheds.index _ hprev
          · exact hsheds.index _ (hdangling ref hmem)
        · exact (FinMap.mem_iff_exists _ _).mpr ⟨p, howner⟩
        · simp [mapOrphanBlocks, deleteOrphan, free]
      · have hnode := sheds_node (c := c) (s := s)
          (s.node.acceptBlock c (env block) block).2 henters.keeps
        have hdeleted := sheds_deleteOrphan true hash (hnull.sheds hnode) hblock
        refine ⟨flag, _, dangling, rfl, ⟨?_, ?_, subset_rfl, ?_⟩, Or.inl ⟨rfl, rfl⟩⟩
        · have hfreed := OwnedHeap.Inv.free hinv hblock
          rw [hhash] at hfreed
          have hdropped := hfreed.dropRef (Set.mem_insert _ _)
          rw [Set.insert_sdiff_self_of_notMem hfresh] at hdropped
          exact hdropped
        · have hboth := hnode.trans hdeleted
          exact ⟨hboth.index, hboth.heap, hboth.stakes⟩
        · intro ref hmem
          exact henters.keeps _ (hdangling ref hmem)

/-- **The orphan pass over some hashes.** -/
theorem passOrphans_some (env : CBlock H → Env H) (hashes : List H) (flag : Bool)
    (hinv : Referenced c s dangling) (hnull : NoNullStake c s)
    (hdangling : ∀ ref ∈ dangling, ref.1 ∈ s.node.mapBlockIndex) :
    ∃ flag' t dangling', hashes.foldlM (passOrphan c env) (flag, s) = some (flag', t) ∧
      Passes c s t dangling dangling' ∧ ((flag' = flag ∧ dangling' = dangling) ∨ (flag' = true ∧
        dangling' ≠ dangling ∧ ∃ hash ∈ s.mapOrphanBlocks, hash ∉ t.mapOrphanBlocks)) := by
  induction hashes generalizing s dangling flag with
  | nil =>
    exact ⟨flag, s, dangling, rfl, ⟨hinv, sheds_node s.node fun _ h => h, subset_rfl, hdangling⟩,
      Or.inl ⟨rfl, rfl⟩⟩
  | cons hash hashes ih =>
    obtain ⟨flag₁, mid, dangling₁, hstep, hpass, hfirst⟩ := passOrphan_some env flag hash hinv hnull hdangling
    obtain ⟨flag₂, t, dangling₂, hloop, hpass', hrest⟩ :=
      ih flag₁ hpass.referenced (hnull.sheds hpass.sheds) hpass.indexed
    refine ⟨flag₂, t, dangling₂, ?_, hpass.trans hpass', ?_⟩
    · rw [List.foldlM_cons, hstep]
      exact hloop
    · have hmore : dangling₁ ≠ dangling → dangling₂ ≠ dangling := by
        rintro hne rfl
        exact hne (Set.Subset.antisymm hpass'.grows hpass.grows)
      rcases hfirst with ⟨rfl, rfl⟩ | ⟨rfl, hne, hin, hout⟩
      · rcases hrest with hsame | ⟨hflag, hne, hash', hin, hout⟩
        · exact Or.inl hsame
        · exact Or.inr ⟨hflag, hne, hash', mem_of_sheds hinv hpass.referenced hpass.sheds hin, hout⟩
      · refine Or.inr ⟨?_, hmore hne, hash, hin, ?_⟩
        · rcases hrest with ⟨rfl, _⟩ | ⟨hflag, _⟩
          · rfl
          · exact hflag
        · exact fun hmem => hout (mem_of_sheds hpass.referenced hpass'.referenced hpass'.sheds hmem)

/-- The orphans under some hashes. -/
def blocksAt (s : OrphanNode H) (hashes : List H) : List (CBlock H) :=
  hashes.filterMap fun hash => s.mapOrphanBlocks[hash]?.bind fun p => s.orphans.heap[p]?

/-- `AcceptBlock` refuses each of these blocks whose previous block is in the
index when its turn comes. -/
def refuses (c : Consensus H) (env : CBlock H → Env H) : Node H → List (CBlock H) → Bool
  | _, [] => true
  | node, block :: rest =>
    if block.hashPrevBlock ∉ node.mapBlockIndex then refuses c env node rest
    else
      let accepted := node.acceptBlock c (env block) block
      !accepted.1 && refuses c env accepted.2 rest

/-- The orphan pass connects no orphan itself. -/
def passRefuses (c : Consensus H) (s : OrphanNode H) (env : CBlock H → Env H) : Bool :=
  refuses c env s.node (s.blocksAt s.mapOrphanBlocks.keys)

omit [LawfulEqOrd H] in
/-- Progress is not forgotten. -/
theorem passOrphans_true (env : CBlock H → Env H) {hashes : List H}
    (h : hashes.foldlM (passOrphan c env) (true, s) = some (flag, t)) : flag = true := by
  have hstep : ∀ hash ∈ hashes, ∀ acc acc' : Bool × OrphanNode H, acc.1 = true →
      passOrphan c env acc hash = some acc' → acc'.1 = true := by
    intro hash _ acc acc' hacc hround
    unfold passOrphan at hround
    split at hround
    · rw [← Option.some.inj hround]
      exact hacc
    · obtain ⟨block, _, hround⟩ := bind_eq_some_iff.mp hround
      split at hround
      · rw [← Option.some.inj hround]
        exact hacc
      · simp only at hround
        split at hround
        · obtain ⟨u, _, hround⟩ := bind_eq_some_iff.mp hround
          obtain ⟨_, _, hround⟩ := map_eq_some_iff.mp hround
          rw [← hround]
        · rw [← Option.some.inj hround]
          exact hacc
  exact OptionLoop.foldlM_invariant (fun acc : Bool × OrphanNode H => acc.1 = true) hstep h rfl

theorem blocksAt_refused {hash : H} {hashes : List H} (hinv : Referenced c s dangling)
    (hp : s.mapOrphanBlocks[hash]? = some p) (hout : hash ∉ hashes) (node : Node H) :
    let t := { s with node := node }.deleteOrphan c true hash p block
    { t with orphans := t.orphans.dropRef block.hashPrevBlock p }.blocksAt hashes =
      s.blocksAt hashes := by
  refine filterMap_congr fun other hmem => ?_
  have hne : hash ≠ other := by
    rintro rfl
    exact hout hmem
  simp only [mapOrphanBlocks, deleteOrphan, free, dropRef]
  rw [FinMap.getElem?_erase_ne _ hne]
  cases hother : s.orphans.owner[other]? with
  | none => rfl
  | some p' =>
    have hpointer : p ≠ p' := by
      rintro rfl
      obtain ⟨block, hblock, hhash⟩ := (hinv.owner hash p).mp hp
      obtain ⟨block', hblock', hhash'⟩ := (hinv.owner other p).mp hother
      rw [hblock] at hblock'
      cases hblock'
      exact hne (hhash.symm.trans hhash')
    simp only [bind_some]
    rw [FinMap.getElem?_erase_ne _ hpointer]

/-- **A round of the pass makes no progress** exactly when every orphan is
refused. -/
theorem passOrphans_refuses (env : CBlock H → Env H) {hashes : List H} (hdistinct : hashes.Nodup)
    (hinv : Referenced c s dangling) (hnull : NoNullStake c s)
    (hdangling : ∀ ref ∈ dangling, ref.1 ∈ s.node.mapBlockIndex)
    (h : hashes.foldlM (passOrphan c env) (false, s) = some (flag, t)) :
    flag = false ↔ refuses c env s.node (s.blocksAt hashes) := by
  induction hashes generalizing s dangling with
  | nil =>
    cases h
    simp [blocksAt, refuses]
  | cons hash hashes ih =>
    obtain ⟨hout, hrest⟩ := nodup_cons.mp hdistinct
    obtain ⟨mid, hstep, hloop⟩ := OptionLoop.foldlM_cons h
    obtain ⟨flag₁, u, dangling₁, hstep', hpass, _⟩ := passOrphan_some env false hash hinv hnull hdangling
    have hmid : mid = (flag₁, u) := Option.some.inj (hstep.symm.trans hstep')
    subst hmid
    have hnext : flag₁ = false → (flag = false ↔ refuses c env u.node (u.blocksAt hashes)) := by
      rintro rfl
      exact ih hrest hpass.referenced (hnull.sheds hpass.sheds) hpass.indexed hloop
    unfold passOrphan at hstep
    cases howner : s.mapOrphanBlocks[hash]? with
    | none =>
      simp only [howner, Option.some.injEq, Prod.mk.injEq] at hstep
      obtain ⟨rfl, rfl⟩ := hstep
      rw [hnext rfl]
      simp [blocksAt, howner]
    | some p =>
      obtain ⟨block, hblock, _⟩ := (hinv.owner hash p).mp howner
      simp only [howner, hblock, bind_some] at hstep
      have hblocks : s.blocksAt (hash :: hashes) = block :: s.blocksAt hashes := by
        simp [blocksAt, howner, hblock]
      rw [hblocks, refuses]
      split at hstep
      · rename_i hprev
        simp only [Option.some.injEq, Prod.mk.injEq] at hstep
        obtain ⟨rfl, rfl⟩ := hstep
        rw [if_pos hprev]
        exact hnext rfl
      · rename_i hprev
        rw [if_neg hprev]
        split at hstep
        · rename_i haccepted
          obtain ⟨v, _, hround⟩ := bind_eq_some_iff.mp hstep
          obtain ⟨_, _, hround⟩ := map_eq_some_iff.mp hround
          obtain ⟨rfl, rfl⟩ := Prod.mk.inj hround
          rw [passOrphans_true env hloop]
          simp [haccepted]
        · rename_i hrefused
          obtain ⟨rfl, rfl⟩ := Prod.mk.inj (Option.some.inj hstep)
          rw [hnext rfl, blocksAt_refused hinv howner hout]
          simp [hrefused, deleteOrphan]

/-- **The rounds of the pass** end, since each but the last removes an orphan. -/
theorem passRounds_some (env : CBlock H → Env H) {fuel : Nat}
    (hfuel : s.mapOrphanBlocks.size < fuel) (hinv : Referenced c s dangling)
    (hnull : NoNullStake c s) (hdangling : ∀ ref ∈ dangling, ref.1 ∈ s.node.mapBlockIndex) :
    ∃ t dangling', passRounds c env fuel s = some t ∧ Passes c s t dangling dangling' ∧
      (dangling' = dangling ↔ s.passRefuses c env) := by
  induction fuel generalizing s dangling with
  | zero => exact absurd hfuel (Nat.not_lt_zero _)
  | succ fuel ih =>
    rw [passRounds]
    split
    · rename_i hempty
      have hkeys : s.mapOrphanBlocks.keys = [] :=
        ExtTreeMap.keys_eq_nil_iff.mpr (ExtTreeMap.isEmpty_iff.mp hempty)
      refine ⟨s, dangling, rfl, ⟨hinv, sheds_node s.node fun _ h => h, subset_rfl, hdangling⟩, ?_⟩
      rw [passRefuses, hkeys]
      simp [blocksAt, refuses]
    · obtain ⟨flag, mid, dangling₁, hround, hpass, hprogress⟩ :=
        passOrphans_some env s.mapOrphanBlocks.keys false hinv hnull hdangling
      have hrefuses : flag = false ↔ s.passRefuses c env :=
        passOrphans_refuses env ExtTreeMap.nodup_keys hinv hnull hdangling hround
      rw [hround, bind_some]
      rcases hprogress with ⟨rfl, rfl⟩ | ⟨rfl, hne, hash, hin, hout⟩
      · exact ⟨mid, dangling₁, rfl, hpass, fun _ => hrefuses.mp rfl, fun _ => rfl⟩
      · have hless : mid.mapOrphanBlocks.size < s.mapOrphanBlocks.size :=
          FinMap.size_lt_of_subset (fun _ => mem_of_sheds hinv hpass.referenced hpass.sheds) hin hout
        obtain ⟨t, dangling₂, hloop, hpass', _⟩ := ih
          (Nat.lt_of_lt_of_le hless (Nat.lt_succ_iff.mp hfuel)) hpass.referenced
          (hnull.sheds hpass.sheds) hpass.indexed
        refine ⟨t, dangling₂, hloop, hpass.trans hpass', ?_, ?_⟩
        · rintro rfl
          exact absurd (Set.Subset.antisymm hpass'.grows hpass.grows) hne
        · intro hquiet
          exact absurd (hrefuses.mpr hquiet) Bool.true_eq_false.mp

end OrphanNode

end MaryJaneCoin
