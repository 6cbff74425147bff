import MaryJaneCoin.Chain.OrphanPass

/-!
# Orphan bookkeeping over runs

`setStakeSeenOrphan` follows the log of the orphans that came and left.  Orphans
may share a stake, and then the first one to leave takes it out of the set.
-/

namespace MaryJaneCoin

open Std EventLog List

namespace OrphanNode

variable {H : Type} [Ord H] [TransOrd H] [DecidableEq H] {c : Consensus H} {s t : OrphanNode H}
  {dangling dangling' : Set (H × Nat)}

/-- The stakes of the orphans of `s` that `t` does not have. -/
def stakesWithout (c : Consensus H) (s t : OrphanNode H) : List (COutPoint H × UInt32) :=
  (s.orphans.heap.toList.filter fun entry =>
    !t.orphans.heap.contains entry.1 && entry.2.isProofOfStake c).map fun entry =>
      entry.2.getProofOfStake c

/-- The stakes of the orphans that left and came in a step. -/
def stakeEvents (c : Consensus H) (s t : OrphanNode H) : List (Event (COutPoint H × UInt32)) :=
  (stakesWithout c s t).map .removed ++ (stakesWithout c t s).map .added

/-- The runs of `ProcessBlock` and the orphan pass, with the log of the stakes of
the orphans that came and left, latest first, and whether no pass has connected
an orphan itself. -/
inductive OrphanRun (c : Consensus H) (first : Node H) :
    OrphanNode H → List (Event (COutPoint H × UInt32)) → Bool → Prop
  | start : OrphanRun c first (OrphanNode.start first) [] true
  | processBlock {s t : OrphanNode H} {log : List (Event (COutPoint H × UInt32))} {quiet : Bool}
      {env : ProcessEnv H} {block : CBlock H} {flag : Bool} (hs : OrphanRun c first s log quiet)
      (hcall : s.processBlock c env block = some (flag, t)) :
      OrphanRun c first t (stakeEvents c s t ++ log) quiet
  | connectOrphans {s t : OrphanNode H} {log : List (Event (COutPoint H × UInt32))}
      {quiet : Bool} {env : CBlock H → Env H} (hs : OrphanRun c first s log quiet)
      (hcall : s.connectOrphans c env = some t) :
      OrphanRun c first t (stakeEvents c s t ++ log) (quiet && s.passRefuses c env)

omit [TransOrd H] in
theorem mem_stakesWithout {stake : COutPoint H × UInt32} :
    stake ∈ stakesWithout c s t ↔ ∃ (p : Nat) (block : CBlock H),
      s.orphans.heap[p]? = some block ∧ t.orphans.heap[p]? = none ∧ block.isProofOfStake c ∧
        block.getProofOfStake c = stake := by
  simp only [stakesWithout, mem_map, mem_filter, Prod.exists,
    ExtTreeMap.mem_toList_iff_getElem?_eq_some, Bool.and_eq_true, Bool.not_eq_true']
  refine exists₂_congr fun p block => ?_
  rw [← Option.isNone_iff_eq_none, ← Option.not_isSome, ← ExtTreeMap.contains_eq_isSome_getElem?]
  grind

/-- Invariant of a run. -/
structure OrphanInv (c : Consensus H) (s : OrphanNode H)
    (log : List (Event (COutPoint H × UInt32))) (dangling : Set (H × Nat)) : Prop where
  referenced : Referenced c s dangling
  indexed : ∀ ref ∈ dangling, ref.1 ∈ s.node.mapBlockIndex
  stakes : s.setStakeSeenOrphan = replay log
  logged : ∀ (p : Nat) (block : CBlock H), s.orphans.heap[p]? = some block →
    block.isProofOfStake c → .added (block.getProofOfStake c) ∈ log
  held : ∀ stake ∈ s.setStakeSeenOrphan, ∃ (p : Nat) (block : CBlock H),
    s.orphans.heap[p]? = some block ∧ block.isProofOfStake c ∧ block.getProofOfStake c = stake

variable {log : List (Event (COutPoint H × UInt32))}

theorem OrphanInv.noNullStake (h : OrphanInv c s log dangling) : NoNullStake c s := by
  intro hmem
  obtain ⟨_, block, _, hpos, hstake⟩ := h.held _ hmem
  exact CBlock.getProofOfStake_null.1 hpos hstake

/-- **A step that deletes orphans** keeps the invariant. -/
theorem OrphanInv.sheds (h : OrphanInv c s log dangling) (hsheds : Sheds c s t)
    (hinv : Referenced c t dangling') (hindexed : ∀ ref ∈ dangling', ref.1 ∈ t.node.mapBlockIndex) :
    OrphanInv c t (stakeEvents c s t ++ log) dangling' := by
  have hnone : stakesWithout c t s = [] := by
    refine eq_nil_iff_forall_not_mem.mpr fun stake hmem => ?_
    obtain ⟨p, block, hblock, hgone, _⟩ := mem_stakesWithout.mp hmem
    rw [hsheds.heap p block hblock] at hgone
    cases hgone
  refine ⟨hinv, hindexed, ?_, ?_, ?_⟩
  · ext stake
    rw [stakeEvents, hnone, map_nil, append_nil, mem_replay_removed, ← h.stakes,
      hsheds.stakes, mem_stakesWithout]
    grind
  · intro p block hblock hpos
    exact mem_append_right _ (h.logged p block (hsheds.heap p block hblock) hpos)
  · intro stake hmem
    obtain ⟨hold, hall⟩ := (hsheds.stakes stake).mp hmem
    obtain ⟨p, block, hblock, hpos, hstake⟩ := h.held stake hold
    cases hkept : t.orphans.heap[p]? with
    | none => exact absurd hstake (hall p block hblock hkept hpos)
    | some block' =>
      have hsame := hsheds.heap p block' hkept
      rw [hblock] at hsame
      cases hsame
      exact ⟨p, block, hkept, hpos, hstake⟩

variable [LawfulEqOrd H] {block : CBlock H}

/-- **A new orphan** keeps the invariant. -/
theorem OrphanInv.addOrphan (h : OrphanInv c s log dangling) (env : ProcessEnv H)
    (hnew : block.getHash c ∉ s.mapOrphanBlocks) :
    OrphanInv c (s.addOrphan c env block).2 (stakeEvents c s (s.addOrphan c env block).2 ++ log)
      dangling := by
  have hsame : OrphanInv c s (stakeEvents c s s ++ log) dangling :=
    h.sheds (sheds_node s.node fun _ hmem => hmem) h.referenced h.indexed
  unfold OrphanNode.addOrphan
  simp only
  split
  · exact hsame
  · have hfree := (h.referenced.fresh s.orphans.next le_rfl).1
    have hheap : ∀ p : Nat, (s.orphans.alloc (block.getHash c) block.hashPrevBlock block).heap[p]? =
        if s.orphans.next = p then some block else s.orphans.heap[p]? := by
      intro p
      unfold OwnedHeap.alloc
      by_cases hp : s.orphans.next = p
      · subst hp
        simp
      · simp only
        rw [FinMap.getElem?_insert_ne _ _ hp, if_neg hp]
    have hkept : ∀ (p : Nat) (block' : CBlock H), s.orphans.heap[p]? = some block' →
        (s.orphans.alloc (block.getHash c) block.hashPrevBlock block).heap[p]? = some block' := by
      intro p block' hblock'
      rw [hheap, if_neg]
      · exact hblock'
      · rintro rfl
        rw [hfree] at hblock'
        cases hblock'
    have hself : (s.orphans.alloc (block.getHash c) block.hashPrevBlock block).heap[s.orphans.next]? =
        some block := by rw [hheap, if_pos rfl]
    -- what came is the stake of this block
    have hcame : ∀ (set : Finset (COutPoint H × UInt32)) (stake : COutPoint H × UInt32), stake ∈
        stakesWithout c ⟨s.node, s.orphans.alloc (block.getHash c) block.hashPrevBlock block,
          set⟩ s ↔ block.isProofOfStake c ∧ block.getProofOfStake c = stake := by
      intro set stake
      rw [mem_stakesWithout]
      constructor
      · rintro ⟨p, block', hblock', hgone, hpos, hstake⟩
        rw [hheap] at hblock'
        split at hblock'
        · cases hblock'
          exact ⟨hpos, hstake⟩
        · rw [hgone] at hblock'
          cases hblock'
      · rintro ⟨hpos, hstake⟩
        exact ⟨s.orphans.next, block, hself, hfree, hpos, hstake⟩
    have hleft : ∀ set : Finset (COutPoint H × UInt32),
        stakesWithout c s ⟨s.node, s.orphans.alloc (block.getHash c) block.hashPrevBlock block,
          set⟩ = [] := by
      intro set
      refine eq_nil_iff_forall_not_mem.mpr fun stake hmem => ?_
      obtain ⟨p, block', hblock', hgone, _⟩ := mem_stakesWithout.mp hmem
      rw [hkept p block' hblock'] at hgone
      cases hgone
    refine ⟨h.referenced.alloc hnew, h.indexed, ?_, ?_, ?_⟩
    · ext stake
      rw [stakeEvents, hleft, map_nil, nil_append, mem_replay_added, hcame, ← h.stakes]
      split
      · rename_i hpos
        rw [Finset.mem_insert]
        grind
      · rename_i hwork
        simp [hwork]
    · intro p block' hblock' hpos
      rw [hheap] at hblock'
      split at hblock'
      · cases hblock'
        refine mem_append_left _ (mem_append_right _ (mem_map_of_mem ?_))
        exact (hcame _ _).mpr ⟨hpos, rfl⟩
      · exact mem_append_right _ (h.logged p block' hblock' hpos)
    · intro stake hmem
      split at hmem
      · rename_i hpos
        rcases Finset.mem_insert.mp hmem with rfl | hmem
        · exact ⟨s.orphans.next, block, hself, hpos, rfl⟩
        · obtain ⟨p, block', hblock', hrest⟩ := h.held stake hmem
          exact ⟨p, block', hkept p block' hblock', hrest⟩
      · obtain ⟨p, block', hblock', hrest⟩ := h.held stake hmem
        exact ⟨p, block', hkept p block' hblock', hrest⟩

/-- **`ProcessBlock`** ends, keeps the invariant and leaves nothing dangling that
was not before. -/
theorem OrphanInv.processBlock (h : OrphanInv c s log dangling) (env : ProcessEnv H) (block : CBlock H) :
    ∃ flag t, s.processBlock c env block = some (flag, t) ∧
      OrphanInv c t (stakeEvents c s t ++ log) dangling := by
  have hsame : OrphanInv c s (stakeEvents c s s ++ log) dangling :=
    h.sheds (sheds_node s.node fun _ hmem => hmem) h.referenced h.indexed
  unfold OrphanNode.processBlock
  simp only
  split
  · exact ⟨false, s, rfl, hsame⟩
  · split
    · exact ⟨false, s, rfl, hsame⟩
    · rename_i hnew
      split
      · exact ⟨false, s, rfl, hsame⟩
      · split
        · exact ⟨false, s, rfl, hsame⟩
        · split
          · exact ⟨false, s, rfl, hsame⟩
          · split
            · exact ⟨_, _, rfl, h.addOrphan env hnew⟩
            · have henters := Node.enters_acceptBlock (c := c) s.node (env.accepting block) block
              have hnode := sheds_node (c := c) (s := s)
                (s.node.acceptBlock c (env.accepting block) block).2 henters.keeps
              have hindexed : ∀ ref ∈ dangling,
                  ref.1 ∈ (s.node.acceptBlock c (env.accepting block) block).2.mapBlockIndex :=
                fun ref hmem => henters.keeps _ (h.indexed ref hmem)
              split
              · exact ⟨false, _, rfl, h.sheds hnode h.referenced hindexed⟩
              · rename_i haccepted
                obtain ⟨t, hloop, ht, hsheds, _⟩ :=
                  connectChildren_some false env.accepting h.referenced h.noNullStake h.indexed
                    henters.keeps (henters.new (by simpa using haccepted))
                exact ⟨true, t, by rw [hloop]; rfl,
                  h.sheds hsheds ht fun ref hmem => hsheds.index _ (h.indexed ref hmem)⟩

/-- **The orphan pass** ends and keeps the invariant; it leaves a reference
dangling unless it connects no orphan itself. -/
theorem OrphanInv.connectOrphans (h : OrphanInv c s log dangling) (env : CBlock H → Env H) :
    ∃ t dangling', s.connectOrphans c env = some t ∧
      OrphanInv c t (stakeEvents c s t ++ log) dangling' ∧ dangling ⊆ dangling' ∧
      (dangling' = dangling ↔ s.passRefuses c env) := by
  obtain ⟨t, dangling', hloop, hpass, hquiet⟩ :=
    passRounds_some env (Nat.lt_succ_self _) h.referenced h.noNullStake h.indexed
  exact ⟨t, dangling', hloop, h.sheds hpass.sheds hpass.referenced hpass.indexed, hpass.grows, hquiet⟩

omit [LawfulEqOrd H] in
theorem orphanInv_start (c : Consensus H) (first : Node H) : OrphanInv c (start first) [] ∅ where
  referenced := OwnedHeap.inv_empty
  indexed := nofun
  stakes := rfl
  logged p block hblock := by simp [start, OwnedHeap.empty] at hblock
  held := nofun

variable {first : Node H} {quiet : Bool}

/-- **The invariant holds over every run.** -/
theorem OrphanRun.orphanInv (h : OrphanRun c first s log quiet) :
    ∃ dangling, OrphanInv c s log dangling ∧ (dangling = ∅ ↔ quiet) := by
  induction h with
  | start => exact ⟨∅, orphanInv_start c first, by simp⟩
  | processBlock _ hcall ih =>
    obtain ⟨dangling, hinv, hquiet⟩ := ih
    obtain ⟨flag, t, hcall', ht⟩ := hinv.processBlock _ _
    rw [hcall] at hcall'
    cases hcall'
    exact ⟨dangling, ht, hquiet⟩
  | connectOrphans _ hcall ih =>
    obtain ⟨dangling, hinv, hquiet⟩ := ih
    obtain ⟨t, dangling', hcall', ht, hgrows, hsame⟩ := hinv.connectOrphans _
    rw [hcall] at hcall'
    cases hcall'
    refine ⟨dangling', ht, ?_⟩
    rw [Bool.and_eq_true, ← hquiet, ← hsame]
    constructor
    · rintro rfl
      have hempty := Set.subset_empty_iff.mp hgrows
      exact ⟨hempty, hempty.symm⟩
    · rintro ⟨hempty, hsame⟩
      rw [hsame, hempty]

/-- The node behind `ProcessBlock`. -/
def processed (c : Consensus H) (s : OrphanNode H) (env : ProcessEnv H) (block : CBlock H) :
    OrphanNode H :=
  ((s.processBlock c env block).map Prod.snd).getD s

/-- The node behind the orphan pass. -/
def passed (c : Consensus H) (s : OrphanNode H) (env : CBlock H → Env H) : OrphanNode H :=
  (s.connectOrphans c env).getD s

theorem OrphanRun.processed (h : OrphanRun c first s log quiet) (env : ProcessEnv H)
    (block : CBlock H) : ∃ log, OrphanRun c first (s.processed c env block) log quiet := by
  obtain ⟨_, hinv, _⟩ := h.orphanInv
  obtain ⟨flag, t, hcall, _⟩ := hinv.processBlock env block
  refine ⟨stakeEvents c s t ++ log, ?_⟩
  rw [OrphanNode.processed, hcall]
  exact h.processBlock hcall

theorem OrphanRun.passed (h : OrphanRun c first s log quiet) (env : CBlock H → Env H) :
    ∃ log quiet, OrphanRun c first (s.passed c env) log quiet := by
  obtain ⟨_, hinv, _⟩ := h.orphanInv
  obtain ⟨t, _, hcall, _⟩ := hinv.connectOrphans env
  refine ⟨stakeEvents c s t ++ log, quiet && s.passRefuses c env, ?_⟩
  rw [OrphanNode.passed, hcall]
  exact h.connectOrphans hcall

end OrphanNode

end MaryJaneCoin
