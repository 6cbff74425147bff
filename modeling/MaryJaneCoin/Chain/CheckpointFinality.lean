import MaryJaneCoin.Chain.SyncCheckpoint
import MaryJaneCoin.Chain.TipCoherence

/-!
# Synchronized checkpoints are final

The block of the checkpoint stays on the best chain, and each new checkpoint descends
from the one before.  Both rest on walks down to a height: along a path of the index, a
walk that meets the hash of an entry has met the entry.
-/

namespace MaryJaneCoin

open Std Bool

/-- The block is a proper descendant of the other one. -/
def Descends {H : Type} [Ord H] [TransOrd H] (mapBlockIndex : ExtTreeMap H (PIndex H))
    (hash ancestor : H) : Prop :=
  ∃ path below, mapBlockIndex[hash]? = some path ∧ mapBlockIndex[ancestor]? = some below ∧
    below <:+ path ∧ below ≠ path

namespace CheckpointNode

variable {H : Type} [Ord H] [TransOrd H]

/-- **The checkpoint is on the best chain**: its block is in the index, and the tip or an
ancestor of it. -/
def SyncOnBestChain (s : CheckpointNode H) : Prop :=
  ∃ path, s.node.mapBlockIndex[s.hashSyncCheckpoint]? = some path ∧ path <:+ s.node.pindexBest

/-- **The invariant**: the checkpoint is on the best chain, and each value that it had
descends from the one before. -/
structure Final (s : CheckpointNode H) : Prop where
  inOrder : s.node.InOrder
  sync : s.SyncOnBestChain
  last : s.history.head? = some s.hashSyncCheckpoint
  history : s.history.IsChain (Descends s.node.mapBlockIndex)

end CheckpointNode

section

variable {H : Type} [Ord H] [TransOrd H] {mapBlockIndex : ExtTreeMap H (PIndex H)}

/-- A walk down that meets the hash of an entry has met the entry. -/
theorem Node.Indexed.lowerTo_eq {path below : PIndex H} {pindex : CBlockIndex H} {rest : PIndex H}
    {nHeight : Nat} {hash : H} (h : Node.Indexed mapBlockIndex path)
    (hlowered : lowerTo nHeight path = some (pindex :: rest)) (hhash : pindex.hash = hash)
    (hbelow : mapBlockIndex[hash]? = some below) : below <:+ path := by
  have hsuffix := lowerTo_suffix hlowered
  have hlook := (h pindex rest hsuffix).1
  rw [hhash, hbelow] at hlook
  cases hlook
  exact hsuffix

/-- What an index holds, a larger one holds. -/
theorem Descends.insert [LawfulEqOrd H] {hash ancestor new : H} {path : PIndex H}
    (h : Descends mapBlockIndex hash ancestor) (hnew : new ∉ mapBlockIndex) :
    Descends (mapBlockIndex.insert new path) hash ancestor := by
  have hkeeps : ∀ {old : H} {found : PIndex H}, mapBlockIndex[old]? = some found →
      (mapBlockIndex.insert new path)[old]? = some found := by
    intro old found hfound
    have hne : new ≠ old := fun heq =>
      hnew (heq ▸ (FinMap.mem_iff_exists _ _).mpr ⟨found, hfound⟩)
    rw [FinMap.getElem?_insert_ne _ _ hne, hfound]
  obtain ⟨above, below, habove, hbelow, hsuffix⟩ := h
  exact ⟨above, below, hkeeps habove, hkeeps hbelow, hsuffix⟩

end

namespace Node

variable {H : Type} [Ord H] [TransOrd H] [LawfulEqOrd H] [DecidableEq H] {s t : Node H}
  {pindex : CBlockIndex H} {pprev : PIndex H}

/-- **An entry that is in the main chain is the tip or below it.** -/
theorem InOrder.suffix_of_isInMainChain (h : s.InOrder) {hash : H}
    (hlook : s.mapBlockIndex[hash]? = some (pindex :: pprev))
    (hmain : s.isInMainChain pindex pprev = true) : pindex :: pprev <:+ s.pindexBest := by
  obtain ⟨-, rfl⟩ := h.indexed hlook
  rw [isInMainChain, or_eq_true, ExtTreeMap.contains_iff_mem, decide_eq_true_eq, h.links] at hmain
  rcases hmain with hlinked | heq
  · cases hbest : s.pindexBest with
    | nil => rw [hbest] at hlinked; simp [linksOf] at hlinked
    | cons best below =>
      rw [hbest] at hlinked
      obtain ⟨lower, rest, hsuffix, hhash⟩ := mem_linksOf hlinked
      have hentry := (h.best lower rest (hbest ▸ hsuffix.trans (List.suffix_cons _ _))).1
      rw [hhash, hlook] at hentry
      cases hentry
      exact hsuffix.trans (List.suffix_cons _ _)
  · exact heq ▸ List.suffix_rfl

/-- **Moving the tip** keeps the index in order. -/
theorem InOrder.moveTip {succeeds : Bool} (h : s.InOrder) (hindexed : Indexed s.mapBlockIndex
    (pindex :: pprev)) : (s.moveTip succeeds pindex pprev).2.InOrder ∧
      (s.moveTip succeeds pindex pprev).2.mapBlockIndex = s.mapBlockIndex ∧
      (s.moveTip succeeds pindex pprev).2.pindexBest =
        if (s.moveTip succeeds pindex pprev).1 then pindex :: pprev else s.pindexBest := by
  cases succeeds with
  | false => exact ⟨h, rfl, rfl⟩
  | true =>
    unfold Node.moveTip
    cases hfork : findFork (pindex :: pprev) s.pindexBest with
    | none => exact ⟨h, rfl, rfl⟩
    | some pfork =>
      obtain ⟨hbelow, habove⟩ := findFork_suffix hfork
      have hlinks : (downTo pfork (pindex :: pprev)).reverse.foldl link
          ((downTo pfork s.pindexBest).foldl unlink s.pnext) = linksOf (pindex :: pprev) := by
        rw [h.links, h.best.foldl_unlink hbelow, foldl_link habove]
      exact ⟨⟨h.path, hindexed, hlinks⟩, rfl, rfl⟩

omit [DecidableEq H] in
theorem InOrder.insert {prev : CBlockIndex H} {rest : PIndex H} (h : s.InOrder)
    (hnew : pindex.hash ∉ s.mapBlockIndex) (hprev : s.mapBlockIndex[prev.hash]? = some (prev :: rest))
    (hheight : pindex.nHeight = prev.nHeight + 1)
    (hmap : t.mapBlockIndex = s.mapBlockIndex.insert pindex.hash (pindex :: prev :: rest))
    (hlinks : t.pnext = s.pnext) (hbest : t.pindexBest = s.pindexBest) : t.InOrder := by
  constructor
  · rw [hmap]
    exact indexed_insert h.path hnew hprev hheight
  · rw [hmap, hbest]
    exact h.best.insert _ hnew
  · rw [hlinks, hbest]
    exact h.links

theorem InOrder.storeIndex {c : Consensus H} {env : Env H} {block : CBlock H} {nFile nBlockPos : Nat}
    (h : s.InOrder) (hprev : s.mapBlockIndex[block.hashPrevBlock]? = some (pindex :: pprev)) :
    let stored := (s.storeIndex c env block nFile nBlockPos)
    let path := newIndex c block nFile nBlockPos (pindex :: pprev) :: pindex :: pprev
    stored.2.InOrder ∧ stored.2.pindexBest = s.pindexBest ∧
      ((stored.1 = false ∧ stored.2.mapBlockIndex = s.mapBlockIndex) ∨
        (block.getHash c ∉ s.mapBlockIndex ∧
          stored.2.mapBlockIndex = s.mapBlockIndex.insert (block.getHash c) path)) := by
  dsimp only
  have hhead := (h.indexed hprev).2
  unfold Node.storeIndex
  dsimp only
  split
  · exact ⟨h, rfl, .inl ⟨rfl, rfl⟩⟩
  · rename_i hnew
    split
    · exact ⟨h, rfl, .inl ⟨rfl, rfl⟩⟩
    · rw [hprev, Option.getD_some]
      exact ⟨h.insert hnew (hhead ▸ hprev) rfl rfl rfl rfl, rfl, .inr ⟨hnew, rfl⟩⟩

end Node

namespace CheckpointNode

variable {H : Type} [Ord H] [TransOrd H] [LawfulEqOrd H] [DecidableEq H] {c : Consensus H}
  {s t : CheckpointNode H} {hash hashCheckpoint : H} {path : PIndex H}

omit [LawfulEqOrd H] [DecidableEq H] in
/-- What the invariant looks at is the same. -/
theorem Final.same (h : s.Final) (hnode : t.node.mapBlockIndex = s.node.mapBlockIndex)
    (hlinks : t.node.pnext = s.node.pnext) (hbest : t.node.pindexBest = s.node.pindexBest)
    (hsync : t.hashSyncCheckpoint = s.hashSyncCheckpoint) (hhistory : t.history = s.history) : t.Final := by
  constructor
  · constructor
    · rw [hnode]
      exact h.inOrder.path
    · rw [hnode, hbest]
      exact h.inOrder.best
    · rw [hlinks, hbest]
      exact h.inOrder.links
  · rw [SyncOnBestChain, hnode, hsync, hbest]
    exact h.sync
  · rw [hhistory, hsync]
    exact h.last
  · rw [hhistory, hnode]
    exact h.history

omit [LawfulEqOrd H] in
/-- **`ValidateSyncCheckpoint`** accepts proper descendants of the checkpoint only. -/
theorem validate_cases (h : s.Final) : (s.validateSyncCheckpoint hashCheckpoint).2.Final ∧
      ((s.validateSyncCheckpoint hashCheckpoint).1 = true → (s.validateSyncCheckpoint hashCheckpoint).2 = s ∧
          Descends s.node.mapBlockIndex hashCheckpoint s.hashSyncCheckpoint) := by
  have hmarked : Final { s with hashInvalidCheckpoint := hashCheckpoint } :=
    h.same rfl rfl rfl rfl rfl
  unfold validateSyncCheckpoint
  split
  · rename_i sync syncPrev recv recvPrev hsync hrecv
    split
    · split
      · split
        · exact ⟨hmarked, nofun⟩
        · exact ⟨h, nofun⟩
      · exact ⟨h, nofun⟩
    · rename_i hhigher
      split
      · rename_i pindex rest hlowered
        split
        · exact ⟨hmarked, nofun⟩
        · rename_i hhash
          refine ⟨h, fun _ => ⟨rfl, recv :: recvPrev, sync :: syncPrev, hrecv, hsync, ?_, ?_⟩⟩
          · exact (h.inOrder.indexed hrecv).1.lowerTo_eq hlowered (not_not.mp hhash) hsync
          · intro heq
            cases heq
            exact hhigher le_rfl
      · exact ⟨h, nofun⟩
  · exact ⟨h, nofun⟩

/-- **The best chain is led through the checkpoint.** -/
theorem enforce_cases {env : CheckpointEnv H} (h : s.Final)
    (hdescends : Descends s.node.mapBlockIndex hashCheckpoint s.hashSyncCheckpoint) :
    (s.enforce c env hashCheckpoint).2.Final ∧ ((s.enforce c env hashCheckpoint).1 = true →
        ∃ path, (s.enforce c env hashCheckpoint).2.node.mapBlockIndex[hashCheckpoint]? = some path ∧
          path <:+ (s.enforce c env hashCheckpoint).2.node.pindexBest ∧
          Descends (s.enforce c env hashCheckpoint).2.node.mapBlockIndex hashCheckpoint
            (s.enforce c env hashCheckpoint).2.hashSyncCheckpoint) := by
  have hmarked : Final { s with hashInvalidCheckpoint := hashCheckpoint } :=
    h.same rfl rfl rfl rfl rfl
  unfold enforce
  split
  · rename_i pindex pprev hlook
    split
    · rename_i hmain
      exact ⟨h, fun _ => ⟨_, hlook, h.inOrder.suffix_of_isInMainChain hlook hmain, hdescends⟩⟩
    · split
      · exact ⟨h, nofun⟩
      · generalize env.setsBestChain s.node (pindex :: pprev) = succeeds
        obtain ⟨hinOrder, hmap, hbest⟩ :=
          @Node.InOrder.moveTip _ _ _ _ _ s.node pindex pprev succeeds h.inOrder (h.inOrder.indexed hlook).1
        dsimp only
        split
        · exact ⟨hmarked, nofun⟩
        · rename_i hmoved
          rw [not_eq_true', not_eq_false] at hmoved
          rw [hmoved, if_pos rfl] at hbest
          -- The old checkpoint is below the new one, which is the tip now.
          obtain ⟨above, below, habove, hbelow, hsuffix, hne⟩ := hdescends
          rw [hlook] at habove
          cases habove
          have hlook' : (s.node.moveTip succeeds pindex pprev).2.mapBlockIndex[hashCheckpoint]? =
              some (pindex :: pprev) := hmap ▸ hlook
          have hbelow' : (s.node.moveTip succeeds pindex pprev).2.mapBlockIndex[s.hashSyncCheckpoint]? =
              some below := hmap ▸ hbelow
          refine ⟨⟨hinOrder, ⟨below, hbelow', hbest ▸ hsuffix⟩, h.last, ?_⟩, fun _ => ?_⟩
          · rw [hmap]
            exact h.history
          · exact ⟨_, hlook', hbest ▸ List.suffix_rfl, _, below, hlook', hbelow', hsuffix, hne⟩
  · exact ⟨h, nofun⟩

omit [LawfulEqOrd H] [DecidableEq H] in
theorem Final.write {env : CheckpointEnv H} (h : s.Final)
    (hlook : s.node.mapBlockIndex[hashCheckpoint]? = some path) (hbest : path <:+ s.node.pindexBest)
    (hdescends : Descends s.node.mapBlockIndex hashCheckpoint s.hashSyncCheckpoint) :
    (s.writeSyncCheckpoint env hashCheckpoint).2.Final := by
  unfold writeSyncCheckpoint
  split
  · refine ⟨h.inOrder, ⟨path, hlook, hbest⟩, rfl, ?_⟩
    cases hhistory : s.history with
    | nil => exact .singleton _
    | cons last history =>
      have hlast := h.last
      have hchain := h.history
      rw [hhistory] at hlast hchain
      cases hlast
      exact .cons_cons hdescends hchain
  · exact h

/-- **A checkpoint that is validated is enforced and written**, or nothing is. -/
theorem Final.install (h : s.Final) (c : Consensus H) (env : CheckpointEnv H)
    (hdescends : Descends s.node.mapBlockIndex hashCheckpoint s.hashSyncCheckpoint) :
    (s.enforce c env hashCheckpoint).2.Final ∧ ((s.enforce c env hashCheckpoint).1 = true →
        ((s.enforce c env hashCheckpoint).2.writeSyncCheckpoint env hashCheckpoint).2.Final) := by
  obtain ⟨hfinal, hcases⟩ := @enforce_cases _ _ _ _ _ c s hashCheckpoint env h hdescends
  refine ⟨hfinal, fun henforced => ?_⟩
  obtain ⟨path, hlook, hbest, hdescends'⟩ := hcases henforced
  exact hfinal.write hlook hbest hdescends'

theorem Final.acceptPendingSyncCheckpoint (h : s.Final) (env : CheckpointEnv H) :
    (s.acceptPendingSyncCheckpoint c env).2.Final := by
  unfold CheckpointNode.acceptPendingSyncCheckpoint
  obtain ⟨hvalidated, hcases⟩ := @validate_cases _ _ _ _ s s.hashPendingCheckpoint h
  split
  · dsimp only
    split
    · exact hvalidated.same rfl rfl rfl rfl rfl
    · rename_i hvalid
      rw [not_eq_true', not_eq_false] at hvalid
      obtain ⟨hsame, hdescends⟩ := hcases hvalid
      rw [hsame]
      obtain ⟨henforced, hwritten⟩ := h.install c env hdescends
      split
      · exact henforced
      · rename_i hdone
        rw [not_eq_true', not_eq_false] at hdone
        split
        · exact hwritten hdone
        · exact (hwritten hdone).same rfl rfl rfl rfl rfl
  · exact h

theorem Final.processSyncCheckpoint (h : s.Final) (key : CheckpointKey H) (env : CheckpointEnv H)
    (message : CSyncCheckpoint H) : (s.processSyncCheckpoint c key env message).2.Final := by
  unfold CheckpointNode.processSyncCheckpoint
  split
  · exact h
  · rename_i checkpoint _
    obtain ⟨hvalidated, hcases⟩ := @validate_cases _ _ _ _ s checkpoint.hashCheckpoint h
    dsimp only
    split
    · exact h.same rfl rfl rfl rfl rfl
    · split
      · exact hvalidated
      · rename_i hvalid
        rw [not_eq_true', not_eq_false] at hvalid
        obtain ⟨hsame, hdescends⟩ := hcases hvalid
        rw [hsame]
        obtain ⟨henforced, hwritten⟩ := h.install c env hdescends
        split
        · exact henforced
        · rename_i hdone
          rw [not_eq_true', not_eq_false] at hdone
          split
          · exact hwritten hdone
          · exact (hwritten hdone).same rfl rfl rfl rfl rfl

omit [LawfulEqOrd H] in
/-- **`CheckSync`** lets a new block pass only behind the checkpoint. -/
theorem suffix_of_checkSync {pindexPrev : CBlockIndex H} {pprev : PIndex H}
    (hindexed : Node.Indexed s.node.mapBlockIndex (pindexPrev :: pprev))
    (hnew : hash ∉ s.node.mapBlockIndex) (hcheck : s.checkSync hash pindexPrev pprev = true) :
    ∀ path, s.node.mapBlockIndex[s.hashSyncCheckpoint]? = some path → path <:+ pindexPrev :: pprev := by
  intro path hsync
  have hmem : s.hashSyncCheckpoint ∈ s.node.mapBlockIndex := (FinMap.mem_iff_exists _ _).mpr ⟨path, hsync⟩
  unfold checkSync at hcheck
  cases path with
  | nil => exact List.nil_suffix
  | cons sync syncPrev =>
    simp only [hsync] at hcheck
    split at hcheck
    · split at hcheck
      · rename_i pindex rest hlowered
        rw [not_eq_true', or_eq_false_iff, bne_eq_false_iff_eq] at hcheck
        exact hindexed.lowerTo_eq hlowered hcheck.2 hsync
      · cases hcheck
    · split at hcheck
      · exact absurd ((beq_iff_eq.mp hcheck).symm ▸ hmem) hnew
      · exact absurd (ExtTreeMap.contains_iff_mem.mp hcheck) hnew

omit [DecidableEq H] in
theorem Final.enter {node : Node H} {added : PIndex H} (h : s.Final) (hinOrder : node.InOrder)
    (hnew : hash ∉ s.node.mapBlockIndex) (hmap : node.mapBlockIndex = s.node.mapBlockIndex.insert hash added)
    (hbest : ∀ path, s.node.mapBlockIndex[s.hashSyncCheckpoint]? = some path → path <:+ node.pindexBest) :
    Final { s with toOrphanNode := { s.toOrphanNode with node := node } } := by
  obtain ⟨path, hlook, -⟩ := h.sync
  have hne : hash ≠ s.hashSyncCheckpoint := fun heq =>
    hnew (heq ▸ (FinMap.mem_iff_exists _ _).mpr ⟨path, hlook⟩)
  refine ⟨hinOrder, ⟨path, ?_, hbest path hlook⟩, h.last, ?_⟩
  · dsimp only
    rw [hmap, FinMap.getElem?_insert_ne _ _ hne, hlook]
  · dsimp only
    rw [hmap]
    exact h.history.imp fun _ _ hdescends => hdescends.insert hnew

variable {sync : CheckpointEnv H}

/-- **`AddToBlockIndex`**, of a block behind the checkpoint. -/
theorem Final.addToBlockIndex {env : Env H} {block : CBlock H}
    {nFile nBlockPos : Nat} {pindexPrev : CBlockIndex H} {pprev : PIndex H} (h : s.Final)
    (hprev : s.node.mapBlockIndex[block.hashPrevBlock]? = some (pindexPrev :: pprev))
    (hsync : ∀ path, s.node.mapBlockIndex[s.hashSyncCheckpoint]? = some path →
    path <:+ pindexPrev :: pprev) : Final { s with toOrphanNode := { s.toOrphanNode with
      node := (CheckpointNode.addToBlockIndex c env sync s.node block nFile nBlockPos).2 } } := by
  obtain ⟨hinOrder, hbest, hcases⟩ :=
    @Node.InOrder.storeIndex _ _ _ _ _ s.node pindexPrev pprev c env block nFile nBlockPos h.inOrder hprev
  have hkeeps : ∀ path, s.node.mapBlockIndex[s.hashSyncCheckpoint]? = some path →
      path <:+ s.node.pindexBest := by
    intro path hlook
    obtain ⟨below, hbelow, hsuffix⟩ := h.sync
    rw [hlook] at hbelow
    cases hbelow
    exact hsuffix
  unfold CheckpointNode.addToBlockIndex
  dsimp only
  rw [hprev, Option.getD_some]
  rcases hcases with ⟨hflag, hmap⟩ | ⟨hnew, hmap⟩
  · rw [hflag]
    have hlinks := hinOrder.links
    rw [hbest, ← h.inOrder.links] at hlinks
    exact h.same hmap hlinks hbest rfl rfl
  · have hstored := h.enter hinOrder hnew hmap fun path hlook => hbest ▸ hkeeps path hlook
    split
    · exact hstored
    · split
      · have hindexed := (hinOrder.path _ _ (hmap ▸ ExtTreeMap.getElem?_insert_self)).1
        generalize sync.setsBestChain _ _ = succeeds
        obtain ⟨hmoved, hmap', hbest'⟩ := @Node.InOrder.moveTip _ _ _ _ _ _ _ _ succeeds hinOrder hindexed
        refine h.enter hmoved hnew (hmap'.trans hmap) fun path hlook => ?_
        rw [hbest']
        split
        · exact (hsync path hlook).trans (List.suffix_cons _ _)
        · exact hbest ▸ hkeeps path hlook
      · exact hstored

/-- **`AcceptBlock` keeps the invariant.** -/
theorem Final.acceptBlock (h : s.Final) (env : Env H) (sync : CheckpointEnv H) (block : CBlock H) :
    (s.acceptBlock c env sync block).2.Final := by
  unfold CheckpointNode.acceptBlock
  dsimp only
  split
  · exact h
  · rename_i hnew
    cases hprev : s.node.mapBlockIndex[block.hashPrevBlock]? with
    | none => exact h
    | some path =>
      rw [Option.getD_some]
      cases path with
      | nil => exact h
      | cons pindexPrev pprev =>
        dsimp only
        split
        · exact h
        · rename_i hrules
          rw [not_eq_true', not_eq_false] at hrules
          have hcheck : s.checkSync (block.getHash c) pindexPrev pprev = true := by
            rw [CBlock.acceptRules] at hrules
            exact (and_eq_true_iff.mp (and_eq_true_iff.mp hrules).1).2
          have hsync := suffix_of_checkSync (h.inOrder.indexed hprev).1 hnew hcheck
          cases hwritten : s.node.writeToDisk env block with
          | none => exact h
          | some result =>
            obtain ⟨nFile, nBlockPos, written⟩ := result
            have hframe := (Node.writeToDisk_some hwritten).2.2
            have hon : Final { s with toOrphanNode := { s.toOrphanNode with node := written } } := by
              rw [hframe]
              exact h.same rfl rfl rfl rfl rfl
            have hmap : written.mapBlockIndex = s.node.mapBlockIndex := by rw [hframe]
            have hadded := @Final.addToBlockIndex _ _ _ _ _ c _ sync env block nFile nBlockPos
              pindexPrev pprev hon (hmap.symm ▸ hprev) (hmap.symm ▸ hsync)
            dsimp only
            split
            · exact hadded
            · exact hadded.acceptPendingSyncCheckpoint sync

/-- The round for a child keeps the invariant. -/
theorem Final.acceptChild {env : CBlock H → Env H}
    {acc done : List H × CheckpointNode H} {pblock : Nat} (h : acc.2.Final)
    (hround : CheckpointNode.acceptChild c env sync acc pblock = some done) : done.2.Final := by
  obtain ⟨block, -, rfl⟩ := Option.map_eq_some_iff.mp hround
  exact (h.acceptBlock (env block) sync block).same rfl rfl rfl rfl rfl

/-- **The loop over the work queue keeps the invariant.** -/
theorem Final.workQueue {env : CBlock H → Env H} {fuel : Nat} {queue : List H} (h : s.Final)
    (hloop : CheckpointNode.workQueue c env sync fuel queue s = some t) : t.Final := by
  induction fuel generalizing queue s with
  | zero =>
    cases queue with
    | nil => cases hloop; exact h
    | cons hashPrev queue => cases hloop
  | succ fuel ih =>
    cases queue with
    | nil => cases hloop; exact h
    | cons hashPrev queue =>
      obtain ⟨done, hchildren, hrest⟩ := Option.bind_eq_some_iff.mp hloop
      have hdone : done.2.Final :=
        OptionLoop.foldlM_invariant (fun acc : List H × CheckpointNode H => acc.2.Final)
          (fun _ _ _ _ hacc hround => hacc.acceptChild hround) hchildren h
      have herased : Final { done.2 with
          toOrphanNode := done.2.toOrphanNode.eraseByPrev hashPrev } :=
        hdone.same rfl rfl rfl rfl rfl
      exact ih herased hrest

theorem Final.sendSyncCheckpoint (h : s.Final) (key : CheckpointKey H) (env : CheckpointEnv H) :
    (s.sendSyncCheckpoint c key env).Final := by
  unfold CheckpointNode.sendSyncCheckpoint
  split
  · exact h
  · dsimp only
    split
    · exact h
    · exact h.processSyncCheckpoint key env _

theorem Final.processBlock {key : CheckpointKey H} {fFromPeer : Bool} {env : ProcessEnv H}
    {block : CBlock H} {done : Bool × CheckpointNode H} (h : s.Final)
    (hcall : s.processBlock c key fFromPeer env sync block = some done) : done.2.Final := by
  have horphaned : Final { s with toOrphanNode := (s.toOrphanNode.addOrphan c env block).2 } := by
    have hnode : (s.toOrphanNode.addOrphan c env block).2.node = s.node := by
      unfold OrphanNode.addOrphan
      dsimp only
      split <;> rfl
    exact h.same (congrArg Node.mapBlockIndex hnode) (congrArg Node.pnext hnode)
      (congrArg Node.pindexBest hnode) rfl rfl
  have haccepted := h.acceptBlock (c := c) (env.accepting block) sync block
  unfold CheckpointNode.processBlock at hcall
  dsimp only at hcall
  split_ifs at hcall
  -- The tests before the block is accepted, or kept as an orphan, change nothing.
  iterate 5
    · cases hcall
      exact h
  · cases hcall
    exact haccepted
  · obtain ⟨last, hqueue, rfl⟩ := Option.map_eq_some_iff.mp hcall
    exact (haccepted.workQueue hqueue).sendSyncCheckpoint key sync
  · obtain ⟨last, hqueue, rfl⟩ := Option.map_eq_some_iff.mp hcall
    exact haccepted.workQueue hqueue
  · cases hcall
    exact horphaned

/-- **One event keeps the invariant.** -/
theorem Final.step {key : CheckpointKey H} {event : CheckpointEvent H} (h : s.Final)
    (hstep : s.step c key event = some t) : t.Final := by
  cases event with
  | processBlock _ env sync block =>
    obtain ⟨done, hcall, rfl⟩ := Option.map_eq_some_iff.mp hstep
    exact h.processBlock hcall
  | acceptBlock env sync block =>
    cases hstep
    exact h.acceptBlock env sync block
  | processSyncCheckpoint sync message =>
    cases hstep
    exact h.processSyncCheckpoint key sync message
  | acceptPendingSyncCheckpoint sync =>
    cases hstep
    exact h.acceptPendingSyncCheckpoint sync

/-- **Synchronized checkpoints are final**: in every state of a run the checkpoint is on
the best chain, and each value that it had is a proper descendant of the one before. -/
theorem sync_checkpoints_final {key : CheckpointKey H} {events : List (CheckpointEvent H)}
    (hinOrder : s.node.InOrder) (hsync : s.SyncOnBestChain) (hhistory : s.history = [s.hashSyncCheckpoint])
    (hrun : events.foldlM (CheckpointNode.step c key) s = some t) :
    t.SyncOnBestChain ∧ t.history.head? = some t.hashSyncCheckpoint ∧
      t.history.IsChain (Descends t.node.mapBlockIndex) := by
  have hstart : s.Final := by
    refine ⟨hinOrder, hsync, by rw [hhistory]; rfl, ?_⟩
    rw [hhistory]
    exact .singleton _
  have hlast : t.Final :=
    OptionLoop.foldlM_invariant Final (fun _ _ _ _ hs hstep => hs.step hstep) hrun hstart
  exact ⟨hlast.sync, hlast.last, hlast.history⟩

/-- The node with the genesis block, which is its checkpoint. -/
def checkpointedGenesis : CheckpointNode (List Nat) where
  toOrphanNode := .start (Node.genesis sampleConsensus sampleGenesis)
  hashSyncCheckpoint := sampleGenesis.getHash sampleConsensus
  hashPendingCheckpoint := transparent.zero
  hashInvalidCheckpoint := transparent.zero
  checkpointMessage := nullMessage sampleConsensus
  checkpointMessagePending := nullMessage sampleConsensus
  history := [sampleGenesis.getHash sampleConsensus]

/-- The message that names the block behind genesis is signed. -/
def childKey : CheckpointKey (List Nat) where
  verify _ _ := true
  sign _ := none
  serialize _ _ := []
  unserialize _ := some (1, childBlock.getHash sampleConsensus)

def everythingSucceeds : CheckpointEnv (List Nat) := ⟨fun _ _ => true, fun _ => true, sampleEnv 1000⟩

/-- The message comes before its block. -/
def checkpointFirst : List (CheckpointEvent (List Nat)) :=
  [.processSyncCheckpoint everythingSucceeds (nullMessage sampleConsensus),
    .acceptBlock (sampleEnv 1000) everythingSucceeds childBlock]

theorem sync_checkpoints_final_child :
    ∃ t, checkpointFirst.foldlM (step sampleConsensus childKey) checkpointedGenesis = some t ∧
      t.hashSyncCheckpoint = childBlock.getHash sampleConsensus ∧ t.SyncOnBestChain ∧
      t.history.head? = some t.hashSyncCheckpoint ∧ t.history.IsChain (Descends t.node.mapBlockIndex) := by
  have hgenesis := Node.tipInv_genesis sampleConsensus sampleGenesis
  have hinOrder : checkpointedGenesis.node.InOrder :=
    ⟨hgenesis.index.path, hgenesis.tip.indexed, hgenesis.tip.links⟩
  have hsync : checkpointedGenesis.SyncOnBestChain := ⟨_, ExtTreeMap.getElem?_insert_self, List.suffix_rfl⟩
  have hchild : ((checkpointFirst.foldlM (step sampleConsensus childKey) checkpointedGenesis).map
      fun t => t.hashSyncCheckpoint) = some (childBlock.getHash sampleConsensus) := by decide +kernel
  obtain ⟨t, hrun, hhash⟩ := Option.map_eq_some_iff.mp hchild
  exact ⟨t, hrun, hhash, sync_checkpoints_final hinOrder hsync rfl hrun⟩

end CheckpointNode

end MaryJaneCoin
