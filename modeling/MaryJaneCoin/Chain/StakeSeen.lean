import MaryJaneCoin.Chain.FailedSwitch
import MaryJaneCoin.Chain.TipCoherence
import MaryJaneCoin.Lib.EventLog

/-!
# The stakes seen

A stake enters `setStakeSeen` when a block is entered into the index and leaves
it when `Reorganize` disconnects a block, also one that fails later.  Connecting
a block does not bring its stake back.  So the set follows the log of these
events, and a stake of the best chain is missing exactly when the latest event
about it is that a block was disconnected.
-/

namespace MaryJaneCoin

open CBlockIndex
open List hiding Vector
open Std EventLog

variable {H : Type}

/-- The stake of a block index entry. -/
def CBlockIndex.stake (pindex : CBlockIndex H) : COutPoint H × UInt32 :=
  (pindex.prevoutStake, pindex.nStakeTime)

/-- The stakes of the proof-of-stake entries among these. -/
def stakesOf (entries : List (CBlockIndex H)) : List (COutPoint H × UInt32) :=
  (entries.filter CBlockIndex.fProofOfStake).map CBlockIndex.stake

theorem mem_stakesOf {entries : List (CBlockIndex H)} {pindex : CBlockIndex H}
    (hmem : pindex ∈ entries) (hpos : pindex.fProofOfStake) : pindex.stake ∈ stakesOf entries :=
  mem_map_of_mem (mem_filter.mpr ⟨hmem, hpos⟩)

namespace Node

variable [Ord H] [TransOrd H] [DecidableEq H] {c : Consensus H} {env : Env H} {block : CBlock H}
  {pindex : CBlockIndex H} {pprev path : PIndex H}

/-- Every proof-of-stake block from genesis to the tip has its stake in
`setStakeSeen`. -/
def StakesSeen (s : Node H) : Prop :=
  ∀ pindex ∈ s.pindexBest, pindex.fProofOfStake → pindex.stake ∈ s.setStakeSeen

/-- The entry that `storeIndex` enters into the index, if it does. -/
def enters (c : Consensus H) (s : Node H) (env : Env H) (block : CBlock H)
    (nFile nBlockPos : Nat) : List (CBlockIndex H) :=
  if block.getHash c ∈ s.mapBlockIndex ∨ env.computesStakeModifier (block.getHash c) = false then []
  else [newIndex c block nFile nBlockPos (s.mapBlockIndex[block.hashPrevBlock]?.getD [])]

/-- The entries that `Reorganize` disconnects, whether it succeeds or not. -/
def reorganizeUndoes (c : Consensus H) (s : Node H) (env : Env H) (pindexNew : CBlockIndex H)
    (pprev : PIndex H) : List (CBlockIndex H) :=
  match findFork (pindexNew :: pprev) s.pindexBest with
  | none => []
  | some pfork =>
    (EarlyExit.passed (disconnectIndex c env) s (downTo pfork s.pindexBest)).map Prod.fst

/-- The entries that `SetBestChain` disconnects. -/
def switchUndoes (c : Consensus H) (s : Node H) (env : Env H) (block : CBlock H)
    (pindexNew : CBlockIndex H) (pprev : PIndex H) : List (CBlockIndex H) :=
  if s.pindexGenesisBlock = [] ∧ pindexNew.nHeight = 0 then []
  else if block.hashPrevBlock = s.hashBestChain then []
  else
    let intermediate :=
      (postpone ((s.pindexBest.head?.map CBlockIndex.nChainTrust).getD 0) pindexNew pprev).2
    s.txnBegin.reorganizeUndoes c env intermediate.1 intermediate.2

/-- The runs of a node from the genesis block on, with the log of the stakes of
the blocks that were entered into the index and disconnected, latest first. -/
inductive StakeRun (c : Consensus H) (first : CBlock H) :
    Node H → List (Event (COutPoint H × UInt32)) → Prop
  | genesis : StakeRun c first (Node.genesis c first) []
  | index {s written : Node H} {log : List (Event (COutPoint H × UInt32))} {env : Env H}
      {block : CBlock H} {pindexPrev : CBlockIndex H} {pprev : PIndex H} {nFile nBlockPos : Nat}
      (hs : StakeRun c first s log)
      (hprev : s.mapBlockIndex[block.hashPrevBlock]? = some (pindexPrev :: pprev))
      (hrules : block.acceptRules c pindexPrev pprev (env.checksProofOfStake block)
        (env.checksSync (block.getHash c)))
      (hwritten : s.writeToDisk env block = some (nFile, nBlockPos, written)) :
      StakeRun c first (written.storeIndex c env block nFile nBlockPos).2
        ((stakesOf (written.enters c env block nFile nBlockPos)).map .added ++ log)
  | switch {s : Node H} {log : List (Event (COutPoint H × UInt32))} {env : Env H}
      {block : CBlock H} {pindex : CBlockIndex H} {pprev : PIndex H}
      (hs : StakeRun c first s log)
      (hlook : s.mapBlockIndex[pindex.hash]? = some (pindex :: pprev))
      (hfile : s.blockFiles pindex.nFile pindex.nBlockPos = some block) :
      StakeRun c first (s.setBestChain c env block pindex pprev).2
        ((stakesOf (s.switchUndoes c env block pindex pprev)).reverse.map .removed ++ log)

/-- The two nodes have the same block index and the same stakes. -/
structure SameStakes (s t : Node H) : Prop where
  mapBlockIndex : t.mapBlockIndex = s.mapBlockIndex
  setStakeSeen : t.setStakeSeen = s.setStakeSeen

variable {s t u : Node H}

section

omit [TransOrd H] [DecidableEq H]

theorem SameStakes.rfl : SameStakes s s := ⟨Eq.refl _, Eq.refl _⟩

theorem SameStakes.trans (h : SameStakes s t) (h' : SameStakes t u) : SameStakes s u :=
  ⟨h'.mapBlockIndex.trans h.mapBlockIndex, h'.setStakeSeen.trans h.setStakeSeen⟩

theorem sameStakes_commitTip (s : Node H) (env : Env H) (hash : H)
    (relink : ExtTreeMap H H → ExtTreeMap H H) : SameStakes s (s.commitTip env hash relink).2 := by
  unfold commitTip
  simp only
  split
  · exact ⟨rfl, rfl⟩
  · exact ⟨rfl, rfl⟩

end

omit [DecidableEq H] in
theorem sameStakes_connected (s : Node H) (pindex : CBlockIndex H) (pprev : PIndex H)
    (acc : ConnectState H) (mwState : CMWState H) :
    SameStakes s (s.connected c pindex pprev acc mwState) := by
  refine ⟨?_, setStakeSeen_connected c s pindex pprev acc mwState⟩
  rw [connected_frame]

theorem sameStakes_connectBlock (s : Node H) (env : Env H) (block : CBlock H)
    (pindex : CBlockIndex H) (pprev : PIndex H) :
    SameStakes s (s.connectBlock c env block pindex pprev false).2 := by
  rw [connectBlock_eq]
  cases s.connectChecks c env block pindex pprev false with
  | none => exact .rfl
  | some acc =>
    cases connectMWEB c s.g_mwState block pindex with
    | none => exact sameStakes_connected s pindex pprev acc s.g_mwState
    | some mwState => exact sameStakes_connected s pindex pprev acc mwState

theorem sameStakes_setBestChainInner (s : Node H) (env : Env H) (block : CBlock H)
    (pindex : CBlockIndex H) (pprev : PIndex H) :
    SameStakes s (s.setBestChainInner c env block pindex pprev).2 := by
  have hconnected := sameStakes_connectBlock (c := c) s env block pindex pprev
  unfold setBestChainInner
  simp only
  split
  · exact ⟨hconnected.mapBlockIndex, hconnected.setStakeSeen⟩
  · exact hconnected.trans (sameStakes_commitTip _ env _ _)

theorem sameStakes_connectSecondary (env : Env H) (s : Node H) (entry : CBlockIndex H × PIndex H) :
    SameStakes s (connectSecondary c env s entry).2 := by
  unfold connectSecondary
  split
  · exact .rfl
  · have hinner := sameStakes_setBestChainInner (c := c) s.txnBegin env ‹_› entry.1 entry.2
    exact ⟨hinner.mapBlockIndex, hinner.setStakeSeen⟩

theorem sameStakes_connectIndex (env : Env H) (s : Node H) (entry : CBlockIndex H × PIndex H) :
    SameStakes s (connectIndex c env s entry).2 := by
  unfold connectIndex
  split
  · exact .rfl
  · exact sameStakes_connectBlock s env _ entry.1 entry.2

omit [TransOrd H] [DecidableEq H] in
theorem sameStakes_loop {ε : Type} {step : Node H → ε → Bool × Node H}
    (hstep : ∀ s item, SameStakes s (step s item).2) (s : Node H) (items : List ε) :
    SameStakes s (EarlyExit.loop step s items).2 :=
  EarlyExit.loop_invariant (SameStakes s) (fun item _ t ht => ht.trans (hstep t item)) .rfl

theorem mapBlockIndex_disconnectIndex (env : Env H) (s : Node H) (entry : CBlockIndex H × PIndex H) :
    (disconnectIndex c env s entry).2.mapBlockIndex = s.mapBlockIndex := by
  have hblock : ∀ block, (s.disconnectBlock c block entry.1 entry.2).2.mapBlockIndex =
      s.mapBlockIndex := by
    intro block
    unfold disconnectBlock
    grind
  unfold disconnectIndex
  cases s.readBlockFromDisk c env entry.1 with
  | none => rfl
  | some block => grind

/-- The stakes after these events; the block index stays. -/
structure StakesFollow (s t : Node H) (events : List (Event (COutPoint H × UInt32))) : Prop where
  mapBlockIndex : t.mapBlockIndex = s.mapBlockIndex
  setStakeSeen : ∀ log, s.setStakeSeen = replay log → t.setStakeSeen = replay (events ++ log)

section

omit [TransOrd H]

theorem SameStakes.stakesFollow (h : SameStakes s t) : StakesFollow s t [] where
  mapBlockIndex := h.mapBlockIndex
  setStakeSeen _ hlog := h.setStakeSeen.trans hlog

theorem StakesFollow.trans {events events' : List (Event (COutPoint H × UInt32))}
    (h : StakesFollow s t events) (h' : StakesFollow t u events') :
    StakesFollow s u (events' ++ events) where
  mapBlockIndex := h'.mapBlockIndex.trans h.mapBlockIndex
  setStakeSeen log hlog := by
    rw [h'.setStakeSeen _ (h.setStakeSeen log hlog), append_assoc]

theorem StakesFollow.same {events : List (Event (COutPoint H × UInt32))}
    (h : StakesFollow s t events) (h' : SameStakes t u) : StakesFollow s u events :=
  h.trans h'.stakesFollow

end

/-- **One round of the disconnecting loop.** -/
theorem stakesFollow_disconnectIndex (env : Env H) (s : Node H) (entry : CBlockIndex H × PIndex H) :
    StakesFollow s (disconnectIndex c env s entry).2
      (if (disconnectIndex c env s entry).1 then (stakesOf [entry.1]).map .removed else []) := by
  refine ⟨mapBlockIndex_disconnectIndex env s entry, ?_⟩
  intro log hlog
  rw [disconnectIndex_stakes, hlog]
  cases (disconnectIndex c env s entry).1 with
  | false => rfl
  | true =>
    cases hpos : entry.1.fProofOfStake with
    | false => simp [stakesOf, hpos]
    | true => simp [stakesOf, hpos, replay, stake]

/-- **The disconnecting loop**, as far as it comes. -/
theorem stakesFollow_disconnecting (env : Env H) (s : Node H) (entries : List (CBlockIndex H × PIndex H)) :
    StakesFollow s (EarlyExit.loop (disconnectIndex c env) s entries).2
      ((stakesOf ((EarlyExit.passed (disconnectIndex c env) s entries).map
        Prod.fst)).reverse.map .removed) := by
  induction entries generalizing s with
  | nil => exact SameStakes.rfl.stakesFollow
  | cons entry entries ih =>
    have hfirst := stakesFollow_disconnectIndex (c := c) env s entry
    rw [EarlyExit.loop, EarlyExit.passed]
    split
    · rename_i hflag
      rw [hflag, if_pos rfl] at hfirst
      have hboth := hfirst.trans (ih (disconnectIndex c env s entry).2)
      rw [map_cons]
      cases hpos : entry.1.fProofOfStake with
      | false => simpa [stakesOf, hpos] using hboth
      | true => simpa [stakesOf, hpos] using hboth
    · rename_i hflag
      rw [if_neg hflag] at hfirst
      exact hfirst

/-- **`Reorganize`** removes the stakes of the entries it disconnects. -/
theorem stakesFollow_reorganize (env : Env H) (s : Node H) (pindexNew : CBlockIndex H)
    (pprev : PIndex H) : StakesFollow s (s.reorganize c env pindexNew pprev).2
      ((stakesOf (s.reorganizeUndoes c env pindexNew pprev)).reverse.map .removed) := by
  unfold reorganize reorganizeUndoes
  cases findFork (pindexNew :: pprev) s.pindexBest with
  | none => exact SameStakes.rfl.stakesFollow
  | some pfork =>
    have hundone := stakesFollow_disconnecting (c := c) env s (downTo pfork s.pindexBest)
    have hdone := sameStakes_loop (sameStakes_connectIndex (c := c) env)
      (EarlyExit.loop (disconnectIndex c env) s (downTo pfork s.pindexBest)).2
      (downTo pfork (pindexNew :: pprev)).reverse
    simp only
    split
    · exact hundone
    · split
      · exact hundone.same hdone
      · exact (hundone.same hdone).same (sameStakes_commitTip _ env _ _)

/-- **`SetBestChain`** removes the stakes of the entries it disconnects. -/
theorem stakesFollow_setBestChain (env : Env H) (s : Node H) (block : CBlock H)
    (pindexNew : CBlockIndex H) (pprev : PIndex H) :
    StakesFollow s (s.setBestChain c env block pindexNew pprev).2
        ((stakesOf (s.switchUndoes c env block pindexNew pprev)).reverse.map .removed) := by
  unfold setBestChain switchUndoes
  simp only
  split
  · unfold setGenesis
    have hcommit := sameStakes_commitTip s.txnBegin env (block.getHash c) id
    simp only
    split
    · exact ⟨hcommit.mapBlockIndex, hcommit.stakesFollow.setStakeSeen⟩
    · exact ⟨hcommit.mapBlockIndex, hcommit.stakesFollow.setStakeSeen⟩
  · split
    · have hinner := sameStakes_setBestChainInner (c := c) s.txnBegin env block pindexNew pprev
      split
      · exact ⟨hinner.mapBlockIndex, hinner.stakesFollow.setStakeSeen⟩
      · exact ⟨hinner.mapBlockIndex, hinner.stakesFollow.setStakeSeen⟩
    · have hreorganize := stakesFollow_reorganize (c := c) env s.txnBegin
        (postpone ((s.pindexBest.head?.map nChainTrust).getD 0) pindexNew pprev).2.1
        (postpone ((s.pindexBest.head?.map nChainTrust).getD 0) pindexNew pprev).2.2
      unfold switchBranch
      simp only
      split
      · exact ⟨hreorganize.mapBlockIndex, hreorganize.setStakeSeen⟩
      · have hloop := hreorganize.same (sameStakes_loop (sameStakes_connectSecondary (c := c) env) _
          (postpone ((s.pindexBest.head?.map nChainTrust).getD 0) pindexNew pprev).1.reverse)
        exact ⟨hloop.mapBlockIndex, hloop.setStakeSeen⟩

theorem tip_setBestChain {pindexNew : CBlockIndex H}
    (hcall : s.setBestChain c env block pindexNew pprev = (true, t)) :
    t.pindexBest = pindexNew :: pprev ∧ t.nBestHeight = pindexNew.nHeight := by
  unfold setBestChain at hcall
  simp only at hcall
  split at hcall
  · unfold setGenesis at hcall
    simp only at hcall
    split at hcall
    · rename_i hfail
      rw [hcall] at hfail
      cases hfail
    · cases hcall
      exact ⟨rfl, rfl⟩
  · split at hcall
    · split at hcall
      · rename_i hfail
        rw [hcall] at hfail
        cases hfail
      · cases hcall
        exact ⟨rfl, rfl⟩
    · obtain ⟨u, _, rfl⟩ := switchBranch_true rfl hcall
      exact ⟨rfl, rfl⟩

/-- After `SetBestChain` the tip is the old one or the new entry. -/
theorem pindexBest_setBestChain (env : Env H) (s : Node H) (block : CBlock H)
    (pindexNew : CBlockIndex H) (pprev : PIndex H) :
    (s.setBestChain c env block pindexNew pprev).2.pindexBest = s.pindexBest ∨
      (s.setBestChain c env block pindexNew pprev).2.pindexBest = pindexNew :: pprev := by
  cases hcall : s.setBestChain c env block pindexNew pprev with
  | mk flag t =>
    cases flag with
    | false =>
      left
      have hframe := (setBestChain_unmoved hcall).frame
      simp only
      rw [hframe]
    | true => exact .inr (tip_setBestChain hcall).1

/-- Invariant of a run: the stakes follow the log, and every proof-of-stake
block on a path of the index or on the best chain has been entered. -/
structure StakeInv (s : Node H) (log : List (Event (COutPoint H × UInt32))) : Prop where
  setStakeSeen : s.setStakeSeen = replay log
  entered : ∀ (hash : H) (path : PIndex H), s.mapBlockIndex[hash]? = some path →
    ∀ pindex ∈ path, pindex.fProofOfStake → .added pindex.stake ∈ log
  best : ∀ pindex ∈ s.pindexBest, pindex.fProofOfStake → .added pindex.stake ∈ log

variable {log : List (Event (COutPoint H × UInt32))}

/-- **A call of `SetBestChain`** keeps the invariant. -/
theorem StakeInv.setBestChain (h : StakeInv s log)
    (hlook : s.mapBlockIndex[pindex.hash]? = some (pindex :: pprev)) :
    StakeInv (s.setBestChain c env block pindex pprev).2
      ((stakesOf (s.switchUndoes c env block pindex pprev)).reverse.map .removed ++ log) := by
  have hfollows := stakesFollow_setBestChain (c := c) env s block pindex pprev
  refine ⟨hfollows.setStakeSeen log h.setStakeSeen, ?_, ?_⟩
  · rw [hfollows.mapBlockIndex]
    intro hash path hpath entry hmem hpos
    exact mem_append_right _ (h.entered hash path hpath entry hmem hpos)
  · intro entry hmem hpos
    refine mem_append_right _ ?_
    rcases pindexBest_setBestChain (c := c) env s block pindex pprev with hbest | hbest
    · exact h.best entry (hbest ▸ hmem) hpos
    · exact h.entered _ _ hlook entry (hbest ▸ hmem) hpos

/-- **Entering a block into the index** keeps the invariant. -/
theorem StakeInv.storeIndex [LawfulEqOrd H] (h : StakeInv s log) (env : Env H) (block : CBlock H)
    (nFile nBlockPos : Nat) : StakeInv (s.storeIndex c env block nFile nBlockPos).2
      ((stakesOf (s.enters c env block nFile nBlockPos)).map .added ++ log) := by
  unfold Node.storeIndex enters
  simp only
  split
  · rename_i hknown
    rw [if_pos (Or.inl hknown)]
    exact h
  · rename_i hnew
    split
    · rename_i hfails
      rw [if_pos (Or.inr (by simpa using hfails))]
      exact h
    · rename_i hcomputes
      rw [if_neg (by simpa [hnew] using hcomputes)]
      refine ⟨?_, ?_, ?_⟩
      · unfold insertIndex
        simp only
        cases hpos : (newIndex c block nFile nBlockPos
            (s.mapBlockIndex[block.hashPrevBlock]?.getD [])).fProofOfStake with
        | false => simpa [stakesOf, hpos] using h.setStakeSeen
        | true => simp [stakesOf, hpos, replay, h.setStakeSeen, stake]
      · intro hash path hpath entry hmem hpos
        by_cases hsame : block.getHash c = hash
        · subst hsame
          have hself : path = newIndex c block nFile nBlockPos
              (s.mapBlockIndex[block.hashPrevBlock]?.getD []) ::
                s.mapBlockIndex[block.hashPrevBlock]?.getD [] :=
            Option.some.inj (hpath.symm.trans ExtTreeMap.getElem?_insert_self)
          rw [hself] at hmem
          rcases List.mem_cons.mp hmem with rfl | hbelow
          · exact mem_append_left _
              (mem_map_of_mem (mem_stakesOf mem_cons_self hpos))
          · refine mem_append_right _ ?_
            cases hprev : s.mapBlockIndex[block.hashPrevBlock]? with
            | none => simp [hprev] at hbelow
            | some below =>
              rw [hprev, Option.getD_some] at hbelow
              exact h.entered _ below hprev entry hbelow hpos
        · have hother : s.mapBlockIndex[hash]? = some path :=
            (FinMap.getElem?_insert_ne _ _ hsame).symm.trans hpath
          exact mem_append_right _ (h.entered hash path hother entry hmem hpos)
      · intro entry hmem hpos
        exact mem_append_right _ (h.best entry hmem hpos)
theorem stakeInv_genesis [LawfulEqOrd H] {first : CBlock H}
    (hfirst : first.isProofOfStake c = false) : StakeInv (genesis c first) [] := by
  have hnone : ∀ pindex ∈ [newIndex c first 1 8 []], pindex.fProofOfStake = false := by
    intro pindex hmem
    rw [mem_singleton.mp hmem]
    exact hfirst
  refine ⟨rfl, ?_, ?_⟩
  · intro hash path hpath pindex hmem hpos
    have hone := (lookup_genesis hpath).2
    rw [hnone pindex (hone ▸ hmem)] at hpos
    cases hpos
  · intro pindex hmem hpos
    rw [hnone pindex hmem] at hpos
    cases hpos

variable [LawfulEqOrd H] {first : CBlock H}

theorem StakeRun.stakeInv (hfirst : first.isProofOfStake c = false) (h : StakeRun c first s log) :
    StakeInv s log := by
  induction h with
  | genesis => exact stakeInv_genesis hfirst
  | index _ _ _ hwritten ih =>
    obtain ⟨_, _, hframe⟩ := writeToDisk_some hwritten
    refine StakeInv.storeIndex ?_ _ _ _ _
    rw [hframe]
    exact ⟨ih.setStakeSeen, ih.entered, ih.best⟩
  | switch _ hlook _ ih => exact ih.setBestChain hlook

/-- **Stake reuse detection.**  In every state of every run, the stakes of the
best chain are all in `setStakeSeen` if and only if none of its proof-of-stake
blocks has a stake whose latest event is that `Reorganize` disconnected a block
with it. -/
theorem stake_reuse_detection (hfirst : first.isProofOfStake c = false)
    (h : StakeRun c first s log) : StakesSeen s ↔ ∀ pindex ∈ s.pindexBest, pindex.fProofOfStake →
      latest log pindex.stake ≠ some (.removed pindex.stake) := by
  have hinv := h.stakeInv hfirst
  unfold StakesSeen
  rw [hinv.setStakeSeen]
  refine forall₃_congr fun pindex hmem hpos => ?_
  exact mem_replay_of_added (hinv.best pindex hmem hpos)

omit [LawfulEqOrd H] in
/-- **`AcceptBlock`** is a step or two of a run. -/
theorem StakeRun.acceptBlock (h : StakeRun c first s log) (env : Env H) (block : CBlock H) :
    ∃ log, StakeRun c first (s.acceptBlock c env block).2 log := by
  rcases acceptBlock_cases c s env block with hsame | ⟨_, _, _, _, _, hprev, hrules, hwritten, hend⟩
  · exact ⟨log, hsame.symm ▸ h⟩
  · have hindex := h.index hprev hrules hwritten
    rcases hend with hsame | ⟨pindex, u, rfl, hlook, hfile, -, hcall⟩
    · exact ⟨_, hsame.symm ▸ hindex⟩
    · exact ⟨_, hcall.symm ▸ hindex.switch hlook hfile⟩

omit [LawfulEqOrd H] in
theorem StakeRun.acceptAll (h : StakeRun c first s log) (links : List (Env H × CBlock H)) :
    ∃ log, StakeRun c first (acceptAll c s links) log := by
  induction links generalizing s log with
  | nil => exact ⟨log, h⟩
  | cons link links ih =>
    obtain ⟨log', h'⟩ := h.acceptBlock link.1 link.2
    exact ih h'

end Node

/-! ### A long chain

A rolling sum stands for the hash, so that blocks of a long chain stay small. -/

def rolling : Sha256 Nat where
  sha256 data := data.foldl (fun sum atom => match atom with
    | .byte b => (sum * 257 + b.toNat + 1) % 4294967291
    | .digest h => (sum * 65537 + h + 7) % 4294967291) 5
  zero := 0

/-- Rules that accept, as in `sampleConsensus`. -/
def rollingConsensus : Consensus Nat where
  toSha256 := rolling
  verifyExcess _ _ _ := true
  verifyRangeProof _ _ := true
  commit _ _ := sampleCommitment 8
  commitBlind _ := sampleCommitment 8
  verifySum _ _ := true
  verifySchnorr _ _ _ := true
  hash9 := rolling.sha256
  verifySignature _ _ _ := true
  checkProofOfWork _ _ := true
  checkBlockSignature _ := true
  getNextTargetRequired _ _ := 0
  getBlockTrust _ := 1
  checkHardened _ _ := true
  getTotalBlocksEstimate := 0
  getDevFundScript := none

/-- Surroundings in which everything succeeds. -/
def rollingEnv (nBlockPos : Nat) : Env Nat where
  adjustedTime := 1000000
  readsBlock _ _ := true
  readsTx _ := true
  commits _ := true
  commitsIndex _ := true
  mempool _ := none
  appendsAt := some (1, nBlockPos)
  checksProofOfStake _ := true
  checksSync _ := true
  computesStakeModifier _ := true

def rollingTx (nHeight : Nat) (txin : CTxIn Nat) (vout : List CTxOut) : CTransaction Nat where
  nVersion := 1
  nTime := UInt32.ofNat nHeight
  vin := [txin]
  vout := vout
  nLockTime := 0
  mwTx := ⟨⟨[], [], []⟩, Vector.replicate 32 0⟩

/-- A block for a height, with this coinbase and these transactions behind it. -/
def rollingBlock (nHeight hashPrevBlock : Nat) (nNonce : UInt32) (coinbase : List CTxOut)
    (rest : List (CTransaction Nat)) : CBlock Nat :=
  let txin : CTxIn Nat := ⟨⟨0, 0xffffffff⟩, CScript.pushInt64 nHeight ++ [0], 0⟩
  let block : CBlock Nat :=
    { nVersion := 1, hashPrevBlock := hashPrevBlock, hashMerkleRoot := 0
      nTime := UInt32.ofNat nHeight, nBits := 0, nNonce := nNonce
      vtx := rollingTx nHeight txin coinbase :: rest, vchBlockSig := []
      mwExtBlock := ⟨0, ⟨[], [], []⟩, [], 0, Vector.replicate 32 0⟩ }
  { block with hashMerkleRoot := block.buildMerkleTree rollingConsensus }

/-- Proof-of-work blocks behind each other; the one at height 1 pays the
premine. -/
def workChain (nNonce : UInt32) : Nat → Nat → Nat → List (CBlock Nat)
  | 0, _, _ => []
  | n + 1, nHeight, hashPrevBlock =>
    let block := rollingBlock nHeight hashPrevBlock nNonce
      [⟨getProofOfWorkReward nHeight 0, [OP_1]⟩] []
    block :: workChain nNonce n (nHeight + 1) (block.getHash rollingConsensus)

def rollingGenesis : CBlock Nat := rollingBlock 0 0 0 [⟨0, []⟩] []

/-- The blocks below the first height at which a block may stake. -/
def commonChain : List (CBlock Nat) :=
  workChain 0 19 1 (rollingGenesis.getHash rollingConsensus)

def commonTip : Nat := (commonChain.getLast?.map (CBlock.getHash rollingConsensus)).getD 0

/-- A block on them that stakes the premine. -/
def stakeBlock : CBlock Nat :=
  let premine := (commonChain.head?.bind fun block => block.vtx.head?).map
    (CTransaction.getHash rolling)
  rollingBlock 20 commonTip 0 [⟨0, []⟩, ⟨0, []⟩]
    [rollingTx 20 ⟨⟨premine.getD 0, 0⟩, [], 0⟩ [⟨0, []⟩, ⟨getProofOfWorkReward 1 0, [OP_1]⟩]]

/-- Two blocks beside the stake, then two behind it. -/
def twoSwitches : List (CBlock Nat) :=
  workChain 1 2 20 commonTip ++ workChain 2 2 21 (stakeBlock.getHash rollingConsensus)

/-- The node after these blocks, each written behind the one before. -/
def rollingNode (blocks : List (CBlock Nat)) : Node Nat :=
  (Node.genesis rollingConsensus rollingGenesis).acceptAll rollingConsensus
    (blocks.zipIdx.map fun block => (rollingEnv (1000 * (block.2 + 1)), block.1))

namespace Node

theorem stakeRun_rollingNode (blocks : List (CBlock Nat)) :
    ∃ log, StakeRun rollingConsensus rollingGenesis (rollingNode blocks) log :=
  StakeRun.genesis.acceptAll _

theorem stake_reuse_detection_connected : ∃ log, (StakesSeen (rollingNode (commonChain ++ [stakeBlock])) ↔
      ∀ pindex ∈ (rollingNode (commonChain ++ [stakeBlock])).pindexBest, pindex.fProofOfStake →
        latest log pindex.stake ≠ some (.removed pindex.stake)) := by
  obtain ⟨log, h⟩ := stakeRun_rollingNode (commonChain ++ [stakeBlock])
  exact ⟨log, stake_reuse_detection (by decide +kernel) h⟩

/-- Whether a stake of the best chain is missing. -/
def lostStake (s : Node Nat) : Bool :=
  s.pindexBest.any fun pindex => pindex.fProofOfStake && decide (pindex.stake ∉ s.setStakeSeen)

theorem not_stakesSeen {s : Node Nat} (h : lostStake s) : ¬ StakesSeen s := by
  intro hseen
  obtain ⟨pindex, hmem, hlost⟩ := any_eq_true.mp h
  obtain ⟨hpos, hgone⟩ := Bool.and_eq_true_iff.mp hlost
  exact of_decide_eq_true hgone (hseen pindex hmem hpos)

/-- **Switching back loses the stake.**  The node switches away from the stake
and back to it. -/
theorem switching_back_loses_stake : ∃ s log, StakeRun rollingConsensus rollingGenesis s log ∧
      rollingGenesis.isProofOfStake rollingConsensus = false ∧ ¬ StakesSeen s := by
  obtain ⟨log, h⟩ := stakeRun_rollingNode (commonChain ++ stakeBlock :: twoSwitches)
  exact ⟨_, log, h, by decide +kernel, not_stakesSeen (by decide +kernel)⟩

end Node

end MaryJaneCoin
