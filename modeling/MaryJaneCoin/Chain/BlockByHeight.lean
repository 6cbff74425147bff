import MaryJaneCoin.Chain.StakeSeen

/-!
# The block at a height

`FindBlockByHeight` walks from genesis, from the tip or from the block it found last, down
along `pprev` and up along `pnext`.  `SetBestChain` forgets the block found last, so what the
walk passes is on the best chain as long as the links are those of the tip.
-/

namespace MaryJaneCoin

open Std List Option

namespace Node

variable {H : Type} [Ord H] [TransOrd H] {s t : Node H} {pindex : CBlockIndex H}
  {pprev path last : PIndex H} {nHeight : Int}

/-- The first loop of `FindBlockByHeight`; `none` when a null link is followed. -/
def walkDown (nHeight : Int) : PIndex H → Option (PIndex H)
  | [] => none
  | pindex :: pprev =>
    if (pindex.nHeight : Int) > nHeight then walkDown nHeight pprev else some (pindex :: pprev)

/-- The second loop of `FindBlockByHeight`; `none` when a null link is followed, or when the
steps do not suffice. -/
def walkUp (s : Node H) (nHeight : Int) : Nat → PIndex H → Option (PIndex H)
  | _, [] => none
  | steps, pindex :: pprev =>
    if nHeight ≤ pindex.nHeight then some (pindex :: pprev)
    else
      match steps, s.pnext[pindex.hash]?.bind (s.mapBlockIndex[·]?) with
      | steps + 1, some next => s.walkUp nHeight steps next
      | _, _ => none

/-- Where `FindBlockByHeight` starts, with the block `pblockindexFBBHLast` that it found last;
`[]` stands for the null pointer. -/
def heightStart (s : Node H) (pblockindexFBBHLast : PIndex H) (nHeight : Int) : PIndex H :=
  let pblockindex := if nHeight < s.nBestHeight.tdiv 2 then s.pindexGenesisBlock else s.pindexBest
  match pblockindexFBBHLast, pblockindex with
  | last :: below, start :: _ =>
    if (nHeight - start.nHeight).natAbs > (nHeight - last.nHeight).natAbs then last :: below
    else pblockindex
  | _, _ => pblockindex

/-- `FindBlockByHeight`, with a bound on the steps of its second loop. -/
def findBlockByHeight (s : Node H) (pblockindexFBBHLast : PIndex H) (steps : Nat) (nHeight : Int) :
    Option (PIndex H) :=
  (walkDown nHeight (s.heightStart pblockindexFBBHLast nHeight)).bind (s.walkUp nHeight steps)

/-- `pblockindexFBBHLast` after a call of `SetBestChain`, which returned `fSuccess`. -/
def lastAfterSwitch (s : Node H) (pindexNew : CBlockIndex H) (fSuccess : Bool)
    (pblockindexFBBHLast : PIndex H) : PIndex H :=
  if s.pindexGenesisBlock = [] ∧ pindexNew.nHeight = 0 then pblockindexFBBHLast
  else if fSuccess then [] else pblockindexFBBHLast

/-- The entries of the block index have the heights of their places. -/
def HeightsOf (s : Node H) : Prop :=
  ∀ (pindex : CBlockIndex H) (pprev : PIndex H),
    s.mapBlockIndex[pindex.hash]? = some (pindex :: pprev) → pindex.nHeight = pprev.length

theorem HeightsOf.suffix (h : HeightsOf s) (hindexed : Indexed s.mapBlockIndex path)
    (hsuffix : pindex :: pprev <:+ path) : pindex.nHeight = pprev.length :=
  h pindex pprev (hindexed pindex pprev hsuffix).1

/-- **The way down** ends at or below the height. -/
theorem walkDown_some (hheights : HeightsOf s) (hindexed : Indexed s.mapBlockIndex path)
    (hne : path ≠ []) (hnonneg : 0 ≤ nHeight) :
    ∃ pindex pprev, walkDown nHeight path = some (pindex :: pprev) ∧ pindex :: pprev <:+ path ∧
      (pprev.length : Int) ≤ nHeight := by
  induction path with
  | nil => exact absurd rfl hne
  | cons top below ih =>
    have htop := hheights.suffix hindexed suffix_rfl
    rw [walkDown]
    split
    · next hhigh =>
        have hbelow : below ≠ [] := by
          rintro rfl
          rw [htop, length_nil] at hhigh
          omega
        obtain ⟨pindex, pprev, hwalk, hsuffix, hle⟩ := ih (hindexed.suffix (suffix_cons _ _)) hbelow
        exact ⟨pindex, pprev, hwalk, hsuffix.trans (suffix_cons _ _), hle⟩
    · next hlow =>
        refine ⟨top, below, rfl, suffix_rfl, ?_⟩
        rw [htop] at hlow
        exact Int.not_lt.mp hlow

omit [Ord H] [TransOrd H] in
theorem exists_above (hsuffix : pindex :: pprev <:+ path) (hlt : pprev.length + 1 < path.length) :
    ∃ next, next :: pindex :: pprev <:+ path := by
  obtain ⟨above, rfl⟩ := hsuffix
  have hne : above ≠ [] := by
    rintro rfl
    simp at hlt
  refine ⟨above.getLast hne, above.dropLast, ?_⟩
  rw [← singleton_append, ← append_assoc, dropLast_append_getLast hne]

variable [LawfulEqOrd H]

/-- **The way up** along the links of the best chain ends at the height. -/
theorem walkUp_some (hheights : HeightsOf s) (hindexed : Indexed s.mapBlockIndex s.pindexBest)
    (hlinks : s.pnext = linksOf s.pindexBest) (hbest : nHeight < s.pindexBest.length) (steps : Nat)
    (hsuffix : pindex :: pprev <:+ s.pindexBest) (hle : (pprev.length : Int) ≤ nHeight)
    (hsteps : nHeight ≤ pprev.length + steps) :
    ∃ found below, s.walkUp nHeight steps (pindex :: pprev) = some (found :: below) ∧
      found :: below <:+ s.pindexBest ∧ (found.nHeight : Int) = nHeight := by
  induction steps generalizing pindex pprev with
  | zero =>
    have hheight := hheights.suffix hindexed hsuffix
    have hat : (pindex.nHeight : Int) = nHeight := by omega
    exact ⟨pindex, pprev, by rw [walkUp.eq_def]; exact if_pos hat.ge, hsuffix, hat⟩
  | succ steps ih =>
    have hheight := hheights.suffix hindexed hsuffix
    by_cases hat : nHeight ≤ pindex.nHeight
    · exact ⟨pindex, pprev, by rw [walkUp.eq_def]; exact if_pos hat, hsuffix, by omega⟩
    · obtain ⟨next, hnext⟩ := exists_above hsuffix (by omega)
      have hlink : s.pnext[pindex.hash]?.bind (s.mapBlockIndex[·]?) =
          some (next :: pindex :: pprev) := by
        rw [hlinks, hindexed.getElem?_linksOf hnext, bind_some]
        exact (hindexed next _ hnext).1
      obtain ⟨found, below, hwalk, hfound⟩ := @ih next (pindex :: pprev) hnext
        (by rw [length_cons]; omega) (by rw [length_cons]; omega)
      refine ⟨found, below, ?_, hfound⟩
      rw [walkUp.eq_def]
      simp only [if_neg hat, hlink]
      exact hwalk

omit [LawfulEqOrd H] in
theorem walkUp_null (steps : Nat) (hbelow : (pindex.nHeight : Int) < nHeight)
    (hnull : s.pnext[pindex.hash]? = none) : s.walkUp nHeight steps (pindex :: pprev) = none := by
  rw [walkUp.eq_def]
  simp only [if_neg (Int.not_le.mpr hbelow), hnull, bind_none]

variable [DecidableEq H] {c : Consensus H} {first : CBlock H}

/-- Runs of a node from the genesis block, with `pblockindexFBBHLast`: blocks are entered into
the index, `SetBestChain` is called and no postponed block fails, and `FindBlockByHeight` is
called for heights of the best chain. -/
inductive HeightRun (c : Consensus H) (first : CBlock H) : Node H → PIndex H → Prop
  | genesis : HeightRun c first (Node.genesis c first) []
  | index {s written : Node H} {last : PIndex H} {env : Env H} {block : CBlock H}
      {pindexPrev : CBlockIndex H} {pprev : PIndex H} {nFile nBlockPos : Nat}
      (hs : HeightRun c first s last)
      (hprev : s.mapBlockIndex[block.hashPrevBlock]? = some (pindexPrev :: pprev))
      (hrules : block.acceptRules c pindexPrev pprev (env.checksProofOfStake block)
        (env.checksSync (block.getHash c)))
      (hwritten : s.writeToDisk env block = some (nFile, nBlockPos, written)) :
      HeightRun c first (written.storeIndex c env block nFile nBlockPos).2 last
  | switch {s : Node H} {last : PIndex H} {env : Env H} {block : CBlock H} {pindex : CBlockIndex H}
      {pprev : PIndex H} (hs : HeightRun c first s last)
      (hlook : s.mapBlockIndex[pindex.hash]? = some (pindex :: pprev))
      (hfile : s.blockFiles pindex.nFile pindex.nBlockPos = some block)
      (hroot : pprev = [] → block.hashPrevBlock ≠ s.hashBestChain)
      (hsecondaries : SecondariesConnect c s env block pindex pprev) :
      HeightRun c first (s.setBestChain c env block pindex pprev).2
        (s.lastAfterSwitch pindex (s.setBestChain c env block pindex pprev).1 last)
  | find {s : Node H} {last found : PIndex H} {steps : Nat} {nHeight : Int}
      (hs : HeightRun c first s last) (hnonneg : 0 ≤ nHeight) (hbest : nHeight ≤ s.nBestHeight)
      (hsteps : nHeight ≤ steps)
      (hfound : s.findBlockByHeight last steps nHeight = some found) : HeightRun c first s found

omit [LawfulEqOrd H] in
theorem HeightRun.reachable (h : HeightRun c first s last) : Reachable c first s := by
  induction h with
  | genesis => exact .genesis
  | index _ hprev hrules hwritten ih => exact ih.index hprev hrules hwritten
  | switch _ hlook hfile hroot hsecondaries ih => exact ih.switch hlook hfile hroot hsecondaries
  | find _ _ _ _ _ ih => exact ih

/-- What a run keeps besides: the heights, that of the tip, and a block found last that is on
the best chain. -/
structure HeightInv (s : Node H) (last : PIndex H) : Prop where
  heights : HeightsOf s
  best : s.nBestHeight + 1 = s.pindexBest.length
  last : last <:+ s.pindexBest

omit [LawfulEqOrd H] in
theorem heightStart_suffix (hinv : TipInv c s) (hlast : last <:+ s.pindexBest) (nHeight : Int) :
    s.heightStart last nHeight <:+ s.pindexBest ∧ s.heightStart last nHeight ≠ [] := by
  obtain ⟨genesis, hgenesis, hfirst⟩ := hinv.genesis
  have hplain : (if nHeight < s.nBestHeight.tdiv 2 then s.pindexGenesisBlock else s.pindexBest) <:+
      s.pindexBest ∧
        (if nHeight < s.nBestHeight.tdiv 2 then s.pindexGenesisBlock else s.pindexBest) ≠ [] := by
    split
    · rw [hgenesis]
      exact ⟨hfirst, cons_ne_nil _ _⟩
    · exact ⟨suffix_rfl, hinv.tip.chained.ne_nil⟩
  unfold heightStart
  dsimp only
  generalize (if nHeight < s.nBestHeight.tdiv 2 then s.pindexGenesisBlock else s.pindexBest) =
    pblockindex at hplain ⊢
  cases last with
  | nil => exact hplain
  | cons recent below =>
    cases pblockindex with
    | nil => exact hplain
    | cons start rest =>
      dsimp only
      split
      · exact ⟨hlast, cons_ne_nil _ _⟩
      · exact hplain

/-- **`FindBlockByHeight` finds the block of the best chain**, wherever it starts. -/
theorem findBlockByHeight_some (hinv : TipInv c s) (hheight : HeightInv s last) (hnonneg : 0 ≤ nHeight)
    (hbest : nHeight ≤ s.nBestHeight) {steps : Nat} (hsteps : nHeight ≤ steps) :
    ∃ found below, s.findBlockByHeight last steps nHeight = some (found :: below) ∧
      found :: below <:+ s.pindexBest ∧ (found.nHeight : Int) = nHeight := by
  obtain ⟨hstart, hne⟩ := heightStart_suffix hinv hheight.last nHeight
  obtain ⟨pindex, pprev, hdown, hsuffix, hle⟩ :=
    walkDown_some hheight.heights (hinv.tip.indexed.suffix hstart) hne hnonneg
  have htop := hheight.best
  obtain ⟨found, below, hup, hfound⟩ := walkUp_some hheight.heights hinv.tip.indexed hinv.tip.links
    (by omega) steps (hsuffix.trans hstart) hle (by omega)
  exact ⟨found, below, by rw [findBlockByHeight, hdown, bind_some, hup], hfound⟩

theorem HeightInv.storeIndex {s : Node H} {env : Env H} {block : CBlock H}
    {pindexPrev : CBlockIndex H} {nFile nBlockPos : Nat} (h : HeightInv s last)
    (hprev : s.mapBlockIndex[block.hashPrevBlock]? = some (pindexPrev :: pprev))
    (hhash : pindexPrev.hash = block.hashPrevBlock) :
    HeightInv (s.storeIndex c env block nFile nBlockPos).2 last := by
  have hheights : HeightsOf (s.storeIndex c env block nFile nBlockPos).2 := by
    intro pindex rest hlook
    rcases lookup_storeIndex hlook with hold | ⟨-, hpath⟩
    · exact h.heights pindex rest hold
    · rw [hprev, getD_some] at hpath
      cases hpath
      rw [length_cons, ← h.heights pindexPrev pprev (hhash ▸ hprev)]
      rfl
  unfold Node.storeIndex at hheights ⊢
  simp only at hheights ⊢
  split
  · exact h
  · split
    · exact h
    · rename_i hnew hcomputes
      rw [if_neg hnew, if_neg hcomputes] at hheights
      exact ⟨hheights, h.best, h.last⟩

omit [LawfulEqOrd H] in
theorem HeightInv.setBestChain {env : Env H} {block : CBlock H} (h : HeightInv s last)
    (hlook : s.mapBlockIndex[pindex.hash]? = some (pindex :: pprev))
    (hgenesis : s.pindexGenesisBlock ≠ []) : HeightInv (s.setBestChain c env block pindex pprev).2
      (s.lastAfterSwitch pindex (s.setBestChain c env block pindex pprev).1 last) := by
  have hindex := (stakesFollow_setBestChain (c := c) env s block pindex pprev).mapBlockIndex
  have hheights : HeightsOf (s.setBestChain c env block pindex pprev).2 := by
    intro other rest hother
    rw [hindex] at hother
    exact h.heights other rest hother
  rw [lastAfterSwitch, if_neg fun hfirst => hgenesis hfirst.1]
  cases hcall : s.setBestChain c env block pindex pprev with
  | mk flag t =>
    rw [hcall] at hheights
    cases flag with
    | false =>
      have hframe := (setBestChain_unmoved hcall).frame
      refine ⟨hheights, ?_, ?_⟩
      · rw [hframe]
        exact h.best
      · rw [hframe]
        exact h.last
    | true =>
      obtain ⟨hbest, hheight⟩ := tip_setBestChain hcall
      refine ⟨hheights, ?_, nil_suffix⟩
      dsimp only
      rw [hbest, hheight, h.heights pindex pprev hlook, length_cons, Nat.cast_succ]

theorem HeightRun.heightInv (hinj : Function.Injective c.sha256) (h : HeightRun c first s last) :
    HeightInv s last := by
  induction h with
  | genesis =>
    refine ⟨fun pindex pprev hlook => ?_, rfl, nil_suffix⟩
    obtain ⟨-, hpath⟩ := lookup_genesis hlook
    cases hpath
    rfl
  | index hs hprev hrules hwritten ih =>
    obtain ⟨-, -, hframe⟩ := writeToDisk_some hwritten
    have hinv := hs.reachable.tipInv hinj
    have hhash := Option.some.inj (hinv.index.path _ _ hprev).2
    rw [← congrArg mapBlockIndex hframe] at hprev
    refine HeightInv.storeIndex ?_ hprev hhash
    rw [hframe]
    exact ⟨ih.heights, ih.best, ih.last⟩
  | switch hs hlook hfile hroot hsecondaries ih =>
    obtain ⟨genesis, hgenesis, -⟩ := (hs.reachable.tipInv hinj).genesis
    exact ih.setBestChain hlook (hgenesis ▸ cons_ne_nil _ _)
  | find hs hnonneg hbest hsteps hfound ih =>
    obtain ⟨pindex, below, hsome, hsuffix, -⟩ :=
      findBlockByHeight_some (hs.reachable.tipInv hinj) ih hnonneg hbest hsteps
    rw [Option.some.inj (hfound.symm.trans hsome)]
    exact ⟨ih.heights, ih.best, hsuffix⟩

/-- **The block at a height.**  In every run in which no postponed block fails,
`FindBlockByHeight` of a height of the best chain follows no null link and returns the block
that the best chain has there, whatever block was found last. -/
theorem findBlockByHeight_exact (hinj : Function.Injective c.sha256)
    (hrun : HeightRun c first s last) (nHeight : Int) (hnonneg : 0 ≤ nHeight)
    (hbest : nHeight ≤ s.nBestHeight) (steps : Nat) (hsteps : nHeight ≤ steps) :
    ∃ found below, s.findBlockByHeight last steps nHeight = some (found :: below) ∧
      found :: below <:+ s.pindexBest ∧ (found.nHeight : Int) = nHeight :=
  findBlockByHeight_some (hrun.reachable.tipInv hinj) (hrun.heightInv hinj) hnonneg hbest hsteps

omit [LawfulEqOrd H] in
theorem Reachable.heightRun (h : Reachable c first s) : HeightRun c first s [] := by
  induction h with
  | genesis => exact .genesis
  | index _ hprev hrules hwritten ih => exact ih.index hprev hrules hwritten
  | @switch s env block pindex pprev _ hlook hfile hroot hsecondaries ih =>
    have hempty : s.lastAfterSwitch pindex (s.setBestChain c env block pindex pprev).1 [] = [] := by
      rw [lastAfterSwitch, ite_self, ite_self]
    have hrun := ih.switch hlook hfile hroot hsecondaries
    rwa [hempty] at hrun

omit [LawfulEqOrd H] in
/-- Where nothing can be committed, nothing is postponed past the commit. -/
theorem Reachable.acceptBlock_uncommitted (h : Reachable c first s) {env : Env H}
    (hcommits : ∀ hash, env.commits hash = false) (block : CBlock H) :
    Reachable c first (s.acceptBlock c env block).2 := by
  rcases h.acceptBlock env block with hdone | ⟨u, pindex, pprev, hu, hlook, hfile, hne, -, hcall⟩
  · exact hdone
  · rw [hcall]
    refine hu.switch hlook hfile (fun hnil => absurd hnil hne) ?_
    intro _ postponed v hv
    obtain ⟨pfork, w, z, -, -, -, hcommit⟩ := reorganize_true hv
    unfold commitTip at hcommit
    rw [hcommits] at hcommit
    cases hcommit

/-- Surroundings in which no batch can be committed. -/
def uncommitted (nBlockPos : Nat) : Env (List Nat) :=
  { sampleEnv nBlockPos with commits := fun _ => false }

/-- Two more blocks behind `greedyBlock`. -/
def thirdBlock : CBlock (List Nat) :=
  sampleBlock 3 (greedyBlock.getHash sampleConsensus) [sampleCoinbase 3 [⟨0, []⟩]]

def fourthBlock : CBlock (List Nat) :=
  sampleBlock 4 (thirdBlock.getHash sampleConsensus) [sampleCoinbase 4 [⟨0, []⟩]]

/-- The node that has three of the blocks in its index and none of them connected. -/
def unconnected : Node (List Nat) :=
  acceptAll sampleConsensus (genesis sampleConsensus sampleGenesis) [(uncommitted 1000, childBlock),
    (uncommitted 2000, greedyBlock), (uncommitted 3000, thirdBlock)]

/-- The node behind the fourth block. -/
def unlinked : Node (List Nat) :=
  (unconnected.acceptBlock sampleConsensus (sampleEnv 4000) fourthBlock).2

theorem unconnected_reachable : Reachable sampleConsensus sampleGenesis unconnected :=
  ((Reachable.genesis.acceptBlock_uncommitted (fun _ => rfl) childBlock).acceptBlock_uncommitted
    (fun _ => rfl) greedyBlock).acceptBlock_uncommitted (fun _ => rfl) thirdBlock

/-- The entry of the first block, as `FindBlockByHeight` finds it. -/
def foundFirst : PIndex (List Nat) := (unlinked.findBlockByHeight [] 1 1).getD []

/-- **A null link is followed.**  The second of four blocks is rejected when the fourth one
becomes the tip.  `FindBlockByHeight` finds the first block, and starts from there to find the
second one, which nothing links. -/
theorem unlinked_height_missing : ∃ (s t : Node (List Nat)) (env : Env (List Nat)) (block : CBlock (List Nat))
      (pindex : CBlockIndex (List Nat)) (pprev last : PIndex (List Nat)),
      HeightRun sampleConsensus sampleGenesis s [] ∧ s.mapBlockIndex[pindex.hash]? =
      some (pindex :: pprev) ∧ s.blockFiles pindex.nFile pindex.nBlockPos = some block ∧
      pprev ≠ [] ∧ s.setBestChain sampleConsensus env block pindex pprev = (true, t) ∧
      s.lastAfterSwitch pindex true [] = [] ∧ 2 ≤ t.nBestHeight ∧ t.findBlockByHeight [] 1 1 =
      some last ∧ ∀ steps, t.findBlockByHeight last steps 2 = none := by
  have hfirst : unlinked.findBlockByHeight [] 1 1 = some foundFirst := by
    have hsome : (unlinked.findBlockByHeight [] 1 1).isSome = true := by decide +kernel
    obtain ⟨found, hfound⟩ := Option.isSome_iff_exists.mp hsome
    rw [foundFirst, hfound, Option.getD_some]
  have hend : (walkDown 2 (unlinked.heightStart foundFirst 2)).any (fun path =>
      path.head?.any fun pindex => decide (pindex.nHeight < 2) &&
        (unlinked.pnext[pindex.hash]?).isNone) = true := by
    decide +kernel
  have hnone : ∀ steps, unlinked.findBlockByHeight foundFirst steps 2 = none := by
    intro steps
    obtain ⟨path, hwalk, hhead⟩ := (Option.any_eq_true _ _).mp hend
    obtain ⟨pindex, htop, hnull⟩ := (Option.any_eq_true _ _).mp hhead
    obtain ⟨hlow, hlink⟩ := Bool.and_eq_true_iff.mp hnull
    obtain ⟨pprev, rfl⟩ : ∃ pprev, path = pindex :: pprev := ⟨path.tail, (cons_head?_tail htop).symm⟩
    rw [findBlockByHeight, hwalk, Option.bind_some]
    refine walkUp_null steps ?_ (Option.isNone_iff_eq_none.mp hlink)
    exact Int.ofNat_lt.mpr (of_decide_eq_true hlow)
  rcases unconnected_reachable.acceptBlock (sampleEnv 4000) fourthBlock with
    hdone | ⟨u, pindex, pprev, hu, hlook, hfile, hne, -, hcall⟩
  · have hcommitted := (hdone.tipInv transparent_injective).coherent.committed
    exact absurd hcommitted (by decide +kernel)
  · refine ⟨u, unlinked, sampleEnv 4000, fourthBlock, pindex, pprev, foundFirst, hu.heightRun,
      hlook, hfile, hne, hcall.symm.trans (Prod.ext ?_ rfl), by simp [lastAfterSwitch], ?_,
      hfirst, hnone⟩
    · decide +kernel
    · decide +kernel

theorem findBlockByHeight_exact_child :
    let s := ((genesis sampleConsensus sampleGenesis).acceptBlock sampleConsensus (sampleEnv 1000)
      childBlock).2
    ∃ found below, s.findBlockByHeight [] 1 1 = some (found :: below) ∧
      found :: below <:+ s.pindexBest ∧ (found.nHeight : Int) = 1 := by
  intro s
  have hreach : Reachable sampleConsensus sampleGenesis s :=
    Reachable.genesis.acceptBlock_extends _ (by decide +kernel)
  exact findBlockByHeight_exact transparent_injective hreach.heightRun 1 (by decide)
    (by decide +kernel) 1 (by decide)

end Node

end MaryJaneCoin
