import MaryJaneCoin.Chain.ChainPath
import MaryJaneCoin.Chain.SwitchFrame

/-!
# The tip of the best chain

The committed database stands at a path: its best hash names the last entry,
the `pnext` links run along the path, and the transaction index is that of its
blocks.  `Reorganize` and `SetBestChainInner` move the database from path to
path.  `SetBestChain` takes the new entry for the tip in any case, so the tip is
where the database stands exactly when no postponed block failed.
-/

namespace MaryJaneCoin

open Std List Option ExtTreeMap Function

namespace Node

variable {H : Type} [Ord H] [TransOrd H] [DecidableEq H]

/-- The block of an index entry as `AcceptBlock` left it in the files. -/
structure Stored (c : Consensus H) (files : Nat → Nat → Option (CBlock H))
    (pindex : CBlockIndex H) (pprev : PIndex H) (block : CBlock H) : Prop where
  file : files pindex.nFile pindex.nBlockPos = some block
  hash : block.getHash c = pindex.hash
  prev : ∀ prev ∈ pprev.head?, block.hashPrevBlock = prev.hash ∧
    ∃ coinbase ∈ block.vtx.head?, coinbase.Tagged pindex.nHeight

/-- Invariant of the block index: every entry ends a path of the index and has
its block in the files. -/
structure IndexInv (c : Consensus H) (s : Node H) : Prop where
  path : ∀ hash path, s.mapBlockIndex[hash]? = some path →
    Indexed s.mapBlockIndex path ∧ path.head?.map CBlockIndex.hash = some hash
  stored : ∀ pindex pprev, s.mapBlockIndex[pindex.hash]? = some (pindex :: pprev) →
    ∃ block, Stored c s.blockFiles pindex pprev block

/-- The committed database stands at this path. -/
structure At (c : Consensus H) (s : Node H) (path : PIndex H) : Prop where
  hashBestChain : s.txdb.pdb.hashBestChain = path.head?.map CBlockIndex.hash
  links : s.pnext = linksOf path
  chained : Ledger.Chained c s.blockFiles path s.txdb.pdb.txindex
  indexed : Indexed s.mapBlockIndex path

/-- The node works in a batch that stands at this path. -/
structure Standing (c : Consensus H) (start s : Node H) (path : PIndex H) : Prop
    extends Working start s where
  chained : Ledger.Chained c start.blockFiles path s.txdb.view.txindex

/-- The two nodes have the same block index, files and first block. -/
structure SameIndex (s t : Node H) : Prop where
  mapBlockIndex : t.mapBlockIndex = s.mapBlockIndex
  blockFiles : t.blockFiles = s.blockFiles
  pindexGenesisBlock : t.pindexGenesisBlock = s.pindexGenesisBlock

variable {c : Consensus H} {start s t u : Node H} {env : Env H} {block : CBlock H}
  {pindex : CBlockIndex H} {pprev path pfork : PIndex H}

section

omit [TransOrd H] [DecidableEq H]

theorem SameIndex.trans (h : SameIndex s t) (h' : SameIndex t u) : SameIndex s u where
  mapBlockIndex := h'.mapBlockIndex.trans h.mapBlockIndex
  blockFiles := h'.blockFiles.trans h.blockFiles
  pindexGenesisBlock := h'.pindexGenesisBlock.trans h.pindexGenesisBlock

theorem Unmoved.sameIndex (h : Unmoved s t) : SameIndex s t := by
  rw [h.frame]
  exact ⟨rfl, rfl, rfl⟩

end

omit [DecidableEq H] in
theorem IndexInv.same (h : IndexInv c s) (hsame : SameIndex s t) : IndexInv c t where
  path := by
    rw [hsame.mapBlockIndex]
    exact h.path
  stored := by
    rw [hsame.mapBlockIndex, hsame.blockFiles]
    exact h.stored

/-- Where the database stands depends on the content, the links, the files and
the index. -/
theorem At.unmoved (h : At c s path) (hunmoved : Unmoved s t) : At c t path := by
  rw [hunmoved.frame]
  refine ⟨?_, h.links, ?_, h.indexed⟩
  · rw [hunmoved.pdb]
    exact h.hashBestChain
  · rw [hunmoved.pdb]
    exact h.chained

theorem At.standing (h : At c s path) : Standing c s s.txnBegin path where
  toWorking := working_txnBegin s
  chained := h.chained

omit [TransOrd H] in
theorem readBlockFromDisk_file (h : s.readBlockFromDisk c env pindex = some block) :
    s.blockFiles pindex.nFile pindex.nBlockPos = some block := by
  unfold readBlockFromDisk at h
  split at h
  · exact (filter_eq_some_iff.mp h).1
  · cases h

omit [DecidableEq H] in
/-- The block at the position of an entry is the one it was made from. -/
theorem IndexInv.stored_suffix (h : IndexInv c s) (hindexed : Indexed s.mapBlockIndex path)
    (hsuffix : pindex :: pprev <:+ path) (hfile : s.blockFiles pindex.nFile pindex.nBlockPos = some block) :
    Stored c s.blockFiles pindex pprev block := by
  obtain ⟨block', hstored⟩ := h.stored pindex pprev (hindexed pindex pprev hsuffix).1
  have hsame := hstored.file
  rw [hfile] at hsame
  cases hsame
  exact hstored

variable [LawfulEqOrd H]

variable {prev : CBlockIndex H} {rest : PIndex H}

/-- **Connecting a block** moves the batch up by one entry. -/
theorem Standing.connectBlock (h : Standing c start s (prev :: rest))
    (hstored : Stored c start.blockFiles pindex (prev :: rest) block)
    (hheight : pindex.nHeight = prev.nHeight + 1)
    (hconnect : s.connectBlock c env block pindex (prev :: rest) false = (true, t)) :
    Standing c start t (pindex :: prev :: rest) := by
  have hwork : Working start (s.connectBlock c env block pindex (prev :: rest) false).2 :=
    h.toWorking.connectBlock
  rw [hconnect] at hwork
  obtain ⟨acc, _, hchecks, _, _⟩ := connectBlock_true hconnect
  obtain ⟨coinbase, others, hshape⟩ := CBlock.checkBlock_shape (connectChecks_some hchecks).1
  obtain ⟨coinbase', hhead, htagged⟩ := (hstored.prev prev rfl).2
  rw [hshape.vtx, head?_cons] at hhead
  cases hhead
  exact ⟨hwork, .connect h.chained hstored.file hshape htagged hheight (connectBlock_ledger hconnect)⟩

/-- **Disconnecting a block** moves the batch down by one entry. -/
theorem Standing.disconnectIndex (hinj : Injective c.sha256)
    (h : Standing c start s (pindex :: prev :: rest)) (hundo : disconnectIndex c env s
    (pindex, prev :: rest) = (true, t)) : Standing c start t (prev :: rest) := by
  have hwork : Working start (Node.disconnectIndex c env s (pindex, prev :: rest)).2 :=
    h.toWorking.disconnectIndex
  rw [hundo] at hwork
  refine ⟨hwork, ?_⟩
  obtain ⟨block, before, hfile, hprev, hfresh, hconnect⟩ := h.chained.last hinj
  unfold Node.disconnectIndex at hundo
  cases hread : s.readBlockFromDisk c env pindex with
  | none => simp [hread] at hundo
  | some block' =>
    have hsame := readBlockFromDisk_file hread
    rw [h.blockFiles, hfile] at hsame
    cases hsame
    simp only [hread] at hundo
    have hflag : (s.disconnectBlock c block pindex (prev :: rest)).1 = true := by
      split at hundo
      · rename_i hflag
        exact (Bool.and_eq_true_iff.mp hflag).1
      · rw [hundo]
    have hview : t.txdb.view = (s.disconnectBlock c block pindex (prev :: rest)).2.txdb.view := by
      split at hundo
      · rw [← (Prod.mk.inj hundo).2]
      · rw [hundo]
    rw [hview, disconnectBlock_ledger hfresh hconnect (Prod.ext hflag rfl)]
    exact hprev

theorem Standing.disconnecting (hinj : Injective c.sha256) (h : Standing c start s path)
    (hfork : pfork ≠ []) (hsuffix : pfork <:+ path)
    (hloop : EarlyExit.loop (Node.disconnectIndex c env) s (downTo pfork path) = (true, t)) :
    Standing c start t pfork := by
  induction path generalizing s with
  | nil => exact absurd (suffix_nil.mp hsuffix) hfork
  | cons pindex pprev ih =>
    rcases suffix_cons_iff.mp hsuffix with rfl | hbelow
    · rw [downTo_self] at hloop
      cases hloop
      exact h
    · rw [downTo_cons _ hbelow] at hloop
      obtain ⟨mid, hstep, hrest⟩ := EarlyExit.loop_cons_true.mp hloop
      cases pprev with
      | nil => exact absurd (suffix_nil.mp hbelow) hfork
      | cons prev rest => exact ih (h.disconnectIndex hinj hstep) hbelow hrest

/-- The connecting loop of `Reorganize` moves the batch from the fork to the new
entry. -/
theorem Standing.connecting (hinv : IndexInv c start) (h : Standing c start s pfork)
    (hindexed : Indexed start.mapBlockIndex path) (hsuffix : pfork <:+ path)
    (hloop : EarlyExit.loop (connectIndex c env) s (downTo pfork path).reverse = (true, t)) :
    Standing c start t path := by
  induction path generalizing t with
  | nil => exact absurd (suffix_nil.mp hsuffix) h.chained.ne_nil
  | cons pindex pprev ih =>
    rcases suffix_cons_iff.mp hsuffix with rfl | hbelow
    · rw [downTo_self] at hloop
      cases hloop
      exact h
    · rw [downTo_cons _ hbelow, reverse_cons] at hloop
      obtain ⟨mid, hpre, hlast⟩ := EarlyExit.loop_append_true.mp hloop
      obtain ⟨last, hstep, hend⟩ := EarlyExit.loop_cons_true.mp hlast
      cases hend
      have hmid := ih (hindexed.suffix (suffix_cons _ _)) hbelow hpre
      unfold connectIndex at hstep
      cases hread : mid.readBlockFromDisk c env pindex with
      | none => simp [hread] at hstep
      | some block =>
        simp only [hread] at hstep
        have hfile := readBlockFromDisk_file hread
        rw [hmid.blockFiles] at hfile
        cases pprev with
        | nil => exact absurd rfl hmid.chained.ne_nil
        | cons prev rest =>
          exact hmid.connectBlock (hinv.stored_suffix hindexed suffix_rfl hfile)
            ((hindexed _ _ suffix_rfl).2 prev rfl) hstep

omit [LawfulEqOrd H] in
/-- **A commit** makes the database stand where the batch stood. -/
theorem Standing.commitTip {hash : H} {relink : ExtTreeMap H H → ExtTreeMap H H}
    (h : Standing c start s path) (hindexed : Indexed start.mapBlockIndex path)
    (hhash : path.head?.map CBlockIndex.hash = some hash) (hlinks : relink start.pnext = linksOf path)
    (hcommit : s.commitTip env hash relink = (true, t)) : At c t path ∧ SameIndex start t := by
  have hframe := h.frame
  rw [commitTip_true hcommit]
  refine ⟨⟨hhash.symm, ?_, ?_, ?_⟩, ?_⟩
  · rw [hframe]
    exact hlinks
  · rw [h.blockFiles]
    exact h.chained
  · rw [hframe]
    exact hindexed
  · rw [hframe]
    exact ⟨rfl, rfl, rfl⟩

/-- **`Reorganize`** moves the database to the new entry. -/
theorem At.reorganize (hinj : Injective c.sha256) (hinv : IndexInv c s)
    (h : At c s s.pindexBest) (hindexed : Indexed s.mapBlockIndex (pindex :: pprev))
    (hreorganize : s.txnBegin.reorganize c env pindex pprev = (true, t)) :
    At c t (pindex :: pprev) ∧ SameIndex s t := by
  obtain ⟨pfork, u, v, hfork, hdisconnect, hconnect, hcommit⟩ := reorganize_true hreorganize
  obtain ⟨hbest, hnew⟩ := findFork_suffix hfork
  have hundone := h.standing.disconnecting hinj (findFork_ne_nil hfork) hbest hdisconnect
  have hdone := hundone.connecting hinv hindexed hnew hconnect
  refine hdone.commitTip hindexed rfl ?_ hcommit
  rw [h.links]
  have hunlinked := h.indexed.foldl_unlink hbest
  have hlinked := foldl_link hnew
  rw [← hunlinked] at hlinked
  exact hlinked

/-- **`SetBestChainInner`** moves the database up by one entry. -/
theorem At.setBestChainInner
    (h : At c s (prev :: rest)) (hindexed : Indexed s.mapBlockIndex (pindex :: prev :: rest))
    (hstored : Stored c s.blockFiles pindex (prev :: rest) block)
    (hinner : s.txnBegin.setBestChainInner c env block pindex (prev :: rest) = (true, t)) :
    At c t (pindex :: prev :: rest) ∧ SameIndex s t := by
  obtain ⟨_, _, ⟨⟩, _⟩ | ⟨u, hconnect, hcommit⟩ := setBestChainInner_cases hinner
  have hdone := h.standing.connectBlock hstored ((hindexed _ _ suffix_rfl).2 prev rfl) hconnect
  refine hdone.commitTip hindexed ?_ ?_ hcommit
  · rw [hstored.hash]
    rfl
  · rw [h.links]
    rfl

/-- One postponed entry: it is connected, or nothing moves. -/
theorem At.connectSecondary (env : Env H) (hinv : IndexInv c s)
    (h : At c s (prev :: rest)) (hindexed : Indexed s.mapBlockIndex (pindex :: prev :: rest)) :
    let done := connectSecondary c env s (pindex, prev :: rest)
    SameIndex s done.2 ∧ (done.1 = true → At c done.2 (pindex :: prev :: rest)) ∧
      (done.1 = false → At c done.2 (prev :: rest)) := by
  unfold Node.connectSecondary
  cases hread : s.readBlockFromDisk c env pindex with
  | none => exact ⟨⟨rfl, rfl, rfl⟩, fun hflag => absurd hflag Bool.false_ne_true, fun _ => h⟩
  | some block =>
    have hstored := hinv.stored_suffix hindexed suffix_rfl (readBlockFromDisk_file hread)
    simp only
    cases hinner : s.txnBegin.setBestChainInner c env block pindex (prev :: rest) with
    | mk flag t =>
      cases flag with
      | true =>
        obtain ⟨hat, hsame⟩ := h.setBestChainInner hindexed hstored hinner
        exact ⟨hsame, fun _ => hat, fun hflag => absurd hflag.symm Bool.false_ne_true⟩
      | false =>
        have hunmoved := (working_txnBegin s).setBestChainInner_false hinner
        exact ⟨hunmoved.sameIndex, fun hflag => absurd hflag Bool.false_ne_true, fun _ => h.unmoved hunmoved⟩

/-- **The postponed entries.**  The loop leaves the database somewhere between
the intermediate entry and the new one, and at the new one exactly when no
postponed entry failed. -/
theorem At.secondaries (env : Env H) (hinv : IndexInv c s) (h : At c s pfork)
    (hindexed : Indexed s.mapBlockIndex path) (hsuffix : pfork <:+ path) :
    let done := EarlyExit.loop (Node.connectSecondary c env) s (downTo pfork path).reverse
    ∃ reached, reached <:+ path ∧ At c done.2 reached ∧ SameIndex s done.2 ∧
      (done.1 = true ↔ reached = path) := by
  induction path with
  | nil => exact absurd (suffix_nil.mp hsuffix) h.chained.ne_nil
  | cons pindex pprev ih =>
    rcases suffix_cons_iff.mp hsuffix with rfl | hbelow
    · rw [downTo_self]
      exact ⟨_, suffix_rfl, h, ⟨rfl, rfl, rfl⟩, by simp [EarlyExit.loop]⟩
    · obtain ⟨reached, hreached, hat, hsame, hflag⟩ := ih (hindexed.suffix (suffix_cons _ _)) hbelow
      rw [downTo_cons _ hbelow, reverse_cons]
      simp only
      rw [EarlyExit.loop_append]
      split
      · rename_i hpre
        have htop := hflag.mp hpre
        subst htop
        cases reached with
        | nil => exact absurd rfl hat.chained.ne_nil
        | cons prev rest =>
          have hindexed' := hindexed
          rw [← hsame.mapBlockIndex] at hindexed'
          have hstep := hat.connectSecondary env (hinv.same hsame) hindexed'
          rw [EarlyExit.loop_singleton]
          obtain ⟨hsame', hup, hstay⟩ := hstep
          cases hlast : (Node.connectSecondary c env _ (pindex, prev :: rest)).1 with
          | true => exact ⟨_, suffix_rfl, hup hlast, hsame.trans hsame', by simp⟩
          | false =>
            exact ⟨_, suffix_cons _ _, hstay hlast, hsame.trans hsame', by simp⟩
      · rename_i hpre
        refine ⟨reached, hreached.trans (suffix_cons _ _), hat, hsame, ?_⟩
        constructor
        · intro hdone
          exact absurd hdone hpre
        · intro htop
          have hlength := hreached.length_le
          rw [htop, length_cons] at hlength
          omega

/-- None of the early exits of the loop over the postponed entries is taken:
when the call reorganizes and gets as far as the intermediate entry, every
postponed block can be read, passes `ConnectBlock` and is committed. -/
def SecondariesConnect (c : Consensus H) (s : Node H) (env : Env H) (block : CBlock H)
    (pindexNew : CBlockIndex H) (pprev : PIndex H) : Prop :=
  block.hashPrevBlock ≠ s.hashBestChain →
    let postponed :=
      postpone ((s.pindexBest.head?.map CBlockIndex.nChainTrust).getD 0) pindexNew pprev
    ∀ u, s.txnBegin.reorganize c env postponed.2.1 postponed.2.2 = (true, u) →
      (EarlyExit.loop (connectSecondary c env) u postponed.1.reverse).1 = true

/-- The tip and the committed database agree. -/
structure Coherent (c : Consensus H) (s : Node H) : Prop where
  committed : s.txdb.pdb.hashBestChain = some s.hashBestChain
  tip : s.pindexBest.head?.map CBlockIndex.hash = some s.hashBestChain
  links : ∀ pindex ∈ s.pindexGenesisBlock, ∀ n ≥ s.pindexBest.length,
    follow s.pnext n pindex.hash = (s.pindexBest.map CBlockIndex.hash).reverse
  txindex : Ledger.ofPath c s.blockFiles s.pindexBest = some s.txdb.pdb.txindex

/-- Invariant of the node: the block index is in order, and the database stands
at the tip. -/
structure TipInv (c : Consensus H) (s : Node H) : Prop where
  index : IndexInv c s
  tip : At c s s.pindexBest
  hash : s.pindexBest.head?.map CBlockIndex.hash = some s.hashBestChain
  genesis : ∃ pindex, s.pindexGenesisBlock = [pindex] ∧ [pindex] <:+ s.pindexBest

theorem TipInv.coherent (h : TipInv c s) : Coherent c s where
  committed := h.tip.hashBestChain.trans h.hash
  tip := h.hash
  links := by
    intro pindex hmem n hn
    obtain ⟨first, hfirst, above, hbest⟩ := h.genesis
    rw [hfirst, mem_singleton] at hmem
    subst hmem
    rw [h.tip.links, h.tip.indexed.follow_linksOf hbest.symm, ← hbest]
    · simp
    · rw [← hbest, length_append] at hn
      omega
  txindex := h.tip.chained.ofPath

omit [LawfulEqOrd H] in
/-- A node that stands at a path with the same first entry satisfies the
invariant once the path is its tip. -/
theorem TipInv.setTip {hash : H} (h : TipInv c s) (hat : At c t (pindex :: pprev))
    (hsame : SameIndex s t) (hhash : pindex.hash = hash)
    (hcommon : pfork ≠ []) (hold : pfork <:+ s.pindexBest) (hnew : pfork <:+ pindex :: pprev) :
    TipInv c (t.setTip hash pindex pprev) where
  index := by
    have hindex := h.index.same hsame
    exact ⟨hindex.path, hindex.stored⟩
  tip := ⟨hat.hashBestChain, hat.links, hat.chained, hat.indexed⟩
  hash := by
    rw [← hhash]
    rfl
  genesis := by
    obtain ⟨first, hfirst, hbest⟩ := h.genesis
    refine ⟨first, hsame.pindexGenesisBlock.trans hfirst, ?_⟩
    refine List.IsSuffix.trans ?_ hnew
    refine suffix_of_suffix_length_le hbest hold ?_
    rw [length_singleton]
    exact length_pos_iff.mpr hcommon

omit [LawfulEqOrd H] in
theorem TipInv.pprev_eq (h : TipInv c s) (hlook : s.mapBlockIndex[pindex.hash]? = some (pindex :: pprev))
    (hfile : s.blockFiles pindex.nFile pindex.nBlockPos = some block)
    (hroot : pprev = [] → block.hashPrevBlock ≠ s.hashBestChain)
    (hextends : block.hashPrevBlock = s.hashBestChain) : pprev = s.pindexBest := by
  have hindexed := (h.index.path _ _ hlook).1
  have hstored := h.index.stored_suffix hindexed suffix_rfl hfile
  cases pprev with
  | nil => exact absurd hextends (hroot rfl)
  | cons prev rest =>
    have hprev := (hstored.prev prev rfl).1
    cases hbest : s.pindexBest with
    | nil => exact absurd hbest h.tip.chained.ne_nil
    | cons best below =>
      have hhash := h.hash
      rw [hbest, head?_cons, map_some, Option.some.injEq] at hhash
      have hleft := (hindexed prev rest (suffix_cons _ _)).1
      have hright := (h.tip.indexed best below (hbest ▸ suffix_rfl)).1
      rw [hhash, ← hextends, hprev, hleft] at hright
      exact Option.some.inj hright

section

variable (hinj : Injective c.sha256) (h : TipInv c s)
  (hlook : s.mapBlockIndex[pindex.hash]? = some (pindex :: pprev))
  (hfile : s.blockFiles pindex.nFile pindex.nBlockPos = some block)
  (hroot : pprev = [] → block.hashPrevBlock ≠ s.hashBestChain)

include hinj h hlook hfile hroot

/-- **A call of `SetBestChain` that returns `true`.**  The invariant holds
afterwards when no postponed block failed, and otherwise the tip is not where
the database stands. -/
theorem TipInv.setBestChain_true (hcall : s.setBestChain c env block pindex pprev = (true, t)) :
    (SecondariesConnect c s env block pindex pprev → TipInv c t) ∧
      (Coherent c t → SecondariesConnect c s env block pindex pprev) := by
  have hindexed := (h.index.path _ _ hlook).1
  have hstored := h.index.stored_suffix hindexed suffix_rfl hfile
  have hbest := h.tip.chained.ne_nil
  unfold setBestChain at hcall
  simp only at hcall
  split at hcall
  · rename_i hfirst
    obtain ⟨first, hgenesis, _⟩ := h.genesis
    rw [hgenesis] at hfirst
    exact absurd hfirst.1 (cons_ne_nil _ _)
  · split at hcall
    · rename_i hextends
      refine ⟨fun _ => ?_, fun _ hother => absurd hextends hother⟩
      have hprev := h.pprev_eq hlook hfile hroot hextends
      cases hinner : s.txnBegin.setBestChainInner c env block pindex pprev with
      | mk flag u =>
        rw [hinner] at hcall
        cases flag with
        | false => cases hcall
        | true =>
          cases hcall
          cases hpprev : pprev with
          | nil => exact absurd (hprev.symm.trans hpprev) hbest
          | cons prev rest =>
            rw [hpprev] at hindexed hstored hinner hprev
            have hat := h.tip
            rw [← hprev] at hat
            obtain ⟨hat', hsame⟩ := hat.setBestChainInner hindexed hstored hinner
            exact h.setTip hat' hsame hstored.hash.symm hbest suffix_rfl
              (hprev ▸ suffix_cons _ _)
    · rename_i hother
      obtain ⟨u, hreorganize, rfl⟩ := switchBranch_true rfl hcall
      obtain ⟨hsuffix, hpostponed⟩ :=
        postpone_eq ((s.pindexBest.head?.map CBlockIndex.nChainTrust).getD 0) pindex pprev
      obtain ⟨hat, hsame⟩ := h.tip.reorganize hinj h.index (hindexed.suffix hsuffix) hreorganize
      have hindexed' := hindexed
      rw [← hsame.mapBlockIndex] at hindexed'
      obtain ⟨reached, hreached, hat', hsame', hflag⟩ :=
        hat.secondaries env (h.index.same hsame) hindexed' hsuffix
      rw [← hpostponed] at hat' hsame' hflag
      obtain ⟨pfork, _, _, hfork, _⟩ := reorganize_true hreorganize
      obtain ⟨hold, hnew⟩ := findFork_suffix hfork
      constructor
      · intro hsecondaries
        rw [hflag.mp (hsecondaries hother u hreorganize)] at hat'
        exact h.setTip hat' (hsame.trans hsame') hstored.hash.symm (findFork_ne_nil hfork) hold
          (hnew.trans hsuffix)
      · intro hcoherent _ postponed v hv
        have heq : v = u := congrArg Prod.snd (hv.symm.trans hreorganize)
        subst heq
        refine hflag.mpr ?_
        have hcommitted := hat'.hashBestChain.symm.trans hcoherent.committed
        cases reached with
        | nil => cases hcommitted
        | cons top below =>
          rcases suffix_cons_iff.mp hreached with heq | hunder
          · exact heq
          · have hhash : top.hash = block.getHash c := Option.some.inj hcommitted
            exact absurd (hhash.trans hstored.hash) (hindexed.hash_ne hunder)

/-- **A call of `SetBestChain`** keeps the invariant unless a postponed block
fails. -/
theorem TipInv.setBestChain (hsecondaries : SecondariesConnect c s env block pindex pprev) :
    TipInv c (s.setBestChain c env block pindex pprev).2 := by
  cases hcall : s.setBestChain c env block pindex pprev with
  | mk flag t =>
    cases flag with
    | true => exact (h.setBestChain_true hinj hlook hfile hroot hcall).1 hsecondaries
    | false =>
      have hunmoved := setBestChain_unmoved hcall
      have hindex := h.index.same hunmoved.sameIndex
      have htip := h.tip.unmoved hunmoved
      have hframe := hunmoved.frame
      refine ⟨hindex, ?_, ?_, ?_⟩
      · rw [hframe]
        rw [hframe] at htip
        exact htip
      · rw [hframe]
        exact h.hash
      · rw [hframe]
        exact h.genesis

end

omit [LawfulEqOrd H] in
theorem TipInv.extend {files : Nat → Nat → Option (CBlock H)} (h : TipInv c s)
    (hext : FilesExtend s.blockFiles files) : TipInv c { s with blockFiles := files } where
  index := by
    refine ⟨h.index.path, ?_⟩
    intro pindex pprev hlook
    obtain ⟨block, hstored⟩ := h.index.stored pindex pprev hlook
    exact ⟨block, hext _ _ _ hstored.file, hstored.hash, hstored.prev⟩
  tip := ⟨h.tip.hashBestChain, h.tip.links, h.tip.chained.extend hext, h.tip.indexed⟩
  hash := h.hash
  genesis := h.genesis

/-- Adding an entry behind another one keeps the block index in order. -/
theorem IndexInv.insert (h : IndexInv c s) (hnew : pindex.hash ∉ s.mapBlockIndex)
    (hprev : s.mapBlockIndex[prev.hash]? = some (prev :: rest))
    (hheight : pindex.nHeight = prev.nHeight + 1)
    (hstored : Stored c s.blockFiles pindex (prev :: rest) block)
    (hindex : t.mapBlockIndex = s.mapBlockIndex.insert pindex.hash (pindex :: prev :: rest))
    (hfiles : t.blockFiles = s.blockFiles) : IndexInv c t := by
  constructor
  · rw [hindex]
    exact indexed_insert h.path hnew hprev hheight
  · rw [hindex, hfiles]
    intro other pprev hlook
    by_cases heq : pindex.hash = other.hash
    · rw [← heq, getElem?_insert_self] at hlook
      cases hlook
      exact ⟨block, hstored⟩
    · rw [FinMap.getElem?_insert_ne _ _ heq] at hlook
      exact h.stored other pprev hlook

omit [Ord H] [TransOrd H] [LawfulEqOrd H] in
theorem tagged_of_acceptRules {pindexPrev : CBlockIndex H} {checkProofOfStake checkSync : Bool}
    (h : block.acceptRules c pindexPrev pprev checkProofOfStake checkSync) :
    ∃ coinbase ∈ block.vtx.head?, coinbase.Tagged (pindexPrev.nHeight + 1) := by
  unfold CBlock.acceptRules at h
  have htag := (Bool.and_eq_true_iff.mp h).2
  rw [Option.any_eq_true] at htag
  obtain ⟨txin, hmem, hpush⟩ := htag
  obtain ⟨coinbase, hcoinbase, hvin⟩ := bind_eq_some_iff.mp hmem
  exact ⟨coinbase, hcoinbase, txin, hvin, isPrefixOf_iff_prefix.mp hpush⟩

omit [DecidableEq H] [LawfulEqOrd H] in
theorem txnCommit_writeBlockIndex (txdb : CTxDB H) (hash : H) (entry : CDiskBlockIndex H)
    (ok : Bool) :
    let committed := ((txdb.txnBegin.writeBlockIndex hash entry).txnCommit ok).2
    committed.pdb.txindex = txdb.pdb.txindex ∧
      committed.pdb.hashBestChain = txdb.pdb.hashBestChain := by
  cases ok with
  | false => exact ⟨rfl, rfl⟩
  | true => exact ⟨rfl, rfl⟩

/-- **Entering a block into the index** keeps the invariant, whether it succeeds
or not. -/
theorem TipInv.storeIndex {pindexPrev : CBlockIndex H} {nFile nBlockPos : Nat} (h : TipInv c s)
    (hprev : s.mapBlockIndex[block.hashPrevBlock]? = some (pindexPrev :: pprev))
    (hfile : s.blockFiles nFile nBlockPos = some block)
    (htagged : ∃ coinbase ∈ block.vtx.head?, coinbase.Tagged (pindexPrev.nHeight + 1)) :
    TipInv c (s.storeIndex c env block nFile nBlockPos).2 := by
  have hhead : pindexPrev.hash = block.hashPrevBlock := Option.some.inj (h.index.path _ _ hprev).2
  unfold Node.storeIndex
  simp only
  split
  · exact h
  · rename_i hnew
    split
    · exact h
    · rw [hprev, getD_some]
      have hstored : Stored c s.blockFiles (newIndex c block nFile nBlockPos (pindexPrev :: pprev))
          (pindexPrev :: pprev) block := by
        refine ⟨hfile, rfl, ?_⟩
        intro prev hmem
        cases hmem
        exact ⟨hhead.symm, htagged⟩
      refine ⟨h.index.insert hnew (hhead ▸ hprev) rfl hstored rfl rfl, ?_, h.hash, h.genesis⟩
      have hcommitted := txnCommit_writeBlockIndex s.txdb (block.getHash c)
        ((s.insertIndex (newIndex c block nFile nBlockPos (pindexPrev :: pprev))
          (pindexPrev :: pprev)).diskBlockIndex c
            (newIndex c block nFile nBlockPos (pindexPrev :: pprev)))
        (env.commitsIndex (block.getHash c))
      refine ⟨hcommitted.2.trans h.tip.hashBestChain, h.tip.links, ?_, h.tip.indexed.insert _ hnew⟩
      have hchained := h.tip.chained
      rw [← hcommitted.1] at hchained
      exact hchained

theorem lookup_genesis {path : PIndex H} {hash : H}
    (hlook : (genesis c block).mapBlockIndex[hash]? = some path) :
    hash = block.getHash c ∧ path = [newIndex c block 1 8 []] := by
  by_cases heq : block.getHash c = hash
  · subst heq
    have hself : (genesis c block).mapBlockIndex[block.getHash c]? =
        some [newIndex c block 1 8 []] := getElem?_insert_self
    exact ⟨rfl, Option.some.inj (hlook.symm.trans hself)⟩
  · have hother := (FinMap.getElem?_insert_ne _ _ heq).symm.trans hlook
    simp at hother

theorem lookup_storeIndex {nFile nBlockPos : Nat} {path : PIndex H} {hash : H}
    (hlook : (s.storeIndex c env block nFile nBlockPos).2.mapBlockIndex[hash]? = some path) :
    s.mapBlockIndex[hash]? = some path ∨ hash = block.getHash c ∧
      path = newIndex c block nFile nBlockPos (s.mapBlockIndex[block.hashPrevBlock]?.getD []) ::
        s.mapBlockIndex[block.hashPrevBlock]?.getD [] := by
  unfold Node.storeIndex at hlook
  simp only at hlook
  split at hlook
  · exact .inl hlook
  · split at hlook
    · exact .inl hlook
    · by_cases heq : block.getHash c = hash
      · subst heq
        exact .inr ⟨rfl, Option.some.inj (hlook.symm.trans getElem?_insert_self)⟩
      · exact .inl ((FinMap.getElem?_insert_ne _ _ heq).symm.trans hlook)

theorem tipInv_genesis (c : Consensus H) (block : CBlock H) : TipInv c (genesis c block) := by
  have hindexed : Indexed (genesis c block).mapBlockIndex [newIndex c block 1 8 []] := by
    refine (indexed_nil _).cons getElem?_insert_self ?_
    intro prev hmem
    cases hmem
  refine ⟨⟨?_, ?_⟩, ⟨rfl, rfl, .genesis _, hindexed⟩, rfl, ⟨_, rfl, suffix_rfl⟩⟩
  · intro hash path h
    obtain ⟨rfl, rfl⟩ := lookup_genesis h
    exact ⟨hindexed, rfl⟩
  · intro pindex pprev h
    obtain ⟨_, hpath⟩ := lookup_genesis h
    cases hpath
    refine ⟨block, by simp [genesis, newIndex], rfl, ?_⟩
    intro prev hmem
    cases hmem

/-- The nodes that `AcceptBlock` and calls of `SetBestChain` lead to from the
genesis block, as long as no postponed block fails.  A block is entered into the
index by `AcceptBlock`; `SetBestChain` is called by `AddToBlockIndex` for a new
entry and by the synchronized checkpoints for any entry whose block can be
read.  The genesis block extends no block. -/
inductive Reachable (c : Consensus H) (first : CBlock H) : Node H → Prop
  | genesis : Reachable c first (Node.genesis c first)
  | index {s written : Node H} {env : Env H} {block : CBlock H} {pindexPrev : CBlockIndex H}
      {pprev : PIndex H} {nFile nBlockPos : Nat} (hs : Reachable c first s)
      (hprev : s.mapBlockIndex[block.hashPrevBlock]? = some (pindexPrev :: pprev))
      (hrules : block.acceptRules c pindexPrev pprev (env.checksProofOfStake block)
        (env.checksSync (block.getHash c)))
      (hwritten : s.writeToDisk env block = some (nFile, nBlockPos, written)) :
      Reachable c first (written.storeIndex c env block nFile nBlockPos).2
  | switch {s : Node H} {env : Env H} {block : CBlock H} {pindex : CBlockIndex H}
      {pprev : PIndex H} (hs : Reachable c first s)
      (hlook : s.mapBlockIndex[pindex.hash]? = some (pindex :: pprev))
      (hfile : s.blockFiles pindex.nFile pindex.nBlockPos = some block)
      (hroot : pprev = [] → block.hashPrevBlock ≠ s.hashBestChain)
      (hsecondaries : SecondariesConnect c s env block pindex pprev) :
      Reachable c first (s.setBestChain c env block pindex pprev).2

theorem Reachable.tipInv (hinj : Injective c.sha256) {first : CBlock H}
    (h : Reachable c first s) : TipInv c s := by
  induction h with
  | genesis => exact tipInv_genesis c first
  | index _ hprev hrules hwritten ih =>
    obtain ⟨hext, hfile, hframe⟩ := writeToDisk_some hwritten
    have hinv := ih.extend hext
    rw [← hframe] at hinv
    rw [← congrArg mapBlockIndex hframe] at hprev
    exact hinv.storeIndex hprev hfile (tagged_of_acceptRules hrules)
  | switch _ hlook hfile hroot hsecondaries ih =>
    exact ih.setBestChain hinj hlook hfile hroot hsecondaries

/-- **Tip coherence.**  In every run in which no postponed block fails, the tip
is where the database stands, in every state.  There, a call of `SetBestChain`
that returns `true` leaves the tip where the database stands if and only if none
of the postponed blocks fails. -/
theorem tip_coherence (hinj : Function.Injective c.sha256) {first : CBlock H} (h : Reachable c first s) :
    Coherent c s ∧ ∀ (env : Env H) (block : CBlock H) (pindex : CBlockIndex H) (pprev : PIndex H)
      (t : Node H), s.mapBlockIndex[pindex.hash]? = some (pindex :: pprev) →
      s.blockFiles pindex.nFile pindex.nBlockPos = some block →
      (pprev = [] → block.hashPrevBlock ≠ s.hashBestChain) →
      s.setBestChain c env block pindex pprev = (true, t) →
      (Coherent c t ↔ SecondariesConnect c s env block pindex pprev) := by
  have hinv := h.tipInv hinj
  refine ⟨hinv.coherent, ?_⟩
  intro env block pindex pprev t hlook hfile hroot hcall
  obtain ⟨hkeeps, hneeds⟩ := hinv.setBestChain_true hinj hlook hfile hroot hcall
  exact ⟨hneeds, fun hsecondaries => (hkeeps hsecondaries).coherent⟩

section

omit [LawfulEqOrd H]

theorem storeIndex_true {pindexPrev : CBlockIndex H} {nFile nBlockPos : Nat}
    (hprev : s.mapBlockIndex[block.hashPrevBlock]? = some (pindexPrev :: pprev))
    (h : s.storeIndex c env block nFile nBlockPos = (true, t)) : t.mapBlockIndex[block.getHash c]? =
        some (newIndex c block nFile nBlockPos (pindexPrev :: pprev) :: pindexPrev :: pprev) ∧
      t.blockFiles = s.blockFiles ∧ t.hashBestChain = s.hashBestChain := by
  unfold Node.storeIndex at h
  simp only [hprev, getD_some] at h
  split at h
  · cases h
  · split at h
    · cases h
    · rw [← (Prod.mk.inj h).2]
      exact ⟨getElem?_insert_self, rfl, rfl⟩

/-- **What `AcceptBlock` does**: nothing, or it enters the block into the index, or it calls
`SetBestChain` for the new entry as well. -/
theorem acceptBlock_cases (c : Consensus H) (s : Node H) (env : Env H) (block : CBlock H) :
    (s.acceptBlock c env block).2 = s ∨ ∃ pindexPrev pprev nFile nBlockPos written,
      s.mapBlockIndex[block.hashPrevBlock]? = some (pindexPrev :: pprev) ∧
      block.acceptRules c pindexPrev pprev (env.checksProofOfStake block) (env.checksSync
      (block.getHash c)) ∧ s.writeToDisk env block = some (nFile, nBlockPos, written) ∧
      ((s.acceptBlock c env block).2 = (written.storeIndex c env block nFile nBlockPos).2 ∨
        ∃ pindex u, u = (written.storeIndex c env block nFile nBlockPos).2 ∧
          u.mapBlockIndex[pindex.hash]? = some (pindex :: pindexPrev :: pprev) ∧
          u.blockFiles pindex.nFile pindex.nBlockPos = some block ∧ u.hashBestChain = s.hashBestChain ∧
          s.acceptBlock c env block = u.setBestChain c env block pindex (pindexPrev :: pprev)) := by
  unfold Node.acceptBlock
  split
  · exact .inl rfl
  · cases hprev : s.mapBlockIndex[block.hashPrevBlock]? with
    | none => exact .inl rfl
    | some path =>
      cases path with
      | nil => exact .inl rfl
      | cons pindexPrev pprev =>
        simp only [getD_some]
        split
        · exact .inl rfl
        · rename_i hrules
          cases hwritten : s.writeToDisk env block with
          | none => exact .inl rfl
          | some result =>
            obtain ⟨nFile, nBlockPos, written⟩ := result
            refine .inr ⟨_, _, nFile, nBlockPos, written, rfl, by simpa using hrules, rfl, ?_⟩
            obtain ⟨_, hfile, hframe⟩ := writeToDisk_some hwritten
            rw [← congrArg mapBlockIndex hframe] at hprev
            unfold addToBlockIndex
            simp only [hprev, getD_some]
            cases hstore : written.storeIndex c env block nFile nBlockPos with
            | mk flag u =>
              cases flag with
              | false => exact .inl rfl
              | true =>
                obtain ⟨hlook, hfiles, htip⟩ := storeIndex_true hprev hstore
                rw [← hfiles] at hfile
                rw [congrArg hashBestChain hframe] at htip
                simp only [Bool.not_true, Bool.false_eq_true, if_false]
                split
                · exact .inr ⟨_, u, rfl, hlook, hfile, htip, rfl⟩
                · exact .inl rfl

variable {first : CBlock H}

/-- **`AcceptBlock`** ends in a reachable state or with a call of `SetBestChain`
in one. -/
theorem Reachable.acceptBlock (h : Reachable c first s) (env : Env H) (block : CBlock H) :
    Reachable c first (s.acceptBlock c env block).2 ∨ ∃ u pindex pprev, Reachable c first u ∧
        u.mapBlockIndex[pindex.hash]? = some (pindex :: pprev) ∧
        u.blockFiles pindex.nFile pindex.nBlockPos = some block ∧ pprev ≠ [] ∧
        u.hashBestChain = s.hashBestChain ∧
        s.acceptBlock c env block = u.setBestChain c env block pindex pprev := by
  rcases acceptBlock_cases c s env block with hsame | ⟨_, _, _, _, _, hprev, hrules, hwritten, hend⟩
  · exact .inl (hsame.symm ▸ h)
  · have hindex := h.index hprev hrules hwritten
    rcases hend with hsame | ⟨pindex, u, rfl, hlook, hfile, htip, hcall⟩
    · exact .inl (hsame.symm ▸ hindex)
    · exact .inr ⟨_, pindex, _, hindex, hlook, hfile, cons_ne_nil _ _, htip, hcall⟩

theorem Reachable.acceptBlock_extends (h : Reachable c first s) (env : Env H)
    (hextends : block.hashPrevBlock = s.hashBestChain) : Reachable c first (s.acceptBlock c env block).2 := by
  rcases h.acceptBlock env block with hdone | ⟨u, pindex, pprev, hu, hlook, hfile, hne, htip, hcall⟩
  · exact hdone
  · rw [hcall]
    refine hu.switch hlook hfile (fun hnil => absurd hnil hne) ?_
    intro hother
    exact absurd (hextends.trans htip.symm) hother

/-- Each of the blocks extends the tip it finds. -/
def extendsTip (c : Consensus H) : Node H → List (Env H × CBlock H) → Bool
  | _, [] => true
  | s, link :: rest =>
    link.2.hashPrevBlock == s.hashBestChain && extendsTip c (s.acceptBlock c link.1 link.2).2 rest

theorem Reachable.acceptAll {links : List (Env H × CBlock H)} (h : Reachable c first s)
    (hextends : extendsTip c s links) : Reachable c first (acceptAll c s links) := by
  induction links generalizing s with
  | nil => exact h
  | cons link links ih =>
    rw [extendsTip, Bool.and_eq_true, beq_iff_eq] at hextends
    exact ih (h.acceptBlock_extends link.1 hextends.1) hextends.2

end

theorem tip_coherence_child :
    let s := ((genesis sampleConsensus sampleGenesis).acceptBlock sampleConsensus (sampleEnv 1000)
      childBlock).2
    s.pindexBest.length = 2 ∧ Coherent sampleConsensus s := by
  intro s
  have hreach : Reachable sampleConsensus sampleGenesis s :=
    Reachable.genesis.acceptBlock_extends _ (by decide +kernel)
  exact ⟨by decide +kernel, (tip_coherence transparent_injective hreach).1⟩

/-- A block behind it whose coinbase pays itself a coin. -/
def greedyBlock : CBlock (List Nat) :=
  sampleBlock 2 (childBlock.getHash sampleConsensus) [sampleCoinbase 2 [⟨COIN, []⟩]]

/-- **A block that `ConnectBlock` rejects becomes the tip.**  The first block
cannot be committed at first, so it is connected by the reorganization to the
second block, which is postponed.  The second block pays itself too much and is
not connected, yet it is the tip afterwards. -/
theorem rejected_block_becomes_tip :
    ∃ (s t : Node (List Nat)) (env : Env (List Nat)) (block : CBlock (List Nat))
      (pindex : CBlockIndex (List Nat)) (pprev : PIndex (List Nat)),
      Reachable sampleConsensus sampleGenesis s ∧ s.mapBlockIndex[pindex.hash]? =
      some (pindex :: pprev) ∧ s.blockFiles pindex.nFile pindex.nBlockPos = some block ∧
      pprev ≠ [] ∧ s.setBestChain sampleConsensus env block pindex pprev = (true, t) ∧
      t.txdb.pdb.hashBestChain ≠ some t.hashBestChain := by
  have hreach : Reachable sampleConsensus sampleGenesis
      ((genesis sampleConsensus sampleGenesis).acceptBlock sampleConsensus
        { sampleEnv 1000 with commits := fun _ => false } childBlock).2 :=
    Reachable.genesis.acceptBlock_extends _ (by decide +kernel)
  rcases hreach.acceptBlock (sampleEnv 2000) greedyBlock with
    hdone | ⟨u, pindex, pprev, hu, hlook, hfile, hne, _, hcall⟩
  · have hcommitted := (hdone.tipInv transparent_injective).coherent.committed
    exact absurd hcommitted (by decide +kernel)
  · refine ⟨u, _, sampleEnv 2000, greedyBlock, pindex, pprev, hu, hlook, hfile, hne,
      hcall.symm.trans (Prod.ext ?_ rfl), ?_⟩
    · decide +kernel
    · decide +kernel

end Node

end MaryJaneCoin
