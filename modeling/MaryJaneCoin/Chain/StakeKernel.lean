import MaryJaneCoin.Chain.TipCoherence

/-!
# The stake kernel and the best chain

`CheckProofOfStake` of a coinstake.  The modifier of the kernel is found by walking from
the block of the staked output along `pnext`, which is the best chain of the node and
not the branch that the new block is on.
-/

namespace MaryJaneCoin

open Std List ExtTreeMap UInt32 Node

def nModifierInterval : Nat := 60
def MODIFIER_INTERVAL_RATIO : Nat := 3
def nStakeMinAge : UInt32 := 15 * 60
def nStakeMaxAge : Int := 25 * 24 * 60 * 60

def getStakeModifierSelectionIntervalSection (nSection : Nat) : Nat :=
  nModifierInterval * 63 / (63 + (63 - nSection) * ( MODIFIER_INTERVAL_RATIO - 1))

def getStakeModifierSelectionInterval : Nat :=
  ((List.range 64).map getStakeModifierSelectionIntervalSection).sum

def getWeight (nIntervalBeginning nIntervalEnd : Int) : Int :=
  min (nIntervalEnd - nIntervalBeginning - nStakeMinAge.toNat) nStakeMaxAge

def setCompact (nCompact : UInt32) : Int :=
  let nSize := nCompact.toNat / 2 ^ 24
  let nWord := nCompact.toNat % 2 ^ 23
  let magnitude : Nat := if nSize ≤ 3 then nWord / 256 ^ (3 - nSize) else nWord * 256 ^ (nSize - 3)
  if nSize ≠ 0 ∧ nCompact.toNat / 2 ^ 23 % 2 = 1 then -magnitude else magnitude

/-- What the kernel takes from elsewhere: block validation, and a digest as a number. -/
structure StakeWorld (H : Type) extends Consensus H where
  /-- `CBigNum(uint256)`. -/
  bigNum : H → Int

/-- A node with the stake modifiers of its index entries, each with whether the entry
generated it. -/
structure StakeNode (H : Type) [Ord H] extends Node H where
  nStakeModifier : ExtTreeMap H (UInt64 × Bool)

namespace StakeWorld

variable {H : Type} (w : StakeWorld H)

/-- `stakeHash`, behind the modifier that the stream holds already. -/
def stakeHash (nTimeTx nTxPrevTime : UInt32) (nStakeModifier : UInt64) (prevoutIndex : UInt32)
    (nTxPrevOffset : Nat) (nTimeBlockFrom : UInt32) : H :=
  w.sha256d (feedLE 8 nStakeModifier.toNat ++ feedLE 4 nTimeBlockFrom.toNat ++
    feedLE 4 nTxPrevOffset ++ feedLE 4 nTxPrevTime.toNat ++ feedLE 4 prevoutIndex.toNat ++
    feedLE 4 nTimeTx.toNat)

def stakeTargetHit (hashProofOfStake : H) (nTimeWeight : Int) (nValueIn : Int64)
    (bnTargetPerCoinDay : Int) : Bool :=
  let bnCoinDayWeight := ((nValueIn.toInt * nTimeWeight).tdiv COIN.toInt).tdiv (24 * 60 * 60)
  w.bigNum hashProofOfStake < bnCoinDayWeight * bnTargetPerCoinDay

end StakeWorld

namespace StakeNode

variable {H : Type} [Ord H] [TransOrd H]

/-- `GeneratedStakeModifier` of an entry. -/
def generatedStakeModifier (s : StakeNode H) (pindex : CBlockIndex H) : Bool :=
  s.nStakeModifier[pindex.hash]?.any Prod.snd

/-- The stake modifier of an entry. -/
def stakeModifier (s : StakeNode H) (pindex : CBlockIndex H) : UInt64 :=
  (s.nStakeModifier[pindex.hash]?.map Prod.fst).getD 0

/-- The loop of `GetKernelStakeModifier`, with `nStakeModifierTime`: it follows `pnext`
until a modifier was generated late enough.  No walk is longer than the best chain. -/
def walk (s : StakeNode H) (nStop : Int) : Nat → Int → CBlockIndex H → Option UInt64
  | fuel, nStakeModifierTime, pindex =>
    if nStop ≤ nStakeModifierTime then some (s.stakeModifier pindex)
    else
      match fuel, s.pnext[pindex.hash]?.bind (s.mapBlockIndex[·]?) with
      | fuel + 1, some (next :: _) =>
        s.walk nStop fuel
          (if s.generatedStakeModifier next then next.nTime.toNat else nStakeModifierTime) next
      | _, _ => none

def getKernelStakeModifier (s : StakeNode H) (hashBlockFrom : H) : Option UInt64 :=
  match s.mapBlockIndex[hashBlockFrom]? with
  | some (pindexFrom :: _) =>
    s.walk (pindexFrom.nTime.toNat + getStakeModifierSelectionInterval) s.pindexBest.length
      pindexFrom.nTime.toNat pindexFrom
  | _ => none

variable [DecidableEq H] (w : StakeWorld H)

/-- `CheckStakeKernelHash`, to check a kernel: the verdict and `hashProofOfStake`. -/
def checkStakeKernelHash (s : StakeNode H) (nBits : UInt32) (blockFrom : CBlock H)
    (nTxPrevOffset : Nat) (txPrev : CTransaction H) (prevout : COutPoint H) (nTimeTx : UInt32)
    (hashProofOfStake : H) : Bool × H :=
  let nValueIn := (txPrev.vout[prevout.n.toNat]?.map CTxOut.nValue).getD 0
  if nTimeTx < txPrev.nTime then (false, hashProofOfStake)
  else if blockFrom.nTime + nStakeMinAge > nTimeTx then (false, hashProofOfStake)
  else
    match s.getKernelStakeModifier (blockFrom.getHash w.toConsensus) with
    | none => (false, hashProofOfStake)
    | some nStakeModifier =>
      let hashProofOfStake :=
        w.stakeHash nTimeTx txPrev.nTime nStakeModifier prevout.n nTxPrevOffset blockFrom.nTime
      (w.stakeTargetHit hashProofOfStake (getWeight txPrev.nTime.toNat nTimeTx.toNat) nValueIn
        (setCompact nBits), hashProofOfStake)

/-- `CTransaction::ReadFromDisk(txdb, prevout, txindex)`. -/
def readPrev (s : StakeNode H) (env : Env H) (prevout : COutPoint H) :
    Option (CTransaction H × CTxIndex) :=
  (s.txdb.readTxIndex prevout.hash).bind fun txindex =>
    ((s.readTxFromDisk env txindex.pos).filter fun txPrev => prevout.n.toNat < txPrev.vout.length).map
      fun txPrev => (txPrev, txindex)

/-- `CheckProofOfStake`: the verdict and `hashProofOfStake`, which is as it was before
where the kernel is not hashed. -/
def checkProofOfStake (s : StakeNode H) (env : Env H) (tx : CTransaction H) (nBits : UInt32)
    (hashProofOfStake : H) : Bool × H :=
  if !tx.isCoinStake w.toSha256 then (false, hashProofOfStake)
  else
    match tx.vin.head?.bind fun txin => (s.readPrev env txin.prevout).map (txin, ·) with
    | none => (false, hashProofOfStake)
    | some (txin, txPrev, txindex) =>
      if !w.verifySignature txPrev tx 0 then (false, hashProofOfStake)
      else
        match if env.readsBlock txindex.pos.nFile txindex.pos.nBlockPos then
            s.blockFiles txindex.pos.nFile txindex.pos.nBlockPos else none with
        | none => (false, hashProofOfStake)
        | some block =>
          s.checkStakeKernelHash w nBits block (txindex.pos.nTxPos - txindex.pos.nBlockPos) txPrev
            txin.prevout tx.nTime hashProofOfStake

/-- The entries of the best chain above a block, the lowest first. -/
def above (s : StakeNode H) (hash : H) : PIndex H :=
  if s.pindexBest.any fun pindex => pindex.hash = hash then
    (s.pindexBest.takeWhile fun pindex => pindex.hash ≠ hash).reverse
  else []

/-- **The modifier that the best chain has for a block**: that of the first entry above it
that generated one, late enough. -/
def modifierFor (s : StakeNode H) (pindexFrom : CBlockIndex H) : Option UInt64 :=
  ((s.above pindexFrom.hash).find? fun pindex => s.generatedStakeModifier pindex &&
    decide ((pindexFrom.nTime.toNat + getStakeModifierSelectionInterval : Int) ≤ pindex.nTime.toNat)).map
      s.stakeModifier

variable [LawfulEqOrd H] {s s' : StakeNode H} {pindex : CBlockIndex H} {pprev : PIndex H}

section

omit [DecidableEq H] [LawfulEqOrd H]

variable {nStop time : Int}

theorem walk_done {fuel : Nat} (htime : nStop ≤ time) :
    s.walk nStop fuel time pindex = some (s.stakeModifier pindex) := by
  rw [walk.eq_def]
  exact if_pos htime

theorem walk_end {fuel : Nat} (htime : time < nStop)
    (hend : s.pnext[pindex.hash]? = none) : s.walk nStop fuel time pindex = none := by
  rw [walk.eq_def]
  dsimp only
  rw [if_neg (Int.not_le.mpr htime), hend]
  cases fuel <;> rfl

theorem walk_next {fuel : Nat} {next : CBlockIndex H} {rest : PIndex H}
    (htime : time < nStop) (hnext : s.pnext[pindex.hash]?.bind
    (s.mapBlockIndex[·]?) = some (next :: rest)) : s.walk nStop (fuel + 1) time pindex =
      s.walk nStop fuel (if s.generatedStakeModifier next then next.nTime.toNat else time) next := by
  rw [walk.eq_def]
  dsimp only
  rw [if_neg (Int.not_le.mpr htime), hnext]

end

omit [DecidableEq H] in
/-- **The walk along a path** finds the first entry that generated a modifier late
enough. -/
theorem walk_eq {path higher : PIndex H} {nStop time : Int} {fuel : Nat}
    (hindexed : Node.Indexed s.mapBlockIndex path) (hlinks : s.pnext = linksOf path)
    (hpath : path = higher.reverse ++ pindex :: pprev) (hfuel : higher.length ≤ fuel)
    (htime : time < nStop) : s.walk nStop fuel time pindex =
      (higher.find? fun entry => s.generatedStakeModifier entry && decide (nStop ≤ entry.nTime.toNat)).map
        s.stakeModifier := by
  induction higher generalizing pindex pprev fuel time with
  | nil =>
    have hend : s.pnext[pindex.hash]? = none := by
      rw [hlinks]
      rw [hpath] at hindexed ⊢
      exact ExtTreeMap.getElem?_eq_none hindexed.not_mem_linksOf
    exact walk_end htime hend
  | cons next higher ih =>
    have hsplit : path = higher.reverse ++ next :: pindex :: pprev := by
      rw [hpath, reverse_cons, append_assoc, singleton_append]
    have hsuffix : next :: pindex :: pprev <:+ path := hsplit ▸ suffix_append _ _
    have hnext : s.pnext[pindex.hash]?.bind (s.mapBlockIndex[·]?) = some (next :: pindex :: pprev) := by
      rw [hlinks, hindexed.getElem?_linksOf hsuffix, Option.bind_some]
      exact (hindexed next (pindex :: pprev) hsuffix).1
    cases fuel with
    | zero => simp at hfuel
    | succ fuel =>
      have hfuel : higher.length ≤ fuel := Nat.le_of_succ_le_succ hfuel
      rw [walk_next htime hnext, find?_cons]
      by_cases hlate : s.generatedStakeModifier next = true ∧ nStop ≤ next.nTime.toNat
      · -- The next round ends the walk, whatever fuel is left.
        rw [if_pos hlate.1, walk_done hlate.2, hlate.1, decide_eq_true hlate.2]
        rfl
      · have hskip : (s.generatedStakeModifier next && decide (nStop ≤ (next.nTime.toNat : Int))) =
            false := by
          rw [← Bool.not_eq_true, Bool.and_eq_true, decide_eq_true_eq]
          exact hlate
        rw [hskip]
        refine ih hsplit hfuel ?_
        split
        · rename_i hgenerated
          exact Int.not_le.mp fun hle => hlate ⟨hgenerated, hle⟩
        · exact htime

theorem getStakeModifierSelectionInterval_pos : 0 < getStakeModifierSelectionInterval := by decide

omit [TransOrd H] [LawfulEqOrd H] [Ord H] in
theorem takeWhile_split {hash : H} {path : PIndex H} (h : path.any (fun entry => entry.hash = hash) = true) :
    ∃ entry below, path = path.takeWhile (fun entry => entry.hash ≠ hash) ++ entry :: below ∧
      entry.hash = hash := by
  induction path with
  | nil => cases h
  | cons entry below ih =>
    by_cases hhash : entry.hash = hash
    · refine ⟨entry, below, ?_, hhash⟩
      rw [takeWhile_cons_of_neg (by simpa using hhash), nil_append]
    · rw [any_cons, decide_eq_false hhash, Bool.false_or] at h
      obtain ⟨found, rest, hsplit, hfound⟩ := ih h
      refine ⟨found, rest, ?_, hfound⟩
      rw [takeWhile_cons_of_pos (by simpa using hhash), cons_append, ← hsplit]

/-- **`GetKernelStakeModifier` reads the best chain.** -/
theorem getKernelStakeModifier_eq (h : s.InOrder)
    (hlook : s.mapBlockIndex[pindex.hash]? = some (pindex :: pprev)) :
    s.getKernelStakeModifier pindex.hash = s.modifierFor pindex := by
  have htime : (pindex.nTime.toNat : Int) < pindex.nTime.toNat + getStakeModifierSelectionInterval := by
    have hpos := getStakeModifierSelectionInterval_pos
    omega
  rw [getKernelStakeModifier, hlook, modifierFor, above]
  dsimp only
  split
  · rename_i hany
    obtain ⟨entry, below, hsplit, hhash⟩ := takeWhile_split hany
    have hentry := (h.best entry below ⟨_, hsplit.symm⟩).1
    rw [hhash, hlook] at hentry
    cases hentry
    refine walk_eq h.best h.links (by rw [reverse_reverse]; exact hsplit) ?_ htime
    rw [length_reverse]
    exact ( takeWhile_prefix _).length_le
  · rename_i hoff
    have hend : s.pnext[pindex.hash]? = none := by
      rw [h.links]
      refine ExtTreeMap.getElem?_eq_none fun hmem => hoff ?_
      cases hbest : s.pindexBest with
      | nil => rw [hbest] at hmem; simp [linksOf] at hmem
      | cons top rest =>
        rw [hbest] at hmem
        obtain ⟨lower, tail, hsuffix, hhash⟩ := mem_linksOf hmem
        refine any_eq_true.mpr ⟨lower, ?_, decide_eq_true hhash⟩
        exact mem_cons_of_mem _ (hsuffix.subset mem_cons_self)
    exact walk_end htime hend

/-- The earlier tests of `CheckProofOfStake` are passed, so that the kernel is hashed if
there is a modifier. -/
structure KernelReached (w : StakeWorld H) (tx txPrev : CTransaction H) (blockFrom : CBlock H) :
    Prop where
  isCoinStake : tx.isCoinStake w.toSha256 = true
  verifies : w.verifySignature txPrev tx 0 = true
  time : txPrev.nTime ≤ tx.nTime
  age : blockFrom.nTime + nStakeMinAge ≤ tx.nTime

/-- Both nodes have the branch of the block, and the transaction of the staked output
indexed in the same place on it. -/
structure SameBranch (w : StakeWorld H) (env : Env H) (s : StakeNode H) (hashPrevBlock : H)
    (path : PIndex H) (pindexFrom : CBlockIndex H) (blockFrom : CBlock H) (pos : CDiskTxPos)
    (txin : CTxIn H) (txPrev : CTransaction H) : Prop where
  inOrder : s.InOrder
  parent : s.mapBlockIndex[hashPrevBlock]? = some path
  staked : ∃ below, pindexFrom :: below <:+ path
  file : (pos.nFile, pos.nBlockPos) = (pindexFrom.nFile, pindexFrom.nBlockPos)
  block : s.blockFiles pos.nFile pos.nBlockPos = some blockFrom
  hash : blockFrom.getHash w.toConsensus = pindexFrom.hash
  index : ∃ txindex, s.txdb.readTxIndex txin.prevout.hash = some txindex ∧ txindex.pos = pos
  prev : readTx s.blockFiles pos = some txPrev
  output : txin.prevout.n.toNat < txPrev.vout.length
  reads : env.readsTx pos = true ∧ env.readsBlock pos.nFile pos.nBlockPos = true

variable {w : StakeWorld H} {env : Env H} {hashPrevBlock hashProofOfStake : H} {path : PIndex H}
  {pindexFrom : CBlockIndex H} {blockFrom : CBlock H} {pos : CDiskTxPos} {txin : CTxIn H}
  {tx txPrev : CTransaction H} {nBits : UInt32}

omit [Ord H] [TransOrd H] [DecidableEq H] [LawfulEqOrd H] in
/-- Different modifiers give different kernels. -/
theorem stakeHash_inj (hinj : Function.Injective w.sha256) {m n : UInt64}
    {nTimeTx nTxPrevTime index : UInt32} {nTxPrevOffset : Nat} {nTimeBlockFrom : UInt32}
    (heq : w.stakeHash nTimeTx nTxPrevTime m index nTxPrevOffset nTimeBlockFrom =
      w.stakeHash nTimeTx nTxPrevTime n index nTxPrevOffset nTimeBlockFrom) : m = n := by
  have hdata := Sha256.sha256d_injective hinj heq
  simp only [append_assoc] at hdata
  exact UInt64.toNat_inj.mp (prefixFree_feedLE 8 _ _ _ _ m.toNat_lt n.toNat_lt hdata).1

/-- The result of `CheckProofOfStake` where the kernel is hashed with this modifier, if
there is one. -/
def kernelResult (w : StakeWorld H) (nBits : UInt32) (blockFrom : CBlock H) (pos : CDiskTxPos)
    (txPrev : CTransaction H) (txin : CTxIn H) (tx : CTransaction H) (hashProofOfStake : H) :
    Option UInt64 → Bool × H
  | none => (false, hashProofOfStake)
  | some nStakeModifier =>
    let hashProofOfStake := w.stakeHash tx.nTime txPrev.nTime nStakeModifier txin.prevout.n
      (pos.nTxPos - pos.nBlockPos) blockFrom.nTime
    (w.stakeTargetHit hashProofOfStake (getWeight txPrev.nTime.toNat tx.nTime.toNat)
      ((txPrev.vout[txin.prevout.n.toNat]?.map CTxOut.nValue).getD 0) (setCompact nBits),
      hashProofOfStake)

/-- **What `CheckProofOfStake` depends on**: of the node, only on the modifier that its
best chain has for the staked block. -/
theorem checkProofOfStake_eq (h : SameBranch w env s hashPrevBlock path pindexFrom blockFrom pos txin txPrev)
    (hvin : tx.vin.head? = some txin) : (KernelReached w tx txPrev blockFrom →
      s.checkProofOfStake w env tx nBits hashProofOfStake =
        kernelResult w nBits blockFrom pos txPrev txin tx hashProofOfStake (s.modifierFor pindexFrom)) ∧
    (¬KernelReached w tx txPrev blockFrom →
      s.checkProofOfStake w env tx nBits hashProofOfStake = (false, hashProofOfStake)) := by
  obtain ⟨below, hstaked⟩ := h.staked
  obtain ⟨txindex, hindex, hpos⟩ := h.index
  have hread : s.readPrev env txin.prevout = some (txPrev, txindex) := by
    rw [readPrev, hindex, Option.bind_some, readTxFromDisk, hpos, if_pos h.reads.1, h.prev,
      Option.filter_some, if_pos (decide_eq_true h.output), Option.map_some]
  have hlook := ((h.inOrder.path _ _ h.parent).1 pindexFrom below hstaked).1
  have hmodifier : s.getKernelStakeModifier (blockFrom.getHash w.toConsensus) = s.modifierFor pindexFrom := by
    rw [h.hash]
    exact getKernelStakeModifier_eq h.inOrder hlook
  have hblock : (if env.readsBlock pos.nFile pos.nBlockPos = true then
      s.blockFiles pos.nFile pos.nBlockPos else none) = some blockFrom := by
    rw [if_pos h.reads.2, h.block]
  rw [checkProofOfStake]
  simp only [hvin, Option.bind_some, hread, Option.map_some, hblock, hpos, checkStakeKernelHash, hmodifier]
  constructor
  · intro hreached
    rw [if_neg (by rw [hreached.isCoinStake]; exact Bool.noConfusion),
      if_neg (by rw [hreached.verifies]; exact Bool.noConfusion), if_neg (not_lt.mpr hreached.time),
      if_neg (not_lt.mpr hreached.age)]
    cases s.modifierFor pindexFrom <;> rfl
  · intro hnot
    split
    · rfl
    · rename_i hcoinstake
      split
      · rfl
      · rename_i hverifies
        split
        · rfl
        · rename_i htime
          split
          · rfl
          · rename_i hage
            refine absurd ⟨?_, ?_, not_lt.mp htime, not_lt.mp hage⟩ hnot
            · simpa using hcoinstake
            · simpa using hverifies

/-- **Two nodes with the same branch agree on a kernel** exactly where it is not reached,
or where their best chains have the same modifier for the staked block. -/
theorem checkProofOfStake_same_iff (hinj : Function.Injective w.sha256)
    (h : SameBranch w env s hashPrevBlock path pindexFrom blockFrom pos txin txPrev)
    (h' : SameBranch w env s' hashPrevBlock path pindexFrom blockFrom pos txin txPrev)
    (hvin : tx.vin.head? = some txin) (nBits : UInt32) :
    (∀ hashProofOfStake, s.checkProofOfStake w env tx nBits hashProofOfStake =
        s'.checkProofOfStake w env tx nBits hashProofOfStake) ↔
      (KernelReached w tx txPrev blockFrom → s.modifierFor pindexFrom = s'.modifierFor pindexFrom) := by
  constructor
  · intro hsame hreached
    have hresults := fun hashProofOfStake => hsame hashProofOfStake
    simp only [(checkProofOfStake_eq h hvin).1 hreached,
      (checkProofOfStake_eq h' hvin).1 hreached] at hresults
    cases hmodifier : s.modifierFor pindexFrom with
    | none =>
      cases hmodifier' : s'.modifierFor pindexFrom with
      | none => rfl
      | some n =>
        -- Some other value was there before.
        have hresult := hresults (w.stakeHash tx.nTime txPrev.nTime (n + 1) txin.prevout.n
          (pos.nTxPos - pos.nBlockPos) blockFrom.nTime)
        rw [hmodifier, hmodifier'] at hresult
        have hsucc := stakeHash_inj hinj (congrArg Prod.snd hresult)
        simp at hsucc
    | some m =>
      cases hmodifier' : s'.modifierFor pindexFrom with
      | none =>
        have hresult := hresults (w.stakeHash tx.nTime txPrev.nTime (m + 1) txin.prevout.n
          (pos.nTxPos - pos.nBlockPos) blockFrom.nTime)
        rw [hmodifier, hmodifier'] at hresult
        have hsucc := stakeHash_inj hinj (congrArg Prod.snd hresult)
        simp at hsucc
      | some n =>
        have hresult := hresults w.zero
        rw [hmodifier, hmodifier'] at hresult
        rw [stakeHash_inj hinj (congrArg Prod.snd hresult)]
  · intro hmodifiers hashProofOfStake
    by_cases hreached : KernelReached w tx txPrev blockFrom
    · rw [(checkProofOfStake_eq h hvin).1 hreached, (checkProofOfStake_eq h' hvin).1 hreached,
        hmodifiers hreached]
    · rw [(checkProofOfStake_eq h hvin).2 hreached, (checkProofOfStake_eq h' hvin).2 hreached]

def stakeWorld : StakeWorld (List Nat) := { sampleConsensus with bigNum := fun _ => 0 }

/-- The path of the block behind genesis. -/
def stakedPath : PIndex (List Nat) :=
  childIndex :: (Node.genesis sampleConsensus sampleGenesis).pindexBest

/-- An entry behind that block. -/
def lateIndex (hash : List Nat) (nTime : UInt32) : CBlockIndex (List Nat) :=
  { childIndex with hash := hash, nHeight := 2, nTime := nTime }

/-- Where the coinbase of the block behind genesis stands. -/
def stakedPos : CDiskTxPos := ⟨1, 1000, childBlock.firstTxPos 1000⟩

def stakedCoinbase : CTransaction (List Nat) := sampleCoinbase 1 [⟨COIN, []⟩]

/-- The coinbase is staked when it weighs two coin days. -/
def stakingTx : CTransaction (List Nat) :=
  samplePayment 200000 ⟨stakedCoinbase.getHash transparent, 0⟩ [⟨0, []⟩, ⟨COIN, []⟩]

/-- A node whose best chain goes on with this entry, which has this modifier and may have
generated it. -/
def forkNode (last : List Nat) (nTime : UInt32) (nStakeModifier : UInt64) (fGenerated : Bool) :
    StakeNode (List Nat) where
  toNode :=
    { Node.genesis sampleConsensus sampleGenesis with
      txdb := ⟨⟨(∅ : TxIndexMap (List Nat)).insert (stakedCoinbase.getHash transparent)
        (.new stakedPos 1), ∅, some last⟩, none⟩
      blockFiles := fun nFile nBlockPos => if nFile = 1 ∧ nBlockPos = 1000 then some childBlock else none
      mapBlockIndex := ((Node.genesis sampleConsensus sampleGenesis).mapBlockIndex.insert
        childIndex.hash stakedPath).insert last (lateIndex last nTime :: stakedPath)
      pnext := linksOf (lateIndex last nTime :: stakedPath)
      pindexBest := lateIndex last nTime :: stakedPath }
  nStakeModifier := (∅ : ExtTreeMap (List Nat) (UInt64 × Bool)).insert last (nStakeModifier, fGenerated)

theorem forkNode_sameBranch (last : List Nat) (nTime : UInt32) (nStakeModifier : UInt64)
    (fGenerated : Bool)
    (hnew : last ∉ (Node.genesis sampleConsensus sampleGenesis).mapBlockIndex.insert
      childIndex.hash stakedPath) :
    SameBranch stakeWorld (sampleEnv 0) (forkNode last nTime nStakeModifier fGenerated)
      (childBlock.getHash sampleConsensus) stakedPath childIndex childBlock stakedPos
      ⟨⟨stakedCoinbase.getHash transparent, 0⟩, [], 0⟩ stakedCoinbase := by
  have hgenesis := (tipInv_genesis sampleConsensus sampleGenesis).index.path
  have hchild := @Node.indexed_insert _ _ _ _ _ childIndex _ _ hgenesis (by decide +kernel)
    getElem?_insert_self rfl
  have hlast := @Node.indexed_insert _ _ _ _ _ (lateIndex last nTime) _ _ hchild hnew
    getElem?_insert_self rfl
  have hne : ¬last = childIndex.hash := fun heq =>
    hnew (heq ▸ ExtTreeMap.mem_insert_self)
  refine ⟨⟨hlast, (hlast last _ getElem?_insert_self).1, rfl⟩, ?_, ⟨_, suffix_rfl⟩, rfl,
    rfl, rfl, ⟨_, getElem?_insert_self, rfl⟩, ?_, by decide, rfl, rfl⟩
  · exact (FinMap.getElem?_insert_ne _ _ hne).trans getElem?_insert_self
  · have hread : txAt stakedPos.nTxPos (childBlock.firstTxPos stakedPos.nBlockPos) childBlock.vtx =
        some stakedCoinbase := by decide +kernel
    exact hread

/-- Different best chains with the same modifier. -/
theorem checkProofOfStake_same_iff_fork :
    (forkNode [0] 3600 1 true).checkProofOfStake stakeWorld (sampleEnv 0) stakingTx 0x03000001 transparent.zero =
      (forkNode [1] 3600 1 true).checkProofOfStake stakeWorld (sampleEnv 0) stakingTx 0x03000001
        transparent.zero := by
  refine (checkProofOfStake_same_iff transparent_injective
    (forkNode_sameBranch [0] 3600 1 true (by decide +kernel))
    (forkNode_sameBranch [1] 3600 1 true (by decide +kernel)) rfl 0x03000001).mpr (fun _ => ?_)
    transparent.zero
  decide +kernel

/-- **One node accepts the stake and the other one does not**: its best chain, an hour shorter,
has no modifier for it yet. -/
theorem best_chain_decides_stake :
    (∃ hashPrevBlock path pindexFrom blockFrom pos txin txPrev, stakingTx.vin.head? = some txin ∧
      SameBranch stakeWorld (sampleEnv 0)
        (forkNode [0] 3600 1 true) hashPrevBlock path pindexFrom blockFrom pos txin txPrev ∧
      SameBranch stakeWorld (sampleEnv 0)
        (forkNode [1] 60 1 false) hashPrevBlock path pindexFrom blockFrom pos txin txPrev) ∧
    ((forkNode [0] 3600 1 true).checkProofOfStake stakeWorld (sampleEnv 0) stakingTx 0x03000001
      transparent.zero).1 = true ∧
    ((forkNode [1] 60 1 false).checkProofOfStake stakeWorld (sampleEnv 0) stakingTx 0x03000001
      transparent.zero).1 = false := by
  refine ⟨⟨_, _, _, _, _, _, _, rfl, forkNode_sameBranch [0] 3600 1 true (by decide +kernel),
    forkNode_sameBranch [1] 60 1 false (by decide +kernel)⟩, ?_, ?_⟩
  · decide +kernel
  · decide +kernel

end StakeNode

/-!
## The search for a stake kernel

`CheckStakeKernelHash` with `fCheck = false`, which the miner calls: it tries the times
behind the start, the latest one first.  The weight of a try is that of the start of the
search, while the check of a kernel weighs the time of the kernel itself.
-/

namespace StakeNode

variable {H : Type}

/-- The loop over the drift: the verdict, `nTimeTx` and `hashProofOfStake`, for the tries
`i` that are left. -/
def driftLoop (hashAt : UInt32 → H) (hits : H → Bool) (nTimeTx nHashDrift : UInt32) :
    List Nat → H → Bool × UInt32 × H
  | [], hashProofOfStake => (false, nTimeTx, hashProofOfStake)
  | i :: tries, _ =>
    let nTryTime := nTimeTx + nHashDrift - UInt32.ofNat i
    let hashProofOfStake := hashAt nTryTime
    if !hits hashProofOfStake then driftLoop hashAt hits nTimeTx nHashDrift tries hashProofOfStake
    else (true, nTryTime, hashProofOfStake)

variable [Ord H] [TransOrd H] [DecidableEq H] (w : StakeWorld H)

/-- `CheckStakeKernelHash`, to search for a kernel: the verdict, `nTimeTx` and
`hashProofOfStake`. -/
def searchStakeKernelHash (s : StakeNode H) (nBits : UInt32) (blockFrom : CBlock H)
    (nTxPrevOffset : Nat) (txPrev : CTransaction H) (prevout : COutPoint H)
    (nTimeTx nHashDrift : UInt32) (hashProofOfStake : H) : Bool × UInt32 × H :=
  let nValueIn := (txPrev.vout[prevout.n.toNat]?.map CTxOut.nValue).getD 0
  if nTimeTx < txPrev.nTime then (false, nTimeTx, hashProofOfStake)
  else if blockFrom.nTime + nStakeMinAge > nTimeTx then (false, nTimeTx, hashProofOfStake)
  else
    match s.getKernelStakeModifier (blockFrom.getHash w.toConsensus) with
    | none => (false, nTimeTx, hashProofOfStake)
    | some nStakeModifier =>
      driftLoop
        (fun nTryTime =>
          w.stakeHash nTryTime txPrev.nTime nStakeModifier prevout.n nTxPrevOffset blockFrom.nTime)
        (fun hash => w.stakeTargetHit hash (getWeight txPrev.nTime.toNat nTimeTx.toNat) nValueIn
          (setCompact nBits))
        nTimeTx nHashDrift (List.range nHashDrift.toNat) hashProofOfStake

variable {w} {s : StakeNode H} {nBits : UInt32} {blockFrom : CBlock H} {nTxPrevOffset : Nat}
  {txPrev : CTransaction H} {prevout : COutPoint H} {nTimeTx nHashDrift t : UInt32}
  {hashProofOfStake found : H}

/-- A later time weighs at least as much. -/
theorem getWeight_mono {nIntervalBeginning nIntervalEnd later : Int} (h : nIntervalEnd ≤ later) :
    getWeight nIntervalBeginning nIntervalEnd ≤ getWeight nIntervalBeginning later := by
  have hage : nIntervalEnd - nIntervalBeginning - nStakeMinAge.toNat ≤
      later - nIntervalBeginning - nStakeMinAge.toNat := by omega
  exact min_le_min_right _ hage

section

omit [Ord H] [TransOrd H] [DecidableEq H]

/-- **A hit stays a hit under a larger weight**: both divisions of the coin-day weight
round to zero, which keeps the order. -/
theorem stakeTargetHit_mono {nTimeWeight heavier : Int} {nValueIn : Int64} {bnTargetPerCoinDay : Int}
    (hvalue : 0 ≤ nValueIn.toInt) (htarget : 0 ≤ bnTargetPerCoinDay) (hle : nTimeWeight ≤ heavier)
    (h : w.stakeTargetHit found nTimeWeight nValueIn bnTargetPerCoinDay = true) :
    w.stakeTargetHit found heavier nValueIn bnTargetPerCoinDay = true := by
  have hvalues : nValueIn.toInt * nTimeWeight ≤ nValueIn.toInt * heavier :=
    Int.mul_le_mul_of_nonneg_left hle hvalue
  have hcoins : (nValueIn.toInt * nTimeWeight).tdiv COIN.toInt ≤
      (nValueIn.toInt * heavier).tdiv COIN.toInt := Int.tdiv_le_tdiv (by decide) hvalues
  have hdays : ((nValueIn.toInt * nTimeWeight).tdiv COIN.toInt).tdiv (24 * 60 * 60) ≤
      ((nValueIn.toInt * heavier).tdiv COIN.toInt).tdiv (24 * 60 * 60) :=
    Int.tdiv_le_tdiv (by decide) hcoins
  have hbound := Int.mul_le_mul_of_nonneg_right hdays htarget
  simp only [StakeWorld.stakeTargetHit, decide_eq_true_eq] at h ⊢
  exact Int.lt_of_lt_of_le h hbound

/-- **What the loop ends with** when it succeeds: one of its times, with a hash that hits. -/
theorem driftLoop_found {hashAt : UInt32 → H} {hits : H → Bool} {tries : List Nat}
    (h : driftLoop hashAt hits nTimeTx nHashDrift tries hashProofOfStake = (true, t, found)) :
    ∃ i ∈ tries, t = nTimeTx + nHashDrift - UInt32.ofNat i ∧ found = hashAt t ∧ hits found = true := by
  induction tries generalizing hashProofOfStake with
  | nil => cases h
  | cons i tries ih =>
    rw [driftLoop] at h
    split at h
    · obtain ⟨j, hj, hfound⟩ := ih h
      exact ⟨j, mem_cons_of_mem _ hj, hfound⟩
    · rename_i hhit
      cases h
      exact ⟨i, mem_cons_self, rfl, rfl, by simpa using hhit⟩

end

/-- The times that are tried lie behind the start, unless they wrap. -/
theorem lt_tryTime (hdrift : nTimeTx.toNat + nHashDrift.toNat < 2 ^ 32) {i : Nat}
    (hi : i < nHashDrift.toNat) : nTimeTx.toNat < (nTimeTx + nHashDrift - UInt32.ofNat i).toNat := by
  have hsum : (nTimeTx + nHashDrift).toNat = nTimeTx.toNat + nHashDrift.toNat := by
    rw [UInt32.toNat_add]
    exact Nat.mod_eq_of_lt hdrift
  have hlt : i < 2 ^ 32 := by omega
  have htry : (UInt32.ofNat i).toNat = i := toNat_ofNat_of_lt' hlt
  have hle : UInt32.ofNat i ≤ nTimeTx + nHashDrift := by
    rw [le_iff_toNat_le, hsum, htry]
    omega
  rw [UInt32.toNat_sub_of_le _ _ hle, hsum, htry]
  omega

omit [DecidableEq H] in
/-- **Minted kernels verify.**  The kernel that a search finds passes the check at the time
that the search sets, with the same hash. -/
theorem checkStakeKernelHash_of_search (hdrift : nTimeTx.toNat + nHashDrift.toNat < 2 ^ 32)
    (hvalue : 0 ≤ ((txPrev.vout[prevout.n.toNat]?.map CTxOut.nValue).getD 0).toInt)
    (htarget : 0 ≤ setCompact nBits)
    (h : s.searchStakeKernelHash w nBits blockFrom nTxPrevOffset txPrev prevout nTimeTx nHashDrift
      hashProofOfStake = (true, t, found)) (before : H) :
    s.checkStakeKernelHash w nBits blockFrom nTxPrevOffset txPrev prevout t before = (true, found) := by
  unfold searchStakeKernelHash at h
  simp only at h
  split at h
  · cases h
  · rename_i htime
    split at h
    · cases h
    · rename_i hage
      split at h
      · cases h
      · rename_i nStakeModifier hmodifier
        obtain ⟨i, hi, ht, hfound, hhit⟩ := driftLoop_found h
        have hlater : nTimeTx.toNat < t.toNat := ht ▸ lt_tryTime hdrift (mem_range.mp hi)
        have hstart : nTimeTx < t := lt_iff_toNat_lt.mpr hlater
        have hweight : getWeight txPrev.nTime.toNat nTimeTx.toNat ≤
            getWeight txPrev.nTime.toNat t.toNat := getWeight_mono (by omega)
        have hcheck := stakeTargetHit_mono hvalue htarget hweight hhit
        -- What the start passed, the later time passes.
        have htime' : ¬t < txPrev.nTime := fun hlt => htime (lt_trans hstart hlt)
        have hage' : ¬blockFrom.nTime + nStakeMinAge > t := fun hgt => hage (lt_trans hstart hgt)
        rw [checkStakeKernelHash, if_neg htime', if_neg hage', hmodifier]
        simp only
        rw [← hfound, hcheck]

/-- The coinbase of the block behind genesis is staked, with ten seconds to try. -/
theorem checkStakeKernelHash_of_search_fork :
    ((forkNode [0] 3600 1 true).searchStakeKernelHash stakeWorld 0x03000001 childBlock 0 stakedCoinbase
      ⟨stakedCoinbase.getHash transparent, 0⟩ 200000 10 transparent.zero).1 = true ∧
    ((forkNode [0] 3600 1 true).checkStakeKernelHash stakeWorld 0x03000001 childBlock 0 stakedCoinbase
      ⟨stakedCoinbase.getHash transparent, 0⟩ 200010 transparent.zero).1 = true := by
  have hsearch : (forkNode [0] 3600 1 true).searchStakeKernelHash stakeWorld 0x03000001 childBlock 0
      stakedCoinbase ⟨stakedCoinbase.getHash transparent, 0⟩ 200000 10 transparent.zero =
      (true, 200010, stakeWorld.stakeHash 200010 stakedCoinbase.nTime 1 0 0 childBlock.nTime) := by
    decide +kernel
  exact ⟨congrArg Prod.fst hsearch, congrArg Prod.fst (checkStakeKernelHash_of_search (by decide)
    (by decide +kernel) (by decide +kernel) hsearch transparent.zero)⟩

end StakeNode

end MaryJaneCoin
