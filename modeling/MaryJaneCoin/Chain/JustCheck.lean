import MaryJaneCoin.Chain.BlockFiles
import MaryJaneCoin.Lib.WrappedSum

/-!
# A connection that only checks

With `fJustCheck` set, `ConnectBlock` returns before it queues changes, before it
tells the wallets and before it touches the Mimblewimble state.  What the block
mints is recorded before that, in its index entry and in the database, so a
check leaves everything as it was when a rule refuses the block, or when the
entry and the database hold the record already.
-/

namespace MaryJaneCoin

open Std WrappedSum Option

namespace CTxDB

variable {H : Type} [Ord H] {txdb : CTxDB H}

theorem write_eq_self {f : TxDBContent H → TxDBContent H} :
    txdb.write f = txdb ↔ f txdb.view = txdb.view := by
  obtain ⟨pdb, activeBatch⟩ := txdb
  cases activeBatch with
  | none => simp [write, view]
  | some batch => simp [write, view]

theorem writeBlockIndex_eq_self [TransOrd H] [LawfulEqOrd H] {hash : H} {entry : CDiskBlockIndex H} :
    txdb.writeBlockIndex hash entry = txdb ↔ txdb.view.blockindex[hash]? = some entry := by
  rw [writeBlockIndex, write_eq_self]
  constructor
  · intro h
    have hblockindex := congrArg TxDBContent.blockindex h
    rw [← hblockindex, ExtTreeMap.getElem?_insert_self]
  · intro h
    rw [FinMap.insert_of_getElem? h]

end CTxDB

namespace Node

section

variable {H W : Type} [Ord H] [TransOrd H] [DecidableEq H] (c : Consensus H)

/-- `CBlock::ConnectBlock` with the wallets, which learn of the transactions
through `SyncWithWallets`. -/
def connectBlockWallets (syncWithWallets : W → CTransaction H → W) (s : Node H) (env : Env H)
    (block : CBlock H) (pindex : CBlockIndex H) (pprev : PIndex H) (fJustCheck : Bool)
    (wallets : W) : Bool × Node H × W :=
  match s.connectChecks c env block pindex pprev fJustCheck with
  | none => (false, s, wallets)
  | some acc =>
    let recorded := s.recordSupply c pindex pprev acc
    if fJustCheck then (true, recorded, wallets)
    else
      let written := recorded.writeChanges c pindex pprev acc.mapQueuedChanges
      let wallets := block.vtx.foldl syncWithWallets wallets
      match connectMWEB c written.g_mwState block pindex with
      | none => (false, written, wallets)
      | some mwState => (true, { written with g_mwState := mwState }, wallets)

theorem connectBlockWallets_node (syncWithWallets : W → CTransaction H → W) (s : Node H)
    (env : Env H) (block : CBlock H) (pindex : CBlockIndex H) (pprev : PIndex H)
    (fJustCheck : Bool) (wallets : W) :
    let result := s.connectBlockWallets c syncWithWallets env block pindex pprev fJustCheck wallets
    s.connectBlock c env block pindex pprev fJustCheck = (result.1, result.2.1) := by
  unfold connectBlock connectBlockWallets
  cases s.connectChecks c env block pindex pprev fJustCheck with
  | none => rfl
  | some acc =>
    cases fJustCheck with
    | true => rfl
    | false =>
      simp only [Bool.false_eq_true, if_false]
      cases connectMWEB c ((s.recordSupply c pindex pprev acc).writeChanges c pindex pprev
          acc.mapQueuedChanges).g_mwState block pindex with
      | none => rfl
      | some mwState => rfl

variable (s : Node H) (env : Env H) (pindex : CBlockIndex H)

/-- Where a check takes a transaction from that an input names: those of the
block itself are queued with `nTxPos` 1. -/
def checkedPos (earlier : List H) (hash : H) : Option CDiskTxPos :=
  if hash ∈ earlier then some ⟨pindex.nFile, pindex.nBlockPos, 1⟩
  else (s.txdb.readTxIndex hash).map CTxIndex.pos

/-- The transaction that an input names. -/
def checkedTx (earlier : List H) (hash : H) : Option (CTransaction H) :=
  (s.checkedPos pindex earlier hash).bind fun pos =>
    if pos = ⟨1, 1, 1⟩ then env.mempool hash else s.readTxFromDisk env pos

/-- The value that an input spends. -/
def spentValue (earlier : List H) (txin : CTxIn H) : Int64 :=
  (((s.checkedTx env pindex earlier txin.prevout.hash).bind fun txPrev =>
    txPrev.vout[txin.prevout.n.toNat]?).map CTxOut.nValue).getD 0

/-- What a transaction pays beyond what it spends. -/
def gain (earlier : List H) (tx : CTransaction H) : Int64 :=
  wrapped CTxOut.nValue tx.vout -
    if tx.isCoinBase c.toSha256 then 0 else wrapped (s.spentValue env pindex earlier) tx.vin

/-- The sum of what some of the transactions gain, each after those before it. -/
def gains (counted : CTransaction H → Bool) : List H → List (CTransaction H) → Int64
  | _, [] => 0
  | earlier, tx :: txs =>
    (if counted tx then s.gain c env pindex earlier tx else 0) +
      gains counted (tx.getHash c.toSha256 :: earlier) txs

/-- What the coinbase and the coinstake of a block create. -/
def minted (block : CBlock H) : Int64 :=
  s.gains c env pindex (fun tx => tx.isCoinBase c.toSha256 || tx.isCoinStake c.toSha256) [] block.vtx

/-- The supply before a block. -/
def prevSupply (pprev : PIndex H) : Int64 :=
  (pprev.head?.map fun prev => s.nMoneySupply[prev.hash]?.getD 0).getD 0

/-- The entry holds what the block mints and the supply behind it, and the
database holds the entry. -/
structure HoldsSupply (block : CBlock H) (pprev : PIndex H) : Prop where
  nMint : s.nMint[pindex.hash]?.getD 0 = s.minted c env pindex block
  nMoneySupply : s.nMoneySupply[pindex.hash]?.getD 0 =
    s.prevSupply pprev + s.gains c env pindex (fun _ => true) [] block.vtx
  blockindex : s.txdb.view.blockindex[pindex.hash]? = some (s.diskBlockIndex c pindex)

/-- The database, the index entry and the Mimblewimble state are as they were. -/
def Unchanged (t : Node H) : Prop :=
  t.txdb = s.txdb ∧ t.diskBlockIndex c pindex = s.diskBlockIndex c pindex ∧
    t.g_mwState = s.g_mwState

end

section

variable {H : Type} [Ord H] [TransOrd H] [DecidableEq H] {c : Consensus H} {s : Node H}
  {env : Env H} {block : CBlock H} {pindex : CBlockIndex H} {pprev : PIndex H}
  {acc acc' : ConnectState H} {tx : CTransaction H}

/-- A check goes through the rounds of a connection, without moving on in the
file. -/
theorem connectTx_justCheck (h : s.connectTx c env pindex pprev true acc tx = some acc') :
    ∃ next, s.connectTx c env pindex pprev false acc tx = some next ∧
      acc' = { next with nTxPos := acc.nTxPos } := by
  have hmap : s.connectTx c env pindex pprev true acc tx =
      (s.connectTx c env pindex pprev false acc tx).map fun next =>
        { next with nTxPos := acc.nTxPos } := by
    unfold connectTx
    simp only [Bool.false_eq_true, if_false, if_true]
    split
    · rfl
    · split
      · rfl
      · split
        · rw [map_map]
          rfl
        · rw [Option.map_bind]
          congr 1
          funext inputs
          simp only [Function.comp]
          split
          · rfl
          · rw [Option.map_bind]
            congr 1
            funext nTxValueIn
            simp only [Function.comp, Option.map_bind]
            congr 1
            funext nTxValueOut
            simp only [map_map]
            rfl
  rw [hmap] at h
  obtain ⟨next, hnext, heq⟩ := map_eq_some_iff.mp h
  exact ⟨next, hnext, heq.symm⟩

omit [Ord H] [TransOrd H] [DecidableEq H] in
/-- What is paid, as `GetValueOut` adds it up. -/
theorem getValueOut_wrapped {nValueOut : Int64} (h : tx.getValueOut = some nValueOut) :
    nValueOut = wrapped CTxOut.nValue tx.vout := by
  have hloop : ∀ (vout : List CTxOut) (start total : Int64), vout.foldlM (fun nValueOut txout =>
        if !moneyRange txout.nValue || !moneyRange (nValueOut + txout.nValue) then none
        else some (nValueOut + txout.nValue)) start = some total →
      total = start + wrapped CTxOut.nValue vout := by
    intro vout
    induction vout with
    | nil =>
      intro start total hsum
      cases hsum
      exact (Int64.add_zero _).symm
    | cons txout vout ih =>
      intro start total hsum
      obtain ⟨mid, hmid, hrest⟩ := OptionLoop.foldlM_cons hsum
      split at hmid
      · cases hmid
      · cases hmid
        rw [ih _ _ hrest, wrapped_cons, Int64.add_assoc]
  have hsum := hloop tx.vout 0 nValueOut h
  rwa [Int64.zero_add] at hsum

omit [DecidableEq H] in
/-- What is spent, as `GetValueMapIn` adds it up. -/
theorem valueMapIn_wrapped {inputs : MapPrevTx H} (value : CTxIn H → Int64) {vin : List (CTxIn H)}
    {nValueIn : Int64}
    (hvalue : ∀ txin ∈ vin, ∀ prevout, CTransaction.getOutputFor txin inputs = some prevout →
      value txin = prevout.nValue) {start : Int64} (h : vin.foldlM (fun nResult txin =>
      (CTransaction.getOutputFor txin inputs).map fun prevout => nResult + prevout.nValue) start =
        some nValueIn) : nValueIn = start + wrapped value vin := by
  induction vin generalizing start with
  | nil =>
    cases h
    exact (Int64.add_zero _).symm
  | cons txin vin ih =>
    obtain ⟨mid, hmid, hrest⟩ := OptionLoop.foldlM_cons h
    obtain ⟨prevout, hprevout, rfl⟩ := map_eq_some_iff.mp hmid
    rw [ih (fun other hother => hvalue other (List.mem_cons_of_mem _ hother)) hrest, wrapped_cons,
      hvalue txin List.mem_cons_self prevout hprevout, Int64.add_assoc]

variable [LawfulEqOrd H]

/-- The queued changes lead to the transactions that the inputs of a check
name. -/
def Queued (s : Node H) (pindex : CBlockIndex H) (earlier : List H) (acc : ConnectState H) : Prop :=
  acc.nTxPos = 1 ∧ ∀ hash, Ledger.posAt (FinMap.overlay s.txdb.view.txindex acc.mapQueuedChanges)
    hash = s.checkedPos pindex earlier hash

/-- **A round of a check.** -/
theorem Queued.step {earlier : List H} (hqueued : Queued s pindex earlier acc)
    (h : s.connectTx c env pindex pprev true acc tx = some acc') :
    Queued s pindex (tx.getHash c.toSha256 :: earlier) acc' ∧ acc'.nValueOut - acc'.nValueIn =
      acc.nValueOut - acc.nValueIn + s.gain c env pindex earlier tx ∧
      acc'.nValueOut - acc'.nValueIn + acc'.nFees = acc.nValueOut - acc.nValueIn + acc.nFees +
        if tx.isCoinBase c.toSha256 || tx.isCoinStake c.toSha256 then s.gain c env pindex earlier tx
        else 0 := by
  obtain ⟨next, hnext, rfl⟩ := connectTx_justCheck h
  obtain ⟨hledger, -⟩ := connectTx_ledger hnext
  have hkeeps : Queued s pindex (tx.getHash c.toSha256 :: earlier)
      { next with nTxPos := acc.nTxPos } := by
    refine ⟨hqueued.1, fun hash => ?_⟩
    show Ledger.posAt (FinMap.overlay s.txdb.view.txindex next.mapQueuedChanges) hash = _
    rw [Ledger.posAt_connectTx hledger, hqueued.2, hqueued.1]
    unfold checkedPos
    by_cases hown : tx.getHash c.toSha256 = hash
    · rw [if_pos hown, if_pos (List.mem_cons.mpr (.inl hown.symm))]
    · rw [if_neg hown]
      simp only [List.mem_cons, Ne.symm hown, false_or]
  refine ⟨hkeeps, ?_⟩
  cases hcoinbase : tx.isCoinBase c.toSha256 with
  | true =>
    obtain ⟨nTxValueOut, nSigOps, hvalue, rfl⟩ := connectTx_coinbase hcoinbase hnext
    have hgain : s.gain c env pindex earlier tx = nTxValueOut := by
      rw [gain, if_pos hcoinbase, ← getValueOut_wrapped hvalue, Int64.sub_zero]
    simp only [hgain, Bool.true_or, if_true]
    constructor
    · grind
    · grind
  | false =>
    obtain ⟨inputs, queued, nTxValueIn, nTxValueOut, hfetched, hread, hcheck, hvalue, -, -, -,
      hfees, hvalueIn, hvalueOut, -, -⟩ := connectTx_inputs hcoinbase hnext
    have hspent : nTxValueIn = wrapped (s.spentValue env pindex earlier) tx.vin := by
      have hsum := valueMapIn_wrapped (s.spentValue env pindex earlier) ?_
        (valueMapIn_of_checkInput hcheck)
      · rwa [Int64.zero_add] at hsum
      · intro txin _ prevout hprevout
        obtain ⟨prev, hprev, hat⟩ := bind_eq_some_iff.mp hprevout
        have hpos : s.checkedPos pindex earlier txin.prevout.hash = some prev.1.pos := by
          rw [← hqueued.2, Ledger.posAt, hfetched _ _ hprev]
          rfl
        have htx : s.checkedTx env pindex earlier txin.prevout.hash = some prev.2 := by
          rw [checkedTx, hpos]
          exact hread _ _ hprev
        rw [spentValue, htx, bind_some, hat]
        rfl
    have hgain : s.gain c env pindex earlier tx = nTxValueOut - nTxValueIn := by
      rw [gain, hcoinbase, if_neg Bool.false_ne_true, ← getValueOut_wrapped hvalue, ← hspent]
    simp only [hgain, hfees, hvalueIn, hvalueOut, Bool.false_or]
    constructor
    · grind
    · split
      · grind
      · grind

/-- **The rounds of a check.** -/
theorem Queued.loop {txs : List (CTransaction H)} {earlier : List H}
    (hqueued : Queued s pindex earlier acc)
    (h : txs.foldlM (s.connectTx c env pindex pprev true) acc = some acc') :
    acc'.nValueOut - acc'.nValueIn = acc.nValueOut - acc.nValueIn +
        s.gains c env pindex (fun _ => true) earlier txs ∧
      acc'.nValueOut - acc'.nValueIn + acc'.nFees = acc.nValueOut - acc.nValueIn + acc.nFees +
        s.gains c env pindex (fun tx => tx.isCoinBase c.toSha256 || tx.isCoinStake c.toSha256)
          earlier txs := by
  induction txs generalizing acc earlier with
  | nil =>
    cases h
    exact ⟨(Int64.add_zero _).symm, (Int64.add_zero _).symm⟩
  | cons tx txs ih =>
    obtain ⟨mid, hmid, hrest⟩ := OptionLoop.foldlM_cons h
    obtain ⟨hnext, hsupply, hmint⟩ := hqueued.step hmid
    obtain ⟨hsupplies, hmints⟩ := ih hnext hrest
    refine ⟨?_, ?_⟩
    · rw [hsupplies, hsupply, gains, if_pos rfl, Int64.add_assoc]
    · rw [hmints, hmint, gains, Int64.add_assoc]

theorem connectChecks_supply (h : s.connectChecks c env block pindex pprev true = some acc) :
    acc.nValueOut - acc.nValueIn + acc.nFees = s.minted c env pindex block ∧
      s.prevSupply pprev + acc.nValueOut - acc.nValueIn =
        s.prevSupply pprev + s.gains c env pindex (fun _ => true) [] block.vtx := by
  have hloop : block.vtx.foldlM (s.connectTx c env pindex pprev true)
      (connectStart block pindex true) = some acc := by
    unfold connectChecks at h
    split at h
    · exact (filter_eq_some_iff.mp h).1
    · cases h
  have hqueued : Queued s pindex [] (connectStart block pindex true) := by
    refine ⟨rfl, fun hash => ?_⟩
    rw [checkedPos, if_neg List.not_mem_nil]
    exact congrArg (Option.map CTxIndex.pos) (congrArg
      (fun index : TxIndexMap H => index[hash]?) (FinMap.overlay_empty s.txdb.view.txindex))
  obtain ⟨hsupply, hmint⟩ := hqueued.loop hloop
  simp only [connectStart, Int64.sub_zero, Int64.zero_add] at hsupply hmint
  refine ⟨hmint, ?_⟩
  rw [← hsupply]
  grind

/-- **A check leaves everything as it was** exactly when a rule refuses the
block, or the entry and the database hold already what it records. -/
theorem justCheck_unchanged_iff {W : Type} (syncWithWallets : W → CTransaction H → W) (s : Node H)
    (env : Env H) (block : CBlock H) (pindex : CBlockIndex H) (pprev : PIndex H) (wallets : W) :
    let result := s.connectBlockWallets c syncWithWallets env block pindex pprev true wallets
    (s.Unchanged c pindex result.2.1 ∧ result.2.2 = wallets) ↔
      (s.connectChecks c env block pindex pprev true = none ∨
        s.HoldsSupply c env pindex block pprev) := by
  unfold connectBlockWallets
  cases hchecks : s.connectChecks c env block pindex pprev true with
  | none => exact ⟨fun _ => .inl rfl, fun _ => ⟨⟨rfl, rfl, rfl⟩, rfl⟩⟩
  | some acc =>
    have hrecorded : (s.recordSupply c pindex pprev acc).diskBlockIndex c pindex =
        { s.diskBlockIndex c pindex with
          nMint := s.minted c env pindex block
          nMoneySupply :=
            s.prevSupply pprev + s.gains c env pindex (fun _ => true) [] block.vtx } := by
      obtain ⟨hmint, hsupply⟩ := connectChecks_supply hchecks
      rw [← hmint, ← hsupply]
      simp only [diskBlockIndex, recordSupply, ExtTreeMap.getElem?_insert_self, Option.getD_some, prevSupply]
    have htxdb : (s.recordSupply c pindex pprev acc).txdb = s.txdb.writeBlockIndex pindex.hash
          ((s.recordSupply c pindex pprev acc).diskBlockIndex c pindex) := rfl
    simp only [if_true, and_true, reduceCtorEq, false_or]
    rw [Unchanged, htxdb, CTxDB.writeBlockIndex_eq_self]
    constructor
    · rintro ⟨hdisk, hentry, -⟩
      rw [hentry] at hdisk
      rw [hrecorded] at hentry
      exact ⟨(congrArg CDiskBlockIndex.nMint hentry).symm,
        (congrArg CDiskBlockIndex.nMoneySupply hentry).symm, hdisk⟩
    · rintro ⟨hmint, hsupply, hdisk⟩
      have hentry : (s.recordSupply c pindex pprev acc).diskBlockIndex c pindex =
          s.diskBlockIndex c pindex := by
        rw [hrecorded, ← hmint, ← hsupply]
        rfl
      exact ⟨hentry ▸ hdisk, hentry, rfl⟩

end

/-- The second of two checks finds everything recorded. -/
theorem justCheck_unchanged_iff_again :
    let s := ((genesis sampleConsensus sampleGenesis).connectBlock sampleConsensus (sampleEnv 1000)
      childBlock childIndex (genesis sampleConsensus sampleGenesis).pindexBest true).2
    let result := s.connectBlockWallets sampleConsensus (fun seen tx => tx :: seen) (sampleEnv 1000)
      childBlock childIndex s.pindexBest true []
    s.Unchanged sampleConsensus childIndex result.2.1 ∧ result.2.2 = [] :=
  (justCheck_unchanged_iff _ _ _ _ _ _ _).mpr (.inr
    { nMint := by decide +kernel
      nMoneySupply := by decide +kernel
      blockindex := by decide +kernel })

/-- A check of a block that the database does not know records it there. -/
theorem justCheck_writes :
    let s := genesis sampleConsensus sampleGenesis
    let result := s.connectBlockWallets sampleConsensus (fun seen tx => tx :: seen) (sampleEnv 1000)
      childBlock childIndex s.pindexBest true []
    result.1 = true ∧ result.2.2 = [] ∧ s.txdb.view.blockindex[childIndex.hash]? = none ∧
      result.2.1.txdb.view.blockindex[childIndex.hash]? = some ⟨sampleConsensus.zero, COIN, COIN⟩ ∧
      ¬s.Unchanged sampleConsensus childIndex result.2.1 := by
  have hbefore : (genesis sampleConsensus sampleGenesis).txdb.view.blockindex[childIndex.hash]? =
      none := by decide +kernel
  have hafter : ((genesis sampleConsensus sampleGenesis).connectBlockWallets sampleConsensus
      (fun seen tx => tx :: seen) (sampleEnv 1000) childBlock childIndex
      (genesis sampleConsensus sampleGenesis).pindexBest true
      []).2.1.txdb.view.blockindex[childIndex.hash]? = some ⟨sampleConsensus.zero, COIN, COIN⟩ := by
    decide +kernel
  refine ⟨by decide +kernel, by decide +kernel, hbefore, hafter, ?_⟩
  rintro ⟨htxdb, -⟩
  rw [htxdb, hbefore] at hafter
  cases hafter

end Node

end MaryJaneCoin
