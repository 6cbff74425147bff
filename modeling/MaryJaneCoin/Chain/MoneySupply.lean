import MaryJaneCoin.Chain.BestChain
import MaryJaneCoin.Chain.Supply

/-!
# Money supply

What `ConnectBlock` adds to `nMoneySupply` is bounded by the proof-of-work
reward without fees, as long as no proof-of-work block contains a coinstake:
`ConnectInputs` lets a coinstake create coins, the reward check of a
proof-of-stake block looks at it, and that of a proof-of-work block does not.

The argument follows the unspent value of the transaction index.  It bounds the
fees of a block, so that no sum of the block wraps around, and it never exceeds
the recorded supply, so that the supply cannot wrap around either.
-/

namespace MaryJaneCoin

open Std List Int64 FinMap

namespace CTransaction

variable {H : Type} {sha : Sha256 H} {tx : CTransaction H}

/-- A coinbase is no coinstake: the one has a null input, the other has not. -/
theorem not_isCoinStake_of_isCoinBase [DecidableEq H] (h : tx.isCoinBase sha) :
    tx.isCoinStake sha = false := by
  unfold isCoinBase at h
  unfold isCoinStake
  split at h
  · rename_i txin hvin
    rw [hvin]
    split
    · grind
    · rfl
  · cases h

variable [Ord H] [TransOrd H] {c : Consensus H} {s : Node H} {env : Env H} {inputs : MapPrevTx H}
  {pindex : CBlockIndex H} {pprev : PIndex H}

/-- The value of the output an input spends. -/
def inputValue (inputs : MapPrevTx H) (txin : CTxIn H) : Int :=
  ((getOutputFor txin inputs).map fun txout => txout.nValue.toInt).getD 0

/-- The first loop of `ConnectInputs` sums without overflow. -/
theorem checkInput_value [DecidableEq H] {vin : List (CTxIn H)}
    {start nValueIn : Int64} (hstart : moneyRange start)
    (h : vin.foldlM (tx.checkInput c inputs pindex pprev) start = some nValueIn) :
    moneyRange nValueIn ∧ nValueIn.toInt = start.toInt + (vin.map (inputValue inputs)).sum ∧
      ∀ txin ∈ vin, ∃ prev, inputs[txin.prevout.hash]? = some prev := by
  induction vin generalizing start with
  | nil =>
    cases h
    exact ⟨hstart, by simp, by simp⟩
  | cons txin vin ih =>
    obtain ⟨mid, hmid, hrest⟩ := OptionLoop.foldlM_cons h
    unfold checkInput at hmid
    obtain ⟨prev, hprev, hmid⟩ := Option.bind_eq_some_iff.mp hmid
    obtain ⟨prevout, hprevout, hmid⟩ := Option.bind_eq_some_iff.mp hmid
    have hrange : moneyRange prevout.nValue ∧ moneyRange (start + prevout.nValue) ∧
        start + prevout.nValue = mid := by grind
    obtain ⟨hvalue, hsum, rfl⟩ := hrange
    obtain ⟨hend, htotal, hprevs⟩ := ih hsum hrest
    have hadd := toInt_add_of_moneyRange hstart hvalue
    have hinput : inputValue inputs txin = prevout.nValue.toInt := by
      rw [inputValue, getOutputFor, hprev, Option.bind_some, hprevout, Option.map_some, Option.getD_some]
    refine ⟨hend, ?_, ?_⟩
    · rw [map_cons, sum_cons, hinput]
      omega
    · intro other hother
      rcases List.mem_cons.mp hother with rfl | hother
      · exact ⟨prev, hprev⟩
      · exact hprevs other hother

theorem inputValue_eq {queued : TxIndexMap H} {txin : CTxIn H} {prev : CTxIndex × CTransaction H}
    (hbacked : Ledger.Backed s.blockFiles (overlay s.txdb.view.txindex queued))
    (hfetched : Fetched s.txdb.view.txindex queued inputs) (hread : ReadFrom s env inputs)
    (hprev : inputs[txin.prevout.hash]? = some prev) :
    inputValue inputs txin = Ledger.outputValue s.blockFiles
      (overlay s.txdb.view.txindex queued) txin.prevout := by
  have hentry := hfetched _ _ hprev
  obtain ⟨txDisk, hdisk, _⟩ := hbacked _ _ hentry
  -- a position a transaction was read from is not the mempool's marker
  have hpos : prev.1.pos ≠ ⟨1, 1, 1⟩ := by
    intro heq
    have hge := readTx_pos hdisk
    rw [heq] at hge
    simp [HEADER_SIZE] at hge
  have hsame : txDisk = prev.2 := by
    have hfrom := hread _ _ hprev
    rw [if_neg hpos, Node.readTxFromDisk] at hfrom
    split at hfrom
    · exact Option.some.inj (hdisk.symm.trans hfrom)
    · cases hfrom
  rw [inputValue, getOutputFor, Ledger.outputValue, hprev, hentry, Option.bind_some,
    Option.bind_some, hdisk, Option.bind_some, hsame]

end CTransaction

namespace Node

variable {H : Type} [Ord H] [TransOrd H]

theorem fullySpent_of_overwritesUnspent {s : Node H} {hash : H}
    (h : s.overwritesUnspent hash = false) : Ledger.FullySpent s.txdb.view.txindex hash := by
  intro txindex hlook
  unfold overwritesUnspent CTxDB.readTxIndex at h
  rw [hlook] at h
  exact h

variable [LawfulEqOrd H] [DecidableEq H] {c : Consensus H} {s t : Node H} {env : Env H}
  {block : CBlock H} {pindex : CBlockIndex H} {pprev : PIndex H} {acc acc' : ConnectState H}
  {tx : CTransaction H} {done : List H}

/-- The ledger in the middle of the transaction loop. -/
abbrev ledger (s : Node H) (acc : ConnectState H) : TxIndexMap H :=
  overlay s.txdb.view.txindex acc.mapQueuedChanges

/-- Invariant of the transaction loop: the ledger is backed by the files, and a
transaction that was fully spent before the block is as it was unless it is one
of those done. -/
structure LoopInv (s : Node H) (done : List H) (acc : ConnectState H) : Prop where
  backed : Ledger.Backed s.blockFiles (s.ledger acc)
  untouched : ∀ hash ∉ done, Ledger.FullySpent s.txdb.view.txindex hash →
    (s.ledger acc)[hash]? = s.txdb.view.txindex[hash]?

/-- The amounts of one round of the transaction loop. -/
structure RoundValue (c : Consensus H) (s : Node H) (acc acc' : ConnectState H)
    (tx : CTransaction H) (nIn nOut : Int64) : Prop where
  rangeIn : moneyRange nIn
  rangeOut : moneyRange nOut
  valueOut : tx.getValueOut = some nOut
  coinbase : tx.isCoinBase c.toSha256 → nIn = 0
  paid : tx.isCoinBase c.toSha256 = false → tx.isCoinStake c.toSha256 = false →
    nOut.toInt ≤ nIn.toInt
  unspent : Ledger.unspent s.blockFiles (s.ledger acc') =
    Ledger.unspent s.blockFiles (s.ledger acc) - nIn.toInt + nOut.toInt
  nValueIn : acc'.nValueIn = acc.nValueIn + nIn
  nValueOut : acc'.nValueOut = acc.nValueOut + nOut
  nFees : acc'.nFees =
    if tx.isCoinBase c.toSha256 || tx.isCoinStake c.toSha256 then acc.nFees
    else acc.nFees + (nIn - nOut)
  nStakeReward : acc'.nStakeReward =
    if tx.isCoinStake c.toSha256 then nOut - nIn else acc.nStakeReward

/-- Entering a transaction keeps the invariant. -/
theorem LoopInv.insert {mid : TxIndexMap H} {pos : CDiskTxPos} {hash : H}
    (hbacked : Ledger.Backed s.blockFiles mid)
    (huntouched : ∀ hash' ∉ done, Ledger.FullySpent s.txdb.view.txindex hash' →
      mid[hash']? = s.txdb.view.txindex[hash']?)
    (hspent : Ledger.FullySpent mid hash) (hread : readTx s.blockFiles pos = some tx)
    (hnonneg : ∀ txout ∈ tx.vout, 0 ≤ txout.nValue.toInt)
    (hledger : s.ledger acc' = mid.insert hash (CTxIndex.new pos tx.vout.length)) :
    LoopInv s (hash :: done) acc' ∧ Ledger.unspent s.blockFiles (s.ledger acc') =
      Ledger.unspent s.blockFiles mid + sumValues tx.vout := by
  obtain ⟨hbacked', hvalue⟩ := hbacked.insert_new hread hnonneg hspent
  rw [← hledger] at hbacked' hvalue
  refine ⟨⟨hbacked', ?_⟩, hvalue⟩
  intro hash' hout hfull
  rw [List.mem_cons, not_or] at hout
  rw [hledger, getElem?_insert_ne _ _ (Ne.symm hout.1)]
  exact huntouched hash' hout.2 hfull

/-- **One round of the transaction loop.** -/
theorem LoopInv.step (hinv : LoopInv s done acc)
    (hread : readTx s.blockFiles ⟨pindex.nFile, pindex.nBlockPos, acc.nTxPos⟩ = some tx)
    (hnew : tx.getHash c.toSha256 ∉ done) (h : s.connectTx c env pindex pprev false acc tx = some acc') :
    LoopInv s (tx.getHash c.toSha256 :: done) acc' ∧ ∃ nIn nOut, RoundValue c s acc acc' tx nIn nOut := by
  have hbase := fullySpent_of_overwritesUnspent (connectTx_overwritesUnspent h)
  have hsame := hinv.untouched _ hnew hbase
  have hspent : Ledger.FullySpent (s.ledger acc) (tx.getHash c.toSha256) := by
    intro txindex hlook
    exact hbase txindex (hsame ▸ hlook)
  cases hcoinbase : tx.isCoinBase c.toSha256 with
  | true =>
    obtain ⟨nOut, nSigOps, hvalue, hacc⟩ := connectTx_coinbase hcoinbase h
    obtain ⟨hrange, hsum, hnonneg⟩ := CTransaction.getValueOut_spec hvalue
    have hledger : s.ledger acc' = (s.ledger acc).insert (tx.getHash c.toSha256)
        (CTxIndex.new ⟨pindex.nFile, pindex.nBlockPos, acc.nTxPos⟩ tx.vout.length) := by
      rw [hacc]
      exact overlay_insert _ _ _ _
    obtain ⟨hinv', hunspent⟩ := LoopInv.insert hinv.backed hinv.untouched hspent hread hnonneg
      hledger
    have hstake := CTransaction.not_isCoinStake_of_isCoinBase hcoinbase
    refine ⟨hinv', 0, nOut, ?_⟩
    exact {
      rangeIn := by decide
      rangeOut := hrange
      valueOut := hvalue
      coinbase := fun _ => rfl
      paid := fun hno => by simp [hcoinbase] at hno
      unspent := by rw [hunspent, hsum]; simp
      nValueIn := by rw [hacc]; simp
      nValueOut := by rw [hacc]
      nFees := by rw [hacc, hcoinbase]; rfl
      nStakeReward := by rw [hacc, hstake]; rfl }
  | false =>
    obtain ⟨inputs, queued, nIn, nOut, hfetched, hfrom, hcheck, hvalue, hfee, hspends, hqueued,
      hfees, hvalueIn, hvalueOut, hstake, _⟩ := connectTx_inputs hcoinbase h
    obtain ⟨hrange, hsum, hnonneg⟩ := CTransaction.getValueOut_spec hvalue
    obtain ⟨hrangeIn, hsumIn, hprevs⟩ := CTransaction.checkInput_value (by decide) hcheck
    obtain ⟨hbackedMid, hunspentMid⟩ := hinv.backed.spends hspends
    have hmid : ∀ hash ∉ done, Ledger.FullySpent s.txdb.view.txindex hash →
        (overlay s.txdb.view.txindex queued)[hash]? = s.txdb.view.txindex[hash]? := by
      intro hash hout hfull
      have hbefore := hinv.untouched hash hout hfull
      have hfull' : Ledger.FullySpent (s.ledger acc) hash := by
        intro txindex hlook
        exact hfull txindex (hbefore ▸ hlook)
      rw [hfull'.spends hspends, hbefore]
    have hspentMid : Ledger.FullySpent (overlay s.txdb.view.txindex queued)
        (tx.getHash c.toSha256) := by
      intro txindex hlook
      exact hbase txindex (hmid _ hnew hbase ▸ hlook)
    have hledger : s.ledger acc' = (overlay s.txdb.view.txindex queued).insert
        (tx.getHash c.toSha256)
        (CTxIndex.new ⟨pindex.nFile, pindex.nBlockPos, acc.nTxPos⟩ tx.vout.length) := by
      rw [ledger, hqueued, overlay_insert]
    obtain ⟨hinv', hunspent⟩ := LoopInv.insert hbackedMid hmid hspentMid hread hnonneg hledger
    -- the inputs are worth what the ledger loses
    have hinputs : (tx.vin.map CTxIn.prevout).map
        (Ledger.outputValue s.blockFiles (s.ledger acc)) =
          tx.vin.map (CTransaction.inputValue inputs) := by
      rw [map_map]
      apply map_congr_left
      intro txin htxin
      obtain ⟨prev, hprev⟩ := hprevs txin htxin
      exact (CTransaction.inputValue_eq hinv.backed hfetched hfrom hprev).symm
    refine ⟨hinv', nIn, nOut, ?_⟩
    exact {
      rangeIn := hrangeIn
      rangeOut := hrange
      valueOut := hvalue
      coinbase := fun hyes => by simp [hcoinbase] at hyes
      paid := by
        intro _ hno
        unfold CTransaction.checkFee at hfee
        rw [hno, hvalue] at hfee
        simp only [Bool.false_or, Option.any_some, Bool.and_eq_true, Bool.not_eq_true',
          decide_eq_false_iff_not] at hfee
        have hle := hfee.1.1.1
        rw [lt_iff_toInt_lt] at hle
        omega
      unspent := by
        rw [hinputs] at hunspentMid
        rw [hunspent, hunspentMid, hsum, hsumIn]
        simp
      nValueIn := hvalueIn
      nValueOut := hvalueOut
      nFees := by rw [hfees, hcoinbase, Bool.false_or]
      nStakeReward := hstake }

/-- **A row of ordinary transactions** pays a fee, which the ledger loses. -/
theorem LoopInv.ordinary {txs : List (CTransaction H)} (hinv : LoopInv s done acc)
    (hstored : StoredFrom s.blockFiles pindex.nFile pindex.nBlockPos acc.nTxPos txs)
    (hnodup : (txs.map (CTransaction.getHash c.toSha256)).Nodup)
    (hnew : ∀ tx ∈ txs, tx.getHash c.toSha256 ∉ done)
    (hordinary : ∀ tx ∈ txs, tx.isCoinBase c.toSha256 = false ∧ tx.isCoinStake c.toSha256 = false)
    (h : txs.foldlM (s.connectTx c env pindex pprev false) acc = some acc') :
    ∃ fee : Int, 0 ≤ fee ∧ Ledger.Backed s.blockFiles (s.ledger acc') ∧
      Ledger.unspent s.blockFiles (s.ledger acc') =
      Ledger.unspent s.blockFiles (s.ledger acc) - fee ∧ acc'.nFees = acc.nFees + Int64.ofInt fee ∧
      acc'.nValueOut - acc'.nValueIn = acc.nValueOut - acc.nValueIn - Int64.ofInt fee ∧
      acc'.nStakeReward = acc.nStakeReward := by
  induction txs generalizing acc done with
  | nil =>
    cases h
    exact ⟨0, by omega, hinv.backed, by simp, by simp, by simp, rfl⟩
  | cons tx txs ih =>
    obtain ⟨mid, hmid, hrest⟩ := OptionLoop.foldlM_cons h
    rw [map_cons, nodup_cons] at hnodup
    obtain ⟨hnobase, hnostake⟩ := hordinary tx mem_cons_self
    obtain ⟨hinv', nIn, nOut, hround⟩ := hinv.step hstored.1 (hnew tx mem_cons_self) hmid
    have hpos := (connectTx_ledger hmid).2
    have hnew' : ∀ tx' ∈ txs, tx'.getHash c.toSha256 ∉ tx.getHash c.toSha256 :: done := by
      intro tx' htx'
      rw [List.mem_cons, not_or]
      refine ⟨?_, hnew tx' (mem_cons_of_mem _ htx')⟩
      intro heq
      exact hnodup.1 (heq ▸ mem_map_of_mem htx')
    obtain ⟨fee, hfee, hbacked, hunspent, hfees, hdelta, hstake⟩ :=
      ih hinv' (hpos ▸ hstored.2) hnodup.2 hnew'
        (fun tx' htx' => hordinary tx' (mem_cons_of_mem _ htx')) hrest
    have hpaid := hround.paid hnobase hnostake
    have hroundFees := hround.nFees
    have hroundStake := hround.nStakeReward
    rw [hnobase, hnostake, Bool.or_self, if_neg Bool.false_ne_true] at hroundFees
    rw [hnostake, if_neg Bool.false_ne_true] at hroundStake
    have hofInt : Int64.ofInt (fee + (nIn.toInt - nOut.toInt)) = Int64.ofInt fee + (nIn - nOut) := by
      rw [ofInt_add, ofInt_sub, Int64.ofInt_toInt, Int64.ofInt_toInt]
    refine ⟨fee + (nIn.toInt - nOut.toInt), by omega, hbacked, ?_, ?_, ?_, ?_⟩
    · rw [hunspent, hround.unspent]
      omega
    · rw [hfees, hroundFees, hofInt]
      grind
    · rw [hdelta, hround.nValueOut, hround.nValueIn, hofInt]
      grind
    · rw [hstake, hroundStake]

/-- No proof-of-work block contains a coinstake. -/
def StakesInPlace (c : Consensus H) (block : CBlock H) : Prop :=
  block.isProofOfWork c → ∀ tx ∈ block.vtx, tx.isCoinStake c.toSha256 = false

theorem sumValues_of_isEmpty {vout : List CTxOut} (h : ∀ txout ∈ vout, txout.isEmpty) :
    sumValues vout = 0 := by
  induction vout with
  | nil => rfl
  | cons txout vout ih =>
    have hvalue : txout.nValue = 0 := by
      have hempty := h txout mem_cons_self
      unfold CTxOut.isEmpty at hempty
      exact eq_of_beq (Bool.and_eq_true_iff.mp hempty).1
    have hrest := ih fun o ho => h o (mem_cons_of_mem _ ho)
    unfold sumValues at hrest ⊢
    rw [map_cons, sum_cons, hrest, hvalue]
    rfl

theorem toInt_ofInt {n : Int} (hlow : -maxMoney ≤ n) (hhigh : n ≤ 3 * maxMoney) :
    (Int64.ofInt n).toInt = n := by
  unfold maxMoney at hlow hhigh
  apply toInt_ofInt_of_le <;> omega

theorem toInt_getProofOfWorkReward (nHeight : Nat) :
    (getProofOfWorkReward nHeight 0).toInt = if nHeight = 1 then maxMoney else 0 := by
  unfold getProofOfWorkReward
  split
  · decide
  · decide

theorem toInt_getProofOfWorkReward_fees (nHeight : Nat) {fee : Int} (hfee : 0 ≤ fee)
    (hle : fee ≤ 2 * maxMoney) : (getProofOfWorkReward nHeight (Int64.ofInt fee)).toInt =
      (getProofOfWorkReward nHeight 0).toInt + fee := by
  have hcoin : (1000000000 * COIN : Int64) = Int64.ofInt maxMoney := by decide
  rw [toInt_getProofOfWorkReward]
  unfold getProofOfWorkReward
  split
  · rw [hcoin, ← ofInt_add, toInt_ofInt (by unfold maxMoney; omega) (by omega)]
  · rw [Int64.zero_add, toInt_ofInt (by unfold maxMoney; omega) (by unfold maxMoney at *; omega)]
    omega

/-- The totals of a block: coinbase value, stake reward and fees. -/
structure BlockTotals (c : Consensus H) (s : Node H) (block : CBlock H) (acc : ConnectState H)
    (base reward fee : Int) : Prop where
  base_nonneg : 0 ≤ base
  base_le : base ≤ maxMoney
  reward_ge : -maxMoney ≤ reward
  reward_le : reward ≤ maxMoney
  fee_nonneg : 0 ≤ fee
  nFees : acc.nFees = Int64.ofInt fee
  minted : acc.nValueOut - acc.nValueIn = Int64.ofInt (base + reward - fee)
  backed : Ledger.Backed s.blockFiles (s.ledger acc)
  unspent : Ledger.unspent s.blockFiles (s.ledger acc) =
    Ledger.unspent s.blockFiles s.txdb.view.txindex + (base + reward - fee)
  work : block.isProofOfStake c = false → reward = 0 ∧
    ∃ coinbase nOut, block.vtx.head? = some coinbase ∧ coinbase.getValueOut = some nOut ∧
      nOut.toInt = base
  stake : block.isProofOfStake c → base = 0 ∧ acc.nStakeReward = Int64.ofInt reward

/-- What the round of the coinbase leaves for the rest of the block. -/
structure CoinbaseRound (c : Consensus H) (s : Node H) (pindex : CBlockIndex H)
    (coinbase : CTransaction H) (rest : List (CTransaction H)) (first : ConnectState H)
    (base : Int64) : Prop where
  inv : LoopInv s [coinbase.getHash c.toSha256] first
  row : StoredFrom s.blockFiles pindex.nFile pindex.nBlockPos first.nTxPos rest
  nodup : (rest.map (CTransaction.getHash c.toSha256)).Nodup
  new : ∀ tx ∈ rest, tx.getHash c.toSha256 ∉ [coinbase.getHash c.toSha256]
  valueOut : coinbase.getValueOut = some base
  range : moneyRange base
  nFees : first.nFees = 0
  minted : first.nValueOut - first.nValueIn = base
  unspent : Ledger.unspent s.blockFiles (s.ledger first) =
    Ledger.unspent s.blockFiles s.txdb.view.txindex + base.toInt

variable {coinbase : CTransaction H} {rest : List (CTransaction H)} {base : Int64}

theorem exists_coinbaseRound (hbacked : Ledger.Backed s.blockFiles s.txdb.view.txindex)
    (hstored : s.blockFiles pindex.nFile pindex.nBlockPos = some block)
    (hshape : block.Shape c coinbase rest)
    (hloop : block.vtx.foldlM (s.connectTx c env pindex pprev false)
      (connectStart block pindex false) = some acc) :
    ∃ first base, CoinbaseRound c s pindex coinbase rest first base ∧
      rest.foldlM (s.connectTx c env pindex pprev false) first = some acc := by
  have hrow := storedFrom_block hstored
  have hdistinct := hshape.distinct
  have hstart : s.ledger (connectStart block pindex false) = s.txdb.view.txindex :=
    overlay_empty _
  have hinv : LoopInv s [] (connectStart block pindex false) :=
    ⟨hstart ▸ hbacked, fun hash _ _ => by rw [hstart]⟩
  rw [hshape.vtx] at hrow hdistinct hloop
  rw [map_cons, nodup_cons] at hdistinct
  obtain ⟨first, hfirst, hrest⟩ := OptionLoop.foldlM_cons hloop
  obtain ⟨hinv₁, nIn, base, hround⟩ := hinv.step hrow.1 not_mem_nil hfirst
  have hnIn : nIn = 0 := hround.coinbase hshape.isCoinBase
  refine ⟨first, base, ⟨hinv₁, (connectTx_ledger hfirst).2 ▸ hrow.2, hdistinct.2, ?_,
    hround.valueOut, hround.rangeOut, ?_, ?_, ?_⟩, hrest⟩
  · intro tx htx hmem
    rw [mem_singleton] at hmem
    exact hdistinct.1 (hmem ▸ mem_map_of_mem htx)
  · rw [hround.nFees, hshape.isCoinBase, Bool.true_or, if_pos rfl]
    rfl
  · rw [hround.nValueOut, hround.nValueIn, hnIn]
    simp [connectStart]
  · rw [hround.unspent, hstart, hnIn]
    simp

/-- The rest of a proof-of-work block is ordinary transactions. -/
theorem CoinbaseRound.work (h : CoinbaseRound c s pindex coinbase rest first base)
    (hshape : block.Shape c coinbase rest) (hstakes : StakesInPlace c block)
    (hpos : block.isProofOfStake c = false)
    (hrest : rest.foldlM (s.connectTx c env pindex pprev false) first = some acc) :
    ∃ fee, BlockTotals c s block acc base.toInt 0 fee := by
  have hordinary : ∀ tx ∈ rest,
      tx.isCoinBase c.toSha256 = false ∧ tx.isCoinStake c.toSha256 = false := by
    intro tx htx
    refine ⟨hshape.noCoinBase tx htx, hstakes (by simp [CBlock.isProofOfWork, hpos]) tx ?_⟩
    rw [hshape.vtx]
    exact mem_cons_of_mem _ htx
  have hbase := moneyRange_iff.mp h.range
  obtain ⟨fee, hfee, hbacked', hunspent, hfees, hminted, _⟩ :=
    h.inv.ordinary h.row h.nodup h.new hordinary hrest
  exact ⟨fee, {
    base_nonneg := hbase.1
    base_le := hbase.2
    reward_ge := by decide
    reward_le := by decide
    fee_nonneg := hfee
    nFees := by rw [hfees, h.nFees, Int64.zero_add]
    minted := by rw [hminted, h.minted, Int.add_zero, ofInt_sub, Int64.ofInt_toInt]
    backed := hbacked'
    unspent := by
      rw [hunspent, h.unspent]
      omega
    work := fun _ => ⟨rfl, coinbase, base, by rw [hshape.vtx]; rfl, h.valueOut, rfl⟩
    stake := fun hyes => by rw [hpos] at hyes; cases hyes }⟩

/-- The rest of a proof-of-stake block is a coinstake and ordinary transactions. -/
theorem CoinbaseRound.stake (h : CoinbaseRound c s pindex coinbase rest first base)
    (hshape : block.Shape c coinbase rest) (hpos : block.isProofOfStake c = true)
    (hrest : rest.foldlM (s.connectTx c env pindex pprev false) first = some acc) :
    ∃ reward fee, BlockTotals c s block acc 0 reward fee := by
  obtain ⟨coinstake, others, rfl, hempty, hcoinstake, hothers⟩ := hshape.stake hpos
  have hbase0 : base.toInt = 0 := by
    obtain ⟨_, hsum, _⟩ := CTransaction.getValueOut_spec h.valueOut
    rw [hsum, sumValues_of_isEmpty hempty]
  have hrow := h.row
  have hdistinct := h.nodup
  rw [map_cons, nodup_cons] at hdistinct
  obtain ⟨second, hsecond, hlast⟩ := OptionLoop.foldlM_cons hrest
  obtain ⟨hinv₂, stakeIn, stakeOut, hround₂⟩ :=
    h.inv.step hrow.1 (h.new coinstake mem_cons_self) hsecond
  have hpos₂ := (connectTx_ledger hsecond).2
  have hrangeIn := moneyRange_iff.mp hround₂.rangeIn
  have hrangeOut := moneyRange_iff.mp hround₂.rangeOut
  have hfees₂ : second.nFees = 0 := by
    rw [hround₂.nFees, hcoinstake, Bool.or_true, if_pos rfl, h.nFees]
  have hreward₂ : second.nStakeReward = stakeOut - stakeIn := by
    rw [hround₂.nStakeReward, hcoinstake, if_pos rfl]
  have hminted₂ : second.nValueOut - second.nValueIn = base + (stakeOut - stakeIn) := by
    rw [hround₂.nValueOut, hround₂.nValueIn, ← h.minted]
    grind
  have hordinary : ∀ tx ∈ others,
      tx.isCoinBase c.toSha256 = false ∧ tx.isCoinStake c.toSha256 = false :=
    fun tx htx => ⟨hshape.noCoinBase tx (mem_cons_of_mem _ htx), hothers tx htx⟩
  have hnew₂ : ∀ tx ∈ others, tx.getHash c.toSha256 ∉
      [coinstake.getHash c.toSha256, coinbase.getHash c.toSha256] := by
    intro tx htx hmem
    rcases List.mem_cons.mp hmem with heq | hmem
    · exact hdistinct.1 (heq ▸ mem_map_of_mem htx)
    · exact h.new tx (mem_cons_of_mem _ htx) hmem
  obtain ⟨fee, hfee, hbacked', hunspent, hfees, hminted, hstake⟩ :=
    hinv₂.ordinary (hpos₂ ▸ hrow.2) hdistinct.2 hnew₂ hordinary hlast
  exact ⟨stakeOut.toInt - stakeIn.toInt, fee, {
    base_nonneg := by omega
    base_le := by decide
    reward_ge := by omega
    reward_le := by omega
    fee_nonneg := hfee
    nFees := by rw [hfees, hfees₂, Int64.zero_add]
    minted := by
      have hzero : base = 0 := toInt_inj.mp hbase0
      rw [hminted, hminted₂, hzero, Int.zero_add, ofInt_sub, ofInt_sub,
        Int64.ofInt_toInt, Int64.ofInt_toInt, Int64.zero_add]
    backed := hbacked'
    unspent := by
      rw [hunspent, hround₂.unspent, h.unspent, hbase0]
      omega
    work := fun hno => by rw [hpos] at hno; cases hno
    stake := fun _ => ⟨rfl, by
      rw [hstake, hreward₂, ofInt_sub, Int64.ofInt_toInt, Int64.ofInt_toInt]⟩ }⟩

/-- **The transaction loop over a block of the right shape.** -/
theorem connectTxs_totals (hbacked : Ledger.Backed s.blockFiles s.txdb.view.txindex)
    (hstored : s.blockFiles pindex.nFile pindex.nBlockPos = some block)
    (hshape : block.Shape c coinbase rest) (hstakes : StakesInPlace c block)
    (hloop : block.vtx.foldlM (s.connectTx c env pindex pprev false)
      (connectStart block pindex false) = some acc) :
    ∃ base reward fee, BlockTotals c s block acc base reward fee := by
  obtain ⟨first, base, hfirst, hrest⟩ := exists_coinbaseRound hbacked hstored hshape hloop
  cases hpos : block.isProofOfStake c with
  | false => exact ⟨_, _, hfirst.work hshape hstakes hpos hrest⟩
  | true => exact ⟨_, hfirst.stake hshape hpos hrest⟩

/-- **The value of a block.**  The ledger grows by what is minted, and that is
at most the reward without fees. -/
theorem connectChecks_value (hbacked : Ledger.Backed s.blockFiles s.txdb.view.txindex)
    (hstored : s.blockFiles pindex.nFile pindex.nBlockPos = some block)
    (hsupply : Ledger.unspent s.blockFiles s.txdb.view.txindex ≤ maxMoney) (hstakes : StakesInPlace c block)
    (h : s.connectChecks c env block pindex pprev false = some acc) :
    ∃ minted : Int, acc.nValueOut - acc.nValueIn = Int64.ofInt minted ∧
      minted ≤ (getProofOfWorkReward pindex.nHeight 0).toInt ∧
      Ledger.Backed s.blockFiles (s.ledger acc) ∧ Ledger.unspent s.blockFiles (s.ledger acc) =
        Ledger.unspent s.blockFiles s.txdb.view.txindex + minted := by
  obtain ⟨hcheck, hloop, _, hrewards⟩ := connectChecks_some h
  obtain ⟨coinbase, rest, hshape⟩ := CBlock.checkBlock_shape hcheck
  obtain ⟨base, reward, fee, htotals⟩ := connectTxs_totals hbacked hstored hshape hstakes hloop
  refine ⟨base + reward - fee, htotals.minted, ?_, htotals.backed, htotals.unspent⟩
  -- the ledger is not negative, which bounds the fees
  have hnonneg := htotals.backed.unspent_nonneg
  have hunspent := htotals.unspent
  have hbase := htotals.base_le
  have hbase0 := htotals.base_nonneg
  have hreward := htotals.reward_le
  have hsubsidy := toInt_getProofOfWorkReward pindex.nHeight
  unfold checkRewards at hrewards
  cases hpos : block.isProofOfStake c with
  | false =>
    obtain ⟨hreward0, coinbase, nOut, hhead, hvalue, hnOut⟩ := htotals.work hpos
    rw [if_pos (by simp [CBlock.isProofOfWork, hpos]), hhead, Option.bind_some, hvalue,
      Option.any_some, decide_eq_true_iff, Int64.le_iff_toInt_le, htotals.nFees, hnOut,
      toInt_getProofOfWorkReward_fees _ htotals.fee_nonneg (by omega)] at hrewards
    omega
  | true =>
    obtain ⟨hbase0, hstake⟩ := htotals.stake hpos
    rw [if_neg (by simp [CBlock.isProofOfWork, hpos])] at hrewards
    cases hsecond : block.vtx[1]? with
    | none => simp [hsecond] at hrewards
    | some coinstake =>
      rw [hsecond, Option.any_some, Bool.and_eq_true, Bool.and_eq_true, decide_eq_true_iff,
        getProofOfStakeReward, Int64.zero_add, Int64.le_iff_toInt_le, hstake, htotals.nFees]
        at hrewards
      have hrule := hrewards.1.2
      have hge := htotals.reward_ge
      have hfee := htotals.fee_nonneg
      have hmax : maxMoney = 100000000000000000 := rfl
      rw [toInt_ofInt (by omega) (by omega), toInt_ofInt (by omega) (by omega)] at hrule
      split at hsubsidy
      · omega
      · omega

/-- `CheckBlock` and `AcceptBlock` of a block that extends the chain: its rules,
the block file and the block index.  The result is ready for `ConnectBlock`. -/
def accept (c : Consensus H) (s : Node H) (env : Env H) (block : CBlock H) :
    Option (Node H × CBlockIndex H) :=
  if block.checkBlock c env.adjustedTime true true true && block.getHash c ∉ s.mapBlockIndex &&
      (s.pindexBest.head?.any fun pindexPrev => block.hashPrevBlock = pindexPrev.hash &&
        block.acceptRules c pindexPrev s.pindexBest.tail (env.checksProofOfStake block)
          (env.checksSync (block.getHash c))) then
    (s.writeToDisk env block).map fun written =>
      let pindexNew := newIndex c block written.1 written.2.1 s.pindexBest
      ((written.2.2.insertIndex pindexNew s.pindexBest).txnBegin, pindexNew)
  else none

/-- A chain grows by a block that passes `AcceptBlock` and `ConnectBlock`. -/
def extendChain (c : Consensus H) (s : Node H) (link : Env H × CBlock H) : Option (Node H) :=
  (accept c s link.1 link.2).bind fun ready =>
    let connected := ready.1.connectBlock c link.1 link.2 ready.2 s.pindexBest false
    if connected.1 then
      some ({ connected.2 with txdb := ⟨connected.2.txdb.view, none⟩ }.setTip ready.2.hash ready.2
        s.pindexBest)
    else none

/-- `nMoneySupply` of an index entry. -/
def supplyAt (s : Node H) (pindex : CBlockIndex H) : Int64 := s.nMoneySupply[pindex.hash]?.getD 0

/-- Invariant of a growing chain: all its entries are indexed, the ledger is
backed by the files and worth no more than the supply, and the supply is within
its limit. -/
structure ChainInv (s : Node H) : Prop where
  tip : ∃ pindex pprev, s.pindexBest = pindex :: pprev ∧
    Ledger.unspent s.blockFiles s.txdb.pdb.txindex ≤ (s.supplyAt pindex).toInt ∧
    (pindex.nHeight = 0 → s.supplyAt pindex = 0)
  indexed : ∀ pindex ∈ s.pindexBest, pindex.hash ∈ s.mapBlockIndex
  backed : Ledger.Backed s.blockFiles s.txdb.pdb.txindex
  limited : ∀ pindex ∈ s.pindexBest, (s.supplyAt pindex).toInt ≤ maxMoney

theorem chainInv_genesis (block : CBlock H) : ChainInv (genesis c block) where
  tip := by
    refine ⟨newIndex c block 1 8 [], [], rfl, ?_, ?_⟩
    · simp [genesis, Ledger.unspent, supplyAt]
    · simp [genesis, supplyAt]
  indexed := by
    intro pindex hmem
    have heq : pindex = newIndex c block 1 8 [] := mem_singleton.mp hmem
    rw [heq]
    exact ExtTreeMap.mem_insert_self
  backed := by
    intro hash txindex hlook
    simp [genesis] at hlook
  limited := by
    intro pindex hmem
    simp only [genesis, supplyAt, ExtTreeMap.getElem?_empty, Option.getD_none]
    decide

omit [LawfulEqOrd H] in
theorem accept_some {ready : Node H × CBlockIndex H} (h : accept c s env block = some ready) :
    block.getHash c ∉ s.mapBlockIndex ∧ ready.2.hash = block.getHash c ∧
      ready.2.nHeight = (s.pindexBest.head?.map fun prev => prev.nHeight + 1).getD 0 ∧
      FilesExtend s.blockFiles ready.1.blockFiles ∧
      ready.1.blockFiles ready.2.nFile ready.2.nBlockPos = some block ∧
      ready.1.mapBlockIndex = s.mapBlockIndex.insert ready.2.hash (ready.2 :: s.pindexBest) ∧
      ready.1.txdb.view = s.txdb.pdb ∧ ready.1.nMoneySupply = s.nMoneySupply := by
  unfold accept at h
  split at h
  · rename_i hrules
    simp only [Bool.and_eq_true, decide_eq_true_iff] at hrules
    obtain ⟨⟨nFile, nBlockPos, written⟩, hwritten, rfl⟩ := Option.map_eq_some_iff.mp h
    obtain ⟨hext, hstored, hframe⟩ := writeToDisk_some hwritten
    refine ⟨hrules.1.2, rfl, rfl, hext, hstored, ?_, ?_, ?_⟩
    · rw [hframe]
      rfl
    · rw [hframe]
      rfl
    · rw [hframe]
      rfl
  · cases h

/-- **One block.**  The ledger grows by what the block mints, which is within
the reward. -/
theorem ChainInv.minted {ready : Node H × CBlockIndex H} (hinv : ChainInv s)
    (hstakes : StakesInPlace c block) (haccept : accept c s env block = some ready)
    (h : ready.1.connectChecks c env block ready.2 s.pindexBest false = some acc) :
    ∃ minted : Int, acc.nValueOut - acc.nValueIn = Int64.ofInt minted ∧
      minted ≤ (getProofOfWorkReward ready.2.nHeight 0).toInt ∧
      Ledger.Backed ready.1.blockFiles (ready.1.ledger acc) ∧
      Ledger.unspent ready.1.blockFiles (ready.1.ledger acc) =
        Ledger.unspent s.blockFiles s.txdb.pdb.txindex + minted := by
  obtain ⟨_, _, _, hext, hstored, _, hview, _⟩ := accept_some haccept
  obtain ⟨pindex, pprev, htip, hunspent, _⟩ := hinv.tip
  obtain ⟨hbacked, hvalue⟩ := hext.backed hinv.backed
  have hlimit := hinv.limited pindex (by rw [htip]; exact mem_cons_self)
  rw [← hview] at hbacked hvalue
  obtain ⟨minted, hminted, hreward, hbacked', hgrown⟩ :=
    connectChecks_value hbacked hstored (by rw [hvalue, hview]; omega) hstakes h
  refine ⟨minted, hminted, hreward, hbacked', ?_⟩
  rw [hgrown, hvalue, hview]

omit [LawfulEqOrd H] in
/-- Inversion of `extendChain`. -/
theorem extendChain_some {link : Env H × CBlock H} (h : extendChain c s link = some t) :
    ∃ ready acc, accept c s link.1 link.2 = some ready ∧
      ready.1.connectChecks c link.1 link.2 ready.2 s.pindexBest false = some acc ∧
      t.txdb.pdb.txindex = ready.1.ledger acc ∧ t.blockFiles = ready.1.blockFiles ∧
      t.pindexBest = ready.2 :: s.pindexBest ∧ t.mapBlockIndex = ready.1.mapBlockIndex ∧
      t.nMoneySupply = ready.1.nMoneySupply.insert ready.2.hash
        ((s.pindexBest.head?.map ready.1.supplyAt).getD 0 + acc.nValueOut - acc.nValueIn) := by
  obtain ⟨ready, haccept, hconnect⟩ := Option.bind_eq_some_iff.mp h
  cases hresult : ready.1.connectBlock c link.1 link.2 ready.2 s.pindexBest false with
  | mk ok node =>
    simp only [hresult] at hconnect
    cases ok with
    | false => cases hconnect
    | true =>
      obtain ⟨acc, mwState, hchecks, _, rfl⟩ := connectBlock_true hresult
      have htxindex := txindex_connected c ready.1 ready.2 s.pindexBest acc mwState
      rw [connected_frame] at hconnect
      refine ⟨ready, acc, haccept, hchecks, ?_⟩
      rw [← Option.some.inj hconnect]
      exact ⟨htxindex, rfl, rfl, rfl, rfl⟩

/-- **One block keeps the invariant.** -/
theorem ChainInv.step {link : Env H × CBlock H} (hinv : ChainInv s)
    (hstakes : StakesInPlace c link.2) (h : extendChain c s link = some t) : ChainInv t := by
  obtain ⟨ready, acc, haccept, hchecks, hpdb, hfiles, hbest, hmap, hsupplyT⟩ := extendChain_some h
  obtain ⟨hnew, hhash, hheight, _, _, hindex, _, hsupply⟩ := accept_some haccept
  obtain ⟨minted, hminted, hreward, hbacked, hgrown⟩ := hinv.minted hstakes haccept hchecks
  obtain ⟨pindex, pprev, htip, hunspent, hzero⟩ := hinv.tip
  have hlimit := hinv.limited pindex (by rw [htip]; exact mem_cons_self)
  have hbefore := hinv.backed.unspent_nonneg
  have hafter := hbacked.unspent_nonneg
  rw [toInt_getProofOfWorkReward] at hreward
  rw [htip] at hheight
  -- the supply of the new tip, as an integer
  have hsum : (s.supplyAt pindex).toInt + minted ≤ maxMoney := by
    split at hreward
    · rename_i hone
      have hfirst : pindex.nHeight = 0 := by
        simp only [head?_cons, Option.map_some, Option.getD_some] at hheight
        omega
      have hnothing : (s.supplyAt pindex).toInt = 0 := by rw [hzero hfirst]; rfl
      omega
    · omega
  have hat : (t.supplyAt ready.2).toInt = (s.supplyAt pindex).toInt + minted := by
    have hwrapped : t.supplyAt ready.2 = Int64.ofInt ((s.supplyAt pindex).toInt + minted) := by
      rw [supplyAt, hsupplyT, ExtTreeMap.getElem?_insert_self, Option.getD_some, ofInt_add,
        Int64.ofInt_toInt, ← hminted, htip, head?_cons, Option.map_some, Option.getD_some,
        supplyAt, supplyAt, hsupply]
      grind
    rw [hwrapped, toInt_ofInt (by unfold maxMoney at *; omega) (by unfold maxMoney at *; omega)]
  have hother : ∀ p ∈ s.pindexBest, t.supplyAt p = s.supplyAt p := by
    intro p hp
    have hne : ready.2.hash ≠ p.hash := by
      intro heq
      exact hnew (hhash ▸ heq ▸ hinv.indexed p hp)
    rw [supplyAt, hsupplyT, getElem?_insert_ne _ _ hne, hsupply, supplyAt]
  refine ⟨⟨ready.2, s.pindexBest, hbest, ?_, ?_⟩, ?_, ?_, ?_⟩
  · rw [hpdb, hfiles, hgrown, hat]
    omega
  · intro hgenesis
    simp only [head?_cons, Option.map_some, Option.getD_some] at hheight
    omega
  · intro p hp
    rw [hmap, hindex, ExtTreeMap.mem_insert]
    rw [hbest] at hp
    rcases List.mem_cons.mp hp with rfl | hp
    · exact Or.inl (by simp)
    · exact Or.inr (hinv.indexed p hp)
  · rw [hpdb, hfiles]
    exact hbacked
  · intro p hp
    rw [hbest] at hp
    rcases List.mem_cons.mp hp with rfl | hp
    · rw [hat]
      exact hsum
    · rw [hother p hp]
      exact hinv.limited p hp

/-- **Money supply.**  In every chain on the genesis block all of whose blocks
pass `AcceptBlock` and `ConnectBlock` and keep coinstakes out of proof-of-work
blocks, every block creates at most the proof-of-work reward without fees more
than it consumes, and the supply recorded at any height is at most a billion
coins. -/
theorem money_supply {genesisBlock : CBlock H} {links : List (Env H × CBlock H)}
    (hrun : links.foldlM (extendChain c) (genesis c genesisBlock) = some t)
    (hstakes : ∀ link ∈ links, StakesInPlace c link.2) :
    (∀ (pre post : List (Env H × CBlock H)) link s ready acc, links = pre ++ link :: post →
      pre.foldlM (extendChain c) (genesis c genesisBlock) = some s → accept c s link.1 link.2 =
      some ready → ready.1.connectChecks c link.1 link.2 ready.2 s.pindexBest false = some acc →
      acc.nValueOut - acc.nValueIn ≤ getProofOfWorkReward ready.2.nHeight 0) ∧
    ∀ pindex ∈ t.pindexBest, t.supplyAt pindex ≤ 1000000000 * COIN := by
  have hinv : ∀ (pre : List (Env H × CBlock H)) s, (∀ link ∈ pre, StakesInPlace c link.2) →
      pre.foldlM (extendChain c) (genesis c genesisBlock) = some s → ChainInv s := by
    intro pre s hpre hfold
    exact OptionLoop.foldlM_invariant ChainInv
      (fun link hlink _ _ hs hstep => hs.step (hpre link hlink) hstep) hfold
      (chainInv_genesis genesisBlock)
  constructor
  · intro pre post link s ready acc hsplit hfold haccept hchecks
    have hpre := hinv pre s (fun l hl => hstakes l (by rw [hsplit]; simp [hl])) hfold
    obtain ⟨minted, hminted, hreward, hbacked, hgrown⟩ :=
      hpre.minted (hstakes link (by rw [hsplit]; simp)) haccept hchecks
    obtain ⟨pindex, pprev, htip, hunspent, _⟩ := hpre.tip
    have hlimit := hpre.limited pindex (by rw [htip]; exact mem_cons_self)
    have hbefore := hpre.backed.unspent_nonneg
    have hafter := hbacked.unspent_nonneg
    have hsubsidy := toInt_getProofOfWorkReward ready.2.nHeight
    rw [Int64.le_iff_toInt_le, hminted, toInt_ofInt (by omega) (by
      unfold maxMoney at *
      split at hsubsidy
      · omega
      · omega)]
    exact hreward
  · intro pindex hmem
    have hlimit := (hinv links t hstakes hrun).limited pindex hmem
    have hcoin : (1000000000 * COIN : Int64).toInt = maxMoney := by decide
    rw [Int64.le_iff_toInt_le, hcoin]
    exact hlimit

/-- The coinbase of the first block mints all coins there will be. -/
def samplePremine : CTransaction (List Nat) :=
  sampleCoinbase 1 [⟨COIN, []⟩, ⟨999999999 * COIN, []⟩]

/-- Ten blocks, after which the premine can be spent. -/
def maturedChain : List (Env (List Nat) × CBlock (List Nat)) :=
  sampleChain 1 (sampleGenesis.getHash sampleConsensus)
    ([samplePremine] :: (List.range 9).map fun k => [sampleCoinbase (k + 2) [⟨0, []⟩]])

theorem money_supply_premine : ∃ t, (maturedChain.take 2).foldlM (extendChain sampleConsensus)
        (genesis sampleConsensus sampleGenesis) = some t ∧
      ∀ pindex ∈ t.pindexBest, t.supplyAt pindex ≤ 1000000000 * COIN := by
  have hrun : ((maturedChain.take 2).foldlM (extendChain sampleConsensus)
      (genesis sampleConsensus sampleGenesis)).isSome := by decide +kernel
  have hstakes : ∀ link ∈ maturedChain.take 2, StakesInPlace sampleConsensus link.2 := by
    unfold StakesInPlace
    decide +kernel
  obtain ⟨t, ht⟩ := Option.isSome_iff_exists.mp hrun
  exact ⟨t, ht, (money_supply ht hstakes).2⟩

/-- A proof-of-work block with a coinstake behind an ordinary transaction.  The
coinstake spends one coin and pays a billion. -/
def mintingLink : Env (List Nat) × CBlock (List Nat) :=
  let premine := samplePremine.getHash transparent
  let hashPrevBlock := (maturedChain.getLast?.map fun link => link.2.getHash sampleConsensus).getD []
  (sampleEnv 11000, sampleBlock 11 hashPrevBlock
    [sampleCoinbase 11 [⟨0, []⟩], samplePayment 11 ⟨premine, 1⟩ [⟨999999998 * COIN, [OP_1]⟩],
      samplePayment 11 ⟨premine, 0⟩ [⟨0, []⟩, ⟨1000000000 * COIN, [OP_1]⟩]])

/-- **Coinstakes in proof-of-work blocks mint coins.**  The reward rule of such
a block looks at its coinbase only. -/
theorem coinstake_in_work_block_mints : ∃ s ready acc t, maturedChain.foldlM
        (extendChain sampleConsensus) (genesis sampleConsensus sampleGenesis) = some s ∧
      accept sampleConsensus s mintingLink.1 mintingLink.2 = some ready ∧
      ready.1.connectChecks sampleConsensus mintingLink.1 mintingLink.2 ready.2 s.pindexBest false =
        some acc ∧ ¬ acc.nValueOut - acc.nValueIn ≤ getProofOfWorkReward ready.2.nHeight 0 ∧
      extendChain sampleConsensus s mintingLink = some t ∧
      ∃ pindex ∈ t.pindexBest, ¬ t.supplyAt pindex ≤ 1000000000 * COIN := by
  have hrun : ((maturedChain.foldlM (extendChain sampleConsensus)
      (genesis sampleConsensus sampleGenesis)).any fun s =>
        ((accept sampleConsensus s mintingLink.1 mintingLink.2).any fun ready =>
          (ready.1.connectChecks sampleConsensus mintingLink.1 mintingLink.2 ready.2
            s.pindexBest false).any fun acc =>
              !decide (acc.nValueOut - acc.nValueIn ≤ getProofOfWorkReward ready.2.nHeight 0)) &&
        (extendChain sampleConsensus s mintingLink).any fun t =>
          t.pindexBest.any fun pindex =>
            !decide (t.supplyAt pindex ≤ 1000000000 * COIN)) = true := by decide +kernel
  obtain ⟨s, hs, hboth⟩ := (Option.any_eq_true _ _).mp hrun
  obtain ⟨hblock, hchain⟩ := Bool.and_eq_true_iff.mp hboth
  obtain ⟨ready, hready, hchecks⟩ := (Option.any_eq_true _ _).mp hblock
  obtain ⟨acc, hacc, hminted⟩ := (Option.any_eq_true _ _).mp hchecks
  obtain ⟨t, ht, hsupply⟩ := (Option.any_eq_true _ _).mp hchain
  obtain ⟨pindex, hpindex, hexceeds⟩ := any_eq_true.mp hsupply
  exact ⟨s, ready, acc, t, hs, hready, hacc, by simpa using hminted, ht, pindex, hpindex,
    by simpa using hexceeds⟩

end Node

end MaryJaneCoin
