import MaryJaneCoin.Chain.Ledger

/-!
# The value of the unspent outputs

Amounts are `int64_t` in the source and wrap around; here they are read as
integers.  The unspent value of a transaction index is the sum of the outputs
that are not marked, each with the value it has in the block files.  A
transaction changes it by what it creates minus what it spends.
-/

namespace MaryJaneCoin

open Std List ExtTreeMap CTransaction MapSum

/-- `MAX_MONEY` as an integer. -/
def maxMoney : Int := 100000000000000000

theorem moneyRange_iff {n : Int64} : moneyRange n = true ↔ 0 ≤ n.toInt ∧ n.toInt ≤ maxMoney := by
  have hmax : MAX_MONEY.toInt = maxMoney := by decide
  unfold moneyRange
  rw [Bool.and_eq_true, decide_eq_true_iff, decide_eq_true_iff, Int64.le_iff_toInt_le,
    Int64.le_iff_toInt_le, hmax]
  rfl

theorem toInt_add_of_moneyRange {a b : Int64} (ha : moneyRange a) (hb : moneyRange b) :
    (a + b).toInt = a.toInt + b.toInt := by
  rw [moneyRange_iff] at ha hb
  unfold maxMoney at ha hb
  rw [Int64.toInt_add]
  apply Int.bmod_eq_of_le <;> omega

/-- The value of a list of outputs. -/
def sumValues (vout : List CTxOut) : Int := (vout.map fun txout => txout.nValue.toInt).sum

theorem valueOut_loop {vout : List CTxOut} {start nValueOut : Int64} (hstart : moneyRange start)
    (h : vout.foldlM (fun nValueOut txout =>
      if !moneyRange txout.nValue || !moneyRange (nValueOut + txout.nValue) then none
      else some (nValueOut + txout.nValue)) start = some nValueOut) :
    moneyRange nValueOut ∧ nValueOut.toInt = start.toInt + sumValues vout ∧
      ∀ txout ∈ vout, 0 ≤ txout.nValue.toInt := by
  induction vout generalizing start with
  | nil =>
    cases h
    exact ⟨hstart, by simp [sumValues], by simp⟩
  | cons txout vout ih =>
    obtain ⟨mid, hmid, hrest⟩ := OptionLoop.foldlM_cons h
    split at hmid
    · cases hmid
    · rename_i hrange
      cases hmid
      simp only [Bool.or_eq_true, Bool.not_eq_true', not_or, Bool.not_eq_false] at hrange
      obtain ⟨hend, hsum, hnonneg⟩ := ih hrange.2 hrest
      have hadd := toInt_add_of_moneyRange hstart hrange.1
      refine ⟨hend, ?_, ?_⟩
      · unfold sumValues at hsum ⊢
        rw [map_cons, sum_cons]
        omega
      · intro o ho
        rcases List.mem_cons.mp ho with rfl | ho
        · exact (moneyRange_iff.mp hrange.1).1
        · exact hnonneg o ho

/-- **`GetValueOut`.** -/
theorem CTransaction.getValueOut_spec {H : Type} {tx : CTransaction H} {nValueOut : Int64}
    (h : tx.getValueOut = some nValueOut) : moneyRange nValueOut ∧
      nValueOut.toInt = sumValues tx.vout ∧ ∀ txout ∈ tx.vout, 0 ≤ txout.nValue.toInt := by
  have hloop := valueOut_loop (by decide) h
  exact ⟨hloop.1, by simpa using hloop.2.1, hloop.2.2⟩

namespace Ledger

/-- The value of the outputs that are not marked. -/
def unspentSum : List CTxOut → List (Option CDiskTxPos) → Int
  | txout :: vout, none :: vSpent => txout.nValue.toInt + unspentSum vout vSpent
  | _ :: vout, some _ :: vSpent => unspentSum vout vSpent
  | _, _ => 0

theorem unspentSum_new (vout : List CTxOut) :
    unspentSum vout (List.replicate vout.length none) = sumValues vout := by
  induction vout with
  | nil => rfl
  | cons txout vout ih =>
    rw [length_cons, replicate_succ, unspentSum, ih, sumValues, sumValues, map_cons, sum_cons]

theorem unspentSum_nonneg {vout : List CTxOut} (hvout : ∀ txout ∈ vout, 0 ≤ txout.nValue.toInt)
    (vSpent : List (Option CDiskTxPos)) : 0 ≤ unspentSum vout vSpent := by
  induction vout generalizing vSpent with
  | nil => simp [unspentSum]
  | cons txout vout ih =>
    have hrest := ih fun o ho => hvout o (mem_cons_of_mem _ ho)
    have hhead := hvout txout mem_cons_self
    cases vSpent with
    | nil => simp [unspentSum]
    | cons mark vSpent =>
      cases mark with
      | none =>
        rw [unspentSum]
        have := hrest vSpent
        omega
      | some pos => exact hrest vSpent

variable {vSpent : List (Option CDiskTxPos)}

theorem unspentSum_spent (vout : List CTxOut)
    (hspent : vSpent.any Option.isNone = false) : unspentSum vout vSpent = 0 := by
  induction vout generalizing vSpent with
  | nil => simp [unspentSum]
  | cons txout vout ih =>
    cases vSpent with
    | nil => simp [unspentSum]
    | cons mark vSpent =>
      cases mark with
      | none => simp at hspent
      | some pos => exact ih (by simpa using hspent)

/-- Marking an output takes its value away. -/
theorem unspentSum_set {vout : List CTxOut} {n : Nat} {txout : CTxOut} (pos : CDiskTxPos)
    (hout : vout[n]? = some txout) (hnull : vSpent[n]? = some none) :
    unspentSum vout (vSpent.set n (some pos)) = unspentSum vout vSpent - txout.nValue.toInt := by
  induction vout generalizing vSpent n with
  | nil => simp at hout
  | cons first vout ih =>
    cases vSpent with
    | nil => simp at hnull
    | cons mark vSpent =>
      cases n with
      | zero =>
        simp only [getElem?_cons_zero, Option.some.injEq] at hout hnull
        subst hout hnull
        rw [set_cons_zero, unspentSum, unspentSum]
        omega
      | succ n =>
        have hset := ih (by simpa using hout) (by simpa using hnull)
        rw [set_cons_succ]
        cases mark with
        | none =>
          rw [unspentSum, unspentSum, hset]
          omega
        | some other => rw [unspentSum, unspentSum, hset]

variable {H : Type} (files : Nat → Nat → Option (CBlock H))

/-- The unspent value of an entry. -/
def entryValue (txindex : CTxIndex) : Int :=
  ((readTx files txindex.pos).map fun tx => unspentSum tx.vout txindex.vSpent).getD 0

theorem entryValue_eq {files : Nat → Nat → Option (CBlock H)} (txindex : CTxIndex)
    {tx : CTransaction H} (hread : readTx files txindex.pos = some tx) :
    entryValue files txindex = unspentSum tx.vout txindex.vSpent := by
  rw [entryValue, hread, Option.map_some, Option.getD_some]

variable [Ord H] [TransOrd H]

/-- The unspent value of a transaction index. -/
def unspent [DecidableEq H] (index : TxIndexMap H) : Int := total (entryValue files) index

def outputValue (index : TxIndexMap H) (prevout : COutPoint H) : Int :=
  ((index[prevout.hash]?.bind fun txindex => (readTx files txindex.pos).bind fun tx =>
    tx.vout[prevout.n.toNat]?).map fun txout => txout.nValue.toInt).getD 0

/-- Every entry points at a transaction with as many outputs as it has marks,
none of negative value. -/
def Backed (index : TxIndexMap H) : Prop :=
  ∀ (hash : H) (txindex : CTxIndex), index[hash]? = some txindex →
    ∃ tx, readTx files txindex.pos = some tx ∧ tx.vout.length = txindex.vSpent.length ∧
      ∀ txout ∈ tx.vout, 0 ≤ txout.nValue.toInt

/-- No output of this transaction is left. -/
def FullySpent (index : TxIndexMap H) (hash : H) : Prop :=
  ∀ txindex : CTxIndex, index[hash]? = some txindex → txindex.vSpent.any Option.isNone = false

variable {files} {index index' : TxIndexMap H} {pos : CDiskTxPos} {prevout : COutPoint H}

/-- An output that is not marked cannot belong to a fully spent transaction. -/
theorem FullySpent.ne_of_spend {hash : H} (hspent : FullySpent index hash)
    (h : spend pos index prevout = some index') : prevout.hash ≠ hash := by
  obtain ⟨txindex, hlook, hnull, _⟩ := spend_eq_some.mp h
  intro heq
  have hany := hspent txindex (heq ▸ hlook)
  have hmem : none ∈ txindex.vSpent := mem_of_getElem? hnull
  simp only [any_eq_false, Option.isNone_iff_eq_none] at hany
  exact hany none hmem rfl

theorem Backed.unspent_nonneg [DecidableEq H] (hbacked : Backed files index) : 0 ≤ unspent files index := by
  apply total_nonneg
  intro hash txindex hlook
  obtain ⟨tx, hread, _, hvalues⟩ := hbacked hash txindex hlook
  rw [entryValue_eq txindex hread]
  exact unspentSum_nonneg hvalues _

variable [LawfulEqOrd H]

variable {prevouts : List (COutPoint H)}

theorem FullySpent.spends {hash : H} (hspent : FullySpent index hash)
    (h : prevouts.foldlM (spend pos) index = some index') : index'[hash]? = index[hash]? := by
  induction prevouts generalizing index with
  | nil => cases h; rfl
  | cons prevout prevouts ih =>
    obtain ⟨mid, hmid, hrest⟩ := OptionLoop.foldlM_cons h
    have hne := hspent.ne_of_spend hmid
    obtain ⟨txindex, _, _, rfl⟩ := spend_eq_some.mp hmid
    have hsame := FinMap.getElem?_insert_ne index
      (mark txindex prevout.n.toNat (some pos)) hne
    have hspent' : FullySpent (index.insert prevout.hash
        (mark txindex prevout.n.toNat (some pos))) hash := by
      intro e he
      exact hspent e (hsame ▸ he)
    rw [ih hspent' hrest, hsame]

variable [DecidableEq H]

/-- **Spending one output.** -/
theorem Backed.spend (hbacked : Backed files index) (h : spend pos index prevout = some index') :
    Backed files index' ∧ unspent files index' = unspent files index - outputValue files index prevout ∧
      ∀ other, outputValue files index' other = outputValue files index other := by
  obtain ⟨txindex, hlook, hnull, rfl⟩ := spend_eq_some.mp h
  obtain ⟨tx, hread, hlen, hnonneg⟩ := hbacked _ _ hlook
  have hlt : prevout.n.toNat < tx.vout.length := by
    rw [hlen]
    exact (List.getElem?_eq_some_iff.mp hnull).1
  have hout : tx.vout[prevout.n.toNat]? = some tx.vout[prevout.n.toNat] := getElem?_eq_getElem hlt
  refine ⟨?_, ?_, ?_⟩
  · intro hash e he
    by_cases hhash : prevout.hash = hash
    · subst hhash
      rw [getElem?_insert_self] at he
      cases he
      exact ⟨tx, hread, by simp [mark, hlen], hnonneg⟩
    · rw [FinMap.getElem?_insert_ne _ _ hhash] at he
      exact hbacked hash e he
  · have hmark : entryValue files (mark txindex prevout.n.toNat (some pos)) =
        entryValue files txindex - tx.vout[prevout.n.toNat].nValue.toInt := by
      rw [entryValue_eq (mark txindex prevout.n.toNat (some pos)) hread, entryValue_eq _ hread]
      exact unspentSum_set pos hout hnull
    have hvalue : outputValue files index prevout = tx.vout[prevout.n.toNat].nValue.toInt := by
      rw [outputValue, hlook, Option.bind_some, hread, Option.bind_some, hout, Option.map_some,
        Option.getD_some]
    have hweight : weightAt (entryValue files) index prevout.hash =
        entryValue files txindex := by
      rw [weightAt, hlook, Option.map_some, Option.getD_some]
    rw [unspent, total_insert, hweight, hmark, hvalue, unspent]
    omega
  · intro other
    rw [outputValue, outputValue]
    by_cases hhash : prevout.hash = other.hash
    · rw [← hhash, getElem?_insert_self, hlook]
      rfl
    · rw [FinMap.getElem?_insert_ne _ _ hhash]

/-- **Spending all inputs.** -/
theorem Backed.spends (hbacked : Backed files index)
    (h : prevouts.foldlM (Ledger.spend pos) index = some index') : Backed files index' ∧
      unspent files index' = unspent files index - (prevouts.map (outputValue files index)).sum := by
  induction prevouts generalizing index with
  | nil => cases h; exact ⟨hbacked, by simp⟩
  | cons prevout prevouts ih =>
    obtain ⟨mid, hmid, hrest⟩ := OptionLoop.foldlM_cons h
    obtain ⟨hbacked', hvalue, hframe⟩ := hbacked.spend hmid
    obtain ⟨hend, hsum⟩ := ih hbacked' hrest
    refine ⟨hend, ?_⟩
    rw [hsum, hvalue, map_cons, sum_cons, funext hframe]
    omega

/-- **Entering a transaction** in place of one that is fully spent. -/
theorem Backed.insert_new {tx : CTransaction H} {hash : H} (hbacked : Backed files index)
    (hread : readTx files pos = some tx) (hnonneg : ∀ txout ∈ tx.vout, 0 ≤ txout.nValue.toInt)
    (hspent : FullySpent index hash) : Backed files (index.insert hash (CTxIndex.new pos tx.vout.length)) ∧
      unspent files (index.insert hash (CTxIndex.new pos tx.vout.length)) =
        unspent files index + sumValues tx.vout := by
  constructor
  · intro hash' e he
    by_cases hhash : hash = hash'
    · subst hhash
      rw [getElem?_insert_self] at he
      cases he
      exact ⟨tx, hread, by simp [CTxIndex.new], hnonneg⟩
    · rw [FinMap.getElem?_insert_ne _ _ hhash] at he
      exact hbacked hash' e he
  · have hold : weightAt (entryValue files) index hash = 0 := by
      unfold weightAt
      cases hlook : index[hash]? with
      | none => rfl
      | some txindex =>
        obtain ⟨txOld, hreadOld, _⟩ := hbacked hash txindex hlook
        rw [Option.map_some, Option.getD_some, entryValue_eq _ hreadOld,
          unspentSum_spent _ (hspent txindex hlook)]
    have hnew : entryValue files (CTxIndex.new pos tx.vout.length) = sumValues tx.vout := by
      rw [entryValue_eq (CTxIndex.new pos tx.vout.length) hread]
      exact unspentSum_new tx.vout
    rw [unspent, total_insert, hold, hnew, unspent]
    omega

end Ledger

section

variable {H : Type}

variable {tx : CTransaction H}

variable {files files' : Nat → Nat → Option (CBlock H)}

theorem FilesExtend.readTx {pos : CDiskTxPos} (hext : FilesExtend files files')
    (h : readTx files pos = some tx) : readTx files' pos = some tx := by
  obtain ⟨block, hblock, htx⟩ := Option.bind_eq_some_iff.mp h
  rw [MaryJaneCoin.readTx, hext _ _ _ hblock, Option.bind_some, htx]

theorem FilesExtend.backed [Ord H] [TransOrd H] [DecidableEq H] {index : TxIndexMap H}
    (hext : FilesExtend files files') (hbacked : Ledger.Backed files index) :
    Ledger.Backed files' index ∧ Ledger.unspent files' index = Ledger.unspent files index := by
  constructor
  · intro hash txindex hlook
    obtain ⟨tx, hread, hlen, hnonneg⟩ := hbacked hash txindex hlook
    exact ⟨tx, hext.readTx hread, hlen, hnonneg⟩
  · apply total_congr
    intro hash txindex hlook
    obtain ⟨tx, hread, _⟩ := hbacked hash txindex hlook
    rw [Ledger.entryValue_eq txindex hread, Ledger.entryValue_eq txindex (hext.readTx hread)]

theorem txAt_ge {nTxPos start : Nat} {txs : List (CTransaction H)}
    (h : txAt nTxPos start txs = some tx) : start ≤ nTxPos := by
  induction txs generalizing start with
  | nil => cases h
  | cons first txs ih =>
    unfold txAt at h
    split at h
    · omega
    · have := ih h
      omega

theorem readTx_pos {files : Nat → Nat → Option (CBlock H)} {pos : CDiskTxPos}
    (h : readTx files pos = some tx) : pos.nBlockPos + HEADER_SIZE ≤ pos.nTxPos := by
  obtain ⟨block, _, htx⟩ := Option.bind_eq_some_iff.mp h
  have hge := txAt_ge htx
  unfold CBlock.firstTxPos at hge
  omega

theorem serializeSize_pos (tx : CTransaction H) : 0 < tx.serializeSize := by
  unfold serializeSize serialize putInt32 feed Preimage.size
  simp [Codec.putLE]

/-- The transactions stand in a row in the file. -/
def StoredFrom (files : Nat → Nat → Option (CBlock H)) (nFile nBlockPos : Nat) :
    Nat → List (CTransaction H) → Prop
  | _, [] => True
  | nTxPos, tx :: rest =>
    readTx files ⟨nFile, nBlockPos, nTxPos⟩ = some tx ∧
      StoredFrom files nFile nBlockPos (nTxPos + tx.serializeSize) rest

theorem txAt_append (pre : List (CTransaction H)) (tx : CTransaction H)
    (rest : List (CTransaction H)) (start : Nat) :
    txAt (start + (pre.map serializeSize).sum) start (pre ++ tx :: rest) = some tx := by
  induction pre generalizing start with
  | nil => simp [txAt]
  | cons first pre ih =>
    have hpos := serializeSize_pos first
    have hne : start ≠ start + ((first :: pre).map serializeSize).sum := by
      rw [map_cons, sum_cons]
      omega
    rw [cons_append, txAt, if_neg hne, map_cons, sum_cons, ← Nat.add_assoc]
    exact ih (start + first.serializeSize)

theorem storedFrom_block {files : Nat → Nat → Option (CBlock H)} {nFile nBlockPos : Nat}
    {block : CBlock H} (hblock : files nFile nBlockPos = some block) :
    StoredFrom files nFile nBlockPos (block.firstTxPos nBlockPos) block.vtx := by
  have hfrom : ∀ (rest pre : List (CTransaction H)), block.vtx = pre ++ rest →
      StoredFrom files nFile nBlockPos
        (block.firstTxPos nBlockPos + (pre.map serializeSize).sum) rest := by
    intro rest
    induction rest with
    | nil => intro pre _; trivial
    | cons tx rest ih =>
      intro pre hvtx
      refine ⟨?_, ?_⟩
      · rw [readTx, hblock, Option.bind_some, hvtx]
        exact txAt_append pre tx rest _
      · have hnext := ih (pre ++ [tx]) (by simp [hvtx])
        simpa [Nat.add_assoc] using hnext
  simpa using hfrom block.vtx [] rfl

end

end MaryJaneCoin
