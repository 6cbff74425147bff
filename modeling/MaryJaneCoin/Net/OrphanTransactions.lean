import MaryJaneCoin.Chain.MemPoolRun
import MaryJaneCoin.Wallet.CreateTransaction

/-!
# Orphan transactions

The handler for `tx`.  A transaction whose inputs are missing is kept until its parents
arrive, and tried again behind each parent that the memory pool accepts.  The memory pool
is that of the node and may change in any way between two messages.
-/

namespace MaryJaneCoin

open Std List CTxMemPool ExtTreeMap FinMap Node

def MAX_ORPHAN_TRANSACTIONS : Nat := MAX_BLOCK_SIZE / 100

/-- What the handler asks of the wallets and of the relay. -/
inductive TxCall (H : Type) where
  /-- `SyncWithWallets(tx, NULL, true)`. -/
  | syncWithWallets (tx : CTransaction H)
  /-- The choice of the Dandelion phase and `RelayTransaction`. -/
  | relayTransaction (tx : CTransaction H) (hash : H)

/-- The memory pool and the orphan transactions. -/
structure TxNode (H : Type) [Ord H] where
  mempool : CTxMemPool H
  mapOrphanTransactions : ExtTreeMap H (CTransaction H)
  mapOrphanTransactionsByPrev : ExtTreeMap H (ExtTreeSet H)

/-- The surroundings while a message is handled: the chain, what the relay policy says to the
transaction itself and to the orphans behind a parent, the clock, and random hashes. -/
structure TxEnv (H : Type) [Ord H] where
  node : Node H
  env : Env H
  direct : RelayPolicy H
  behind : H → RelayPolicy H
  nAdjustedTime : UInt32
  randHash : Nat → H

/-- The loop over the orphans: the node, the work still queued, the orphans to erase, and the
calls made so far. -/
structure OrphanWork (H : Type) [Ord H] where
  node : TxNode H
  vWorkQueue : List H
  vEraseQueue : List H
  calls : List (TxCall H)

section

variable {H : Type} [Ord H] [TransOrd H] [DecidableEq H] (c : Consensus H)

/-- Whether `accept` comes to `FetchInputs` and finds no previous transaction for some input. -/
def CTxMemPool.missesInputs (pool : CTxMemPool H) (s : Node H) (env : Env H)
    (policy : RelayPolicy H) (tx : CTransaction H) : Bool :=
  let hash := tx.getHash c.toSha256
  CTxMemPool.checkRules c s policy tx && !pool.mapTx.contains hash &&
    (s.txdb.readTxIndex hash).isNone &&
    !(tx.vin.any fun txin => pool.mapNextTx.contains txin.prevout) &&
    (tx.vin.foldlM (pool.fetchInput s env) ∅).isNone

namespace TxNode

/-- The orphans that wait for a transaction. -/
def orphansUnder (s : TxNode H) (hashPrev : H) : ExtTreeSet H :=
  s.mapOrphanTransactionsByPrev[hashPrev]?.getD ∅

/-- An entry of `mapOrphanTransactionsByPrev`. -/
def addRef (hash : H) (byPrev : ExtTreeMap H (ExtTreeSet H)) (txin : CTxIn H) :
    ExtTreeMap H (ExtTreeSet H) :=
  byPrev.insert txin.prevout.hash ((byPrev[txin.prevout.hash]?.getD ∅).insert hash)

def addOrphanTx (s : TxNode H) (tx : CTransaction H) : TxNode H :=
  let hash := tx.getHash c.toSha256
  if hash ∈ s.mapOrphanTransactions then s
  else if tx.serializeSize > 5000 then s
  else
    { s with
      mapOrphanTransactions := s.mapOrphanTransactions.insert hash tx
      mapOrphanTransactionsByPrev := tx.vin.foldl (addRef hash) s.mapOrphanTransactionsByPrev }

/-- The entry is taken out, and the set with it when it is empty then. -/
def eraseRef (hash : H) (byPrev : ExtTreeMap H (ExtTreeSet H)) (txin : CTxIn H) :
    ExtTreeMap H (ExtTreeSet H) :=
  let orphans := (byPrev[txin.prevout.hash]?.getD ∅).erase hash
  if orphans.isEmpty then byPrev.erase txin.prevout.hash
  else byPrev.insert txin.prevout.hash orphans

def eraseOrphanTx (s : TxNode H) (hash : H) : TxNode H :=
  match s.mapOrphanTransactions[hash]? with
  | none => s
  | some tx =>
    { s with
      mapOrphanTransactions := s.mapOrphanTransactions.erase hash
      mapOrphanTransactionsByPrev := tx.vin.foldl (eraseRef hash) s.mapOrphanTransactionsByPrev }

/-- `lower_bound` of a random hash, or the first orphan. -/
def evicted (s : TxNode H) (randomhash : H) : Option H :=
  let keys := s.mapOrphanTransactions.keys
  (keys.find? fun hash => compare hash randomhash != .lt) <|> keys.head?

/-- `LimitOrphanTxSize`; every round erases one orphan. -/
def limitOrphanTxSize (nMaxOrphans : Nat) (randHash : Nat → H) : Nat → TxNode H → TxNode H
  | 0, s => s
  | rounds + 1, s =>
    if s.mapOrphanTransactions.size ≤ nMaxOrphans then s
    else
      match s.evicted (randHash rounds) with
      | none => s
      | some hash => limitOrphanTxSize nMaxOrphans randHash rounds (s.eraseOrphanTx hash)

variable (env : TxEnv H)

/-- One round of the inner loop.  The wallets are told of the message's transaction `tx`. -/
def tryOrphan (tx : CTransaction H) (hashPrev : H) (work : OrphanWork H) (orphanTxHash : H) :
    OrphanWork H :=
  let s := work.node
  let orphanTx := s.mapOrphanTransactions[orphanTxHash]?.getD (CTransaction.new env.nAdjustedTime)
  let accepted := s.mempool.accept c env.node env.env (env.behind hashPrev) orphanTx true
  let node :=
    { s with
      mempool := accepted.2
      mapOrphanTransactions := s.mapOrphanTransactions.insertIfNew orphanTxHash orphanTx }
  if accepted.1 then
    { node := node
      vWorkQueue := work.vWorkQueue ++ [orphanTxHash]
      vEraseQueue := work.vEraseQueue ++ [orphanTxHash]
      calls := work.calls ++ [.syncWithWallets tx, .relayTransaction orphanTx orphanTxHash] }
  else if !s.mempool.missesInputs c env.node env.env (env.behind hashPrev) orphanTx then
    { work with node := node, vEraseQueue := work.vEraseQueue ++ [orphanTxHash] }
  else { work with node := node }

/-- The inner loop over the orphans behind a transaction. -/
def tryOrphans (tx : CTransaction H) (hashPrev : H) (work : OrphanWork H) : OrphanWork H :=
  let node :=
    { work.node with
      mapOrphanTransactionsByPrev := work.node.mapOrphanTransactionsByPrev.insertIfNew hashPrev ∅ }
  (node.orphansUnder hashPrev).toList.foldl (tryOrphan c env tx hashPrev) { work with node := node }

omit [TransOrd H] [DecidableEq H] in
/-- The work behind the first hash of the queue. -/
def next (work : OrphanWork H) (queue : List H) : OrphanWork H := { work with vWorkQueue := queue }

/-- The loop over the work queue; `none` when the fuel does not suffice. -/
def workLoop (tx : CTransaction H) : Nat → OrphanWork H → Option (OrphanWork H)
  | fuel, work =>
    match work.vWorkQueue, fuel with
    | [], _ => some work
    | _ :: _, 0 => none
    | hashPrev :: queue, fuel + 1 =>
      workLoop tx fuel (tryOrphans c env tx hashPrev (next work queue))

/-- `ProcessMessage`, of a `tx`: the calls it makes, and the node behind. -/
def processTx (s : TxNode H) (tx : CTransaction H) : Option (List (TxCall H) × TxNode H) :=
  let hash := tx.getHash c.toSha256
  let accepted := s.mempool.accept c env.node env.env env.direct tx true
  if accepted.1 then
    (workLoop c env tx (s.mapOrphanTransactions.size + 1)
      { node := { s with mempool := accepted.2 }
        vWorkQueue := [hash]
        vEraseQueue := [hash]
        calls := [.syncWithWallets tx, .relayTransaction tx hash] }).map fun done =>
          (done.calls, done.vEraseQueue.foldl eraseOrphanTx done.node)
  else if s.mempool.missesInputs c env.node env.env env.direct tx then
    let added := s.addOrphanTx c tx
    some ([], limitOrphanTxSize MAX_ORPHAN_TRANSACTIONS env.randHash
      added.mapOrphanTransactions.size added)
  else some ([], s)

end TxNode

end

namespace TxNode

variable {H : Type} [Ord H] [TransOrd H] [DecidableEq H] [LawfulEqOrd H] {c : Consensus H}
  {s : TxNode H} {env : TxEnv H} {tx orphanTx : CTransaction H} {hash hashPrev : H}

/-- The orphans are kept under their hashes, and every reference leads to one of them. -/
structure Inv (c : Consensus H) (s : TxNode H) : Prop where
  owner : ∀ (hash : H) (orphanTx : CTransaction H),
    s.mapOrphanTransactions[hash]? = some orphanTx → orphanTx.getHash c.toSha256 = hash
  refs : ∀ hashPrev, ∀ hash ∈ s.orphansUnder hashPrev,
    ∃ orphanTx, s.mapOrphanTransactions[hash]? = some orphanTx ∧
      hashPrev ∈ orphanTx.vin.map fun txin => txin.prevout.hash

section

omit [DecidableEq H]

theorem mem_addRef (byPrev : ExtTreeMap H (ExtTreeSet H)) (txin : CTxIn H) (orphan : H) :
    orphan ∈ (addRef hash byPrev txin)[hashPrev]?.getD ∅ ↔
      orphan ∈ byPrev[hashPrev]?.getD ∅ ∨ orphan = hash ∧ hashPrev = txin.prevout.hash := by
  rw [addRef]
  by_cases hkey : txin.prevout.hash = hashPrev
  · have hcompare : compare hash orphan = .eq ↔ hash = orphan := LawfulEqCmp.compare_eq_iff_eq
    rw [hkey, ExtTreeMap.getElem?_insert_self, Option.getD_some, ExtTreeSet.mem_insert, hcompare]
    grind
  · have hother : ¬(orphan = hash ∧ hashPrev = txin.prevout.hash) := fun h => hkey h.2.symm
    rw [getElem?_insert_ne _ _ hkey, or_iff_left hother]

/-- The orphan is entered behind each transaction that it spends from. -/
theorem mem_addRefs (byPrev : ExtTreeMap H (ExtTreeSet H)) (vin : List (CTxIn H)) (orphan : H) :
    orphan ∈ (vin.foldl (addRef hash) byPrev)[hashPrev]?.getD ∅ ↔ orphan ∈ byPrev[hashPrev]?.getD ∅ ∨
        orphan = hash ∧ hashPrev ∈ vin.map fun txin => txin.prevout.hash := by
  induction vin generalizing byPrev with
  | nil => simp
  | cons txin vin ih =>
    rw [foldl_cons, ih, mem_addRef, map_cons, List.mem_cons, or_assoc, and_or_left]

/-- One entry is taken out, whether or not its set goes with it. -/
theorem mem_eraseRef (byPrev : ExtTreeMap H (ExtTreeSet H)) (txin : CTxIn H) (orphan : H) :
    orphan ∈ (eraseRef hash byPrev txin)[hashPrev]?.getD ∅ ↔
      orphan ∈ byPrev[hashPrev]?.getD ∅ ∧ ¬(orphan = hash ∧ hashPrev = txin.prevout.hash) := by
  rw [eraseRef]
  by_cases hkey : txin.prevout.hash = hashPrev
  · have herase : orphan ∈ (byPrev[hashPrev]?.getD ∅).erase hash ↔
        orphan ∈ byPrev[hashPrev]?.getD ∅ ∧ ¬(orphan = hash ∧ hashPrev = txin.prevout.hash) := by
      have hcompare : compare hash orphan = .eq ↔ hash = orphan := LawfulEqCmp.compare_eq_iff_eq
      rw [ExtTreeSet.mem_erase, ne_eq, hcompare]
      grind
    rw [← herase, hkey]
    split
    · next hempty =>
        rw [ExtTreeMap.getElem?_erase_self, ExtTreeSet.isEmpty_iff.mp hempty]
        rfl
    · rw [ExtTreeMap.getElem?_insert_self]
      rfl
  · have hother : ¬(orphan = hash ∧ hashPrev = txin.prevout.hash) := fun h => hkey h.2.symm
    split
    · rw [getElem?_erase_ne _ hkey, and_iff_left hother]
    · rw [getElem?_insert_ne _ _ hkey, and_iff_left hother]

/-- The orphan is taken out behind each transaction that it spends from. -/
theorem mem_eraseRefs (byPrev : ExtTreeMap H (ExtTreeSet H)) (vin : List (CTxIn H)) (orphan : H) :
    orphan ∈ (vin.foldl (eraseRef hash) byPrev)[hashPrev]?.getD ∅ ↔ orphan ∈ byPrev[hashPrev]?.getD ∅ ∧
        ¬(orphan = hash ∧ hashPrev ∈ vin.map fun txin => txin.prevout.hash) := by
  induction vin generalizing byPrev with
  | nil => simp
  | cons txin vin ih =>
    rw [foldl_cons, ih, mem_eraseRef, map_cons, List.mem_cons, and_assoc, and_or_left, not_or]

end

theorem Inv.addOrphanTx (h : Inv c s) (tx : CTransaction H) : Inv c (s.addOrphanTx c tx) := by
  rw [TxNode.addOrphanTx]
  split
  · exact h
  · next hnew =>
      split
      · exact h
      · refine ⟨fun hash orphanTx hlook => ?_, fun hashPrev hash hmem => ?_⟩
        · by_cases hkey : tx.getHash c.toSha256 = hash
          · rw [hkey, ExtTreeMap.getElem?_insert_self] at hlook
            exact Option.some.inj hlook ▸ hkey
          · rw [getElem?_insert_ne _ _ hkey] at hlook
            exact h.owner hash orphanTx hlook
        · rcases (mem_addRefs _ _ _).mp hmem with hold | ⟨rfl, hprev⟩
          · obtain ⟨orphanTx, hlook, hprev⟩ := h.refs hashPrev hash hold
            have hkey : tx.getHash c.toSha256 ≠ hash := fun heq =>
              hnew (heq ▸ (mem_iff_exists _ _).mpr ⟨orphanTx, hlook⟩)
            exact ⟨orphanTx, (getElem?_insert_ne _ _ hkey).trans hlook, hprev⟩
          · exact ⟨tx, ExtTreeMap.getElem?_insert_self, hprev⟩

theorem Inv.eraseOrphanTx (h : Inv c s) (erased : H) : Inv c (s.eraseOrphanTx erased) := by
  rw [TxNode.eraseOrphanTx]
  split
  · exact h
  · next tx htx =>
      have hkeep : ∀ {hash : H} {orphanTx : CTransaction H},
          (s.mapOrphanTransactions.erase erased)[hash]? = some orphanTx →
            s.mapOrphanTransactions[hash]? = some orphanTx := by
        intro hash orphanTx hlook
        by_cases hkey : erased = hash
        · rw [hkey, ExtTreeMap.getElem?_erase_self] at hlook
          cases hlook
        · rwa [getElem?_erase_ne _ hkey] at hlook
      refine ⟨fun hash orphanTx hlook => h.owner hash orphanTx (hkeep hlook), fun hashPrev hash hmem => ?_⟩
      obtain ⟨hold, hother⟩ := (mem_eraseRefs _ _ _).mp hmem
      obtain ⟨orphanTx, hlook, hprev⟩ := h.refs hashPrev hash hold
      have hkey : erased ≠ hash := by
        intro heq
        rw [← heq, htx] at hlook
        exact hother ⟨heq.symm, Option.some.inj hlook ▸ hprev⟩
      exact ⟨orphanTx, (getElem?_erase_ne _ hkey).trans hlook, hprev⟩

omit [DecidableEq H] [LawfulEqOrd H] in
/-- What every `EraseOrphanTx` keeps is kept by `LimitOrphanTxSize`. -/
theorem limitOrphanTxSize_keeps {P : TxNode H → Prop} (h : P s)
    (herase : ∀ (s : TxNode H) (hash : H), P s → P (s.eraseOrphanTx hash)) (nMaxOrphans : Nat)
    (randHash : Nat → H) (rounds : Nat) : P (limitOrphanTxSize nMaxOrphans randHash rounds s) := by
  induction rounds generalizing s with
  | zero => exact h
  | succ rounds ih =>
    rw [TxNode.limitOrphanTxSize]
    split
    · exact h
    · split
      · exact h
      · exact ih (herase _ _ h)

theorem Inv.limitOrphanTxSize (h : Inv c s) (nMaxOrphans : Nat) (randHash : Nat → H)
    (rounds : Nat) : Inv c (limitOrphanTxSize nMaxOrphans randHash rounds s) :=
  limitOrphanTxSize_keeps h (fun _ hash h => h.eraseOrphanTx hash) nMaxOrphans randHash rounds

section

omit [DecidableEq H] [LawfulEqOrd H]

theorem mempool_eraseOrphanTx (hash : H) : (s.eraseOrphanTx hash).mempool = s.mempool := by
  rw [TxNode.eraseOrphanTx]
  split <;> rfl

theorem mempool_limitOrphanTxSize (nMaxOrphans : Nat) (randHash : Nat → H) (rounds : Nat) :
    (limitOrphanTxSize nMaxOrphans randHash rounds s).mempool = s.mempool :=
  limitOrphanTxSize_keeps (P := fun t => t.mempool = s.mempool) rfl
    (fun _ hash h => (mempool_eraseOrphanTx hash).trans h) nMaxOrphans randHash rounds

theorem mempool_addOrphanTx (tx : CTransaction H) : (s.addOrphanTx c tx).mempool = s.mempool := by
  rw [TxNode.addOrphanTx]
  split
  · rfl
  · split <;> rfl

end

omit [DecidableEq H] in
theorem insertIfNew_of_mem {β : Type} {m : ExtTreeMap H β} {k : H} (v : β) (hk : k ∈ m) :
    m.insertIfNew k v = m := by
  apply ExtTreeMap.ext_getElem?
  intro a
  rw [ExtTreeMap.getElem?_insertIfNew, if_neg fun h => h.2 hk]

/-- The orphans that are not in the memory pool. -/
def outside (s : TxNode H) : List H :=
  s.mapOrphanTransactions.keys.filter fun hash => !s.mempool.mapTx.contains hash

/-- What the rounds of the loop keep: the orphans stay, transactions only join the memory
pool, the wallets are told of the message's transaction alone, and every orphan that is
queued has left those outside of the pool. -/
structure Continues (c : Consensus H) (tx : CTransaction H) (work work' : OrphanWork H) :
    Prop where
  orphans : work'.node.mapOrphanTransactions = work.node.mapOrphanTransactions
  under : ∀ hashPrev, work'.node.orphansUnder hashPrev = work.node.orphansUnder hashPrev
  pool : ∀ hash ∈ work.node.mempool.mapTx, hash ∈ work'.node.mempool.mapTx
  keyed : ∀ (hash : H) (joined : CTransaction H), work'.node.mempool.mapTx[hash]? = some joined →
    work.node.mempool.mapTx[hash]? = some joined ∨ joined.getHash c.toSha256 = hash
  told : ∀ told, .syncWithWallets told ∈ work'.calls →
    .syncWithWallets told ∈ work.calls ∨ told = tx
  queue : work'.vWorkQueue.length + work'.node.outside.length ≤
    work.vWorkQueue.length + work.node.outside.length

variable {work work' work'' : OrphanWork H}

section

omit [DecidableEq H] [LawfulEqOrd H]

theorem Continues.refl (tx : CTransaction H) (work : OrphanWork H) : Continues c tx work work :=
  ⟨rfl, fun _ => rfl, fun _ h => h, fun _ _ h => .inl h, fun _ h => .inl h, le_rfl⟩

theorem Continues.trans (h : Continues c tx work work') (h' : Continues c tx work' work'') :
    Continues c tx work work'' where
  orphans := h'.orphans.trans h.orphans
  under hashPrev := (h'.under hashPrev).trans (h.under hashPrev)
  pool hash hmem := h'.pool hash (h.pool hash hmem)
  keyed hash joined hlook := (h'.keyed hash joined hlook).elim (h.keyed hash joined) .inr
  told told hmem := (h'.told told hmem).elim (h.told told) .inr
  queue := h'.queue.trans h.queue

theorem Inv.continues (hinv : Inv c work.node) (h : Continues c tx work work') :
    Inv c work'.node where
  owner hash orphanTx hlook := hinv.owner hash orphanTx (h.orphans ▸ hlook)
  refs hashPrev hash hmem := by
    rw [h.orphans]
    exact hinv.refs hashPrev hash (h.under hashPrev ▸ hmem)

end

variable (env tx hashPrev) in
/-- **One round of the inner loop** on an orphan: it is refused and nothing but the queue of
orphans to erase may change, or it joins the pool and is queued. -/
theorem tryOrphan_cases (hinv : Inv c work.node)
    (hlook : work.node.mapOrphanTransactions[hash]? = some orphanTx) :
    ((work.node.mempool.accept c env.node env.env (env.behind hashPrev) orphanTx true).1 = false ∧
      (tryOrphan c env tx hashPrev work hash).node = work.node ∧
      (tryOrphan c env tx hashPrev work hash).vWorkQueue = work.vWorkQueue ∧
      (tryOrphan c env tx hashPrev work hash).calls = work.calls) ∨
    ((work.node.mempool.accept c env.node env.env (env.behind hashPrev) orphanTx true).1 = true ∧
      hash ∉ work.node.mempool.mapTx ∧
      (tryOrphan c env tx hashPrev work hash).node =
        { work.node with mempool := work.node.mempool.addUnchecked hash orphanTx } ∧
      (tryOrphan c env tx hashPrev work hash).vWorkQueue = work.vWorkQueue ++ [hash] ∧
      (tryOrphan c env tx hashPrev work hash).calls =
        work.calls ++ [.syncWithWallets tx, .relayTransaction orphanTx hash]) := by
  have hmem : hash ∈ work.node.mapOrphanTransactions := (mem_iff_exists _ _).mpr ⟨orphanTx, hlook⟩
  have hkept := insertIfNew_of_mem orphanTx hmem
  rcases accept_cases c work.node.mempool env.node env.env (env.behind hashPrev)
    orphanTx true with hrefused | ⟨haccepted, -, hnew, -⟩
  · refine .inl ⟨by rw [hrefused], ?_⟩
    simp only [tryOrphan, hlook, Option.getD_some, hrefused, hkept]
    split
    · contradiction
    · split
      · exact ⟨rfl, rfl, rfl⟩
      · exact ⟨rfl, rfl, rfl⟩
  · rw [hinv.owner hash orphanTx hlook] at haccepted hnew
    refine .inr ⟨by rw [haccepted], hnew, ?_⟩
    simp only [tryOrphan, hlook, Option.getD_some, haccepted, hkept, if_true, and_self]

variable (orphanTx) in
omit [DecidableEq H] in
theorem outside_addUnchecked (hmem : hash ∈ s.mapOrphanTransactions)
    (hnew : hash ∉ s.mempool.mapTx) :
    ({ s with mempool := s.mempool.addUnchecked hash orphanTx } : TxNode H).outside.length <
      s.outside.length := by
  have hfilter : ({ s with mempool := s.mempool.addUnchecked hash orphanTx } : TxNode H).outside =
      s.outside.filter fun key => !(s.mempool.addUnchecked hash orphanTx).mapTx.contains key := by
    rw [outside, outside, filter_filter]
    refine filter_congr fun key _ => ?_
    rw [addUnchecked, ExtTreeMap.contains_insert]
    cases s.mempool.mapTx.contains key <;> simp
  rw [hfilter]
  refine length_filter_lt_length_iff_exists.mpr ⟨hash, ?_, ?_⟩
  · refine mem_filter.mpr ⟨mem_keys.mpr hmem, ?_⟩
    rw [Bool.not_eq_true', ← Bool.not_eq_true, ExtTreeMap.contains_iff_mem]
    exact hnew
  · simp [addUnchecked]

variable (env tx hashPrev) in
/-- Every round of the inner loop goes on from the one before. -/
theorem continues_tryOrphan (hinv : Inv c work.node)
    (hlook : work.node.mapOrphanTransactions[hash]? = some orphanTx) :
    Continues c tx work (tryOrphan c env tx hashPrev work hash) := by
  rcases tryOrphan_cases env tx hashPrev hinv hlook with
    ⟨-, hnode, hqueue, hcalls⟩ | ⟨-, hnew, hnode, hqueue, hcalls⟩
  · exact ⟨by rw [hnode], fun _ => by rw [hnode], fun _ h => by rw [hnode]; exact h,
      fun _ _ h => .inl (hnode ▸ h), fun _ h => .inl (hcalls ▸ h), by rw [hnode, hqueue]⟩
  · have hmem : hash ∈ work.node.mapOrphanTransactions := (mem_iff_exists _ _).mpr ⟨orphanTx, hlook⟩
    have houtside := outside_addUnchecked orphanTx hmem hnew
    refine ⟨by rw [hnode], fun _ => by rw [hnode]; rfl, fun key h => ?_, fun key joined h => ?_,
      fun told h => ?_, ?_⟩
    · rw [hnode]
      exact mem_insert.mpr (.inr h)
    · rw [hnode] at h
      by_cases hkey : hash = key
      · rw [addUnchecked, hkey, ExtTreeMap.getElem?_insert_self] at h
        exact .inr (Option.some.inj h ▸ hkey ▸ hinv.owner hash orphanTx hlook)
      · rw [addUnchecked, getElem?_insert_ne _ _ hkey] at h
        exact .inl h
    · rw [hcalls] at h
      simpa [or_assoc] using h
    · rw [hnode, hqueue, length_append]
      dsimp only at houtside ⊢
      have hone : [hash].length = 1 := rfl
      omega

/-- The inner loop, over orphans that are there. -/
theorem continues_foldl (hinv : Inv c work.node) {orphans : List H}
    (hlook : ∀ hash ∈ orphans, hash ∈ work.node.mapOrphanTransactions) :
    Continues c tx work (orphans.foldl (tryOrphan c env tx hashPrev) work) := by
  induction orphans generalizing work with
  | nil => exact .refl tx work
  | cons hash orphans ih =>
    obtain ⟨orphanTx, horphan⟩ := (mem_iff_exists _ _).mp (hlook hash mem_cons_self)
    have hstep := continues_tryOrphan env tx hashPrev hinv horphan
    refine hstep.trans (ih (hinv.continues hstep) fun other hother => ?_)
    rw [hstep.orphans]
    exact hlook other (mem_cons_of_mem _ hother)

variable (env tx hashPrev) in
/-- **The inner loop decides at its first acceptance.**  When every orphan is refused the pool
and the work queue stay; otherwise some orphan that was outside of the pool is in it. -/
theorem foldl_refused_or_joins (hinv : Inv c work.node) {orphans : List H}
    (hlook : ∀ hash ∈ orphans, hash ∈ work.node.mapOrphanTransactions) :
    ((∀ hash ∈ orphans, ∀ orphanTx, work.node.mapOrphanTransactions[hash]? = some orphanTx →
        (work.node.mempool.accept c env.node env.env (env.behind hashPrev) orphanTx true).1 =
      false) ∧ (orphans.foldl (tryOrphan c env tx hashPrev) work).node = work.node ∧
      (orphans.foldl (tryOrphan c env tx hashPrev) work).vWorkQueue = work.vWorkQueue ∧
      (orphans.foldl (tryOrphan c env tx hashPrev) work).calls = work.calls) ∨
    ((∃ hash ∈ orphans, ∃ orphanTx, work.node.mapOrphanTransactions[hash]? = some orphanTx ∧
        (work.node.mempool.accept c env.node env.env (env.behind hashPrev) orphanTx true).1 = true) ∧
      ∃ hash, hash ∉ work.node.mempool.mapTx ∧
        hash ∈ (orphans.foldl (tryOrphan c env tx hashPrev) work).node.mempool.mapTx) := by
  induction orphans generalizing work with
  | nil => exact .inl ⟨nofun, rfl, rfl, rfl⟩
  | cons hash orphans ih =>
    obtain ⟨orphanTx, horphan⟩ := (mem_iff_exists _ _).mp (hlook hash mem_cons_self)
    have hstep := continues_tryOrphan env tx hashPrev hinv horphan
    have hlater : ∀ other ∈ orphans,
        other ∈ (tryOrphan c env tx hashPrev work hash).node.mapOrphanTransactions := by
      intro other hother
      rw [hstep.orphans]
      exact hlook other (mem_cons_of_mem _ hother)
    rw [foldl_cons]
    rcases tryOrphan_cases env tx hashPrev hinv horphan with
      ⟨hrefused, hnode, hqueue, hcalls⟩ | ⟨haccepted, hnew, hnode, -, -⟩
    · have hrest := ih (hinv.continues hstep) hlater
      rw [hnode, hqueue, hcalls] at hrest
      refine hrest.imp ?_ ?_
      · intro ⟨hall, hsame⟩
        refine ⟨fun other hother otherTx hother' => ?_, hsame⟩
        rcases List.mem_cons.mp hother with rfl | htail
        · rw [horphan] at hother'
          exact Option.some.inj hother' ▸ hrefused
        · exact hall other htail otherTx hother'
      · intro ⟨⟨other, hother, hfound⟩, hjoins⟩
        exact ⟨⟨other, mem_cons_of_mem _ hother, hfound⟩, hjoins⟩
    · refine .inr ⟨⟨hash, mem_cons_self, orphanTx, horphan, haccepted⟩, hash, hnew, ?_⟩
      refine (continues_foldl (hinv.continues hstep) hlater).pool hash ?_
      rw [hnode]
      exact mem_insert_self

omit [DecidableEq H] [LawfulEqOrd H] in
theorem orphansUnder_insertIfNew (key : H) :
    ({ s with mapOrphanTransactionsByPrev :=
        s.mapOrphanTransactionsByPrev.insertIfNew key ∅ } : TxNode H).orphansUnder hashPrev =
      s.orphansUnder hashPrev := by
  simp only [orphansUnder, ExtTreeMap.getElem?_insertIfNew]
  split
  · next hnew =>
      have hout : hashPrev ∉ s.mapOrphanTransactionsByPrev := by
        rw [← mem_congr hnew.1]
        exact hnew.2
      rw [ExtTreeMap.getElem?_eq_none hout]
      rfl
  · rfl

/-- The node when the inner loop starts behind a transaction. -/
def atPrev (s : TxNode H) (hashPrev : H) : TxNode H :=
  { s with mapOrphanTransactionsByPrev := s.mapOrphanTransactionsByPrev.insertIfNew hashPrev ∅ }

variable (c tx) in
omit [DecidableEq H] [LawfulEqOrd H] in
theorem continues_atPrev (work : OrphanWork H) (hashPrev : H) :
    Continues c tx work { work with node := work.node.atPrev hashPrev } :=
  ⟨rfl, fun _ => orphansUnder_insertIfNew hashPrev, fun _ h => h, fun _ _ h => .inl h,
    fun _ h => .inl h, le_rfl⟩

omit [DecidableEq H] in
/-- The orphans that the inner loop visits are there. -/
theorem mem_of_orphansUnder (hinv : Inv c s) : ∀ hash ∈ ((s.atPrev hashPrev).orphansUnder hashPrev).toList,
      hash ∈ (s.atPrev hashPrev).mapOrphanTransactions := by
  intro hash hmem
  rw [ExtTreeSet.mem_toList, atPrev, orphansUnder_insertIfNew] at hmem
  obtain ⟨orphanTx, hlook, -⟩ := hinv.refs hashPrev hash hmem
  exact (mem_iff_exists _ _).mpr ⟨orphanTx, hlook⟩

variable (env tx) in
theorem continues_tryOrphans (hinv : Inv c work.node) (hashPrev : H) :
    Continues c tx work (tryOrphans c env tx hashPrev work) :=
  have hatPrev := continues_atPrev c tx work hashPrev
  hatPrev.trans (continues_foldl (hinv.continues hatPrev) (mem_of_orphansUnder hinv))

omit [LawfulEqOrd H] in
theorem workLoop_nil (fuel : Nat) (hqueue : work.vWorkQueue = []) :
    workLoop c env tx fuel work = some work := by
  rw [workLoop.eq_def]
  simp only [hqueue]

omit [LawfulEqOrd H] in
theorem workLoop_cons (fuel : Nat) {queue : List H} (hqueue : work.vWorkQueue = hashPrev :: queue) :
    workLoop c env tx (fuel + 1) work =
      workLoop c env tx fuel (tryOrphans c env tx hashPrev (next work queue)) := by
  rw [workLoop.eq_def]
  simp only [hqueue]

variable (env tx) in
/-- **The loop over the work queue ends**, since every orphan is queued once. -/
theorem workLoop_some (hinv : Inv c work.node) {fuel : Nat}
    (hfuel : work.vWorkQueue.length + work.node.outside.length ≤ fuel) :
    ∃ done, workLoop c env tx fuel work = some done ∧ Continues c tx work done := by
  induction fuel generalizing work with
  | zero =>
    have hempty : work.vWorkQueue = [] := eq_nil_of_length_eq_zero (by omega)
    exact ⟨work, workLoop_nil 0 hempty, .refl tx work⟩
  | succ fuel ih =>
    cases hqueue : work.vWorkQueue with
    | nil => exact ⟨work, workLoop_nil _ hqueue, .refl tx work⟩
    | cons hashPrev queue =>
      have hlength : queue.length ≤ work.vWorkQueue.length := by
        rw [hqueue]
        exact Nat.le_succ _
      have hpop : Continues c tx work (next work queue) :=
        ⟨rfl, fun _ => rfl, fun _ h => h, fun _ _ h => .inl h, fun _ h => .inl h,
          Nat.add_le_add_right hlength _⟩
      have hstep := continues_tryOrphans env tx (hinv.continues hpop) hashPrev
      have hpopped : queue.length + work.node.outside.length ≤ fuel := by
        rw [hqueue, length_cons] at hfuel
        omega
      obtain ⟨done, hdone, hrest⟩ := ih (hinv.continues (hpop.trans hstep))
        (hstep.queue.trans hpopped)
      exact ⟨done, (workLoop_cons fuel hqueue).trans hdone, (hpop.trans hstep).trans hrest⟩

/-- Every transaction that joined the memory pool was passed to the wallets. -/
def Heard (before : TxNode H) (calls : List (TxCall H)) (after : TxNode H) : Prop :=
  ∀ (hash : H) (joined : CTransaction H), after.mempool.mapTx[hash]? = some joined →
    hash ∉ before.mempool.mapTx → .syncWithWallets joined ∈ calls

/-- The transaction is refused, or no orphan that waits for it can join the pool behind it. -/
def OrphansRefused (c : Consensus H) (env : TxEnv H) (s : TxNode H) (tx : CTransaction H) : Prop :=
  (s.mempool.accept c env.node env.env env.direct tx true).1 = true →
    ∀ hash ∈ s.orphansUnder (tx.getHash c.toSha256), ∀ orphanTx,
      s.mapOrphanTransactions[hash]? = some orphanTx →
        ((s.mempool.addUnchecked (tx.getHash c.toSha256) tx).accept c env.node env.env
          (env.behind (tx.getHash c.toSha256)) orphanTx true).1 = false

/-- The loop that an accepted transaction starts. -/
def startWork (c : Consensus H) (s : TxNode H) (tx : CTransaction H) : OrphanWork H :=
  let hash := tx.getHash c.toSha256
  { node := { s with mempool := s.mempool.addUnchecked hash tx }
    vWorkQueue := [hash]
    vEraseQueue := [hash]
    calls := [.syncWithWallets tx, .relayTransaction tx hash] }

/-- The first round of the loop, behind the transaction itself. -/
def firstRound (c : Consensus H) (env : TxEnv H) (s : TxNode H) (tx : CTransaction H) :
    OrphanWork H :=
  tryOrphans c env tx (tx.getHash c.toSha256) (next (startWork c s tx) [])

section

omit [DecidableEq H] [LawfulEqOrd H]

theorem inv_startWork (hinv : Inv c s) (tx : CTransaction H) : Inv c (startWork c s tx).node :=
  ⟨hinv.owner, hinv.refs⟩

theorem length_outside_le (s : TxNode H) : s.outside.length ≤ s.mapOrphanTransactions.size := by
  rw [← length_keys]
  exact length_filter_le _ _

end

theorem firstRound_cases (hinv : Inv c s)
    (haccepted : (s.mempool.accept c env.node env.env env.direct tx true).1 = true) :
    (OrphansRefused c env s tx ∧ (firstRound c env s tx).node.mempool = (startWork c s tx).node.mempool ∧
      (firstRound c env s tx).vWorkQueue = [] ∧ (firstRound c env s tx).calls = (startWork c s tx).calls) ∨
    (¬OrphansRefused c env s tx ∧ ∃ hash, hash ∉ (startWork c s tx).node.mempool.mapTx ∧
      hash ∈ (firstRound c env s tx).node.mempool.mapTx) := by
  have hatPrev := continues_atPrev c tx (next (startWork c s tx) [])
    (tx.getHash c.toSha256)
  have hstart : Inv c (next (startWork c s tx) []).node := inv_startWork hinv tx
  have hmem : ∀ hash, hash ∈ (((startWork c s tx).node.atPrev (tx.getHash c.toSha256)).orphansUnder
      (tx.getHash c.toSha256)).toList ↔ hash ∈ s.orphansUnder (tx.getHash c.toSha256) := by
    intro hash
    rw [ExtTreeSet.mem_toList, atPrev, orphansUnder_insertIfNew]
    rfl
  rcases foldl_refused_or_joins env tx (tx.getHash c.toSha256)
    (hstart.continues hatPrev) (mem_of_orphansUnder hstart) with
    ⟨hrefused, hnode, hqueue, hcalls⟩ | ⟨⟨hash, hwaits, orphanTx, hlook, horphan⟩, hjoins⟩
  · have hpool : (firstRound c env s tx).node = (startWork c s tx).node.atPrev _ := hnode
    refine .inl ⟨fun _ hash hwaits orphanTx => hrefused hash ((hmem hash).mpr hwaits) orphanTx,
      ?_, hqueue, hcalls⟩
    rw [hpool]
    rfl
  · refine .inr ⟨fun hall => ?_, hjoins⟩
    have hno := hall haccepted hash ((hmem hash).mp hwaits) orphanTx hlook
    exact Bool.false_ne_true (hno.symm.trans horphan)

/-- **What the wallets hear behind an accepted transaction.**  They hear of it, and of no
orphan. -/
theorem heard_workLoop_iff (hinv : Inv c s) {done : OrphanWork H}
    (haccepted : (s.mempool.accept c env.node env.env env.direct tx true).1 = true)
    (hdone : workLoop c env tx (s.mapOrphanTransactions.size + 1) (startWork c s tx) = some done) :
    Heard s done.calls done.node ↔ OrphansRefused c env s tx := by
  have hstart : Inv c (next (startWork c s tx) []).node := inv_startWork hinv tx
  have hround : Continues c tx (next (startWork c s tx) []) (firstRound c env s tx) :=
    continues_tryOrphans env tx hstart (tx.getHash c.toSha256)
  rw [workLoop_cons s.mapOrphanTransactions.size rfl] at hdone
  rcases firstRound_cases hinv haccepted with
    ⟨hrefused, hpool, hqueue, hcalls⟩ | ⟨hnot, hash, hout, hin⟩
  · obtain rfl : firstRound c env s tx = done := Option.some.inj ((workLoop_nil _ hqueue).symm.trans hdone)
    refine iff_of_true (fun hash joined hlook hnew => ?_) hrefused
    rw [hpool] at hlook
    rw [hcalls]
    by_cases hkey : tx.getHash c.toSha256 = hash
    · have hsame : joined = tx := by
        rw [startWork, addUnchecked, hkey, ExtTreeMap.getElem?_insert_self] at hlook
        exact (Option.some.inj hlook).symm
      rw [hsame]
      exact mem_cons_self
    · rw [startWork, addUnchecked, getElem?_insert_ne _ _ hkey] at hlook
      exact absurd ((mem_iff_exists _ _).mpr ⟨joined, hlook⟩) hnew
  · refine iff_of_false (fun hheard => ?_) hnot
    have hfuel : (next (startWork c s tx) []).vWorkQueue.length +
        (next (startWork c s tx) []).node.outside.length ≤ s.mapOrphanTransactions.size := by
      rw [show (next (startWork c s tx) []).vWorkQueue.length = 0 from rfl, Nat.zero_add]
      exact length_outside_le (startWork c s tx).node
    obtain ⟨done', hdone', hrest⟩ := workLoop_some env tx
      (hstart.continues hround) (hround.queue.trans hfuel)
    obtain rfl : done' = done := Option.some.inj (hdone'.symm.trans hdone)
    have hall := hround.trans hrest
    obtain ⟨joined, hlook⟩ := (mem_iff_exists _ _).mp (hrest.pool hash hin)
    have hbefore : hash ∉ s.mempool.mapTx := fun hmem =>
      hout (mem_insert.mpr (.inr hmem))
    -- the wallets were told of the message's transaction, which is not the orphan
    have hsame : joined = tx := by
      rcases hall.told joined (hheard hash joined hlook hbefore) with hstart | hsame
      · rcases List.mem_cons.mp hstart with heq | hnone
        · exact TxCall.syncWithWallets.inj heq
        · rcases List.mem_cons.mp hnone with heq | hnone
          · cases heq
          · cases hnone
      · exact hsame
    rcases hall.keyed hash joined hlook with hold | hkey
    · exact hout ((mem_iff_exists _ _).mpr ⟨joined, hold⟩)
    · apply hout
      rw [← hkey, hsame]
      exact mem_insert_self

omit [DecidableEq H] [LawfulEqOrd H] in
theorem mempool_eraseAll (erased : List H) : (erased.foldl eraseOrphanTx s).mempool = s.mempool := by
  induction erased generalizing s with
  | nil => rfl
  | cons hash erased ih => rw [foldl_cons, ih, mempool_eraseOrphanTx]

theorem Inv.eraseAll (h : Inv c s) (erased : List H) : Inv c (erased.foldl TxNode.eraseOrphanTx s) := by
  induction erased generalizing s with
  | nil => exact h
  | cons hash erased ih => exact ih (h.eraseOrphanTx hash)

omit [DecidableEq H] [LawfulEqOrd H] in
theorem heard_of_mempool_eq {t : TxNode H} (calls : List (TxCall H))
    (hpool : t.mempool = s.mempool) : Heard s calls t := by
  intro hash joined hlook hnew
  rw [hpool] at hlook
  have hmem := mem_iff_isSome_getElem?.mpr (Option.isSome_of_eq_some hlook)
  exact absurd hmem hnew

/-- **The handler** ends, keeps the orphan maps in step, and tells the wallets of everything
that joins the pool exactly when no orphan joins it. -/
theorem processTx_some (hinv : Inv c s) (env : TxEnv H) (tx : CTransaction H) :
    ∃ calls t, s.processTx c env tx = some (calls, t) ∧ Inv c t ∧
      (Heard s calls t ↔ OrphansRefused c env s tx) := by
  rw [processTx]
  rcases accept_cases c s.mempool env.node env.env env.direct tx true with
    hrefused | ⟨haccepted, -, -, -⟩
  · have hno : OrphansRefused c env s tx := fun haccepted => by
      rw [hrefused] at haccepted
      exact absurd haccepted Bool.false_ne_true
    simp only [hrefused, Bool.false_eq_true, if_false]
    split
    · refine ⟨_, _, rfl, (hinv.addOrphanTx tx).limitOrphanTxSize _ _ _, iff_of_true ?_ hno⟩
      exact heard_of_mempool_eq _
        ((mempool_limitOrphanTxSize _ _ _).trans (mempool_addOrphanTx tx))
    · exact ⟨_, _, rfl, hinv, iff_of_true (heard_of_mempool_eq _ rfl) hno⟩
  · have hflag : (s.mempool.accept c env.node env.env env.direct tx true).1 = true := by
      rw [haccepted]
    have hstart := inv_startWork hinv tx
    have hfuel : (startWork c s tx).vWorkQueue.length + (startWork c s tx).node.outside.length ≤
        s.mapOrphanTransactions.size + 1 := by
      have houtside := length_outside_le (startWork c s tx).node
      have hone : (startWork c s tx).vWorkQueue.length = 1 := rfl
      have horphans : (startWork c s tx).node.mapOrphanTransactions = s.mapOrphanTransactions := rfl
      rw [horphans] at houtside
      omega
    obtain ⟨done, hdone, hcontinues⟩ := workLoop_some env tx hstart hfuel
    have hheard := heard_workLoop_iff hinv hflag hdone
    have hloop := hdone
    rw [startWork] at hloop
    simp only [haccepted, if_true, hloop, Option.map_some]
    refine ⟨_, _, rfl, (hstart.continues hcontinues).eraseAll _, ?_⟩
    rw [← hheard, Heard, Heard, mempool_eraseAll]

/-- A handled message. -/
structure TxStep (H : Type) [Ord H] where
  env : TxEnv H
  before : TxNode H
  tx : CTransaction H
  calls : List (TxCall H)
  after : TxNode H

/-- Runs of `tx` messages from a node without orphans, last message first.  Between two
messages the memory pool may change in any way. -/
inductive TxRun (c : Consensus H) : List (TxStep H) → TxNode H → Prop
  | start (mempool : CTxMemPool H) : TxRun c [] ⟨mempool, ∅, ∅⟩
  | message {steps : List (TxStep H)} {s t : TxNode H} {calls : List (TxCall H)} (env : TxEnv H)
      (tx : CTransaction H) (hrun : TxRun c steps s)
      (hhandled : s.processTx c env tx = some (calls, t)) :
      TxRun c (⟨env, s, tx, calls, t⟩ :: steps) t
  | pool {steps : List (TxStep H)} {s : TxNode H} (mempool : CTxMemPool H)
      (hrun : TxRun c steps s) : TxRun c steps { s with mempool := mempool }

theorem TxRun.inv {steps : List (TxStep H)} (h : TxRun c steps s) : Inv c s := by
  induction h with
  | start mempool =>
    refine ⟨fun hash tx hlook => ?_, fun hashPrev hash hmem => ?_⟩
    · simp at hlook
    · simp [orphansUnder] at hmem
  | message env tx hrun hhandled ih =>
    obtain ⟨calls, t, hsome, hinv, -⟩ := processTx_some ih env tx
    obtain rfl := (Prod.mk.inj (Option.some.inj (hhandled.symm.trans hsome))).2
    exact hinv
  | pool mempool hrun ih => exact ⟨ih.owner, ih.refs⟩

/-- **What the wallets hear.**  In every run the handler ends on every message, and it passes
everything that joins the memory pool to the wallets exactly on those messages where no
orphan joins the pool behind the transaction. -/
theorem wallets_hear_iff {steps : List (TxStep H)} (hrun : TxRun c steps s) :
    (∀ env tx, (s.processTx c env tx).isSome) ∧ ∀ step ∈ steps,
      Heard step.before step.calls step.after ↔ OrphansRefused c step.env step.before step.tx := by
  refine ⟨fun env tx => ?_, ?_⟩
  · obtain ⟨calls, t, hsome, -⟩ := processTx_some hrun.inv env tx
    rw [hsome]
    rfl
  · induction hrun with
    | start mempool => exact nofun
    | message env tx hrun hhandled ih =>
      intro step hstep
      rcases List.mem_cons.mp hstep with rfl | hold
      · obtain ⟨calls, t, hsome, -, hiff⟩ := processTx_some hrun.inv env tx
        obtain ⟨rfl, rfl⟩ := Prod.mk.inj (Option.some.inj (hhandled.symm.trans hsome))
        exact hiff
      · exact ih step hold
    | pool mempool hrun ih => exact ih

/-- The surroundings of a node that has the funded chain. -/
def fundedEnv : TxEnv (List Nat) where
  node := fundedNode
  env := sampleEnv 0
  direct := sampleRelay
  behind _ := sampleRelay
  nAdjustedTime := 12
  randHash _ := []

/-- A node without transactions. -/
def emptyNode : TxNode (List Nat) := ⟨.empty, ∅, ∅⟩

/-- The node after the child has come, and after the parent has. -/
def childFirst : Option (List (TxCall (List Nat)) × TxNode (List Nat)) :=
  emptyNode.processTx sampleConsensus fundedEnv followingTx

def parentSecond : Option (List (TxCall (List Nat)) × TxNode (List Nat)) :=
  childFirst.bind fun handled => handled.2.processTx sampleConsensus fundedEnv pooledTx

/-- Whether the wallets were told of a transaction. -/
def tells (tx : CTransaction (List Nat)) : TxCall (List Nat) → Bool
  | .syncWithWallets told => told == tx
  | .relayTransaction _ _ => false

theorem any_tells {tx : CTransaction (List Nat)} {calls : List (TxCall (List Nat))}
    (h : .syncWithWallets tx ∈ calls) : calls.any (tells tx) = true :=
  any_eq_true.mpr ⟨_, h, beq_self_eq_true tx⟩

theorem parentSecond_run : childFirst.any (fun handled => handled.2.mempool.mapTx.isEmpty) ∧
      parentSecond.any (fun handled =>
        decide (handled.2.mempool.mapTx[followingTx.getHash transparent]? = some followingTx) &&
          !handled.1.any (tells followingTx)) := by
  decide +kernel

/-- **An orphan joins unheard.**  The child comes first and is kept, the parent is accepted and
the child behind it; the wallets are not told of the child. -/
theorem orphan_joins_unheard : ∃ steps s, TxRun sampleConsensus steps s ∧
      ∃ step ∈ steps, ¬Heard step.before step.calls step.after := by
  obtain ⟨hfirst, hsecond⟩ := parentSecond_run
  obtain ⟨⟨calls, s⟩, hchild, hempty⟩ := (Option.any_eq_true _ _).mp hfirst
  obtain ⟨⟨calls', t⟩, hparent, hjoined⟩ := (Option.any_eq_true _ _).mp hsecond
  obtain ⟨hmember, huntold⟩ := Bool.and_eq_true_iff.mp hjoined
  have hhandled : s.processTx sampleConsensus fundedEnv pooledTx = some (calls', t) := by
    rw [parentSecond, hchild] at hparent
    exact hparent
  refine ⟨_, t, .message fundedEnv pooledTx (.message fundedEnv followingTx (.start .empty)
    hchild) hhandled, _, mem_cons_self, fun hheard => ?_⟩
  have hout : followingTx.getHash transparent ∉ s.mempool.mapTx := by
    rw [isEmpty_iff.mp hempty]
    exact not_mem_empty
  have htold := hheard (followingTx.getHash transparent) followingTx (of_decide_eq_true hmember) hout
  have hnone : calls'.any (tells followingTx) = false := Bool.not_eq_true' _ |>.mp huntold
  exact Bool.false_ne_true (hnone.symm.trans (any_tells htold))

/-- The child and then its parent, which it joins. -/
theorem wallets_hear_iff_child : ∃ steps s, TxRun sampleConsensus steps s ∧ steps.length = 2 ∧
      (∀ env tx, (s.processTx sampleConsensus env tx).isSome) ∧
      ∀ step ∈ steps, Heard step.before step.calls step.after ↔
        OrphansRefused sampleConsensus step.env step.before step.tx := by
  obtain ⟨⟨calls, s⟩, hchild, -⟩ := (Option.any_eq_true _ _).mp parentSecond_run.1
  obtain ⟨⟨calls', t⟩, hparent, -⟩ := (Option.any_eq_true _ _).mp parentSecond_run.2
  rw [parentSecond, hchild] at hparent
  have hrun : TxRun sampleConsensus [⟨fundedEnv, s, pooledTx, calls', t⟩,
      ⟨fundedEnv, emptyNode, followingTx, calls, s⟩] t :=
    .message fundedEnv pooledTx (.message fundedEnv followingTx (.start .empty) hchild) hparent
  exact ⟨_, t, hrun, rfl, wallets_hear_iff hrun⟩

end TxNode

end MaryJaneCoin
