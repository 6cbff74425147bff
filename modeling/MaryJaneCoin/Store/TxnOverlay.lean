import MaryJaneCoin.Mw.StateDB

/-!
# Transactions of `txdb-leveldb.h`

Between `TxnBegin` and `TxnCommit` writes and deletions wait in a batch, which every
look-up scans before it asks the database.  `Read` takes a scanned deletion for an
answer; `Exists` does not, and asks the database all the same.
-/

namespace MaryJaneCoin

open Std Codec WriteBatch List

/-- `CTxDB` with serialized keys and values. -/
structure LevelTxDB where
  pdb : ExtTreeMap Bytes Bytes
  activeBatch : Option (List (BatchOp Bytes Bytes))

structure CBatchScanner where
  foundEntry : Bool := false
  deleted : Bool := false
  foundValue : Bytes := []

/-- The handlers `Put` and `Delete`. -/
def CBatchScanner.handle (needle : Bytes) (scanner : CBatchScanner) :
    BatchOp Bytes Bytes → CBatchScanner
  | .put key value =>
    if key = needle then
      { scanner with foundEntry := true, deleted := false, foundValue := value }
    else scanner
  | .delete key =>
    if key = needle then { scanner with foundEntry := true, deleted := true } else scanner

def scanBatch (needle : Bytes) (batch : List (BatchOp Bytes Bytes)) : CBatchScanner :=
  batch.foldl (CBatchScanner.handle needle) {}

namespace LevelTxDB

variable (db : LevelTxDB)

/-- `TxnBegin`; none is the failed assertion. -/
def txnBegin : Option LevelTxDB :=
  if db.activeBatch.isNone then some { db with activeBatch := some [] } else none

def txnCommit : Option LevelTxDB :=
  db.activeBatch.map fun batch => { pdb := applyBatch db.pdb batch, activeBatch := none }

def txnAbort : LevelTxDB := { db with activeBatch := none }

/-- The string that `Read` deserializes, if it finds one. -/
def readString (key : Bytes) : Option Bytes :=
  match db.activeBatch with
  | none => db.pdb[key]?
  | some batch =>
    let scanner := scanBatch key batch
    if scanner.deleted then none
    else if scanner.foundEntry then some scanner.foundValue
    else db.pdb[key]?

/-- `Read`; none is a false return, also where the string cannot be deserialized. -/
def read {T : Type} (deserialize : Bytes → Option T) (key : Bytes) : Option T :=
  (db.readString key).bind deserialize

/-- `Write`, which returns true. -/
def write (key value : Bytes) : LevelTxDB :=
  match db.activeBatch with
  | none => { db with pdb := db.pdb.insert key value }
  | some batch => { db with activeBatch := some (batch ++ [.put key value]) }

/-- `Erase`, which returns true. -/
def erase (key : Bytes) : LevelTxDB :=
  match db.activeBatch with
  | none => { db with pdb := db.pdb.erase key }
  | some batch => { db with activeBatch := some (batch ++ [.delete key]) }

def exists' (key : Bytes) : Bool :=
  (db.activeBatch.any fun batch =>
    let scanner := scanBatch key batch
    scanner.foundEntry && !scanner.deleted) || (db.pdb[key]?).isSome

end LevelTxDB

/-- A call in a transaction.  A `Read` comes with its deserializer. -/
inductive TxDBCall (T : Type) where
  | write (key value : Bytes)
  | erase (key : Bytes)
  | read (deserialize : Bytes → Option T) (key : Bytes)
  | exists (key : Bytes)

/-- What a call answers. -/
inductive TxDBAnswer (T : Type) where
  | done
  | value (value : Option T)
  | found (found : Bool)
deriving DecidableEq

variable {T : Type}

/-- What a call waits for, if it writes. -/
def TxDBCall.pending : TxDBCall T → List (BatchOp Bytes Bytes)
  | .write key value => [.put key value]
  | .erase key => [.delete key]
  | .read _ _ => []
  | .exists _ => []

namespace LevelTxDB

def step (db : LevelTxDB) : TxDBCall T → LevelTxDB × TxDBAnswer T
  | .write key value => (db.write key value, .done)
  | .erase key => (db.erase key, .done)
  | .read deserialize key => (db, .value (db.read deserialize key))
  | .exists key => (db, .found (db.exists' key))

/-- A sequence of calls: the database, and the answers in order. -/
def run : LevelTxDB → List (TxDBCall T) → LevelTxDB × List (TxDBAnswer T)
  | db, [] => (db, [])
  | db, call :: calls =>
    let (db, answer) := db.step call
    let (db, answers) := db.run calls
    (db, answer :: answers)

end LevelTxDB

/-- **The plain map**: every write and erasure is performed at once. -/
def plainStep (m : ExtTreeMap Bytes Bytes) : TxDBCall T → ExtTreeMap Bytes Bytes × TxDBAnswer T
  | .write key value => (m.insert key value, .done)
  | .erase key => (m.erase key, .done)
  | .read deserialize key => (m, .value ((m[key]?).bind deserialize))
  | .exists key => (m, .found (m[key]?).isSome)

def plainRun : ExtTreeMap Bytes Bytes → List (TxDBCall T) → ExtTreeMap Bytes Bytes × List (TxDBAnswer T)
  | m, [] => (m, [])
  | m, call :: calls =>
    let (m, answer) := plainStep m call
    let (m, answers) := plainRun m calls
    (m, answer :: answers)

/-- `Exists` is asked for a key that is stored and that the last of these calls to
write or erase it has erased. -/
def AsksErased (stored : ExtTreeMap Bytes Bytes) (before : List (TxDBCall T)) : TxDBCall T → Prop
  | .exists key => key ∈ stored ∧ lastOp key (before.flatMap TxDBCall.pending) = some none
  | _ => False

/-- **What a scan finds** is the last operation on the key. -/
theorem scanBatch_spec (needle : Bytes) (batch : List (BatchOp Bytes Bytes)) : lastOp needle batch =
      (if (scanBatch needle batch).foundEntry then
        some (if (scanBatch needle batch).deleted then none else some (scanBatch needle batch).foundValue)
      else none) ∧
    ((scanBatch needle batch).foundEntry = false → (scanBatch needle batch).deleted = false) := by
  induction batch using List.reverseRecOn with
  | nil => exact ⟨rfl, fun _ => rfl⟩
  | append_singleton batch op ih =>
    have hscan : scanBatch needle (batch ++ [op]) = (scanBatch needle batch).handle needle op := by
      simp [scanBatch]
    rw [hscan, lastOp_concat]
    cases op with
    | put key value =>
      by_cases hk : key = needle
      · simp [CBatchScanner.handle, BatchOp.effect, hk]
      · simpa [CBatchScanner.handle, BatchOp.effect, hk] using ih
    | delete key =>
      by_cases hk : key = needle
      · simp [CBatchScanner.handle, BatchOp.effect, hk]
      · simpa [CBatchScanner.handle, BatchOp.effect, hk] using ih

/-- A database in a transaction, and the map it stands for. -/
structure Overlays (db : LevelTxDB) (stored m : ExtTreeMap Bytes Bytes)
    (before : List (TxDBCall T)) : Prop where
  pdb : db.pdb = stored
  activeBatch : db.activeBatch = some (before.flatMap TxDBCall.pending)
  plain : m = applyBatch stored (before.flatMap TxDBCall.pending)

variable {db : LevelTxDB} {stored m : ExtTreeMap Bytes Bytes} {before : List (TxDBCall T)}

theorem Overlays.readString_eq (h : Overlays db stored m before) (key : Bytes) :
    db.readString key = m[key]? := by
  obtain ⟨hlast, hclean⟩ := scanBatch_spec key (before.flatMap TxDBCall.pending)
  rw [LevelTxDB.readString, h.activeBatch, h.pdb, h.plain, getElem?_applyBatch, hlast]
  by_cases hfound : (scanBatch key (before.flatMap TxDBCall.pending)).foundEntry = true
  · by_cases hdeleted : (scanBatch key (before.flatMap TxDBCall.pending)).deleted = true
    · simp [hfound, hdeleted]
    · simp [hfound, hdeleted]
  · simp [hfound, hclean (by simpa using hfound)]

/-- **`Exists` answers as the plain map** unless it is asked for a stored key that is
erased. -/
theorem Overlays.exists_eq_iff (h : Overlays db stored m before) (key : Bytes) :
    db.exists' key = (m[key]?).isSome ↔
      ¬ (key ∈ stored ∧ lastOp key (before.flatMap TxDBCall.pending) = some none) := by
  obtain ⟨hlast, hclean⟩ := scanBatch_spec key (before.flatMap TxDBCall.pending)
  rw [LevelTxDB.exists', h.activeBatch, h.pdb, h.plain, getElem?_applyBatch, hlast,
    FinMap.mem_iff_exists, ← Option.isSome_iff_exists]
  by_cases hfound : (scanBatch key (before.flatMap TxDBCall.pending)).foundEntry = true
  · by_cases hdeleted : (scanBatch key (before.flatMap TxDBCall.pending)).deleted = true
    · simp [hfound, hdeleted, -ExtTreeMap.contains_iff_mem]
    · simp [hfound, hdeleted]
  · simp [hfound]

/-- **Step lemma.** -/
theorem Overlays.step (h : Overlays db stored m before) (call : TxDBCall T) :
    Overlays (db.step call).1 stored (plainStep m call).1 (before ++ [call]) ∧
      ((db.step call).2 = (plainStep m call).2 ↔ ¬ AsksErased stored before call) := by
  have hbatch : (before ++ [call]).flatMap TxDBCall.pending =
      before.flatMap TxDBCall.pending ++ call.pending := by
    simp
  cases call with
  | write key value =>
    refine ⟨⟨?_, ?_, ?_⟩, by simp [LevelTxDB.step, plainStep, AsksErased]⟩
    · simp [LevelTxDB.step, LevelTxDB.write, h.activeBatch, h.pdb]
    · simp [LevelTxDB.step, LevelTxDB.write, h.activeBatch, TxDBCall.pending]
    · rw [hbatch, plainStep, h.plain]
      simp [applyBatch, TxDBCall.pending, BatchOp.apply]
  | erase key =>
    refine ⟨⟨?_, ?_, ?_⟩, by simp [LevelTxDB.step, plainStep, AsksErased]⟩
    · simp [LevelTxDB.step, LevelTxDB.erase, h.activeBatch, h.pdb]
    · simp [LevelTxDB.step, LevelTxDB.erase, h.activeBatch, TxDBCall.pending]
    · rw [hbatch, plainStep, h.plain]
      simp [applyBatch, TxDBCall.pending, BatchOp.apply]
  | read deserialize key =>
    refine ⟨⟨h.pdb, ?_, ?_⟩, ?_⟩
    · rw [hbatch, TxDBCall.pending, append_nil]
      exact h.activeBatch
    · rw [hbatch, TxDBCall.pending, append_nil]
      exact h.plain
    · simp [LevelTxDB.step, plainStep, AsksErased, LevelTxDB.read, h.readString_eq]
  | «exists» key =>
    refine ⟨⟨h.pdb, ?_, ?_⟩, ?_⟩
    · rw [hbatch, TxDBCall.pending, append_nil]
      exact h.activeBatch
    · rw [hbatch, TxDBCall.pending, append_nil]
      exact h.plain
    · rw [AsksErased, ← h.exists_eq_iff key]
      simp [LevelTxDB.step, plainStep]

/-- **Run lemma**: the map stood for is the plain one after all calls, and all answers
are right exactly if no call asks for an erased key. -/
theorem Overlays.run (h : Overlays db stored m before) (calls : List (TxDBCall T)) :
    Overlays (db.run calls).1 stored (plainRun m calls).1 (before ++ calls) ∧
      ((db.run calls).2 = (plainRun m calls).2 ↔ ∀ pre call post, calls = pre ++ call :: post →
        ¬ AsksErased stored (before ++ pre) call) := by
  induction calls generalizing db m before with
  | nil =>
    rw [append_nil]
    exact ⟨h, by simp [LevelTxDB.run, plainRun]⟩
  | cons call calls ih =>
    obtain ⟨hstep, hanswer⟩ := h.step call
    obtain ⟨hrun, hanswers⟩ := ih hstep
    refine ⟨by simpa [LevelTxDB.run, plainRun] using hrun, ?_⟩
    simp only [LevelTxDB.run, plainRun, List.cons.injEq, hanswer, hanswers]
    constructor
    · rintro ⟨hfirst, hrest⟩ pre other post hsplit
      cases pre with
      | nil =>
        cases hsplit
        rwa [append_nil]
      | cons first pre =>
        cases hsplit
        have hother := hrest pre other post rfl
        rwa [append_assoc, singleton_append] at hother
    · intro hall
      refine ⟨?_, fun pre other post hsplit => ?_⟩
      · have hfirst := hall [] call calls rfl
        rwa [append_nil] at hfirst
      · have hother := hall (call :: pre) other post (by rw [hsplit, cons_append])
        rwa [append_assoc, singleton_append]

namespace LevelTxDB

/-- The answers of a transaction are those of the plain map, committing stores that
map and aborting leaves the stored one. -/
def BehavesPlain (stored : ExtTreeMap Bytes Bytes) (calls : List (TxDBCall T)) : Prop :=
  ∃ begun, txnBegin { pdb := stored, activeBatch := none } = some begun ∧
    (begun.run calls).2 = (plainRun stored calls).2 ∧
    (begun.run calls).1.txnCommit =
      some { pdb := (plainRun stored calls).1, activeBatch := none } ∧
    (begun.run calls).1.txnAbort = { pdb := stored, activeBatch := none }

/-- **When a transaction behaves as a plain map**: exactly if no `Exists` asks for a
stored key that an earlier call of the transaction erased and none wrote again. -/
theorem behavesPlain_iff (stored : ExtTreeMap Bytes Bytes) (calls : List (TxDBCall T)) :
    BehavesPlain stored calls ↔
      ∀ pre call post, calls = pre ++ call :: post → ¬ AsksErased stored pre call := by
  have hbegin : Overlays { pdb := stored, activeBatch := some [] } stored stored
      ([] : List (TxDBCall T)) := ⟨rfl, rfl, rfl⟩
  obtain ⟨hrun, hanswers⟩ := hbegin.run calls
  constructor
  · rintro ⟨begun, hbegun, hsame, _⟩
    cases hbegun
    exact hanswers.mp hsame
  · intro hall
    refine ⟨_, rfl, hanswers.mpr hall, ?_, ?_⟩
    · rw [txnCommit, hrun.activeBatch, Option.map_some, hrun.pdb, hrun.plain]
    · rw [txnAbort, hrun.pdb]

/-- **An erased key that still exists**: `Read` does not find it any more, and
`Exists` does. -/
theorem erased_key_exists : ¬ BehavesPlain ((∅ : ExtTreeMap Bytes Bytes).insert [1] [2])
        [TxDBCall.erase (T := Bytes) [1], .read some [1], .exists [1]] := by
  rintro ⟨begun, hbegun, hsame, _⟩
  cases hbegun
  revert hsame
  decide +kernel

end LevelTxDB

end MaryJaneCoin
