import MaryJaneCoin.Lib.OptionLoop
import MaryJaneCoin.Mw.StateDB

/-!
# `LoadFromDB` on any file

A path may hold no database or one that LevelDB cannot open, a read may fail, a
value may be cut off, the iterator may stop with an error.  `LoadFromDB` reads
into the object itself, so the object it leaves is modelled together with how
it returns, member by member.
-/

namespace MaryJaneCoin

open Std Codec Option Or

/-- What `DB::Get` gives for a key. -/
inductive DBRead where
  | ok (strValue : Bytes)
  | notFound
  | error

/-- A database that LevelDB opens. -/
structure OpenedDB where
  content : MWStateDB
  /-- The keys whose reads end in an error. -/
  unreadable : Bytes → Bool
  /-- The entries after which the iterator has an error, if it has one. -/
  scanStops : Option Nat

/-- What stands at `strPath`. -/
inductive DBPath where
  | missing
  | unopenable
  | opened (db : OpenedDB)

/-- How `LoadFromDB` ends: `reserve` may throw. -/
inductive LoadReturn where
  | returned (ok : Bool)
  | thrown
deriving DecidableEq

namespace OpenedDB

def get (db : OpenedDB) (key : Bytes) : DBRead :=
  if db.unreadable key then .error
  else
    match db.content[key]? with
    | some strValue => .ok strValue
    | none => .notFound

/-- The entries of the iterator. -/
def scanned (db : OpenedDB) : List (Bytes × Bytes) :=
  match db.scanStops with
  | none => db.content.toList
  | some n => db.content.toList.take n

end OpenedDB

/-- The element loop of `Unserialize` for vectors: the elements, and what is left
when all of them could be read. -/
def getElements {α : Type} (get : Get α) : Nat → Bytes → List α × Option Bytes
  | 0, bytes => ([], some bytes)
  | n + 1, bytes =>
    match get bytes with
    | none => ([], none)
    | some (first, rest) =>
      (first :: (getElements get n rest).1, (getElements get n rest).2)

/-- How many elements `Unserialize` adds to a vector of hashes at a time. -/
def HASHES_PER_RESIZE : Nat := 5000000 / 32

/-- The vector when the loop fails: it has grown before its elements were read. -/
def grownNodes (nSize : Nat) (read : List uint256) : List uint256 :=
  read ++ List.replicate
    (min ((read.length / HASHES_PER_RESIZE + 1) * HASHES_PER_RESIZE) nSize - read.length) 0

/-- `ss >> mmr`: whether it went through, and the range it leaves. -/
def unserializeMMR (mmr : CMMR uint256) (strValue : Bytes) : Bool × CMMR uint256 :=
  match getCompactSize strValue with
  | none => (false, { mmr with vNodes := [] })
  | some (nSize, bytes) =>
    match getElements getHash nSize bytes with
    | (read, none) => (false, { mmr with vNodes := grownNodes nSize read })
    | (read, some rest) =>
      match getLE 8 rest with
      | none => (false, { mmr with vNodes := read })
      | some (nLeaves, _) => (true, { vNodes := read, nLeaves := nLeaves })

namespace CMWState

/-- A part of `LoadFromDB`: how it returns, or nothing when it goes on, and the
object. -/
abbrev LoadStage := CMWState uint256 → Option LoadReturn × CMWState uint256

variable (db : OpenedDB)

def readVersion : LoadStage := fun state =>
  match db.get [DB_KEY_VERSION] with
  | .ok strValue =>
    match getInt32 strValue with
    | none => (some (.returned false), state)
    | some (nVersion, _) =>
      if nVersion ≠ MWSTATE_DB_VERSION then (some (.returned false), state) else (none, state)
  | .notFound => (none, state)
  | .error => (some (.returned false), state)

/-- The metadata: three reads one after another. -/
def readMeta : LoadStage := fun state =>
  match db.get [DB_KEY_META] with
  | .ok strValue =>
    match getHash strValue with
    | none => (some (.returned false), state)
    | some (hash, bytes) =>
      let state := { state with hashLatestMWBlock := hash }
      match getInt32 bytes with
      | none => (some (.returned false), state)
      | some (nHeight, bytes) =>
        let state := { state with nHeight := nHeight }
        match getInt64 bytes with
        | none => (some (.returned false), state)
        | some (nMWEBSupply, _) => (none, { state with nMWEBSupply := nMWEBSupply })
  | .notFound => (none, state)
  | .error => (some (.returned false), state)

/-- The Merkle mountain range. -/
def readMMR : LoadStage := fun state =>
  match db.get [DB_KEY_MMR] with
  | .ok strValue =>
    (if (unserializeMMR state.mmr strValue).1 then none else some (.returned false),
      { state with mmr := (unserializeMMR state.mmr strValue).2 })
  | .notFound => (none, state)
  | .error => (some (.returned false), state)

/-- One kernel excess. -/
def readKernel (i : Nat) : Option Commitment :=
  match db.get (makeIndexKey DB_PREFIX_KERNEL i) with
  | .ok kernelValue => (getVector 33 kernelValue).map Prod.fst
  | .notFound => none
  | .error => none

/-- The loop over the kernel excesses. -/
def pushKernels : List Nat → LoadStage
  | [], state => (none, state)
  | i :: rest, state =>
    match readKernel db i with
    | none => (some (.returned false), state)
    | some excess =>
      pushKernels rest { state with vKernelExcesses := state.vKernelExcesses ++ [excess] }

/-- The kernel excesses.  An error on reading their count goes unnoticed;
`reserves` says for which counts `reserve` gets its memory. -/
def readKernels (reserves : Nat → Bool) : LoadStage := fun state =>
  match db.get [DB_KEY_KERNEL_COUNT] with
  | .ok strValue =>
    match getLE 8 strValue with
    | none => (some (.returned false), state)
    | some (nKernelCount, _) =>
      if !reserves nKernelCount then (some .thrown, state)
      else pushKernels db (List.range nKernelCount) state
  | .notFound => (none, state)
  | .error => (none, state)

/-- The scan over the whole database. -/
def readEntries : LoadStage := fun state =>
  match OptionLoop.reach loadEntry db.scanned state with
  | (false, state) => (some (.returned false), state)
  | (true, state) => (if db.scanStops.isSome then some (.returned false) else none, state)

/-- The parts in order, up to the first that returns. -/
def runStages : List LoadStage → CMWState uint256 → LoadReturn × CMWState uint256
  | [], state => (.returned true, state)
  | stage :: rest, state =>
    match stage state with
    | (some result, state) => (result, state)
    | (none, state) => runStages rest state

/-- `CMWState::LoadFromDB`, with the object it leaves. -/
def loadFromPath (reserves : Nat → Bool) (strPath : DBPath) (state : CMWState uint256) :
    LoadReturn × CMWState uint256 :=
  match strPath with
  | .missing => (.returned false, state)
  | .unopenable => (.returned false, state)
  | .opened db =>
    runStages [readVersion db, readMeta db, readMMR db, readKernels db reserves, readEntries db]
      state.clearForLoad

/-- A part that goes on where its counterpart gives a state, with that state. -/
def Agrees (stage : LoadStage) (load : Option (CMWState uint256)) (state : CMWState uint256) :
    Prop :=
  (∃ next, stage state = (none, next) ∧ load = some next) ∨
    ∃ result left, result ≠ .returned true ∧ stage state = (some result, left) ∧ load = none

/-- The state of a load that goes through. -/
def finished (ended : LoadReturn × CMWState uint256) : Option (CMWState uint256) :=
  if ended.1 = .returned true then some ended.2 else none

theorem finished_runStages {stage : LoadStage} {load : Option (CMWState uint256)}
    {state : CMWState uint256} (h : Agrees stage load state) (rest : List LoadStage) :
    finished (runStages (stage :: rest) state) = load.bind fun next => finished (runStages rest next) := by
  rw [runStages]
  obtain ⟨next, hstage, hload⟩ | ⟨result, left, hresult, hstage, hload⟩ := h
  · rw [hstage, hload]
    rfl
  · rw [hstage, hload]
    exact if_neg hresult

/-- A file that is read without errors. -/
def healthy (content : MWStateDB) : OpenedDB where
  content := content
  unreadable _ := false
  scanStops := none

variable (content : MWStateDB) (state : CMWState uint256)

theorem get_healthy (key : Bytes) : (healthy content).get key = match content[key]? with
      | some strValue => .ok strValue
      | none => .notFound := rfl

theorem agrees_version :
    Agrees (readVersion (healthy content)) ((loadVersion content).map fun _ => state) state := by
  rw [Agrees, readVersion, get_healthy, loadVersion]
  cases content[[DB_KEY_VERSION]]? with
  | none => exact inl ⟨state, rfl, rfl⟩
  | some strValue =>
    cases hread : getInt32 strValue with
    | none => exact inr ⟨.returned false, state, by decide, by simp only [hread], by simp [hread]⟩
    | some read =>
      by_cases hversion : read.1 = MWSTATE_DB_VERSION
      · exact inl ⟨state, by simp [hread, hversion], by simp [hread, hversion]⟩
      · exact inr ⟨.returned false, state, by decide, by simp [hread, hversion], by simp [hread, hversion]⟩

theorem agrees_meta : Agrees (readMeta (healthy content)) (loadMeta content state) state := by
  rw [Agrees, readMeta, get_healthy, loadMeta]
  cases content[[DB_KEY_META]]? with
  | none => exact inl ⟨state, rfl, rfl⟩
  | some strValue =>
    cases hhash : getHash strValue with
    | none =>
      exact inr ⟨.returned false, _, by decide, by simp only [hhash]; rfl, by simp [hhash]⟩
    | some hash =>
      cases hheight : getInt32 hash.2 with
      | none =>
        exact inr ⟨.returned false, _, by decide, by simp only [hhash, hheight]; rfl,
          by simp [hhash, hheight]⟩
      | some height =>
        cases hsupply : getInt64 height.2 with
        | none =>
          exact inr ⟨.returned false, _, by decide,
            by simp only [hhash, hheight, hsupply]; rfl, by simp [hhash, hheight, hsupply]⟩
        | some supply =>
          exact inl ⟨_, by simp only [hhash, hheight, hsupply]; rfl, by simp [hhash, hheight, hsupply]⟩

theorem getMany_eq {α : Type} (get : Get α) (n : Nat) (bytes : Bytes) : getMany get n bytes =
      (getElements get n bytes).2.map fun rest => ((getElements get n bytes).1, rest) := by
  induction n generalizing bytes with
  | zero => rfl
  | succ n ih =>
    rw [getMany, getElements]
    cases get bytes with
    | none => rfl
    | some first =>
      simp only [bind_some, ih, map_map]
      rfl

theorem getCMMR_eq (mmr : CMMR uint256) (strValue : Bytes) : (getCMMR strValue).map Prod.fst =
      if (unserializeMMR mmr strValue).1 then some (unserializeMMR mmr strValue).2 else none := by
  rw [getCMMR, getVec, unserializeMMR]
  cases getCompactSize strValue with
  | none => rfl
  | some size =>
    simp only [bind_some, getMany_eq]
    cases hread : getElements getHash size.1 size.2 with
    | mk read left =>
      cases left with
      | none => rfl
      | some rest =>
        simp only [map_some, bind_some]
        cases getLE 8 rest with
        | none => rfl
        | some nLeaves => rfl

theorem agrees_mmr : Agrees (readMMR (healthy content)) (loadMMR content state) state := by
  rw [Agrees, readMMR, get_healthy, loadMMR]
  cases content[[DB_KEY_MMR]]? with
  | none => exact inl ⟨state, rfl, rfl⟩
  | some strValue =>
    have hread := getCMMR_eq state.mmr strValue
    cases hok : (unserializeMMR state.mmr strValue).1 with
    | false =>
      rw [hok] at hread
      have hnone : getCMMR strValue = none := by simpa using hread
      exact inr ⟨.returned false, _, by decide, by simp only [hok]; rfl, by simp [hnone]⟩
    | true =>
      rw [hok] at hread
      obtain ⟨read, hsome, hmmr⟩ := map_eq_some_iff.mp hread
      exact inl ⟨_, by simp only [hok]; rfl, by simp [hsome, hmmr]⟩

theorem readKernel_healthy (i : Nat) : readKernel (healthy content) i = loadKernel content i := by
  rw [readKernel, get_healthy, loadKernel]
  cases content[makeIndexKey DB_PREFIX_KERNEL i]? with
  | none => rfl
  | some kernelValue => rfl

theorem agrees_pushKernels (is : List Nat) : Agrees (pushKernels (healthy content) is)
      ((is.mapM (loadKernel content)).map fun excesses =>
        { state with vKernelExcesses := state.vKernelExcesses ++ excesses }) state := by
  induction is generalizing state with
  | nil => exact inl ⟨state, rfl, by simp⟩
  | cons i is ih =>
    rw [Agrees, pushKernels, readKernel_healthy]
    simp only [List.mapM_cons]
    cases hkernel : loadKernel content i with
    | none => exact inr ⟨.returned false, state, by decide, rfl, rfl⟩
    | some excess =>
      obtain ⟨next, hstage, hload⟩ | ⟨result, left, hresult, hstage, hload⟩ :=
        ih { state with vKernelExcesses := state.vKernelExcesses ++ [excess] }
      · refine inl ⟨next, hstage, ?_⟩
        obtain ⟨excesses, hexcesses, rfl⟩ := map_eq_some_iff.mp hload
        simp [hexcesses]
      · refine inr ⟨result, left, hresult, hstage, ?_⟩
        rw [map_eq_none_iff] at hload
        simp [hload]

/-- `reserve` gets its memory for the count of this file, if the kernels are all
there. -/
def Grants (reserves : Nat → Bool) (content : MWStateDB) : Prop :=
  ∀ strValue nKernelCount bytes, content[[DB_KEY_KERNEL_COUNT]]? = some strValue →
    getLE 8 strValue = some (nKernelCount, bytes) → ((List.range nKernelCount).mapM
    (loadKernel content)).isSome = true → reserves nKernelCount = true

theorem agrees_kernels {reserves : Nat → Bool} (hgrants : Grants reserves content)
    (hempty : state.vKernelExcesses = []) :
    Agrees (readKernels (healthy content) reserves) (loadKernels content state) state := by
  rw [Grants] at hgrants
  rw [Agrees, readKernels, get_healthy, loadKernels]
  cases hvalue : content[[DB_KEY_KERNEL_COUNT]]? with
  | none => exact inl ⟨state, rfl, rfl⟩
  | some strValue =>
    cases hcount : getLE 8 strValue with
    | none =>
      exact inr ⟨.returned false, state, by decide, by simp only [hcount], by simp [hcount]⟩
    | some count =>
      have hpush := agrees_pushKernels content state (List.range count.1)
      rw [hempty] at hpush
      simp only [hcount, bind_some]
      cases hreserves : reserves count.1 with
      | true => exact hpush
      | false =>
        -- the throw comes before the missing kernel is found
        cases hkernels : (List.range count.1).mapM (loadKernel content) with
        | none => exact inr ⟨.thrown, state, by decide, rfl, rfl⟩
        | some excesses =>
          have hgranted := hgrants strValue count.1 count.2 hvalue hcount (by rw [hkernels]; rfl)
          rw [hreserves] at hgranted
          cases hgranted

theorem agrees_entries :
    Agrees (readEntries (healthy content)) (content.toList.foldlM loadEntry state) state := by
  rw [OptionLoop.foldlM_eq_reach, Agrees, readEntries]
  simp only [OpenedDB.scanned, healthy]
  cases OptionLoop.reach loadEntry content.toList state with
  | mk ok left =>
    cases ok with
    | false => exact inr ⟨.returned false, left, by decide, rfl, rfl⟩
    | true => exact inl ⟨left, rfl, rfl⟩

variable {content} in
theorem loadMeta_kernels {next : CMWState uint256} (h : loadMeta content state = some next) :
    next.vKernelExcesses = state.vKernelExcesses := by
  simp only [loadMeta] at h
  split at h
  · cases h
    rfl
  · obtain ⟨_, _, h⟩ := bind_eq_some_iff.mp h
    obtain ⟨_, _, h⟩ := bind_eq_some_iff.mp h
    obtain ⟨_, _, rfl⟩ := map_eq_some_iff.mp h
    rfl

variable {content} in
theorem loadMMR_kernels {next : CMWState uint256} (h : loadMMR content state = some next) :
    next.vKernelExcesses = state.vKernelExcesses := by
  simp only [loadMMR] at h
  split at h
  · cases h
    rfl
  · obtain ⟨_, _, rfl⟩ := map_eq_some_iff.mp h
    rfl

/-- **On a file without errors** the load is `loadFromDB`, if `reserve` gets its
memory wherever the kernels are there. -/
theorem finished_loadFromPath {reserves : Nat → Bool} (hgrants : Grants reserves content) :
    finished (loadFromPath reserves (.opened (healthy content)) state) =
      loadFromDB content state := by
  rw [loadFromPath, finished_runStages (agrees_version content _), loadFromDB, bind_map]
  cases loadVersion content with
  | none => rfl
  | some _ =>
    simp only [bind_some, Function.comp_apply]
    rw [finished_runStages (agrees_meta content _)]
    cases hmeta : loadMeta content state.clearForLoad with
    | none => rfl
    | some withMeta =>
      rw [bind_some, bind_some, finished_runStages (agrees_mmr content _)]
      cases hmmr : loadMMR content withMeta with
      | none => rfl
      | some withMMR =>
        have hempty : withMMR.vKernelExcesses = [] := by
          rw [loadMMR_kernels _ hmmr, loadMeta_kernels _ hmeta]
          rfl
        rw [bind_some, bind_some, finished_runStages (agrees_kernels content _ hgrants hempty)]
        cases loadKernels content withMMR with
        | none => rfl
        | some withKernels =>
          rw [bind_some, bind_some, finished_runStages (agrees_entries content _)]
          exact bind_fun_some _

/-- A file with the count of one kernel, and the kernel. -/
def oneKernelContent : MWStateDB :=
  ((∅ : MWStateDB).insert [DB_KEY_KERNEL_COUNT] (putLE 8 1)).insert
    (makeIndexKey DB_PREFIX_KERNEL 0) (sampleCommitment 4).toList

theorem finished_loadFromPath_kernel :
    finished (loadFromPath (fun nKernelCount => decide (nKernelCount ≤ 1000))
        (.opened (healthy oneKernelContent)) (empty ⟨fun _ => 0, 0⟩)) =
      loadFromDB oneKernelContent (empty ⟨fun _ => 0, 0⟩) := by
  apply finished_loadFromPath
  intro strValue nKernelCount bytes hvalue hcount _
  have hread : oneKernelContent[[DB_KEY_KERNEL_COUNT]]? = some (putLE 8 1) := by decide +kernel
  rw [hread] at hvalue
  cases hvalue
  cases hcount
  rfl

end CMWState

end MaryJaneCoin
