import MaryJaneCoin.Mw.Serialize

/-!
# Saving and loading the Mimblewimble state

`SaveToDB` writes one key per element in a single batch, `LoadFromDB` reads
the fixed keys and then scans the whole database.  LevelDB is a map from byte
strings to byte strings in which a batch is written at once.

Nothing is ever deleted.  So the database holds the last state together with
the leavings of the earlier ones, and what `LoadFromDB` returns is the last
state only if it covers them (`loadFromDB_saveAll`).
-/

namespace MaryJaneCoin

open Std Codec FinMap

/-- A LevelDB database, which compares keys byte by byte. -/
abbrev MWStateDB := ExtTreeMap Bytes Bytes

/-- The key prefixes, each the byte of its letter. -/
def DB_PREFIX_OUTPUT : UInt8 := 111
def DB_PREFIX_MMRINDEX : UInt8 := 105
def DB_PREFIX_KERNEL : UInt8 := 107
def DB_PREFIX_SPENT : UInt8 := 112
def DB_KEY_MMR : UInt8 := 109
def DB_KEY_META : UInt8 := 115
def DB_KEY_VERSION : UInt8 := 118
def DB_KEY_KERNEL_COUNT : UInt8 := 99

def MWSTATE_DB_VERSION : Int32 := 1

/-- `MakeKey` of a commitment. -/
def makeKey (letter : UInt8) (commit : Commitment) : Bytes := letter :: commit.toList

/-- `MakeKey` of an index. -/
def makeIndexKey (letter : UInt8) (nIndex : Nat) : Bytes := letter :: putLE 8 nIndex

namespace CMWState

/-- The metadata record. -/
def putMeta (state : CMWState uint256) : Bytes :=
  putHash state.hashLatestMWBlock ++ (putInt32 state.nHeight ++ putInt64 state.nMWEBSupply)

def indexEntry (state : CMWState uint256) (commit : Commitment) : List (Bytes × Bytes) :=
  match state.mapMMRIndex[commit]? with
  | some nIdx => [(makeKey DB_PREFIX_MMRINDEX commit, putUInt64 nIdx)]
  | none => []

/-- The batch of `SaveToDB`, in order. -/
def batch (state : CMWState uint256) : List (Bytes × Bytes) :=
  [([DB_KEY_VERSION], putInt32 MWSTATE_DB_VERSION), ([DB_KEY_META], state.putMeta),
    ([DB_KEY_MMR], putCMMR state.mmr)] ++
  state.mapOutputs.toList.flatMap (fun entry =>
    (makeKey DB_PREFIX_OUTPUT entry.1, putCMWOutput entry.2) :: state.indexEntry entry.1) ++
  state.setSpent.toList.flatMap (fun commit =>
    (makeKey DB_PREFIX_SPENT commit, []) :: state.indexEntry commit) ++
  [([DB_KEY_KERNEL_COUNT], putLE 8 state.vKernelExcesses.length)] ++
  state.vKernelExcesses.mapIdx (fun i excess => (makeIndexKey DB_PREFIX_KERNEL i, excess.toList))

def saveToDB (db : MWStateDB) (state : CMWState uint256) : MWStateDB :=
  state.batch.foldl (fun db entry => db.insert entry.1 entry.2) db

/-- What `LoadFromDB` clears before it reads: everything but the undo
records. -/
def clearForLoad (state : CMWState uint256) : CMWState uint256 :=
  { state with
    mapOutputs := ∅
    setSpent := ∅
    mmr := CMMR.empty
    mapMMRIndex := ∅
    vKernelExcesses := []
    hashLatestMWBlock := 0
    nHeight := 0
    nMWEBSupply := 0 }

/-- The version section of `LoadFromDB`; a database without one passes. -/
def loadVersion (db : MWStateDB) : Option Unit :=
  match db[[DB_KEY_VERSION]]? with
  | none => some ()
  | some value => (getInt32 value).bind fun read =>
    if read.1 = MWSTATE_DB_VERSION then some () else none

/-- The metadata section of `LoadFromDB`. -/
def loadMeta (db : MWStateDB) (state : CMWState uint256) : Option (CMWState uint256) :=
  match db[[DB_KEY_META]]? with
  | none => some state
  | some value =>
    (getHash value).bind fun hash =>
    (getInt32 hash.2).bind fun height =>
    (getInt64 height.2).map fun supply =>
      { state with
        hashLatestMWBlock := hash.1
        nHeight := height.1
        nMWEBSupply := supply.1 }

/-- The MMR section of `LoadFromDB`. -/
def loadMMR (db : MWStateDB) (state : CMWState uint256) : Option (CMWState uint256) :=
  match db[[DB_KEY_MMR]]? with
  | none => some state
  | some value => (getCMMR value).map fun mmr => { state with mmr := mmr.1 }

/-- One kernel excess. -/
def loadKernel (db : MWStateDB) (i : Nat) : Option Commitment :=
  (db[makeIndexKey DB_PREFIX_KERNEL i]?).bind fun value => (getVector 33 value).map Prod.fst

/-- The kernel section of `LoadFromDB`. -/
def loadKernels (db : MWStateDB) (state : CMWState uint256) : Option (CMWState uint256) :=
  match db[[DB_KEY_KERNEL_COUNT]]? with
  | none => some state
  | some value =>
    (getLE 8 value).bind fun nKernelCount =>
    ((List.range nKernelCount.1).mapM (loadKernel db)).map fun excesses =>
      { state with vKernelExcesses := excesses }

/-- One round of the scan of `LoadFromDB`. -/
def loadEntry (state : CMWState uint256) (entry : Bytes × Bytes) : Option (CMWState uint256) :=
  match entry.1 with
  | [] => some state
  | cPrefix :: strKey =>
    if h : strKey.length = 33 then
      let commit : Commitment := ⟨strKey.toArray, by simp [h]⟩
      if cPrefix = DB_PREFIX_OUTPUT then
        (getCMWOutput entry.2).map fun output =>
          { state with mapOutputs := state.mapOutputs.insert commit output.1 }
      else if cPrefix = DB_PREFIX_MMRINDEX then
        (getUInt64 entry.2).map fun nIdx =>
          { state with mapMMRIndex := state.mapMMRIndex.insert commit nIdx.1 }
      else if cPrefix = DB_PREFIX_SPENT then
        some { state with setSpent := state.setSpent.insert commit }
      else some state
    else some state

/-- `CMWState::LoadFromDB` on an existing database; `none` is a `false` return,
after which the half-loaded state is of no use. -/
def loadFromDB (db : MWStateDB) (state : CMWState uint256) : Option (CMWState uint256) :=
  (loadVersion db).bind fun _ =>
  (loadMeta db state.clearForLoad).bind fun state =>
  (loadMMR db state).bind fun state =>
  (loadKernels db state).bind fun state =>
  db.toList.foldlM loadEntry state

/-- Save states one after another into a new database. -/
def saveAll (states : List (CMWState uint256)) : MWStateDB :=
  states.foldl saveToDB ∅

end CMWState

end MaryJaneCoin
