import MaryJaneCoin.Mw.WalletScan

/-!
# Saving and loading the Mimblewimble wallet

`SaveToWalletDB` writes two keys and one record for each owned output.
`LoadFromWalletDB` reads the two keys, and nothing else reads the records: the
loader of `walletdb.cpp` has no case for them either.  So a wallet comes back from
its file exactly when it owned nothing.

The methods of `CWalletDB` that both use are arguments, with the law that a read
gives what was written.
-/

namespace MaryJaneCoin

open Std

/-- The methods of `CWalletDB` for the Mimblewimble wallet; a write tells whether
it succeeded. -/
structure MWWalletDB (D : Type) where
  writeMWKey : String → SecretKey → D → Bool × D
  writeMWOutput : String → CMWOwnedOutput → D → Bool × D
  readMWKey : String → D → Option SecretKey

/-- A key-value store: a key that was written is read back, whatever is written
under other names or as another kind of record. -/
structure MWWalletDB.KeyValue {D : Type} (db : MWWalletDB D) : Prop where
  read_written : ∀ name key d, (db.writeMWKey name key d).1 = true →
    db.readMWKey name (db.writeMWKey name key d).2 = some key
  read_other : ∀ name other key d, other ≠ name →
    db.readMWKey other (db.writeMWKey name key d).2 = db.readMWKey other d
  read_output : ∀ name hex owned d,
    db.readMWKey name (db.writeMWOutput hex owned d).2 = db.readMWKey name d

/-- The digit for a number below sixteen. -/
def hexDigit (n : Nat) : Char := Char.ofNat (if n < 10 then n + 48 else n + 87)

def hexStr (bytes : Codec.Bytes) : String :=
  String.ofList (bytes.flatMap fun val => [hexDigit (val.toNat / 16), hexDigit (val.toNat % 16)])

section

variable {D : Type} (db : MWWalletDB D)

/-- The loop of `SaveToWalletDB` over the owned outputs. -/
def writeMWOutputs : List (Commitment × CMWOwnedOutput) → D → Bool × D
  | [], d => (true, d)
  | (commitment, owned) :: rest, d =>
    let written := db.writeMWOutput (hexStr commitment.toList) owned d
    if written.1 then writeMWOutputs rest written.2 else written

/-- `CMWWallet::SaveToWalletDB`; `fFileBacked` says that there is a wallet and it
has a file. -/
def CMWWallet.saveToWalletDB (fFileBacked : Bool) (wallet : CMWWallet) (d : D) : Bool × D :=
  if !fFileBacked then (false, d)
  else
    let scan := db.writeMWKey "scan" wallet.scanPrivKey d
    if !scan.1 then scan
    else
      let spend := db.writeMWKey "spend" wallet.spendPrivKey scan.2
      if !spend.1 then spend else writeMWOutputs db wallet.mapOwnedOutputs.toList spend.2

variable {H P : Type} [AddCommGroup P] [DecidableEq P] (crypto : CurveCrypto H P)

def CMWWallet.loadFromWalletDB (fFileBacked : Bool) (wallet : CMWWallet) (d : D) : Bool × CMWWallet :=
  if !fFileBacked then (false, wallet)
  else
    let scanned :=
      match db.readMWKey "scan" d with
      | none => wallet
      | some loadedScanKey =>
        { wallet with
          scanPrivKey := loadedScanKey
          scanPubKey := (derivePublicKey crypto loadedScanKey wallet.scanPubKey).2 }
    let loaded :=
      match db.readMWKey "spend" d with
      | none => scanned
      | some loadedSpendKey =>
        { scanned with
          spendPrivKey := loadedSpendKey
          spendPubKey := (derivePublicKey crypto loadedSpendKey scanned.spendPubKey).2 }
    (true, loaded)

/-- The constructor of `CMWWallet`. -/
def CMWWallet.new : CMWWallet where
  scanPrivKey := Vector.replicate 32 0
  scanPubKey := Vector.replicate 33 0
  spendPrivKey := Vector.replicate 32 0
  spendPubKey := Vector.replicate 33 0
  mapOwnedOutputs := ∅

def CMWWallet.getMWBalance (wallet : CMWWallet) : Int64 :=
  wallet.mapOwnedOutputs.toList.foldl (fun nBalance entry =>
    if entry.2.fSpent then nBalance else nBalance + entry.2.nValue) 0

/-- A call that changes the wallet or its file. -/
inductive MWWalletCall (H : Type) where
  | scanForOutputs (block : CMWBlock H)
  | markOutputSpent (commitment : Commitment)
  | addOwnedOutput (owned : CMWOwnedOutput)
  | saveToWalletDB

/-- A wallet and its file. -/
structure MWWalletFile (D : Type) where
  wallet : CMWWallet
  fFileBacked : Bool
  walletdb : D

namespace MWWalletFile

/-- `SaveToWalletDB`, on the file of the wallet. -/
def save (file : MWWalletFile D) : Bool × MWWalletFile D :=
  let saved := file.wallet.saveToWalletDB db file.fFileBacked file.walletdb
  (saved.1, { file with walletdb := saved.2 })

/-- One call; a scan that finds something saves the wallet, whether or not that
succeeds. -/
def step (file : MWWalletFile D) : MWWalletCall H → MWWalletFile D
  | .scanForOutputs block =>
    let scanned := file.wallet.scanForOutputs crypto block
    let file := { file with wallet := scanned.2 }
    if 0 < scanned.1 then (file.save db).2 else file
  | .markOutputSpent commitment => { file with wallet := file.wallet.markOutputSpent commitment }
  | .addOwnedOutput owned => { file with wallet := file.wallet.addOwnedOutput owned }
  | .saveToWalletDB => (file.save db).2

/-- A history of calls. -/
def run (file : MWWalletFile D) (calls : List (MWWalletCall H)) : MWWalletFile D :=
  calls.foldl (step db crypto) file

/-- **A fresh wallet that loads the file is the wallet**: the keys and the owned
outputs are the same, so are the balance and every selection of outputs. -/
def Reloads (file : MWWalletFile D) : Prop :=
  let loaded := (CMWWallet.new.loadFromWalletDB db crypto file.fFileBacked file.walletdb).2
  loaded.scanPrivKey = file.wallet.scanPrivKey ∧ loaded.scanPubKey = file.wallet.scanPubKey ∧
    loaded.spendPrivKey = file.wallet.spendPrivKey ∧ loaded.spendPubKey = file.wallet.spendPubKey ∧
    loaded.mapOwnedOutputs = file.wallet.mapOwnedOutputs ∧
    loaded.getMWBalance = file.wallet.getMWBalance ∧
    ∀ nTargetValue, loaded.selectMWOutputs nTargetValue = file.wallet.selectMWOutputs nTargetValue

end MWWalletFile

/-- The public keys are those of the private keys, as `GenerateKeys` and the
loader make them. -/
def CMWWallet.PubKeysDerived (wallet : CMWWallet) : Prop :=
  wallet.scanPubKey = (derivePublicKey crypto wallet.scanPrivKey (Vector.replicate 33 0)).2 ∧
    wallet.spendPubKey = (derivePublicKey crypto wallet.spendPrivKey (Vector.replicate 33 0)).2

/-- A call that brings nothing to own: no output is added, and a block that is
scanned has nothing that the wallet can recover. -/
def CMWWallet.Quiet (wallet : CMWWallet) : MWWalletCall H → Prop
  | .scanForOutputs block => wallet.hasKeys = true →
      ∀ output ∈ block.body.vOutputs, wallet.recoverOutput crypto block.nHeight output = none
  | .addOwnedOutput _ => False
  | .markOutputSpent _ => True
  | .saveToWalletDB => True

variable {db} {crypto}

theorem MWWalletDB.KeyValue.read_outputs (hdb : db.KeyValue) (name : String)
    (entries : List (Commitment × CMWOwnedOutput)) (d : D) :
    db.readMWKey name (writeMWOutputs db entries d).2 = db.readMWKey name d := by
  induction entries generalizing d with
  | nil => rfl
  | cons entry entries ih =>
    obtain ⟨commitment, owned⟩ := entry
    rw [writeMWOutputs]
    split
    · rw [ih, hdb.read_output]
    · rw [hdb.read_output]

/-- **What a successful save leaves in the file**: both keys. -/
theorem saveToWalletDB_reads (hdb : db.KeyValue) {fFileBacked : Bool} {wallet : CMWWallet}
    {d d' : D} (h : wallet.saveToWalletDB db fFileBacked d = (true, d')) :
    fFileBacked = true ∧ db.readMWKey "scan" d' = some wallet.scanPrivKey ∧
      db.readMWKey "spend" d' = some wallet.spendPrivKey := by
  rw [CMWWallet.saveToWalletDB] at h
  cases fFileBacked with
  | false => cases h
  | true =>
    simp only [Bool.not_true, Bool.false_eq_true, if_false] at h
    split at h
    · rename_i hfailed
      rw [h] at hfailed
      cases hfailed
    · rename_i hscan
      split at h
      · rename_i hfailed
        rw [h] at hfailed
        cases hfailed
      · rename_i hspend
        have hscan' := hdb.read_written "scan" wallet.scanPrivKey d (by simpa using hscan)
        have hspend' := hdb.read_written "spend" wallet.spendPrivKey _ (by simpa using hspend)
        have hlast : d' = _ := (congrArg Prod.snd h).symm
        refine ⟨rfl, ?_, ?_⟩
        · rw [hlast, hdb.read_outputs, hdb.read_other _ _ _ _ (by decide), hscan']
        · rw [hlast, hdb.read_outputs, hspend']

/-- **What is loaded after a successful save**: the keys, and nothing owned. -/
theorem load_saved (hdb : db.KeyValue) {file file' : MWWalletFile D}
    (h : file.save db = (true, file')) :
    CMWWallet.new.loadFromWalletDB db crypto file'.fFileBacked file'.walletdb = (true,
        { scanPrivKey := file.wallet.scanPrivKey
          scanPubKey := (derivePublicKey crypto file.wallet.scanPrivKey (Vector.replicate 33 0)).2
          spendPrivKey := file.wallet.spendPrivKey
          spendPubKey := (derivePublicKey crypto file.wallet.spendPrivKey (Vector.replicate 33 0)).2
          mapOwnedOutputs := ∅ }) := by
  have hsave := congrArg Prod.fst h
  have hfile := congrArg Prod.snd h
  cases hfile
  have hsaved : file.wallet.saveToWalletDB db file.fFileBacked file.walletdb =
      (true, (file.wallet.saveToWalletDB db file.fFileBacked file.walletdb).2) := Prod.ext hsave rfl
  obtain ⟨hbacked, hscan, hspend⟩ := saveToWalletDB_reads hdb hsaved
  rw [CMWWallet.loadFromWalletDB, hbacked]
  simp only [Bool.not_true, Bool.false_eq_true, if_false, hbacked] at *
  rw [hscan, hspend]
  rfl

theorem quiet_of_keys (wallet : CMWWallet) (mapOwnedOutputs : ExtTreeMap Commitment CMWOwnedOutput)
    (call : MWWalletCall H) :
    CMWWallet.Quiet crypto { wallet with mapOwnedOutputs } call ↔ wallet.Quiet crypto call := by
  cases call <;> exact Iff.rfl

namespace MWWalletFile

variable {file file' : MWWalletFile D} {calls : List (MWWalletCall H)}

/-- **Step lemma.**  A call leaves the keys, and leaves nothing owned exactly if
nothing was owned before and the call is quiet. -/
theorem step_spec (db : MWWalletDB D) (crypto : CurveCrypto H P)
    (file : MWWalletFile D) (call : MWWalletCall H) :
    ∃ mapOwnedOutputs, (file.step db crypto call).wallet = { file.wallet with mapOwnedOutputs } ∧
      (mapOwnedOutputs = ∅ ↔ file.wallet.mapOwnedOutputs = ∅ ∧ file.wallet.Quiet crypto call) := by
  cases call with
  | scanForOutputs block =>
    have hwallet : (file.step db crypto (.scanForOutputs block)).wallet =
        (file.wallet.scanForOutputs crypto block).2 := by
      rw [step]
      split <;> rfl
    obtain ⟨scanned, hscanned⟩ := scanForOutputs_frame crypto file.wallet block
    refine ⟨scanned, hwallet.trans hscanned, ?_⟩
    refine Iff.trans ?_ scanForOutputs_eq_empty
    rw [hscanned]
  | markOutputSpent commitment =>
    obtain ⟨marked, hmarked⟩ := markOutputSpent_frame file.wallet commitment
    refine ⟨marked, hmarked, ?_⟩
    have hlook := getElem?_markOutputSpent file.wallet commitment
    rw [hmarked] at hlook
    simp only [CMWWallet.Quiet, and_true]
    rw [FinMap.eq_empty_iff, FinMap.eq_empty_iff]
    refine forall_congr' fun c => ?_
    rw [hlook]
    split
    · exact Option.map_eq_none_iff
    · exact Iff.rfl
  | addOwnedOutput owned =>
    refine ⟨_, rfl, ?_⟩
    simp [CMWWallet.Quiet]
  | saveToWalletDB =>
    refine ⟨_, rfl, ?_⟩
    simp [CMWWallet.Quiet]

/-- **Run lemma.** -/
theorem run_spec (db : MWWalletDB D) (crypto : CurveCrypto H P)
    (file : MWWalletFile D) (calls : List (MWWalletCall H)) :
    ∃ mapOwnedOutputs, (file.run db crypto calls).wallet = { file.wallet with mapOwnedOutputs } ∧
      (mapOwnedOutputs = ∅ ↔ file.wallet.mapOwnedOutputs = ∅ ∧
        ∀ call ∈ calls, file.wallet.Quiet crypto call) := by
  induction calls generalizing file with
  | nil => exact ⟨file.wallet.mapOwnedOutputs, rfl, by simp⟩
  | cons call calls ih =>
    obtain ⟨mid, hmid, hstep⟩ := step_spec db crypto file call
    obtain ⟨last, hlast, hrest⟩ := ih (file.step db crypto call)
    refine ⟨last, hlast.trans (by rw [hmid]), ?_⟩
    rw [hmid] at hrest
    rw [hrest, hstep, List.forall_mem_cons, and_assoc]
    -- A call that is quiet is so for the keys, which stay.
    exact and_congr_right fun _ => and_congr_right fun _ => forall_congr' fun later =>
      forall_congr' fun _ => quiet_of_keys file.wallet mid later

/-- **When the Mimblewimble wallet comes back from its file.**  After a successful
save at the end of any history of calls, a fresh wallet that loads the file has
the same keys, the same owned outputs, the same balance and the same selections
exactly when the public keys are those of the private keys, nothing was owned at
the start, and no call brought anything to own. -/
theorem reloads_iff_nothing_owned (hdb : db.KeyValue)
    (hsave : (file.run db crypto calls).save db = (true, file')) :
    file'.Reloads db crypto ↔ file.wallet.PubKeysDerived crypto ∧
      file.wallet.mapOwnedOutputs = ∅ ∧ ∀ call ∈ calls, file.wallet.Quiet crypto call := by
  obtain ⟨last, hlast, hempty⟩ := run_spec db crypto file calls
  have hwallet : file'.wallet = (file.run db crypto calls).wallet := by
    have hfile := congrArg Prod.snd hsave
    cases hfile
    rfl
  rw [Reloads, load_saved hdb hsave, hwallet, hlast, ← hempty]
  constructor
  · rintro ⟨-, hscan, -, hspend, hmap, -, -⟩
    exact ⟨⟨hscan.symm, hspend.symm⟩, hmap.symm⟩
  · rintro ⟨⟨hscan, hspend⟩, rfl⟩
    exact ⟨rfl, hscan.symm, rfl, hspend.symm, rfl, rfl, fun _ => rfl⟩

end MWWalletFile

end

/-- A store of keys and of outputs, each under its name. -/
abbrev NamedStore := (String → Option SecretKey) × (String → Option CMWOwnedOutput)

def namedDB : MWWalletDB NamedStore where
  writeMWKey name key d := (true, fun other => if other = name then some key else d.1 other, d.2)
  writeMWOutput hex owned d := (true, d.1, fun other => if other = hex then some owned else d.2 other)
  readMWKey name d := d.1 name

theorem namedDB_keyValue : namedDB.KeyValue where
  read_written _ _ _ _ := if_pos rfl
  read_other _ _ _ _ hne := if_neg hne
  read_output _ _ _ _ := rfl

/-- A new wallet with keys, and its file. -/
def keyedFile : MWWalletFile NamedStore := ⟨sampleWallet 41 43 [], true, fun _ => none, fun _ => none⟩

namespace MWWalletFile

/-- The wallet that owns nothing comes back. -/
theorem reloads_iff_nothing_owned_keys :
    ∃ file', (keyedFile.run namedDB sampleCrypto [.saveToWalletDB]).save namedDB = (true, file') ∧
      (file'.Reloads namedDB sampleCrypto ↔ keyedFile.wallet.PubKeysDerived sampleCrypto ∧
        keyedFile.wallet.mapOwnedOutputs = ∅ ∧
        ∀ call ∈ [MWWalletCall.saveToWalletDB], keyedFile.wallet.Quiet sampleCrypto call) := by
  have hsaved : ((keyedFile.run namedDB sampleCrypto [.saveToWalletDB]).save namedDB).1 = true := by
    decide +kernel
  exact ⟨_, Prod.ext hsaved rfl, reloads_iff_nothing_owned namedDB_keyValue (Prod.ext hsaved rfl)⟩

/-- **A coin that does not come back.**  An output is added and the wallet saved;
a fresh wallet that loads the file has a balance of zero. -/
theorem saved_output_not_loaded :
    ∃ file', (keyedFile.run namedDB sampleCrypto [.addOwnedOutput (ownedOutput COIN)]).save namedDB =
        (true, file') ∧ file'.wallet.getMWBalance = COIN ∧
      (CMWWallet.new.loadFromWalletDB namedDB sampleCrypto file'.fFileBacked
        file'.walletdb).2.getMWBalance = 0 ∧ ¬file'.Reloads namedDB sampleCrypto := by
  have hsaved : ((keyedFile.run namedDB sampleCrypto
      [.addOwnedOutput (ownedOutput COIN)]).save namedDB).1 = true := by decide +kernel
  have hbalance : (keyedFile.run namedDB sampleCrypto
      [.addOwnedOutput (ownedOutput COIN)]).wallet.getMWBalance = COIN := by decide +kernel
  refine ⟨_, Prod.ext hsaved rfl, hbalance, ?_, ?_⟩
  · rw [load_saved namedDB_keyValue (Prod.ext hsaved rfl)]
    rfl
  · rintro ⟨-, -, -, -, -, hsame, -⟩
    rw [load_saved namedDB_keyValue (Prod.ext hsaved rfl)] at hsame
    exact absurd (hsame.trans hbalance) (by decide)

end MWWalletFile

end MaryJaneCoin
