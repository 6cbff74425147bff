import MaryJaneCoin.Chain.Pegs
import MaryJaneCoin.Mw.Wallet
import MaryJaneCoin.Wallet.CreateTransaction
import MaryJaneCoin.Wallet.StaleSignatures

/-!
# Pegging in from the wallet

`CreateMWEBPegInTransaction` lets `CreateTransaction` build and sign a transparent
transaction with a marker output, and afterwards raises its version and puts the
Mimblewimble part into it.  The signatures commit to the version, so they are
stale in what it returns.
-/

namespace MaryJaneCoin

open List hiding Vector
open Std Codec WrappedSum CTransaction

/-- What `GenerateKeys` draws, and whether the keys could be saved. -/
structure KeyDraws where
  scanPrivKey : Option SecretKey
  spendPrivKey : Option SecretKey
  saved : Bool

section

variable {H P : Type} [AddCommGroup P] [DecidableEq P] (mwCrypto : CurveCrypto H P)

def CMWWallet.generateKeys (wallet : CMWWallet) (draws : KeyDraws) : Bool × CMWWallet :=
  if wallet.hasKeys then (true, wallet)
  else
    match draws.scanPrivKey with
    | none => (false, wallet)
    | some scanPrivKey =>
      match draws.spendPrivKey with
      | none => (false, { wallet with scanPrivKey })
      | some spendPrivKey =>
        let (fScan, scanPubKey) := derivePublicKey mwCrypto scanPrivKey wallet.scanPubKey
        let (fSpend, spendPubKey) := derivePublicKey mwCrypto spendPrivKey wallet.spendPubKey
        if !fScan then (false, { wallet with scanPrivKey, spendPrivKey, scanPubKey })
        else
          (fSpend && draws.saved, { wallet with scanPrivKey, spendPrivKey, scanPubKey, spendPubKey })

end

/-- What `CreateMWEBPegInTransaction` returns when it succeeds. -/
structure PegInTx (H : Type) where
  tx : CTransaction H
  nFeeRet : Int64
  mwOutputOut : CMWOwnedOutput

namespace CWallet

variable {H P : Type} [Ord H] [TransOrd H] [DecidableEq H] [AddCommGroup P] [DecidableEq P]
  (mwCrypto : CurveCrypto H P) (wallet : CWallet H) (settings : WalletSettings)

/-- `CreateMWEBPegInTransaction`: the Mimblewimble wallet afterwards and the
result.  `none` is a run that does not end or an exception. -/
def createMWEBPegInTransaction (g_mwWallet : CMWWallet) (keyDraws : KeyDraws) (draws : PegInDraws H)
    (selectCoins : Int64 → Option (CoinSelection mwCrypto.toSha256 wallet)) (draw : Int64 → Nat)
    (wtxNew : CTransaction H) (nAmount : Int64) (fuel : Nat) :
    Option (CMWWallet × Option (PegInTx H)) :=
  if nAmount ≤ 0 then some (g_mwWallet, none)
  else
    let (fKeys, g_mwWallet) := g_mwWallet.generateKeys mwCrypto keyDraws
    if !fKeys then some (g_mwWallet, none)
    else
      (createPegIn mwCrypto true nAmount draws).bind fun pegResult =>
        if !pegResult.fSuccess then some (g_mwWallet, none)
        else
          let vecSend := [(getPegInMarkerScript pegResult.mwOutput.commitment, 0)]
          -- nFeeRet = nAmount + MIN_TX_FEE is set here; CreateTransaction starts with its own fee
          (wallet.createTransaction mwCrypto.toSha256 settings selectCoins draw wtxNew vecSend 1 fuel).map
            fun (created, nFeeRet) => (g_mwWallet, created.map fun tx =>
              { tx :=
                  { tx with
                    nVersion := CT_TX_VERSION
                    mwTx := ⟨⟨[], [pegResult.mwOutput], [pegResult.kernel]⟩, nullBlind⟩ }
                nFeeRet
                mwOutputOut :=
                  { output := pegResult.mwOutput
                    blindingFactor := pegResult.outputBlind
                    spendKey := Vector.replicate 32 0
                    nValue := nAmount
                    nBlockHeight := 0
                    fSpent := false } })

/-- The scripts of all inputs satisfy `VerifySignature`. -/
def InputsVerify (crypto : SigCrypto H) (tx : CTransaction H) : Prop :=
  ∀ nIn txin, tx.vin[nIn]? = some txin → ∃ wtx, wallet.mapWallet[txin.prevout.hash]? = some wtx ∧
    crypto.verifySignature wtx.toCTransaction tx nIn 0 = true

/-- An output that can be spent. -/
def isSpendable (txout : CTxOut) : Bool := txout.scriptPubKey.head? != some OP_RETURN

/-- What the inputs have over the spendable outputs covers the amount and the fee. -/
def PaysForItself (tx : CTransaction H) (nAmount : Int64) : Prop :=
  nAmount.toInt + MIN_TX_FEE.toInt ≤
    (tx.vin.map fun txin => (foundValue (wallet.prevOut txin.prevout)).toInt).sum -
      sumValues (tx.vout.filter isSpendable)

instance (tx : CTransaction H) (nAmount : Int64) : Decidable (wallet.PaysForItself tx nAmount) :=
  inferInstanceAs (Decidable (_ ≤ _))

variable {mwCrypto wallet settings} {tx tx' : CTransaction H}

omit [TransOrd H] in
/-- **An input that was signed for another version** does not verify. -/
theorem verifySignature_signed {crypto : SigCrypto H} {keystore : CKeyStore H} {coin : COutput H}
    {mid : CTransaction H} {nIn : Nat} {txin : CTxIn H} {wtx : CWalletTx H}
    (hsignature : wallet.signSignature = crypto.signSignature keystore)
    (hexact : ExactSignatures crypto keystore) (hcommits : CommitsToVersion crypto.sha)
    (hversion : mid.nVersion ≠ tx.nVersion) (hget : tx.vin[nIn]? = some txin)
    (hlength : mid.vin.length = tx.vin.length)
    (hsign : wallet.signSignature coin.txout.scriptPubKey mid nIn = some txin.scriptSig)
    (hout : wtx.vout[txin.prevout.n.toNat]? = some coin.txout) :
    crypto.verifySignature wtx.toCTransaction tx nIn 0 = false := by
  have hlt := (List.getElem?_eq_some_iff.mp hget).1
  rw [hsignature, SigCrypto.signSignature] at hsign
  split at hsign
  · cases hsign
  · obtain ⟨hmake, -⟩ := Option.filter_eq_some_iff.mp hsign
    have hfalse := SigCrypto.verifyScript_stale (SigCrypto.allStale_of_version hcommits hexact
      (hlength.symm ▸ hlt) hlt hversion) hmake
    rw [SigCrypto.verifySignature, hget]
    simp only [hout, hfalse, Bool.and_false]

theorem sendOutputs_script {s : Recipient} {nSplitBlock : Nat} {vout : List CTxOut}
    {nRemainder : Int64} (h : sendOutputs settings nSplitBlock [s] = some (vout, nRemainder)) :
    ∀ txout ∈ vout, txout.scriptPubKey = s.1 := by
  unfold sendOutputs at h
  split at h
  · split at h
    · cases h
    · cases h
      rw [flatMap_singleton]
      exact ringMixOutputs_script
  · split at h
    · cases h
      intro txout hmem
      rw [mem_singleton.mp hmem]
    · cases h
      intro txout hmem
      rw [flatMap_singleton, splitOutputs] at hmem
      obtain ⟨nCount, -, rfl⟩ := mem_map.mp hmem
      split
      · rfl
      · rfl

omit [TransOrd H] [DecidableEq H] in
theorem withChange_nonneg {drawn : Nat} {nChange : Int64} {vout changed : List CTxOut}
    (h : wallet.withChange drawn nChange vout = some changed) :
    ∀ txout ∈ changed, txout ∈ vout ∨ 0 < txout.nValue := by
  intro txout hmem
  rw [withChange] at h
  split at h
  · rename_i hpos
    obtain ⟨keyID, -, rfl⟩ := Option.map_eq_some_iff.mp h
    rcases eq_or_mem_of_mem_insertIdx hmem with rfl | hmem
    · exact .inr hpos
    · exact .inl hmem
  · cases h
    exact .inl hmem

variable {g_mwWallet g_mwWallet' : CMWWallet} {keyDraws : KeyDraws} {draws : PegInDraws H}
  {selectCoins : Int64 → Option (CoinSelection mwCrypto.toSha256 wallet)} {draw : Int64 → Nat}
  {wtxNew : CTransaction H} {nAmount : Int64} {fuel : Nat} {made : PegInTx H}

/-- **What a peg-in consists of**: a transaction of `CreateTransaction` for the
marker, with another version and a Mimblewimble part. -/
theorem createMWEBPegInTransaction_made
    (h : wallet.createMWEBPegInTransaction mwCrypto settings g_mwWallet keyDraws draws selectCoins draw
      wtxNew nAmount fuel = some (g_mwWallet', some made)) : 0 < nAmount ∧
    ∃ commitment tx, wallet.createTransaction mwCrypto.toSha256 settings selectCoins draw
        wtxNew [(getPegInMarkerScript commitment, 0)] 1 fuel = some (some tx, made.nFeeRet) ∧
      made.tx.nVersion = CT_TX_VERSION ∧ made.tx.vin = tx.vin ∧ made.tx.vout = tx.vout := by
  unfold createMWEBPegInTransaction at h
  split at h
  · cases h
  · rename_i hpos
    simp only at h
    split at h
    · cases h
    · obtain ⟨pegResult, -, h⟩ := Option.bind_eq_some_iff.mp h
      split at h
      · cases h
      · obtain ⟨⟨created, nFeeRet⟩, hcreate, heq⟩ := Option.map_eq_some_iff.mp h
        obtain ⟨tx, rfl, hmade⟩ := Option.map_eq_some_iff.mp (congrArg Prod.snd heq)
        subst hmade
        exact ⟨Int64.not_le.mp hpos, _, tx, hcreate, rfl, rfl, rfl⟩

/-- **No input of a peg-in verifies**: each one was signed for another version. -/
theorem pegIn_inputs [LawfulEqOrd H] {crypto : SigCrypto H} {keystore : CKeyStore H}
    {nTime : UInt32} (hsignature : wallet.signSignature = crypto.signSignature keystore)
    (hexact : ExactSignatures crypto keystore) (hcommits : CommitsToVersion crypto.sha)
    (h : wallet.createMWEBPegInTransaction mwCrypto settings g_mwWallet keyDraws draws selectCoins draw
      (new nTime) nAmount fuel = some (g_mwWallet', some made)) {nIn : Nat} {txin : CTxIn H}
    (hget : made.tx.vin[nIn]? = some txin) {wtx : CWalletTx H}
    (hwtx : wallet.mapWallet[txin.prevout.hash]? = some wtx) :
    crypto.verifySignature wtx.toCTransaction made.tx nIn 0 = false := by
  obtain ⟨-, commitment, tx, hcreate, hversion, hvin, -⟩ := createMWEBPegInTransaction_made h
  obtain ⟨-, nValue, nFeeRet, -, -, ⟨parts⟩⟩ :=
    createTransaction_round (fun _ => True) trivial (fun _ _ _ _ => trivial) hcreate
  obtain ⟨hunsigned, hsigned⟩ := signCoins_signed parts.sign
  have hcoins : tx.vin.map CTxIn.prevout = parts.selection.coins.map COutput.prevout := by
    rw [(signCoins_some parts.sign).vin, map_map]
    rfl
  rw [hvin] at hget
  have hprevout := congrArg (fun prevouts => prevouts[nIn]?) hcoins
  simp only [getElem?_map, hget, Option.map_some] at hprevout
  obtain ⟨coin, hcoin, hcoinPrevout⟩ := Option.map_eq_some_iff.mp hprevout.symm
  obtain ⟨mid, signed, hmid, hin, hscript⟩ := hsigned nIn coin hcoin
  cases hin.symm.trans hget
  obtain ⟨wtxPrev, hwtxPrev, hout, -, -⟩ :=
    mem_availableCoins (parts.selection.available coin (mem_of_getElem? hcoin))
  rw [hcoinPrevout] at hwtxPrev hout
  cases hwtxPrev.symm.trans hwtx
  refine verifySignature_signed hsignature hexact hcommits ?_ ?_ ?_ hscript hout
  · rw [nVersion_of_unsigned hmid, hversion]
    show (1 : Int32) ≠ CT_TX_VERSION
    decide
  · rw [hvin]
    exact hget
  · rw [hvin]
    exact length_vin_of_unsigned (hmid.trans hunsigned.symm)

omit [DecidableEq H] in
theorem not_paysForItself {tx : CTransaction H} (hvin : tx.vin = [])
    (hout : ∀ txout ∈ tx.vout, isSpendable txout = true → 0 < txout.nValue) (hpos : 0 < nAmount) :
    ¬wallet.PaysForItself tx nAmount := by
  intro hpays
  have houts : 0 ≤ sumValues (tx.vout.filter isSpendable) := by
    apply sum_nonneg
    intro value hvalue
    obtain ⟨txout, htxout, rfl⟩ := mem_map.mp hvalue
    obtain ⟨hmem, hspend⟩ := mem_filter.mp htxout
    exact Int.le_of_lt (Int64.lt_iff_toInt_lt.mp (hout txout hmem hspend))
  have hamount : 0 < nAmount.toInt := Int64.lt_iff_toInt_lt.mp hpos
  have hfee : 0 < MIN_TX_FEE.toInt := by decide
  rw [PaysForItself, hvin, map_nil, sum_nil] at hpays
  omega

/-- **A peg-in is never valid and paid for**: either it has no input, or its inputs
do not verify. -/
theorem pegIn_never [LawfulEqOrd H] {crypto : SigCrypto H} {keystore : CKeyStore H} {nTime : UInt32}
    (hsignature : wallet.signSignature = crypto.signSignature keystore)
    (hexact : ExactSignatures crypto keystore) (hcommits : CommitsToVersion crypto.sha)
    (h : wallet.createMWEBPegInTransaction mwCrypto settings g_mwWallet keyDraws draws selectCoins draw
      (new nTime) nAmount fuel = some (g_mwWallet', some made)) :
    ¬(wallet.InputsVerify crypto made.tx ∧ wallet.PaysForItself made.tx nAmount) := by
  rintro ⟨hverify, hpays⟩
  cases hvin : made.tx.vin with
  | cons txin vin =>
    have hget : made.tx.vin[0]? = some txin := by
      rw [hvin]
      rfl
    obtain ⟨wtx, hwtx, htrue⟩ := hverify 0 txin hget
    have hfalse := pegIn_inputs hsignature hexact hcommits h hget hwtx
    rw [htrue] at hfalse
    exact Bool.noConfusion hfalse
  | nil =>
    obtain ⟨hpos, commitment, tx, hcreate, -, -, hvout⟩ := createMWEBPegInTransaction_made h
    obtain ⟨-, nValue, nFeeRet, -, -, ⟨parts⟩⟩ :=
  createTransaction_round (fun _ => True) trivial (fun _ _ _ _ => trivial) hcreate
    refine not_paysForItself hvin (fun txout hmem hspend => ?_) hpos hpays
    rw [hvout, (signCoins_some parts.sign).vout] at hmem
    rcases withChange_nonneg parts.placed txout hmem with hsent | hchange
    · rw [isSpendable, sendOutputs_script parts.send txout hsent] at hspend
      cases hspend
    · exact hchange

end CWallet

/-- A digest that keeps the first bytes of what is hashed. -/
def firstBytes (data : Preimage SampleDigest) : SampleDigest :=
  match data with
  | .digest h :: _ => h
  | data => Vector.ofFn fun i => match data[i.val]? with
      | some (.byte b) => b
      | _ => 0

def pegCrypto : CurveCrypto SampleDigest SamplePoint := { sampleCrypto with sha256 := firstBytes }

/-- The signature of a digest, in the form that `IsCanonicalSignature` asks for. -/
def sampleSignature (hash : SampleDigest) : Bytes :=
  [0x30, 38, 0x02, 33, 0x01] ++ hash.toList ++ [0x02, 0x01, 0x01]

def pegSigCrypto : SigCrypto SampleDigest where
  sha := pegCrypto.toSha256
  hashes :=
    { ripemd160 := fun _ => Vector.replicate 20 1
      sha1 := fun _ => Vector.replicate 20 0
      sha256 := fun _ => Vector.replicate 32 0 }
  one := scalarBytes 1
  verify _ hash vchSig := vchSig == sampleSignature hash

def pegKeyStore : CKeyStore SampleDigest where
  getKey _ := some ⟨0x02 :: List.replicate 32 5, fun hash => some (sampleSignature hash)⟩
  getCScript _ := none

theorem pegKeyStore_exact : ExactSignatures pegSigCrypto pegKeyStore where
  verifies keyID key hash vchSig hkey hsign := by
    cases hkey
    cases hsign
    exact beq_self_eq_true _
  hash_eq keyID key hash vchSig hkey hsign vchPubKey hash' hverify := by
    cases hkey
    cases hsign
    have hsame : sampleSignature hash = sampleSignature hash' := eq_of_beq hverify
    have hbytes := append_cancel_right hsame
    exact (Vector.toList_inj.mp (append_cancel_left hbytes)).symm

theorem firstBytes_commits : CommitsToVersion pegSigCrypto.sha := by
  intro nVersion nVersion' rest rest' h
  have hbyte : ∀ (n : Int32) (rest : Preimage SampleDigest) (i : Nat) (hi : i < 4),
      (firstBytes (feed (putInt32 n) ++ rest)).get ⟨i, Nat.lt_trans hi (by decide)⟩ =
        (putInt32 n).getD i 0 := by
    intro n rest i hi
    interval_cases i <;> exact Vector.getElem_ofFn _
  have hlist : ∀ n, putInt32 n = [(putInt32 n).getD 0 0, (putInt32 n).getD 1 0,
      (putInt32 n).getD 2 0, (putInt32 n).getD 3 0] := fun _ => rfl
  have hsame : ∀ i, i < 4 → (putInt32 nVersion).getD i 0 = (putInt32 nVersion').getD i 0 := by
    intro i hi
    have hdigest : firstBytes (feed (putInt32 nVersion) ++ rest) =
        firstBytes (feed (putInt32 nVersion') ++ rest') := h
    rw [← hbyte nVersion rest i hi, ← hbyte nVersion' rest' i hi, hdigest]
  have hput : putInt32 nVersion = putInt32 nVersion' := by
    rw [hlist nVersion, hlist nVersion', hsame 0 (by decide), hsame 1 (by decide),
      hsame 2 (by decide), hsame 3 (by decide)]
  have hread := reads_int32 nVersion [] trivial
  rw [hput, reads_int32 nVersion' [] trivial] at hread
  exact (Prod.mk.inj (Option.some.inj hread)).1.symm

/-- A mature coin of 100. -/
def pegCoin : CWalletTx SampleDigest where
  toCTransaction :=
    { (new 1 : CTransaction SampleDigest) with
      vin := [⟨⟨Vector.replicate 32 0, 0xffffffff⟩, [1, 1], 0⟩]
      vout := [⟨100 * COIN, payTo 1⟩] }
  vfSpent := []
  fFinal := true
  nDepthInMainChain := 800
  nBlocksToMaturity := 0
  vout_lt := by
    show (1 : Nat) < 2 ^ 32
    decide

/-- A wallet with this coin and one key. -/
def pegWallet : CWallet SampleDigest where
  mapWallet := ExtTreeMap.empty.insert (pegCoin.getHash pegCrypto.toSha256) pegCoin
  isMine script := script == payTo 1
  signSignature := pegSigCrypto.signSignature pegKeyStore
  isLocked := false
  nMinimumInputValue := 0
  reservedKey := some (Vector.replicate 20 1)
  keyFromPool := none
  reservedKey_mine := payTo_one_mine
  keyFromPool_mine := noKey_mine

/-- All available coins. -/
def allCoins : CoinSelection pegCrypto.toSha256 pegWallet where
  coins := (pegWallet.availableCoins pegCrypto.toSha256 true).dedup
  nValueRet := wrapped (fun coin => coin.txout.nValue)
    (pegWallet.availableCoins pegCrypto.toSha256 true).dedup
  available := fun _ hcoin => List.mem_dedup.mp hcoin
  nodup := List.nodup_dedup _

/-- Pegging in ten coins. -/
def pegRun : Option (CMWWallet × Option (PegInTx SampleDigest)) :=
  pegWallet.createMWEBPegInTransaction pegCrypto ⟨MIN_TX_FEE,
    false, 0⟩ (sampleWallet 5 7 []) ⟨none, none, true⟩
    { blind := fun _ => some (scalarBytes 17), senderSecret := some (scalarBytes 3)
      receiverSecret := some (scalarBytes 13), nonce := some (scalarBytes 29) }
    (fun _ => some allCoins) (fun _ => 0) (new 2) (10 * COIN) 3

theorem pegRun_made : ∃ g_mwWallet made, pegRun = some (g_mwWallet, some made) := by
  have hrun : (pegRun.any fun result => result.2.isSome) = true := by decide +kernel
  rw [Option.any_eq_true] at hrun
  obtain ⟨⟨g_mwWallet, made⟩, hresult, hmade⟩ := hrun
  obtain ⟨made, rfl⟩ := Option.isSome_iff_exists.mp hmade
  exact ⟨g_mwWallet, made, hresult⟩

theorem pegIn_never_run : ∃ g_mwWallet made, pegRun = some (g_mwWallet, some made) ∧
    ¬(pegWallet.InputsVerify pegSigCrypto made.tx ∧ pegWallet.PaysForItself made.tx (10 * COIN)) := by
  obtain ⟨g_mwWallet, made, hmade⟩ := pegRun_made
  exact ⟨g_mwWallet, made, hmade, CWallet.pegIn_never rfl pegKeyStore_exact firstBytes_commits hmade⟩

/-- **Ten coins are pegged in**: the input does not verify, and only the fee is left
for the ten coins. -/
theorem pegIn_unsigned_unpaid : ∃ g_mwWallet made, pegRun = some (g_mwWallet, some made) ∧
    ¬pegWallet.InputsVerify pegSigCrypto made.tx ∧ ¬pegWallet.PaysForItself made.tx (10 * COIN) := by
  have hrun : (pegRun.any fun result => result.2.any fun made =>
      (made.tx.vin[0]?.any fun txin => pegWallet.mapWallet[txin.prevout.hash]?.all fun wtx =>
        !pegSigCrypto.verifySignature wtx.toCTransaction made.tx 0 0) &&
      !decide (pegWallet.PaysForItself made.tx (10 * COIN))) = true := by decide +kernel
  rw [Option.any_eq_true] at hrun
  obtain ⟨⟨g_mwWallet, result⟩, hresult, hrun⟩ := hrun
  rw [Option.any_eq_true] at hrun
  obtain ⟨made, hmade, hrun⟩ := hrun
  obtain rfl : result = some made := hmade
  rw [Bool.and_eq_true, Option.any_eq_true] at hrun
  obtain ⟨⟨txin, hget, hall⟩, hpays⟩ := hrun
  refine ⟨g_mwWallet, made, hresult, fun hverify => ?_, by simpa using hpays⟩
  obtain ⟨wtx, hwtx, htrue⟩ := hverify 0 txin hget
  rw [hwtx, Option.all_some, htrue] at hall
  cases hall

/-- With the version that was signed, the same input verifies. -/
example : (pegRun.any fun result => result.2.any fun made => pegSigCrypto.verifySignature
    pegCoin.toCTransaction { made.tx with nVersion := 1 } 0 0) = true := by decide +kernel

end MaryJaneCoin
