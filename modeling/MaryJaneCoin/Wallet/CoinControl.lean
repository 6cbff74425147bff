import MaryJaneCoin.Wallet.CreateTransaction
import MaryJaneCoin.Wallet.Solver

/-!
# Payments under coin control

The coin control dialog chooses coins and freezes others, and it can send the change back to a
selected coin or to a destination of its own.
-/

namespace MaryJaneCoin

open Std

/-- `CCoinControl`, as far as payments read it. -/
structure CCoinControl (H : Type) where
  destChange : CTxDestination
  fReturnChange : Bool
  setSelected : List (COutPoint H)
  setFrozen : List (COutPoint H)

/-- `utxoAddress` of `CreateTransaction`: the last destination that a coin pays. -/
def utxoAddress {H : Type} (hashes : ScriptHashes) (coins : List (COutput H)) : CTxDestination :=
  coins.foldl
    (fun address coin => (extractDestination hashes coin.txout.scriptPubKey).getD address)
    .CNoDestination

namespace CWallet

variable {H : Type} [Ord H] (wallet : CWallet H) (hashes : ScriptHashes)

/-- The script of the change; `none` where the reserved key is not valid. -/
def scriptChange (coinControl : Option (CCoinControl H)) (coins : List (COutput H)) :
    Option CScript :=
  let reserved := wallet.reservedKey.map fun keyID => CScript.setDestination (.keyID keyID)
  match coinControl with
  | none => reserved
  | some control =>
    if control.fReturnChange then some (CScript.setDestination (utxoAddress hashes coins))
    else if control.destChange ≠ .CNoDestination then
      some (CScript.setDestination control.destChange)
    else reserved

variable [TransOrd H] [DecidableEq H] (sha : Sha256 H) (settings : WalletSettings)

/-- The outputs with the change at a random place. -/
def placeChange (coinControl : Option (CCoinControl H)) (draw : Int64 → Nat) :
    PlaceChange sha wallet :=
  fun selection nFeeRet nChange vout =>
    if nChange > 0 then
      (wallet.scriptChange hashes coinControl selection.coins).map fun scriptChange =>
        vout.insertIdx (getRandInt (draw nFeeRet) vout.length) ⟨nChange, scriptChange⟩
    else some vout

/-- `CreateTransaction` with coin control. -/
def createTransactionFor (coinControl : Option (CCoinControl H))
    (selectCoins : Int64 → Option (CoinSelection sha wallet)) (draw : Int64 → Nat)
    (wtxNew : CTransaction H) (vecSend : List Recipient) (nSplitBlock : Int32) (fuel : Nat) :
    Option (Option (CTransaction H) × Int64) :=
  createTransactionWith sha wallet settings (wallet.placeChange hashes sha coinControl draw)
    selectCoins wtxNew vecSend nSplitBlock.toInt.toNat fuel

variable {wallet hashes sha settings}

/-- Without coin control it is the function of before. -/
theorem createTransactionFor_none {selectCoins : Int64 → Option (CoinSelection sha wallet)}
    {draw : Int64 → Nat} {wtxNew : CTransaction H} {vecSend : List Recipient} {nSplitBlock : Int32}
    {fuel : Nat} :
    createTransactionFor wallet hashes sha settings none selectCoins draw wtxNew vecSend nSplitBlock fuel =
      createTransaction sha wallet settings selectCoins draw wtxNew vecSend nSplitBlock.toInt.toNat fuel := by
  have hplace : wallet.placeChange hashes sha none draw =
      fun _ nFeeRet => wallet.withChange (draw nFeeRet) := by
    funext selection nFeeRet nChange vout
    simp only [placeChange, withChange, scriptChange, Option.map_map]
    rfl
  rw [createTransactionFor, createTransaction, hplace]

omit [TransOrd H] [DecidableEq H] in
/-- One more output at some place. -/
theorem sumValues_insertIdx {vout : List CTxOut} {i : Nat} (hi : i ≤ vout.length) (txout : CTxOut) :
    sumValues (vout.insertIdx i txout) = txout.nValue.toInt + sumValues vout := by
  have hperm := List.perm_insertIdx txout vout hi
  rw [sumValues_eq_exact, WrappedSum.exact_perm hperm, WrappedSum.exact_cons, ← sumValues_eq_exact]

/-- **The change is one output** where there is any, and changes nothing otherwise. -/
theorem sumValues_placeChange {coinControl : Option (CCoinControl H)} {draw : Int64 → Nat}
    {selection : CoinSelection sha wallet} {nFeeRet nChange : Int64} {vout changed : List CTxOut}
    (hchange : 0 ≤ nChange.toInt)
    (h : wallet.placeChange hashes sha coinControl draw selection nFeeRet nChange vout = some changed) :
    sumValues changed = sumValues vout + nChange.toInt := by
  rw [placeChange] at h
  split at h
  · obtain ⟨scriptChange, -, rfl⟩ := Option.map_eq_some_iff.mp h
    rw [sumValues_insertIdx (getRandInt_le _ _)]
    exact Int.add_comm _ _
  · rename_i hnone
    rw [gt_iff_lt, Int64.not_lt, Int64.le_iff_toInt_le, Int64.toInt_zero] at hnone
    rw [← Option.some.inj h]
    omega

end CWallet

/-!
## The scripts of signed inputs

`SignatureHash` clears the scripts of the inputs before it hashes a transaction.  A
signature therefore stays good while the other inputs are signed, and what
`SignSignature` checked after each input holds of the transaction in the end.
-/

open Option

section

variable {H : Type} {tx tx' : CTransaction H} {nIn : Nat}

theorem getElem?_of_unsigned (h : tx'.unsigned = tx.unsigned) {txin : CTxIn H}
    (hget : tx.vin[nIn]? = some txin) :
    ∃ txin' : CTxIn H, tx'.vin[nIn]? = some txin' ∧ txin'.prevout = txin.prevout ∧
      txin'.nSequence = txin.nSequence := by
  have hin := congrArg (fun tx => tx.vin[nIn]?) h
  simp only [CTransaction.unsigned, List.getElem?_map, hget, map_some] at hin
  obtain ⟨txin', hget', heq⟩ := map_eq_some_iff.mp hin
  have hprevout := congrArg CTxIn.prevout heq
  have hsequence := congrArg CTxIn.nSequence heq
  exact ⟨txin', hget', hprevout, hsequence⟩

theorem getElem?_none_of_unsigned (h : tx'.unsigned = tx.unsigned) (hget : tx.vin[nIn]? = none) :
    tx'.vin[nIn]? = none := by
  rw [List.getElem?_eq_none_iff] at hget ⊢
  rw [CTransaction.length_vin_of_unsigned h]
  exact hget

theorem signedCopy_of_unsigned (h : tx'.unsigned = tx.unsigned) {txin txin' : CTxIn H}
    (hprevout : txin'.prevout = txin.prevout) (hsequence : txin'.nSequence = txin.nSequence)
    (scriptCode : CScript) : tx'.signedCopy scriptCode nIn txin' = tx.signedCopy scriptCode nIn txin := by
  have hcopy : ∀ (tx : CTransaction H) (txin : CTxIn H), tx.signedCopy scriptCode nIn txin =
      { tx.unsigned with
        vin := tx.unsigned.vin.set nIn
          ⟨txin.prevout, CScript.findAndDelete [OP_CODESEPARATOR] scriptCode, txin.nSequence⟩ } :=
    fun _ _ => rfl
  rw [hcopy, hcopy, h, hprevout, hsequence]

namespace SigCrypto

variable (crypto : SigCrypto H)

/-- **What is signed** does not depend on the scripts of the inputs. -/
theorem signatureHash_of_unsigned (h : tx'.unsigned = tx.unsigned) (scriptCode : CScript)
    (nHashType : UInt8) : crypto.signatureHash scriptCode tx' nIn nHashType =
      crypto.signatureHash scriptCode tx nIn nHashType := by
  unfold signatureHash
  cases hget : tx.vin[nIn]? with
  | none => rw [getElem?_none_of_unsigned h hget]
  | some txin =>
    obtain ⟨txin', hget', hprevout, hsequence⟩ := getElem?_of_unsigned h hget
    rw [hget']
    simp only [signedCopy_of_unsigned h hprevout hsequence]

theorem checkSig_of_unsigned (h : tx'.unsigned = tx.unsigned) (nHashType : UInt8) :
    crypto.checkSig tx' nIn nHashType = crypto.checkSig tx nIn nHashType := by
  funext vchSig vchPubKey scriptCode
  unfold checkSig
  simp only [signatureHash_of_unsigned crypto h]

/-- **What `SignSignature` returns** is accepted for every transaction that differs in the
scripts of its inputs only. -/
theorem verifyScript_of_signSignature {keystore : CKeyStore H} {fromPubKey scriptSig : CScript}
    (hsign : crypto.signSignature keystore fromPubKey tx nIn = some scriptSig)
    (h : tx'.unsigned = tx.unsigned) :
    verifyScript crypto.hashes (crypto.checkSig tx' nIn 0) scriptSig fromPubKey = true := by
  unfold signSignature at hsign
  split at hsign
  · cases hsign
  · rename_i txin hget
    obtain ⟨-, hverify⟩ := filter_eq_some_iff.mp hsign
    have hset := CTransaction.unsigned_set hget scriptSig
    rw [checkSig_of_unsigned crypto (h.trans hset.symm)]
    exact hverify

end SigCrypto

end

namespace CWallet

variable {H : Type} [Ord H] [TransOrd H] {wallet : CWallet H} {tx tx' : CTransaction H}

/-- Every input spends an output of a transaction of the wallet, and `VerifyScript` accepts its
script for it. -/
def InputsAccepted (wallet : CWallet H) (crypto : SigCrypto H) (tx : CTransaction H) : Prop :=
  ∀ nIn txin, tx.vin[nIn]? = some txin → ∃ txout, wallet.prevOut txin.prevout = some txout ∧
    verifyScript crypto.hashes (crypto.checkSig tx nIn 0) txin.scriptSig txout.scriptPubKey = true

/-- **Signed coins are accepted**, whatever is signed after them. -/
theorem inputsAccepted_of_signCoins {crypto : SigCrypto H} {keystore : CKeyStore H}
    (hsignature : wallet.signSignature = crypto.signSignature keystore) {coins : List (COutput H)}
    (hvin : tx.vin.map CTxIn.prevout = coins.map COutput.prevout)
    (hfound : ∀ coin ∈ coins, wallet.prevOut coin.prevout = some coin.txout)
    (h : wallet.signCoins coins tx = some tx') : wallet.InputsAccepted crypto tx' := by
  intro nIn txin hget
  obtain ⟨hunsigned, hsigned⟩ := signCoins_signed h
  have hprevout := congrArg (fun prevouts => prevouts[nIn]?) ((signCoins_some h).vin.trans hvin)
  simp only [List.getElem?_map, hget, map_some] at hprevout
  obtain ⟨coin, hcoin, hsame⟩ := map_eq_some_iff.mp hprevout.symm
  obtain ⟨mid, signed, hmid, hin, hscript⟩ := hsigned nIn coin hcoin
  cases hin.symm.trans hget
  rw [hsignature] at hscript
  refine ⟨coin.txout, ?_, crypto.verifyScript_of_signSignature hscript (hunsigned.trans hmid.symm)⟩
  rw [← hsame]
  exact hfound coin (List.mem_of_getElem? hcoin)

end CWallet

end MaryJaneCoin
