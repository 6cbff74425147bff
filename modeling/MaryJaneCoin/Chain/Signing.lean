import MaryJaneCoin.Chain.Interpreter
import MaryJaneCoin.Chain.Transaction

/-!
# Signatures of transparent inputs

`SignatureHash`, `CheckSig`, `VerifyScript` and `VerifySignature` of
`script.cpp`.  What a signature commits to is the serialization of a changed
copy of the transaction, which starts with the version.
-/

namespace MaryJaneCoin

open Codec

def SIGHASH_ALL : UInt8 := 1
def SIGHASH_NONE : UInt8 := 2
def SIGHASH_SINGLE : UInt8 := 3
def SIGHASH_ANYONECANPAY : UInt8 := 0x80

/-- The hash functions, the digest `1`, and the test of a signature under a
public key (`CKey::SetPubKey` and `CKey::Verify`). -/
structure SigCrypto (H : Type) where
  sha : Sha256 H
  hashes : ScriptHashes
  one : H
  verify : Bytes → H → Bytes → Bool

/-- The digest of a transaction commits to its version, as it does when no two
preimages share a digest. -/
def CommitsToVersion {H : Type} (sha : Sha256 H) : Prop :=
  ∀ nVersion nVersion' : Int32, ∀ rest rest' : Preimage H,
    sha.sha256d (feed (putInt32 nVersion) ++ rest) =
      sha.sha256d (feed (putInt32 nVersion') ++ rest') → nVersion = nVersion'

section

variable {H : Type}

/-- `nSequence` is cleared in the other inputs. -/
def clearOtherSequences (nIn : Nat) (vin : List (CTxIn H)) : List (CTxIn H) :=
  vin.mapIdx fun i txin => if i = nIn then txin else { txin with nSequence := 0 }

/-- `CTxOut::SetNull`. -/
def CTxOut.null : CTxOut := ⟨-1, []⟩

/-- The copy that `SignatureHash` makes, with the signed script in its input. -/
def CTransaction.signedCopy (scriptCode : CScript) (txTo : CTransaction H) (nIn : Nat)
    (txin : CTxIn H) : CTransaction H :=
  { txTo with
    vin := (txTo.vin.map fun txin => { txin with scriptSig := [] }).set nIn
      { txin with scriptSig := CScript.findAndDelete [OP_CODESEPARATOR] scriptCode } }

/-- What the hash type leaves of the copy; `none` where the output of
`SIGHASH_SINGLE` is missing. -/
def CTransaction.signedParts (nIn : Nat) (nHashType : UInt8) (txTmp : CTransaction H) :
    Option (CTransaction H) :=
  if nHashType &&& 0x1f = SIGHASH_NONE then
    some { txTmp with vin := clearOtherSequences nIn txTmp.vin, vout := [] }
  else if nHashType &&& 0x1f = SIGHASH_SINGLE then
    txTmp.vout[nIn]?.map fun txout =>
      { txTmp with
        vin := clearOtherSequences nIn txTmp.vin
        vout := List.replicate nIn CTxOut.null ++ [txout] }
  else some txTmp

namespace SigCrypto

variable (crypto : SigCrypto H)

def signatureHash (scriptCode : CScript) (txTo : CTransaction H) (nIn : Nat) (nHashType : UInt8) :
    H :=
  match txTo.vin[nIn]? with
  | none => crypto.one
  | some txin =>
    match (txTo.signedCopy scriptCode nIn txin).signedParts nIn nHashType with
    | none => crypto.one
    | some txTmp =>
      let txTmp :=
        if nHashType &&& SIGHASH_ANYONECANPAY ≠ 0 then
          { txTmp with vin := txTmp.vin[nIn]?.toList }
        else txTmp
      crypto.sha.sha256d (txTmp.serialize ++ feedLE 4 nHashType.toNat)

/-- `CheckSig`; a hash type of zero stands for the one in the signature. -/
def checkSig (txTo : CTransaction H) (nIn : Nat) (nHashType : UInt8) : SigCheck :=
  fun vchSig vchPubKey scriptCode =>
    match vchSig.getLast? with
    | none => false
    | some last =>
      if nHashType ≠ 0 && nHashType ≠ last then false
      else crypto.verify vchPubKey (crypto.signatureHash scriptCode txTo nIn last) vchSig.dropLast

end SigCrypto

/-- The loop of `CScript::IsPushOnly`. -/
def CScript.pushOnlyLoop : Nat → CScript → Bool
  | _, [] => true
  | 0, _ :: _ => false
  | fuel + 1, pc =>
    match CScript.getOp pc with
    | none => false
    | some (opcode, _, rest) => opcode ≤ OP_16 && pushOnlyLoop fuel rest

def CScript.isPushOnly (script : CScript) : Bool := pushOnlyLoop script.length script

/-- The last value on a stack is true. -/
def topIsTrue : Option (List Bytes) → Bool
  | some (vch :: _) => castToBool vch
  | _ => false

/-- `VerifyScript`, for the test of signatures that it makes. -/
def verifyScript (hashes : ScriptHashes) (check : SigCheck) (scriptSig scriptPubKey : CScript) :
    Bool :=
  match evalScript hashes check [] scriptSig with
  | none => false
  | some stack =>
    topIsTrue (evalScript hashes check stack scriptPubKey) &&
      (!CScript.isPayToScriptHash scriptPubKey ||
        (CScript.isPushOnly scriptSig &&
          match stack with
          | [] => false
          | pubKeySerialized :: stack => topIsTrue (evalScript hashes check stack pubKeySerialized)))

namespace SigCrypto

variable (crypto : SigCrypto H)

def verifySignature [DecidableEq H] (txFrom txTo : CTransaction H) (nIn : Nat) (nHashType : UInt8) :
    Bool :=
  match txTo.vin[nIn]? with
  | none => false
  | some txin =>
    match txFrom.vout[txin.prevout.n.toNat]? with
    | none => false
    | some txout =>
      txin.prevout.hash == txFrom.getHash crypto.sha &&
        verifyScript crypto.hashes (crypto.checkSig txTo nIn nHashType) txin.scriptSig
          txout.scriptPubKey

/-- **A signature for all of a transaction commits to the version.** -/
theorem signatureHash_version (hcommits : CommitsToVersion crypto.sha) {scriptCode scriptCode' : CScript}
    {tx tx' : CTransaction H} {nIn : Nat} (hin : nIn < tx.vin.length) (hin' : nIn < tx'.vin.length)
    (h : crypto.signatureHash scriptCode tx nIn SIGHASH_ALL =
      crypto.signatureHash scriptCode' tx' nIn SIGHASH_ALL) : tx.nVersion = tx'.nVersion := by
  have hhash : ∀ (code : CScript) (tx : CTransaction H) (hin : nIn < tx.vin.length),
      ∃ rest, crypto.signatureHash code tx nIn SIGHASH_ALL =
        crypto.sha.sha256d (feed (putInt32 tx.nVersion) ++ rest) := by
    intro code tx hin
    have hall : SIGHASH_ALL &&& 0x1f ≠ SIGHASH_NONE ∧ SIGHASH_ALL &&& 0x1f ≠ SIGHASH_SINGLE ∧
        ¬SIGHASH_ALL &&& SIGHASH_ANYONECANPAY ≠ 0 := by decide
    rw [signatureHash, List.getElem?_eq_getElem hin]
    simp only [CTransaction.signedParts, if_neg hall.1, if_neg hall.2.1, if_neg hall.2.2]
    rw [CTransaction.serialize, List.append_assoc]
    exact ⟨_, rfl⟩
  obtain ⟨rest, hrest⟩ := hhash scriptCode tx hin
  obtain ⟨rest', hrest'⟩ := hhash scriptCode' tx' hin'
  rw [hrest, hrest'] at h
  exact hcommits _ _ rest rest' h

end SigCrypto

end

end MaryJaneCoin
