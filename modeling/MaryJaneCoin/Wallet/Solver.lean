import MaryJaneCoin.Chain.Signing
import MaryJaneCoin.Wallet.CWallet

/-!
# Script templates and signing

`Solver` matches a script with the standard templates; the wallet signs what it
can solve.  `SignSignature` ends with a run of the interpreter on its own work.
-/

namespace MaryJaneCoin

open Codec CScript

def OP_SMALLINTEGER : UInt8 := 0xfa
def OP_PUBKEYS : UInt8 := 0xfb
def OP_PUBKEYHASH : UInt8 := 0xfd
def OP_PUBKEY : UInt8 := 0xfe

/-- `txnouttype`, without `TX_NONSTANDARD`, for which `Solver` fails. -/
inductive TxnOutType where
  | TX_PUBKEY
  | TX_PUBKEYHASH
  | TX_SCRIPTHASH
  | TX_MULTISIG
  | TX_NULL_DATA
deriving DecidableEq

/-- The templates in the order of their types.  They push nothing, so each of
their bytes is an opcode. -/
def mTemplates : List (TxnOutType × List UInt8) :=
  [(.TX_PUBKEY, [OP_PUBKEY, OP_CHECKSIG]),
   (.TX_PUBKEYHASH, [OP_DUP, OP_HASH160, OP_PUBKEYHASH, OP_EQUALVERIFY, OP_CHECKSIG]),
   (.TX_MULTISIG, [OP_SMALLINTEGER, OP_PUBKEYS, OP_SMALLINTEGER, OP_CHECKMULTISIG])]

/-- The size of a public key on the stack. -/
def isPubKeySize (vch : Bytes) : Bool := 33 ≤ vch.length && vch.length ≤ 120

/-- The keys that `OP_PUBKEYS` takes, and the operation behind them.  Every key
takes at least one byte. -/
def readPubKeys : Nat → UInt8 → Bytes → CScript → Option (List Bytes × UInt8 × Bytes × CScript)
  | 0, opcode1, vch1, pc1 => if isPubKeySize vch1 then none else some ([], opcode1, vch1, pc1)
  | fuel + 1, opcode1, vch1, pc1 =>
    if isPubKeySize vch1 then
      (getOp pc1).bind fun (opcode, vch, pc) =>
        (readPubKeys fuel opcode vch pc).map fun (keys, behind) => (vch1 :: keys, behind)
    else some ([], opcode1, vch1, pc1)

/-- One operation of a script against one opcode of a template: the solutions. -/
def matchOp (opcode2 opcode1 : UInt8) (vch1 : Bytes) : Option (List Bytes) :=
  if opcode2 = OP_PUBKEY then if isPubKeySize vch1 then some [vch1] else none
  else if opcode2 = OP_PUBKEYHASH then if vch1.length = 20 then some [vch1] else none
  else if opcode2 = OP_SMALLINTEGER then
    if opcode1 = 0 then some [[0]]
    else if OP_1 ≤ opcode1 && opcode1 ≤ OP_16 then some [[opcode1 - 0x50]]
    else none
  else if opcode1 ≠ opcode2 || !vch1.isEmpty then none
  else some []

/-- The matching loop of `Solver`. -/
def matchTemplate : List UInt8 → CScript → Option (List Bytes)
  | [], pc1 => if pc1.isEmpty then some [] else none
  | opcode2 :: pc2, pc1 =>
    (getOp pc1).bind fun (opcode1, vch1, pc1) =>
      if opcode2 = OP_PUBKEYS then
        match pc2 with
        | [] => none
        | opcode2 :: pc2 =>
          (readPubKeys pc1.length opcode1 vch1 pc1).bind fun (keys, opcode1, vch1, pc1) =>
            (matchOp opcode2 opcode1 vch1).bind fun found =>
              (matchTemplate pc2 pc1).map fun solutions => keys ++ found ++ solutions
      else
        (matchOp opcode2 opcode1 vch1).bind fun found =>
          (matchTemplate pc2 pc1).map fun solutions => found ++ solutions

/-- The numbers of a multisignature fit its keys. -/
def multisigCounts (vSolutions : List Bytes) : Bool :=
  let m := (vSolutions.headD []).headD 0
  let n := (vSolutions.getLastD []).headD 0
  1 ≤ m && 1 ≤ n && m ≤ n && vSolutions.length - 2 == n.toNat

/-- `Solver`: the type of a script and its parts. -/
def solver (scriptPubKey : CScript) : Option (TxnOutType × List Bytes) :=
  if isPayToScriptHash scriptPubKey then
    some (.TX_SCRIPTHASH, [(scriptPubKey.drop 2).take 20])
  else if scriptPubKey.head? = some OP_RETURN then
    if scriptPubKey.length ≤ 83 then some (.TX_NULL_DATA, []) else none
  else
    match mTemplates.findSome? fun tplate =>
        (matchTemplate tplate.2 scriptPubKey).map fun vSolutions => (tplate.1, vSolutions) with
    | none => none
    | some (typeRet, vSolutions) =>
      if typeRet = .TX_MULTISIG && !multisigCounts vSolutions then none
      else some (typeRet, vSolutions)

/-- A key as far as it signs: its public key, and the signature that it makes. -/
structure CKey (H : Type) where
  pubKey : Bytes
  sign : H → Option Bytes

structure CKeyStore (H : Type) where
  getKey : CKeyID → Option (CKey H)
  getCScript : Vector UInt8 20 → Option CScript

/-- A hash of 20 bytes that stands in a script. -/
def uint160 (vch : Bytes) : Vector UInt8 20 := Vector.ofFn fun i => vch.getD i 0

def extractDestination (hashes : ScriptHashes) (scriptPubKey : CScript) : Option CTxDestination :=
  match solver scriptPubKey with
  | some (.TX_PUBKEY, vSolutions) => some (.keyID (hashes.hash160 (vSolutions.headD [])))
  | some (.TX_PUBKEYHASH, vSolutions) => some (.keyID (uint160 (vSolutions.headD [])))
  | some (.TX_SCRIPTHASH, vSolutions) => some (.scriptID (uint160 (vSolutions.headD [])))
  | _ => none

namespace SigCrypto

variable {H : Type} (crypto : SigCrypto H) (keystore : CKeyStore H)

/-- `Sign1`: the signature that it pushes. -/
def sign1 (keyID : CKeyID) (hash : H) (nHashType : UInt8) : Option Bytes :=
  (keystore.getKey keyID).bind fun key => (key.sign hash).map fun vchSig => vchSig ++ [nHashType]

/-- The loop of `SignN`: the signatures that it pushes. -/
def signLoop (hash : H) (nHashType : UInt8) : Nat → List Bytes → List Bytes
  | 0, _ => []
  | _ + 1, [] => []
  | nLeft + 1, pubkey :: keys =>
    match sign1 keystore (crypto.hashes.hash160 pubkey) hash nHashType with
    | some vchSig => vchSig :: signLoop hash nHashType nLeft keys
    | none => signLoop hash nHashType (nLeft + 1) keys

def signN (multisigdata : List Bytes) (hash : H) (nHashType : UInt8) : Option (List Bytes) :=
  let nRequired := ((multisigdata.headD []).headD 0).toNat
  let sigs := crypto.signLoop keystore hash nHashType nRequired multisigdata.tail.dropLast
  if sigs.length = nRequired then some sigs else none

/-- `Solver` with the key store: the script that it makes, and the type. -/
def solverSign (scriptPubKey : CScript) (hash : H) (nHashType : UInt8) :
    Option (CScript × TxnOutType) :=
  match solver scriptPubKey with
  | none => none
  | some (.TX_PUBKEY, vSolutions) =>
    (sign1 keystore (crypto.hashes.hash160 (vSolutions.headD [])) hash nHashType).map
      fun vchSig => (pushData vchSig, .TX_PUBKEY)
  | some (.TX_PUBKEYHASH, vSolutions) =>
    let keyID := uint160 (vSolutions.headD [])
    (sign1 keystore keyID hash nHashType).map fun vchSig =>
      (pushData vchSig ++
        pushData ((keystore.getKey keyID).elim [] CKey.pubKey), .TX_PUBKEYHASH)
  | some (.TX_SCRIPTHASH, vSolutions) =>
    (keystore.getCScript (uint160 (vSolutions.headD []))).map fun subscript =>
      (subscript, .TX_SCRIPTHASH)
  | some (.TX_MULTISIG, vSolutions) =>
    (crypto.signN keystore vSolutions hash nHashType).map fun sigs =>
      (0 :: sigs.flatMap pushData, .TX_MULTISIG)
  | some (.TX_NULL_DATA, _) => none

/-- The script that `SignSignature` makes, before it is checked. -/
def makeScriptSig (fromPubKey : CScript) (txTo : CTransaction H) (nIn : Nat) (nHashType : UInt8) :
    Option CScript :=
  (crypto.solverSign keystore fromPubKey (crypto.signatureHash fromPubKey txTo nIn nHashType)
      nHashType).bind fun (scriptSig, whichType) =>
    if whichType = .TX_SCRIPTHASH then
      let subscript := scriptSig
      (crypto.solverSign keystore subscript (crypto.signatureHash subscript txTo nIn nHashType)
          nHashType).bind fun (scriptSig, subType) =>
        if subType = .TX_SCRIPTHASH then none else some (scriptSig ++ pushData subscript)
    else some scriptSig

def signSignature (fromPubKey : CScript) (txTo : CTransaction H) (nIn : Nat) : Option CScript :=
  match txTo.vin[nIn]? with
  | none => none
  | some txin =>
    (crypto.makeScriptSig keystore fromPubKey txTo nIn SIGHASH_ALL).filter fun scriptSig =>
      let txTo := { txTo with vin := txTo.vin.set nIn { txin with scriptSig } }
      verifyScript crypto.hashes (crypto.checkSig txTo nIn 0) scriptSig fromPubKey

end SigCrypto

end MaryJaneCoin
