import MaryJaneCoin.Chain.Identity
import MaryJaneCoin.Chain.Signing

/-!
# What a signature binds

`SignatureHash` hashes a copy of the transaction in which all scripts of inputs
are blank but one.  The copy determines the input that is signed and all other
fields, and it does not depend on the scripts that are blanked.
-/

namespace MaryJaneCoin

open List hiding Vector
open Codec PrefixCode

namespace CScript

theorem length_deleteHere_le (b : CScript) (fuel : Nat) (pc : CScript) :
    (deleteHere b fuel pc).length ≤ pc.length := by
  induction fuel generalizing pc with
  | zero => exact le_rfl
  | succ fuel ih =>
    rw [deleteHere]
    split
    · have hdrop := ih (pc.drop b.length)
      rw [length_drop] at hdrop
      omega
    · exact le_rfl

theorem length_deleteFrom_le (b : CScript) (fuel : Nat) (pc : CScript) :
    (deleteFrom b fuel pc).length ≤ pc.length := by
  induction fuel generalizing pc with
  | zero => exact le_rfl
  | succ fuel ih =>
    have hhere := length_deleteHere_le b pc.length pc
    rw [deleteFrom]
    split
    · exact hhere
    · rename_i opcode data rest hop
      have hrest := length_getOp hop
      have hmore := ih rest
      rw [length_append, length_take]
      omega

theorem length_findAndDelete_le (b script : CScript) : (findAndDelete b script).length ≤ script.length := by
  unfold findAndDelete
  split
  · exact le_rfl
  · exact length_deleteFrom_le b _ script

def signedCode (scriptCode : CScript) : CScript := findAndDelete [OP_CODESEPARATOR] scriptCode

theorem length_signedCode_le (scriptCode : CScript) : scriptCode.signedCode.length ≤ scriptCode.length :=
  length_findAndDelete_le _ scriptCode

end CScript

section

variable {H : Type}

/-- An input without its script. -/
def CTxIn.blank (txin : CTxIn H) : CTxIn H := { txin with scriptSig := [] }

namespace CTransaction

variable {tx tx' : CTransaction H} {nIn nIn' : Nat} {scriptCode scriptCode' : CScript}

/-- Other scripts in the inputs. -/
def withScripts (tx : CTransaction H) (scripts : Nat → CScript) : CTransaction H :=
  { tx with vin := tx.vin.mapIdx fun i txin => { txin with scriptSig := scripts i } }

theorem vin_signedCopy (txin : CTxIn H) : (tx.signedCopy scriptCode nIn txin).vin =
    (tx.vin.map CTxIn.blank).set nIn { txin with scriptSig := scriptCode.signedCode } := rfl

theorem scriptSig_signedCopy (scriptCode : CScript) (nIn : Nat) (txin : CTxIn H) {i : Nat}
    (hi : i < tx.vin.length) : ((tx.signedCopy scriptCode nIn txin).vin[i]?).map CTxIn.scriptSig =
      some (if i = nIn then scriptCode.signedCode else []) := by
  rw [vin_signedCopy, getElem?_set, length_map]
  by_cases hsame : nIn = i
  · subst hsame
    rw [if_pos rfl, if_pos hi, if_pos rfl]
    rfl
  · rw [if_neg hsame, if_neg fun heq => hsame heq.symm, getElem?_map, getElem?_eq_getElem hi]
    rfl

theorem blank_signedCopy {txin : CTxIn H} (hin : tx.vin[nIn]? = some txin) :
    (tx.signedCopy scriptCode nIn txin).vin.map CTxIn.blank = tx.vin.map CTxIn.blank := by
  obtain ⟨hlt, hget⟩ := List.getElem?_eq_some_iff.mp hin
  have hblank : (tx.vin.map CTxIn.blank).map CTxIn.blank = tx.vin.map CTxIn.blank := by
    rw [map_map]
    rfl
  rw [vin_signedCopy, map_set, hblank]
  apply ext_getElem?
  intro i
  rw [getElem?_set, length_map]
  split
  · rename_i hsame
    subst hsame
    rw [getElem?_map, hin]
    rfl
  · rfl

/-- The copy is counted like the transaction. -/
theorem Countable.signedCopy (h : tx.Countable) (hcode : scriptCode.length < 2 ^ 64)
    (txin : CTxIn H) : (tx.signedCopy scriptCode nIn txin).Countable := by
  refine ⟨?_, ?_, h.vout, h.scriptPubKey⟩
  · rw [vin_signedCopy, length_set, length_map]
    exact h.vin
  · intro other hother
    rw [vin_signedCopy] at hother
    rcases mem_or_eq_of_mem_set hother with hmem | heq
    · obtain ⟨original, _, hblank⟩ := mem_map.mp hmem
      rw [← hblank]
      exact Nat.zero_lt_of_lt hcode
    · rw [heq]
      exact Nat.lt_of_le_of_lt scriptCode.length_signedCode_le hcode

theorem signedCopy_withScripts (scripts : Nat → CScript) {txin txin' : CTxIn H}
    (hblank : txin.blank = txin'.blank) : (tx.withScripts scripts).signedCopy scriptCode nIn txin =
    tx.signedCopy scriptCode nIn txin' := by
  have hvin : (tx.withScripts scripts).vin.map CTxIn.blank = tx.vin.map CTxIn.blank := by
    apply ext_getElem?
    intro i
    rw [withScripts, getElem?_map, getElem?_mapIdx, getElem?_map, Option.map_map]
    rfl
  have hset : ({ txin with scriptSig := scriptCode.signedCode } : CTxIn H) =
      { txin' with scriptSig := scriptCode.signedCode } := by
    obtain ⟨_, _, _⟩ := txin
    obtain ⟨_, _, _⟩ := txin'
    injection hblank with hprevout _ hsequence
    rw [hprevout, hsequence]
  have hcopy : (tx.withScripts scripts).signedCopy scriptCode nIn txin =
      { tx with
        vin := ((tx.withScripts scripts).vin.map CTxIn.blank).set nIn
          ({ txin with scriptSig := scriptCode.signedCode }) } := rfl
  rw [hcopy, hvin, hset]
  rfl

/-- The fields of a transaction that a signature for all of it binds. -/
structure SameSigned (tx tx' : CTransaction H) : Prop where
  nVersion : tx.nVersion = tx'.nVersion
  nTime : tx.nTime = tx'.nTime
  prevouts : tx.vin.map CTxIn.prevout = tx'.vin.map CTxIn.prevout
  sequences : tx.vin.map CTxIn.nSequence = tx'.vin.map CTxIn.nSequence
  vout : tx.vout = tx'.vout
  nLockTime : tx.nLockTime = tx'.nLockTime
  mwPart : tx.mwPart = tx'.mwPart

end CTransaction

namespace SigCrypto

variable {crypto : SigCrypto H} {tx tx' : CTransaction H} {nIn nIn' : Nat}
  {scriptCode scriptCode' : CScript}

theorem signatureHash_all {txin : CTxIn H} (hin : tx.vin[nIn]? = some txin) :
    crypto.signatureHash scriptCode tx nIn SIGHASH_ALL =
      crypto.sha.sha256d ((tx.signedCopy scriptCode nIn txin).serialize ++ feedLE 4 SIGHASH_ALL.toNat) := by
  have hall : SIGHASH_ALL &&& 0x1f ≠ SIGHASH_NONE ∧ SIGHASH_ALL &&& 0x1f ≠ SIGHASH_SINGLE ∧
      ¬SIGHASH_ALL &&& SIGHASH_ANYONECANPAY ≠ 0 := by decide
  rw [signatureHash, hin]
  simp only [CTransaction.signedParts, if_neg hall.1, if_neg hall.2.1, if_neg hall.2.2]

/-- **A signature hash for all of a transaction** determines the input, the code
and what is signed of the transaction. -/
theorem signatureHash_all_inj (hinj : Function.Injective crypto.sha.sha256) (htx : tx.Countable)
    (htx' : tx'.Countable) (hcode : scriptCode.length < 2 ^ 64) (hcode' : scriptCode'.length < 2 ^ 64)
    (hin : nIn < tx.vin.length) (hin' : nIn' < tx'.vin.length) (hne : scriptCode.signedCode ≠ [])
    (heq : crypto.signatureHash scriptCode tx nIn SIGHASH_ALL =
      crypto.signatureHash scriptCode' tx' nIn' SIGHASH_ALL) :
    nIn = nIn' ∧ scriptCode.signedCode = scriptCode'.signedCode ∧ tx.SameSigned tx' := by
  have hget := getElem?_eq_getElem hin
  have hget' := getElem?_eq_getElem hin'
  rw [signatureHash_all hget, signatureHash_all hget'] at heq
  obtain ⟨⟨hversion, htime, hvin, hvout, hlock⟩, hpart⟩ :=
    CTransaction.eq_of_serialize_append (htx.signedCopy hcode _) (htx'.signedCopy hcode' _)
      (Sha256.sha256d_injective hinj heq)
  have hblank : tx.vin.map CTxIn.blank = tx'.vin.map CTxIn.blank := by
    rw [← CTransaction.blank_signedCopy hget, hvin, CTransaction.blank_signedCopy hget']
  have hlength : tx.vin.length = tx'.vin.length := by
    have := congrArg List.length hblank
    rwa [length_map, length_map] at this
  -- the signed input is the one with a script
  have hscript := CTransaction.scriptSig_signedCopy scriptCode nIn tx.vin[nIn] hin
  rw [hvin, CTransaction.scriptSig_signedCopy _ _ _ (hlength ▸ hin), if_pos rfl] at hscript
  have hcodes := Option.some.inj hscript
  have hindex : nIn = nIn' := by
    by_contra hother
    rw [if_neg hother] at hcodes
    exact hne hcodes.symm
  rw [if_pos hindex] at hcodes
  refine ⟨hindex, hcodes.symm, hversion, htime, ?_, ?_, hvout, hlock, ?_⟩
  · have hfield := congrArg (List.map CTxIn.prevout) hblank
    rw [map_map, map_map] at hfield
    exact hfield
  · have hfield := congrArg (List.map CTxIn.nSequence) hblank
    rw [map_map, map_map] at hfield
    exact hfield
  · exact feed_inj (append_cancel_right hpart)

/-- **Scripts of inputs are not signed**, whatever the hash type. -/
theorem signatureHash_withScripts (crypto : SigCrypto H) (scriptCode : CScript)
    (tx : CTransaction H) (nIn : Nat) (nHashType : UInt8) (scripts : Nat → CScript) :
    crypto.signatureHash scriptCode (tx.withScripts scripts) nIn nHashType =
      crypto.signatureHash scriptCode tx nIn nHashType := by
  have hget : (tx.withScripts scripts).vin[nIn]? =
      tx.vin[nIn]?.map fun txin => { txin with scriptSig := scripts nIn } := getElem?_mapIdx
  unfold signatureHash
  rw [hget]
  cases tx.vin[nIn]? with
  | none => rfl
  | some txin =>
    simp only [Option.map_some]
    have hblank : ({ txin with scriptSig := scripts nIn } : CTxIn H).blank = txin.blank := rfl
    rw [CTransaction.signedCopy_withScripts scripts hblank]

/-- **Signatures bind the whole transaction**, and nothing of the scripts that
spend its inputs. -/
theorem signatures_bind_transaction (hinj : Function.Injective crypto.sha.sha256) :
    (∀ (tx tx' : CTransaction H) (nIn nIn' : Nat) (scriptCode scriptCode' : CScript),
      tx.Countable → tx'.Countable → scriptCode.length < 2 ^ 64 → scriptCode'.length < 2 ^ 64 →
      nIn < tx.vin.length → nIn' < tx'.vin.length → scriptCode.signedCode ≠ [] →
      crypto.signatureHash scriptCode tx nIn SIGHASH_ALL =
        crypto.signatureHash scriptCode' tx' nIn' SIGHASH_ALL →
      nIn = nIn' ∧ scriptCode.signedCode = scriptCode'.signedCode ∧ tx.SameSigned tx') ∧
    ∀ (tx : CTransaction H) (scripts : Nat → CScript) (nIn : Nat) (scriptCode : CScript),
      crypto.signatureHash scriptCode (tx.withScripts scripts) nIn SIGHASH_ALL =
        crypto.signatureHash scriptCode tx nIn SIGHASH_ALL := by
  constructor
  · intro tx tx' nIn nIn' scriptCode scriptCode' htx htx' hcode hcode' hin hin' hne heq
    exact signatureHash_all_inj hinj htx htx' hcode hcode' hin hin' hne heq
  · intro tx scripts nIn scriptCode
    exact signatureHash_withScripts crypto scriptCode tx nIn SIGHASH_ALL scripts

end SigCrypto

end

/-- Signatures over hashes that hide nothing. -/
def openCrypto : SigCrypto (List Nat) where
  sha := transparent
  hashes := ⟨fun _ => Vector.replicate 20 0, fun _ => Vector.replicate 20 0, fun _ => Vector.replicate 32 0⟩
  one := [1]
  verify _ _ _ := false

/-- A payment of two coins out of two outputs. -/
def twoInputs : CTransaction (List Nat) :=
  sampleTx 5 [⟨⟨[7], 0⟩, [1], 0⟩, ⟨⟨[8], 1⟩, [2], 0⟩] [⟨2 * COIN, [OP_1]⟩]

theorem signatures_bind_transaction_twoInputs : openCrypto.signatureHash [OP_1] twoInputs 0 SIGHASH_ALL ≠
        openCrypto.signatureHash [OP_1] twoInputs 1 SIGHASH_ALL ∧
      openCrypto.signatureHash [OP_1] (twoInputs.withScripts fun _ => []) 1 SIGHASH_ALL =
        openCrypto.signatureHash [OP_1] twoInputs 1 SIGHASH_ALL := by
  have hbinds := @SigCrypto.signatures_bind_transaction _ openCrypto Node.transparent_injective
  have hcount : twoInputs.Countable := ⟨by decide, by decide, by decide, by decide⟩
  refine ⟨fun heq => ?_, hbinds.2 twoInputs (fun _ => []) 1 [OP_1]⟩
  have hindex := (hbinds.1 twoInputs twoInputs 0 1 [OP_1] [OP_1] hcount hcount (by decide)
    (by decide) (by decide) (by decide) (by decide) heq).1
  exact absurd hindex (by decide)

end MaryJaneCoin
