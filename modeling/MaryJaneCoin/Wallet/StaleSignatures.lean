import MaryJaneCoin.Wallet.Solver

/-!
# Signatures for another transaction

The standard templates ask for at least one signature.  So a script that the
wallet made for one transaction does not satisfy an input of another one whose
signature hashes are different: every signature in it is stale there.
-/

namespace MaryJaneCoin

open Codec List Option CScript

/-- ECDSA as it is meant to be: a signature verifies for the signed hash, and for
no other one. -/
structure ExactSignatures {H : Type} (crypto : SigCrypto H) (keystore : CKeyStore H) : Prop where
  verifies : ∀ keyID key hash vchSig, keystore.getKey keyID = some key →
    key.sign hash = some vchSig → crypto.verify key.pubKey hash vchSig = true
  hash_eq : ∀ keyID key hash vchSig, keystore.getKey keyID = some key → key.sign hash =
    some vchSig → ∀ vchPubKey hash', crypto.verify vchPubKey hash' vchSig = true → hash' = hash

section

variable {hashes : ScriptHashes} {check : SigCheck}

/-- A signature that the test accepts for no key. -/
def Stale (check : SigCheck) (vchSig : Bytes) : Prop :=
  ∀ vchPubKey code, check vchSig vchPubKey code = false

variable {vSolutions : List Bytes}

theorem solver_template {scriptPubKey : CScript} {typeRet : TxnOutType}
    (h : solver scriptPubKey = some (typeRet, vSolutions)) (hscript : typeRet ≠ .TX_SCRIPTHASH)
    (hdata : typeRet ≠ .TX_NULL_DATA) :
    ∃ template, (typeRet, template) ∈ mTemplates ∧ matchTemplate template scriptPubKey =
      some vSolutions ∧ (typeRet = .TX_MULTISIG → multisigCounts vSolutions = true) := by
  rw [solver] at h
  split at h
  · cases h
    exact absurd rfl hscript
  · split at h
    · split at h
      · cases h
        exact absurd rfl hdata
      · cases h
    · split at h
      · cases h
      · rename_i found solutions hfind
        obtain ⟨tplate, hmem, hmatch⟩ := exists_of_findSome?_eq_some hfind
        obtain ⟨matched, hmatched, heq⟩ := map_eq_some_iff.mp hmatch
        cases heq
        split at h
        · cases h
        · rename_i hcounts
          cases h
          refine ⟨tplate.2, hmem, hmatched, fun htype => ?_⟩
          simpa [htype] using hcounts

theorem solver_scriptHash {scriptPubKey : CScript}
    (h : solver scriptPubKey = some (.TX_SCRIPTHASH, vSolutions)) :
    isPayToScriptHash scriptPubKey = true := by
  rw [solver] at h
  split at h
  · assumption
  · split at h
    · split at h
      · cases h
      · cases h
    · split at h
      · cases h
      · rename_i found solutions hfind
        obtain ⟨tplate, hmem, hmatch⟩ := exists_of_findSome?_eq_some hfind
        obtain ⟨matched, -, heq⟩ := map_eq_some_iff.mp hmatch
        cases heq
        split at h
        · cases h
        · have htype : tplate.1 = .TX_SCRIPTHASH := congrArg Prod.fst (Option.some.inj h)
          simp only [mTemplates, List.mem_cons, not_mem_nil, or_false] at hmem
          rcases hmem with rfl | rfl | rfl
          · cases htype
          · cases htype
          · cases htype

variable {script : CScript} {opcode : UInt8}

theorem matchTemplate_op {template : List UInt8}
    (hop : opcode ≠ OP_PUBKEYS ∧ opcode ≠ OP_PUBKEY ∧ opcode ≠ OP_PUBKEYHASH ∧
    opcode ≠ OP_SMALLINTEGER) (h : matchTemplate (opcode :: template) script = some vSolutions) :
    ∃ rest, getOp script = some (opcode, [], rest) ∧
      matchTemplate template rest = some vSolutions := by
  rw [matchTemplate] at h
  obtain ⟨⟨opcode1, vch1, rest⟩, hget, hrest⟩ := bind_eq_some_iff.mp h
  simp only [if_neg hop.1] at hrest
  obtain ⟨found, hfound, hsolutions⟩ := bind_eq_some_iff.mp hrest
  obtain ⟨solutions, hmatch, heq⟩ := map_eq_some_iff.mp hsolutions
  rw [matchOp, if_neg hop.2.1, if_neg hop.2.2.1, if_neg hop.2.2.2] at hfound
  split at hfound
  · cases hfound
  · rename_i hsame
    cases hfound
    simp only [Bool.or_eq_true, decide_eq_true_eq, Bool.not_eq_true', not_or, not_not,
      Bool.not_eq_false, List.isEmpty_iff] at hsame
    obtain ⟨rfl, rfl⟩ := hsame
    refine ⟨rest, hget, ?_⟩
    rw [hmatch, ← heq]
    rfl

theorem matchTemplate_end
    (h : matchTemplate [] script = some vSolutions) : script = [] ∧ vSolutions = [] := by
  rw [matchTemplate] at h
  split at h
  · rename_i hempty
    exact ⟨List.isEmpty_iff.mp hempty, (Option.some.inj h).symm⟩
  · cases h

variable {st after : EvalState} {pc rest : CScript}

variable {data : Bytes}

theorem leads_push
    (hexec : st.vfExec = []) (hget : getOp pc = some (opcode, data, rest)) (hdata : data ≠ [])
    (h : Leads hashes check pc st after) :
    ∃ mid, mid.stack = data :: st.stack ∧ mid.vfExec = [] ∧ Leads hashes check rest mid after := by
  obtain ⟨mid, hmid, hrest⟩ := leads_op h hget
  obtain ⟨hstack, hmidExec⟩ := evalOp_push hexec (getOp_data hget hdata) hmid
  exact ⟨mid, hstack, hmidExec, hrest⟩

theorem leads_stackOp (hexec : st.vfExec = []) (hget : getOp pc = some (opcode, data, rest))
    (hop : OP_PUSHDATA4 < opcode) (hplain : ∀ st, execOp hashes check opcode true rest st =
      (stackOp hashes opcode st.stack).map fun stack => { st with stack })
    (h : Leads hashes check pc st after) :
    ∃ mid, stackOp hashes opcode st.stack = some mid.stack ∧ mid.vfExec = [] ∧
      Leads hashes check rest mid after := by
  obtain ⟨mid, hmid, hrest⟩ := leads_op h hget
  obtain ⟨nOpCount, hexecOp⟩ := evalOp_exec hexec hop hmid
  rw [hplain] at hexecOp
  obtain ⟨stack, hstack, rfl⟩ := map_eq_some_iff.mp hexecOp
  exact ⟨{ st with stack, nOpCount }, hstack, hexec, hrest⟩

theorem leads_small (hexec : st.vfExec = []) (hget : getOp pc = some (opcode, data, rest))
    (hlow : OP_1 ≤ opcode) (hhigh : opcode ≤ OP_16) (h : Leads hashes check pc st after) :
    ∃ mid, mid.stack = bigNumVch (opcode - 0x50).toNat :: st.stack ∧ mid.vfExec = [] ∧
      Leads hashes check rest mid after := by
  obtain ⟨k, hpos, hle, rfl⟩ : ∃ k, 1 ≤ k ∧ k ≤ 16 ∧ opcode = UInt8.ofNat (0x50 + k) := by
    rw [UInt8.le_iff_toNat_le] at hlow hhigh
    have hone : OP_1.toNat = 0x51 := rfl
    have hsixteen : OP_16.toNat = 0x60 := rfl
    refine ⟨opcode.toNat - 0x50, by omega, by omega, ?_⟩
    rw [Nat.add_sub_cancel' (by omega), UInt8.ofNat_toNat]
  have hop : OP_PUSHDATA4 < UInt8.ofNat (0x50 + k) := by interval_cases k <;> decide
  have hplain : ∀ st, execOp hashes check (UInt8.ofNat (0x50 + k)) true rest st =
      (stackOp hashes (UInt8.ofNat (0x50 + k)) st.stack).map fun stack => { st with stack } := by
    interval_cases k <;> exact fun _ => rfl
  obtain ⟨mid, hstack, hmidExec, hrest⟩ := leads_stackOp hexec hget hop hplain h
  refine ⟨mid, ?_, hmidExec, hrest⟩
  have hpush : stackOp hashes (UInt8.ofNat (0x50 + k)) st.stack =
      some (bigNumVch (UInt8.ofNat (0x50 + k) - 0x50).toNat :: st.stack) := by
    interval_cases k <;> rfl
  rw [hpush] at hstack
  exact (Option.some.inj hstack).symm

theorem leads_checkSig {pc : CScript} {vchSig vchPubKey : Bytes}
    {below : List Bytes} (hexec : st.vfExec = []) (hget : getOp pc = some (OP_CHECKSIG, [], []))
    (hstack : st.stack = vchPubKey :: vchSig :: below) (hstale : Stale check vchSig)
    (h : Leads hashes check pc st after) : after.stack = vchFalse :: below := by
  obtain ⟨mid, hmid, hrest⟩ := leads_op h hget
  obtain ⟨nOpCount, hexecOp⟩ := evalOp_exec hexec (by decide) hmid
  have hfalse : ∀ codehash, checkOneSig check codehash vchSig vchPubKey = false := by
    intro codehash
    rw [checkOneSig, hstale, Bool.and_false]
  have hdone : execOp hashes check OP_CHECKSIG true [] { st with nOpCount } =
      some { st with stack := vchFalse :: below, nOpCount } := by
    rw [execOp, if_neg (by decide), if_neg (by decide), if_neg (by decide), if_neg (by decide),
      if_pos (by decide)]
    simp only [hstack, hfalse]
    rfl
  rw [hdone] at hexecOp
  rw [leads_nil hrest, ← Option.some.inj hexecOp]

theorem topIsTrue_false {stack : List Bytes}
    (h : ∀ after, Leads hashes check script ⟨stack, [], [], 0, script⟩ after →
      ∃ below, after.stack = vchFalse :: below) :
    topIsTrue (evalScript hashes check stack script) = false := by
  cases heval : evalScript hashes check stack script with
  | none => rfl
  | some result =>
    obtain ⟨-, after, hleads, rfl⟩ := leads_of_evalScript heval
    obtain ⟨below, hbelow⟩ := h after hleads
    rw [hbelow]
    rfl

theorem isPubKeySize_ne {vch : Bytes} (h : isPubKeySize vch = true) : vch ≠ [] := by
  intro hnil
  rw [hnil] at h
  cases h

theorem pubKey_stale {vchSig : Bytes}
    (hmatch : matchTemplate [OP_PUBKEY, OP_CHECKSIG] script = some vSolutions)
    (hstale : Stale check vchSig) : topIsTrue (evalScript hashes check [vchSig] script) = false := by
  apply topIsTrue_false
  intro after hleads
  rw [matchTemplate] at hmatch
  obtain ⟨⟨opcode, vchPubKey, rest⟩, hget, hrest⟩ := bind_eq_some_iff.mp hmatch
  simp only [if_neg (show OP_PUBKEY ≠ OP_PUBKEYS by decide)] at hrest
  obtain ⟨found, hfound, hsolutions⟩ := bind_eq_some_iff.mp hrest
  obtain ⟨solutions, hend, -⟩ := map_eq_some_iff.mp hsolutions
  rw [matchOp, if_pos rfl] at hfound
  split at hfound
  · rename_i hsize
    obtain ⟨mid, hmid, hexec, hleads⟩ := leads_push rfl hget (isPubKeySize_ne hsize) hleads
    obtain ⟨behind, hcheck, hempty⟩ := matchTemplate_op (by decide) hend
    obtain ⟨rfl, -⟩ := matchTemplate_end hempty
    exact ⟨[], leads_checkSig hexec hcheck hmid hstale hleads⟩
  · cases hfound

theorem pubKeyHash_stale {vchSig vchPubKey : Bytes}
    (hmatch : matchTemplate [OP_DUP, OP_HASH160, OP_PUBKEYHASH, OP_EQUALVERIFY, OP_CHECKSIG] script =
      some vSolutions) (hstale : Stale check vchSig) :
    topIsTrue (evalScript hashes check [vchPubKey, vchSig] script) = false := by
  apply topIsTrue_false
  intro after hleads
  obtain ⟨pc, hdup, hmatch⟩ := matchTemplate_op (by decide) hmatch
  obtain ⟨pc', hhash, hmatch⟩ := matchTemplate_op (by decide) hmatch
  obtain ⟨mid, hmid, hexec, hleads⟩ := leads_stackOp rfl hdup (by decide) (fun _ => rfl) hleads
  obtain ⟨mid', hmid', hexec', hleads⟩ := leads_stackOp hexec hhash (by decide) (fun _ => rfl) hleads
  have hcopied : mid.stack = [vchPubKey, vchPubKey, vchSig] := (Option.some.inj hmid).symm
  rw [hcopied] at hmid'
  have hhashed : mid'.stack = [(hashes.hash160 vchPubKey).toList, vchPubKey, vchSig] :=
    (Option.some.inj hmid').symm
  rw [matchTemplate] at hmatch
  obtain ⟨⟨opcode, vchHash, rest⟩, hget, hrest⟩ := bind_eq_some_iff.mp hmatch
  simp only [if_neg (show OP_PUBKEYHASH ≠ OP_PUBKEYS by decide)] at hrest
  obtain ⟨found, hfound, hsolutions⟩ := bind_eq_some_iff.mp hrest
  obtain ⟨solutions, hend, -⟩ := map_eq_some_iff.mp hsolutions
  rw [matchOp, if_neg (by decide), if_pos rfl] at hfound
  split at hfound
  · rename_i hsize
    have hdata : vchHash ≠ [] := by
      intro hnil
      rw [hnil] at hsize
      cases hsize
    obtain ⟨pushed, hpushed, hexec, hleads⟩ := leads_push hexec' hget hdata hleads
    obtain ⟨pc, hverify, hend⟩ := matchTemplate_op (by decide) hend
    obtain ⟨pc', hcheck, hend⟩ := matchTemplate_op (by decide) hend
    obtain ⟨rfl, -⟩ := matchTemplate_end hend
    obtain ⟨mid, hmid, hexec, hleads⟩ := leads_stackOp hexec hverify (by decide) (fun _ => rfl) hleads
    rw [hpushed, hhashed] at hmid
    have hkept : mid.stack = [vchPubKey, vchSig] := by
      have hverified : verifyTop true (vchBool ((hashes.hash160 vchPubKey).toList == vchHash) ::
          [vchPubKey, vchSig]) = some mid.stack := hmid
      simp only [verifyTop, Bool.not_true, Bool.false_eq_true, if_false] at hverified
      split at hverified
      · exact (Option.some.inj hverified).symm
      · cases hverified
    exact ⟨[], leads_checkSig hexec hcheck hkept hstale hleads⟩
  · cases hfound

/-- The public keys of a multisignature on the way through it. -/
theorem leads_readPubKeys {fuel : Nat} {opcode opcode' : UInt8} {vch vch' : Bytes}
    {pc rest rest' : CScript} {keys : List Bytes}
    (hread : readPubKeys fuel opcode vch rest = some (keys, opcode', vch', rest'))
    (hget : getOp pc = some (opcode, vch, rest)) (hexec : st.vfExec = [])
    (h : Leads hashes check pc st after) : ∃ pc' mid, getOp pc' = some (opcode', vch', rest') ∧
      mid.stack = keys.reverse ++ st.stack ∧ mid.vfExec = [] ∧ Leads hashes check pc' mid after := by
  induction fuel generalizing opcode vch pc rest keys st with
  | zero =>
    rw [readPubKeys] at hread
    split at hread
    · cases hread
    · cases hread
      exact ⟨pc, st, hget, rfl, hexec, h⟩
  | succ fuel ih =>
    rw [readPubKeys] at hread
    split at hread
    · rename_i hsize
      obtain ⟨⟨opcode1, vch1, pc1⟩, hnext, hkeys⟩ := bind_eq_some_iff.mp hread
      obtain ⟨⟨keys', behind⟩, hkeys, heq⟩ := map_eq_some_iff.mp hkeys
      cases heq
      obtain ⟨mid, hmid, hmidExec, hleads⟩ := leads_push hexec hget (isPubKeySize_ne hsize) h
      obtain ⟨pc', last, hget', hlast, hlastExec, hrest⟩ := ih hkeys hnext hmidExec hleads
      refine ⟨pc', last, hget', ?_, hlastExec, hrest⟩
      rw [hlast, hmid, reverse_cons, append_assoc, singleton_append]
    · cases hread
      exact ⟨pc, st, hget, rfl, hexec, h⟩

theorem leads_checkMultiSig {pc : CScript} {keys sigs below : List Bytes}
    (hexec : st.vfExec = []) (hget : getOp pc = some (OP_CHECKMULTISIG, [], []))
    (hkeys : keys.length ≤ 16) (hsigs : sigs.length ≤ 16) (hne : sigs ≠ [])
    (hstack : st.stack = bigNumVch keys.length :: (keys ++ bigNumVch sigs.length :: (sigs ++ below)))
    (hstale : ∀ vchSig ∈ sigs, Stale check vchSig) (h : Leads hashes check pc st after) :
    ∃ below, after.stack = vchFalse :: below := by
  obtain ⟨mid, hmid, hrest⟩ := leads_op h hget
  obtain ⟨nOpCount, hexecOp⟩ := evalOp_exec hexec (by decide) hmid
  rw [execOp, if_neg (by decide), if_neg (by decide), if_neg (by decide), if_neg (by decide),
    if_neg (by decide), if_pos (by decide)] at hexecOp
  obtain ⟨⟨stack, nOps⟩, hcheck, htop⟩ := bind_eq_some_iff.mp hexecOp
  rw [hstack] at hcheck
  obtain ⟨below', hfalse⟩ := checkMultiSig_stale hkeys hsigs hne hstale hcheck
  obtain ⟨verified, hverified, rfl⟩ := map_eq_some_iff.mp htop
  simp only at hfalse
  subst hfalse
  refine ⟨below', ?_⟩
  rw [leads_nil hrest]
  exact (Option.some.inj hverified).symm

theorem matchOp_small {vch : Bytes} {found : List Bytes}
    (h : matchOp OP_SMALLINTEGER opcode vch = some found) :
    found = [[0]] ∨ OP_1 ≤ opcode ∧ opcode ≤ OP_16 ∧ found = [[opcode - 0x50]] := by
  rw [matchOp, if_neg (by decide), if_neg (by decide), if_pos rfl] at h
  split at h
  · exact .inl (Option.some.inj h).symm
  · split at h
    · rename_i hrange
      simp only [Bool.and_eq_true, decide_eq_true_eq] at hrange
      exact .inr ⟨hrange.1, hrange.2, (Option.some.inj h).symm⟩
    · cases h

theorem small_le (hlow : OP_1 ≤ opcode) (hhigh : opcode ≤ OP_16) : (opcode - 0x50).toNat ≤ 16 := by
  rw [UInt8.le_iff_toNat_le] at hlow hhigh
  have hone : OP_1.toNat = 0x51 := rfl
  have hsixteen : OP_16.toNat = 0x60 := rfl
  have hbase : (0x50 : UInt8).toNat = 0x50 := rfl
  rw [UInt8.toNat_sub_of_le _ _ (by rw [UInt8.le_iff_toNat_le]; omega)]
  omega

section

variable (hmatch : matchTemplate [OP_SMALLINTEGER, OP_PUBKEYS, OP_SMALLINTEGER, OP_CHECKMULTISIG]
  script = some vSolutions) (hcounts : multisigCounts vSolutions = true)
include hmatch hcounts

theorem multisig_parts :
    ∃ opcode opcode' opcodeN vch vch' vchN pc pc' pcN keys,
      vSolutions = [opcode - 0x50] :: (keys ++ [[opcodeN - 0x50]]) ∧
        (OP_1 ≤ opcode ∧ opcode ≤ OP_16) ∧ (OP_1 ≤ opcodeN ∧ opcodeN ≤ OP_16) ∧
        1 ≤ opcode - 0x50 ∧ opcode - 0x50 ≤ opcodeN - 0x50 ∧ keys.length = (opcodeN - 0x50).toNat ∧
        getOp script = some (opcode, vch, pc) ∧ getOp pc = some (opcode', vch', pc') ∧
        readPubKeys pc'.length opcode' vch' pc' = some (keys, opcodeN, vchN, pcN) ∧
        getOp pcN = some (OP_CHECKMULTISIG, [], []) := by
  rw [matchTemplate] at hmatch
  obtain ⟨⟨opcode, vch, pc⟩, hget, hrest⟩ := bind_eq_some_iff.mp hmatch
  simp only [if_neg (show OP_SMALLINTEGER ≠ OP_PUBKEYS by decide)] at hrest
  obtain ⟨found, hfound, hsolutions⟩ := bind_eq_some_iff.mp hrest
  obtain ⟨solutions, hkeys, rfl⟩ := map_eq_some_iff.mp hsolutions
  rw [matchTemplate] at hkeys
  obtain ⟨⟨opcode', vch', pc'⟩, hget', hrest'⟩ := bind_eq_some_iff.mp hkeys
  simp only [if_true] at hrest'
  obtain ⟨⟨keys, opcodeN, vchN, pcN⟩, hread, hfoundN⟩ := bind_eq_some_iff.mp hrest'
  obtain ⟨foundN, hmatchN, hsolutionsN⟩ := bind_eq_some_iff.mp hfoundN
  obtain ⟨solutionsN, hend, rfl⟩ := map_eq_some_iff.mp hsolutionsN
  obtain ⟨pcEnd, hcheck, hempty⟩ := matchTemplate_op (by decide) hend
  obtain ⟨rfl, rfl⟩ := matchTemplate_end hempty
  simp only [multisigCounts, Bool.and_eq_true, decide_eq_true_eq, beq_iff_eq, append_nil,
    ← append_assoc] at hcounts
  obtain ⟨⟨⟨hm, hn⟩, hmn⟩, hcount⟩ := hcounts
  obtain rfl | ⟨hlow, hhigh, rfl⟩ := matchOp_small hfound
  · exact absurd hm (show ¬(1 : UInt8) ≤ 0 by decide)
  · obtain rfl | ⟨hlowN, hhighN, rfl⟩ := matchOp_small hmatchN
    · rw [getLastD_concat] at hn
      exact absurd hn (show ¬(1 : UInt8) ≤ 0 by decide)
    · rw [getLastD_concat] at hmn hcount
      exact ⟨opcode, opcode', opcodeN, vch, vch', vchN, pc, pc', pcN, keys, by simp, ⟨hlow, hhigh⟩,
        ⟨hlowN, hhighN⟩, hm, hmn, by simpa using hcount, hget, hget', hread, hcheck⟩

theorem multisig_stale {sigs : List Bytes}
    (hlength : sigs.length = ((vSolutions.headD []).headD 0).toNat)
    (hstale : ∀ vchSig ∈ sigs, Stale check vchSig) :
    topIsTrue (evalScript hashes check ([] :: sigs).reverse script) = false := by
  apply topIsTrue_false
  intro after hleads
  obtain ⟨opcode, opcode', opcodeN, vch, vch', vchN, pc, pc', pcN, keys, rfl, ⟨hlow, hhigh⟩,
    ⟨hlowN, hhighN⟩, hm, -, hkeysLength, hget, hget', hread, hcheck⟩ := multisig_parts hmatch hcounts
  have hsmall := small_le hlow hhigh
  have hsmallN := small_le hlowN hhighN
  have hsigsLength : sigs.length = (opcode - 0x50).toNat := hlength
  have hne : sigs ≠ [] := by
    intro hnil
    subst hnil
    have hone : (1 : UInt8) ≤ opcode - 0x50 := hm
    rw [UInt8.le_iff_toNat_le, ← hsigsLength] at hone
    exact absurd hone (by decide)
  obtain ⟨first, hfirst, hexec, hleads⟩ := leads_small rfl hget hlow hhigh hleads
  obtain ⟨pcKeys, second, hgetN, hsecond, hexec, hleads⟩ := leads_readPubKeys hread hget' hexec hleads
  obtain ⟨third, hthird, hexec, hleads⟩ := leads_small hexec hgetN hlowN hhighN hleads
  have hstack : third.stack = bigNumVch keys.reverse.length ::
      (keys.reverse ++ bigNumVch sigs.reverse.length :: (sigs.reverse ++ [[]])) := by
    rw [hthird, hsecond, hfirst, length_reverse, length_reverse, hkeysLength, hsigsLength, reverse_cons]
  refine leads_checkMultiSig hexec hcheck ?_ ?_ ?_ hstack ?_ hleads
  · rwa [length_reverse, hkeysLength]
  · rwa [length_reverse, hsigsLength]
  · exact fun hnil => hne (reverse_eq_nil_iff.mp hnil)
  · exact fun vchSig hmem => hstale vchSig (mem_reverse.mp hmem)

end

end

namespace SigCrypto

variable {H : Type} {crypto : SigCrypto H} {keystore : CKeyStore H} {check : SigCheck}

/-- Every signature that the wallet makes for this hash is stale. -/
def AllStale (keystore : CKeyStore H) (check : SigCheck) (hash : H) : Prop :=
  ∀ keyID vchSig, sign1 keystore keyID hash SIGHASH_ALL = some vchSig → Stale check vchSig

theorem mem_signLoop {hash : H} {nHashType : UInt8} {nLeft : Nat} {keys : List Bytes}
    {vchSig : Bytes} (hmem : vchSig ∈ crypto.signLoop keystore hash nHashType nLeft keys) :
    ∃ keyID, sign1 keystore keyID hash nHashType = some vchSig := by
  induction keys generalizing nLeft with
  | nil =>
    cases nLeft with
    | zero => cases hmem
    | succ nLeft => cases hmem
  | cons pubkey keys ih =>
    cases nLeft with
    | zero => cases hmem
    | succ nLeft =>
      rw [signLoop] at hmem
      split at hmem
      · rename_i found hfound
        rcases List.mem_cons.mp hmem with rfl | hmem
        · exact ⟨_, hfound⟩
        · exact ih hmem
      · exact ih hmem

/-- **What the wallet signs with a template** does not satisfy it where its
signatures are stale. -/
theorem solverSign_stale {script scriptSig : CScript} {hash : H} {whichType : TxnOutType}
    (hstale : AllStale keystore check hash)
    (hsign : crypto.solverSign keystore script hash SIGHASH_ALL = some (scriptSig, whichType))
    (htype : whichType ≠ .TX_SCRIPTHASH) :
    ∃ pushes : List Bytes, scriptSig = pushes.flatMap pushData ∧
      topIsTrue (evalScript crypto.hashes check pushes.reverse script) = false := by
  rw [solverSign] at hsign
  split at hsign
  · cases hsign
  · rename_i vSolutions hsolve
    obtain ⟨vchSig, hsig, heq⟩ := map_eq_some_iff.mp hsign
    cases heq
    obtain ⟨template, hmem, hmatch, -⟩ := solver_template hsolve (by decide) (by decide)
    obtain rfl : template = [OP_PUBKEY, OP_CHECKSIG] := by simpa [mTemplates] using hmem
    exact ⟨[vchSig], (flatMap_singleton _ _).symm, pubKey_stale hmatch (hstale _ _ hsig)⟩
  · rename_i vSolutions hsolve
    obtain ⟨vchSig, hsig, heq⟩ := map_eq_some_iff.mp hsign
    cases heq
    obtain ⟨template, hmem, hmatch, -⟩ := solver_template hsolve (by decide) (by decide)
    obtain rfl : template = [OP_DUP, OP_HASH160, OP_PUBKEYHASH, OP_EQUALVERIFY, OP_CHECKSIG] := by
      simpa [mTemplates] using hmem
    let vchPubKey := (keystore.getKey (uint160 (vSolutions.headD []))).elim [] CKey.pubKey
    refine ⟨[vchSig, vchPubKey], ?_, pubKeyHash_stale hmatch (hstale _ _ hsig)⟩
    rw [flatMap_cons, flatMap_singleton]
  · rename_i vSolutions hsolve
    obtain ⟨subscript, -, heq⟩ := map_eq_some_iff.mp hsign
    cases heq
    exact absurd rfl htype
  · rename_i vSolutions hsolve
    obtain ⟨sigs, hsigs, heq⟩ := map_eq_some_iff.mp hsign
    cases heq
    obtain ⟨template, hmem, hmatch, hcounts⟩ := solver_template hsolve (by decide) (by decide)
    obtain rfl : template = [OP_SMALLINTEGER, OP_PUBKEYS, OP_SMALLINTEGER, OP_CHECKMULTISIG] := by
      simpa [mTemplates] using hmem
    rw [signN] at hsigs
    split at hsigs
    · rename_i hlength
      cases hsigs
      refine ⟨[] :: _, ?_, multisig_stale hmatch (hcounts rfl) hlength fun vchSig hmem => ?_⟩
      · rw [flatMap_cons]
        rfl
      · obtain ⟨keyID, hsig⟩ := mem_signLoop hmem
        exact hstale keyID vchSig hsig
    · cases hsigs
  · cases hsign

/-- **A script that the wallet made** does not pass where all its signatures are
stale. -/
theorem verifyScript_stale {fromPubKey scriptSig : CScript} {tx : CTransaction H} {nIn : Nat}
    (hstale : ∀ code, AllStale keystore check (crypto.signatureHash code tx nIn SIGHASH_ALL))
    (hmake : crypto.makeScriptSig keystore fromPubKey tx nIn SIGHASH_ALL = some scriptSig) :
    verifyScript crypto.hashes check scriptSig fromPubKey = false := by
  obtain ⟨⟨first, whichType⟩, hsolve, hrest⟩ := bind_eq_some_iff.mp hmake
  simp only at hrest
  split at hrest
  · rename_i hscript
    subst hscript
    obtain ⟨⟨second, subType⟩, hsub, hmade⟩ := bind_eq_some_iff.mp hrest
    simp only at hmade
    split at hmade
    · cases hmade
    · rename_i hsubType
      cases hmade
      obtain ⟨pushes, rfl, hfalse⟩ := solverSign_stale (hstale _) hsub hsubType
      have hscriptHash : isPayToScriptHash fromPubKey = true := by
        rw [solverSign] at hsolve
        split at hsolve
        · cases hsolve
        · obtain ⟨vchSig, -, heq⟩ := map_eq_some_iff.mp hsolve
          cases heq
        · obtain ⟨vchSig, -, heq⟩ := map_eq_some_iff.mp hsolve
          cases heq
        · rename_i hfound
          exact solver_scriptHash hfound
        · obtain ⟨vchSig, -, heq⟩ := map_eq_some_iff.mp hsolve
          cases heq
        · cases hsolve
      have hpushes : pushes.flatMap pushData ++ pushData first =
          (pushes ++ [first]).flatMap pushData := by
        rw [flatMap_append, flatMap_singleton]
      rw [verifyScript, hpushes]
      split
      · rfl
      · rename_i stack heval
        rw [evalScript_pushes heval, reverse_append, reverse_singleton, singleton_append]
        simp only [hscriptHash, hfalse, Bool.not_true, Bool.false_or, Bool.and_false]
  · rename_i hplain
    cases hrest
    obtain ⟨pushes, rfl, hfalse⟩ := solverSign_stale (hstale _) hsolve hplain
    rw [verifyScript]
    split
    · rfl
    · rename_i stack heval
      rw [evalScript_pushes heval, hfalse, Bool.false_and]

/-- **Signatures for one version are stale for another one.** -/
theorem allStale_of_version [DecidableEq H] (hcommits : CommitsToVersion crypto.sha)
    (hexact : ExactSignatures crypto keystore) {tx tx' : CTransaction H} {nIn : Nat}
    (hin : nIn < tx.vin.length) (hin' : nIn < tx'.vin.length) (hversion : tx.nVersion ≠ tx'.nVersion)
    (code : CScript) : AllStale keystore (crypto.checkSig tx' nIn 0)
      (crypto.signatureHash code tx nIn SIGHASH_ALL) := by
  intro keyID vchSig hsign vchPubKey code'
  obtain ⟨key, hkey, hsigned⟩ := bind_eq_some_iff.mp hsign
  obtain ⟨vchMade, hmade, rfl⟩ := map_eq_some_iff.mp hsigned
  rw [checkSig, getLast?_concat]
  simp only [ne_eq, not_true_eq_false, decide_false, Bool.false_and, Bool.false_eq_true, if_false,
    dropLast_concat]
  by_contra hverified
  rw [Bool.not_eq_false] at hverified
  have hhash := hexact.hash_eq keyID key _ vchMade hkey hmade vchPubKey _ hverified
  exact hversion (crypto.signatureHash_version hcommits hin' hin hhash).symm

end SigCrypto

end MaryJaneCoin
