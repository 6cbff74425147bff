import MaryJaneCoin.Chain.ScriptRun
import MaryJaneCoin.Wallet.StaleSignatures

/-!
# Multisignature scripts

What `Solver` takes for a multisignature is a number, the keys, their number and
`OP_CHECKMULTISIG`.  On a stack with as many signatures as the script asks for it
leaves what the loop over signatures and keys decides.
-/

namespace MaryJaneCoin

open Codec List CScript Bool UInt8

/-- A multisignature script, operation by operation. -/
structure IsMultisig (script : CScript) (m : Nat) (keys : List Bytes) : Prop where
  one_le : 1 ≤ m
  le_length : m ≤ keys.length
  length_le : keys.length ≤ 16
  size : ∀ vchPubKey ∈ keys, isPubKeySize vchPubKey = true
  form : ∃ pcKeys pcCount pcCheck,
    CScript.getOp script = some (UInt8.ofNat (m + 0x50), [], pcKeys) ∧
    CScript.Pushes pcKeys keys pcCount ∧
    CScript.getOp pcCount = some (UInt8.ofNat (keys.length + 0x50), [], pcCheck) ∧
    CScript.getOp pcCheck = some (OP_CHECKMULTISIG, [], [])

theorem pushes_readPubKeys {fuel : Nat} {opcode opcode' : UInt8} {vch vch' : Bytes}
    {pc rest rest' : CScript} {keys : List Bytes}
    (hread : readPubKeys fuel opcode vch rest = some (keys, opcode', vch', rest'))
    (hget : getOp pc = some (opcode, vch, rest)) :
    (∀ vchPubKey ∈ keys, isPubKeySize vchPubKey = true) ∧
      ∃ pc', CScript.Pushes pc keys pc' ∧ getOp pc' = some (opcode', vch', rest') := by
  induction fuel generalizing opcode vch pc rest keys with
  | zero =>
    rw [readPubKeys] at hread
    split at hread
    · cases hread
    · cases hread
      exact ⟨by simp, pc, .nil pc, hget⟩
  | succ fuel ih =>
    rw [readPubKeys] at hread
    split at hread
    · rename_i hsize
      obtain ⟨⟨opcode1, vch1, pc1⟩, hnext, hkeys⟩ := Option.bind_eq_some_iff.mp hread
      obtain ⟨⟨keys', behind⟩, hkeys, heq⟩ := Option.map_eq_some_iff.mp hkeys
      cases heq
      obtain ⟨hsizes, pc', ⟨ops, hreads, hvalues, hpush⟩, hget'⟩ := ih hkeys hnext
      refine ⟨?_, pc', ⟨(opcode, vch) :: ops, .cons hget hreads, congrArg (vch :: ·) hvalues, ?_⟩, hget'⟩
      · intro vchPubKey hmem
        rcases List.mem_cons.mp hmem with rfl | hmem
        · exact hsize
        · exact hsizes _ hmem
      · intro op hmem
        rcases List.mem_cons.mp hmem with rfl | hmem
        · exact getOp_data hget (isPubKeySize_ne hsize)
        · exact hpush op hmem
    · cases hread
      exact ⟨by simp, pc, .nil pc, hget⟩

theorem small_eq {opcode : UInt8} (hlow : OP_1 ≤ opcode) :
    UInt8.ofNat ((opcode - 0x50).toNat + 0x50) = opcode := by
  rw [le_iff_toNat_le] at hlow
  have hone : OP_1.toNat = 0x51 := rfl
  have hbase : (0x50 : UInt8).toNat = 0x50 := rfl
  rw [UInt8.toNat_sub_of_le _ _ (by rw [le_iff_toNat_le]; omega), hbase, Nat.sub_add_cancel
    (by omega), UInt8.ofNat_toNat]

theorem getOp_small {pc rest : CScript} {opcode : UInt8} {data : Bytes} (hlow : OP_1 ≤ opcode)
    (h : getOp pc = some (opcode, data, rest)) : data = [] := by
  by_contra hdata
  have hle := UInt8.le_trans hlow (getOp_data h hdata)
  exact absurd hle (by decide)

/-- **What `Solver` takes for a multisignature.** -/
theorem isMultisig_of_solver {script : CScript} {vSolutions : List Bytes}
    (h : solver script = some (.TX_MULTISIG, vSolutions)) :
    ∃ m keys, vSolutions = [UInt8.ofNat m] :: (keys ++ [[UInt8.ofNat keys.length]]) ∧
      IsMultisig script m keys := by
  obtain ⟨template, hmem, hmatch, hcounts⟩ := solver_template h (by simp) (by simp)
  have htemplate : template = [OP_SMALLINTEGER, OP_PUBKEYS, OP_SMALLINTEGER, OP_CHECKMULTISIG] := by
    simpa [mTemplates] using hmem
  subst htemplate
  obtain ⟨opcode, opcode', opcodeN, vch, vch', vchN, pc, pc', pcN, keys, rfl, ⟨hlow, hhigh⟩,
    ⟨hlowN, hhighN⟩, hm, hmn, hlength, hget, hget', hread, hcheck⟩ := multisig_parts hmatch (hcounts rfl)
  obtain ⟨hsizes, pcCount, hpushes, hgetN⟩ := pushes_readPubKeys hread hget'
  obtain rfl := getOp_small hlow hget
  obtain rfl := getOp_small hlowN hgetN
  refine ⟨(opcode - 0x50).toNat, keys, ?_, ?_⟩
  · rw [hlength, UInt8.ofNat_toNat, UInt8.ofNat_toNat]
  · constructor
    · exact le_iff_toNat_le.mp hm
    · rw [hlength]
      exact le_iff_toNat_le.mp hmn
    · rw [hlength]
      exact small_le hlowN hhighN
    · exact hsizes
    · rw [hlength, small_eq hlow, small_eq hlowN]
      exact ⟨pc, pcCount, pcN, hget, hpushes, hgetN, hcheck⟩

namespace IsMultisig

variable {script : CScript} {m : Nat} {keys : List Bytes}

theorem reads (h : IsMultisig script m keys) :
    ∃ ops, CScript.Reads script ops [] ∧ ∀ op ∈ ops, op.1 ≤ OP_PUSHDATA4 → op.2 ∈ keys := by
  obtain ⟨pcKeys, pcCount, pcCheck, hm, ⟨ops, hops, hvalues, hpush⟩, hn, hcheck⟩ := h.form
  refine ⟨_, .cons hm (hops.append (.cons hn (.cons hcheck (.nil [])))), ?_⟩
  have hsmall : ∀ {k : Nat}, 1 ≤ k → k ≤ 16 → ¬UInt8.ofNat (k + 0x50) ≤ OP_PUSHDATA4 := by
    intro k hone hk
    interval_cases k <;> decide
  have hle := h.le_length
  have hone := h.one_le
  intro op hmem hpushed
  rcases List.mem_cons.mp hmem with rfl | hmem
  · exact absurd hpushed (hsmall hone (Nat.le_trans hle h.length_le))
  · rcases mem_append.mp hmem with hmem | hmem
    · rw [← hvalues]
      exact mem_map_of_mem hmem
    · rcases List.mem_cons.mp hmem with rfl | hmem
      · exact absurd hpushed (hsmall (Nat.le_trans hone hle) h.length_le)
      · obtain rfl := mem_singleton.mp hmem
        exact absurd hpushed (by decide)

theorem length_script_le (h : IsMultisig script m keys) : script.length ≤ 10000 := by
  obtain ⟨pcKeys, pcCount, pcCheck, hm, hkeys, hn, hcheck⟩ := h.form
  have hfirst := length_le_getOp hm
  have hsecond := hkeys.length_le fun vchPubKey hmem => by
    have hsize := h.size vchPubKey hmem
    rw [isPubKeySize, and_eq_true, decide_eq_true_eq, decide_eq_true_eq] at hsize
    exact hsize.2
  have hthird := length_le_getOp hn
  have hlast := length_le_getOp hcheck
  have hcount := h.length_le
  have hproduct : keys.length * (120 + 5) ≤ 16 * (120 + 5) := Nat.mul_le_mul_right _ hcount
  simp only [length_nil] at hfirst hthird hlast
  omega

theorem findAndDelete_eq (h : IsMultisig script m keys) {vch : Bytes} (hnot : vch ∉ keys) :
    findAndDelete (pushData vch) script = script := by
  obtain ⟨ops, hreads, hkeys⟩ := h.reads
  apply findAndDelete_of_reads (Nat.lt_of_le_of_lt h.length_script_le (by decide)) hreads
  intro op hmem hpushed heq
  exact hnot (heq ▸ hkeys op hmem hpushed)

theorem foldl_findAndDelete_eq (h : IsMultisig script m keys) {sigs : List Bytes}
    (hnot : ∀ vchSig ∈ sigs, vchSig ∉ keys) :
    sigs.foldl (fun code vchSig => findAndDelete (pushData vchSig) code) script = script := by
  induction sigs with
  | nil => rfl
  | cons vchSig sigs ih =>
    rw [foldl_cons, h.findAndDelete_eq (hnot _ mem_cons_self)]
    exact ih fun sig hmem => hnot sig (mem_cons_of_mem _ hmem)

end IsMultisig

section

variable {hashes : ScriptHashes} {check : SigCheck} {script : CScript} {m : Nat} {keys sigs : List Bytes}

theorem checkMultiSig_eq (codehash : CScript) {nOpCount : Nat} (hcount : nOpCount + keys.length ≤ 201)
    (hkeys : keys.length ≤ 16) (hsigs : sigs.length ≤ keys.length) (dummy : Bytes)
    (below : List Bytes) : checkMultiSig check codehash nOpCount
        (bigNumVch keys.length :: (keys ++ bigNumVch sigs.length :: (sigs ++ dummy :: below))) =
      some (vchBool (checkSigs check (sigs.foldl
        (fun code vchSig => findAndDelete (pushData vchSig) code) codehash) sigs keys) :: below,
        nOpCount + keys.length) := by
  have hkeysCount : ¬(decide ((keys.length : Int) < 0) || decide ((keys.length : Int) > 20)) = true := by
    simp only [or_eq_true, decide_eq_true_eq]
    omega
  have hsigsCount :
      ¬(decide ((sigs.length : Int) < 0) || decide ((sigs.length : Int) > keys.length)) = true := by
    simp only [or_eq_true, decide_eq_true_eq]
    omega
  have hbelow : ¬(sigs ++ dummy :: below).length < sigs.length + 1 := by
    rw [length_append, length_cons]
    omega
  have hdrop : (sigs ++ dummy :: below).drop (sigs.length + 1) = below := by
    rw [← drop_drop, drop_left]
    rfl
  simp only [checkMultiSig, castToBigNum_small hkeys, bind, Option.bind_some, Int.toNat_natCast,
    if_neg hkeysCount, if_neg (Nat.not_lt.mpr hcount), drop_left, take_left, castToBigNum_small
    (Nat.le_trans hsigs hkeys), if_neg hsigsCount, if_neg hbelow, hdrop, gt_iff_lt]

/-- **A multisignature script on as many signatures as it asks for.** -/
theorem IsMultisig.evalScript_eq (h : IsMultisig script m keys) (hsigs : sigs.length = m)
    (dummy : Bytes) (hnot : ∀ vchSig ∈ sigs, vchSig ∉ keys) :
    evalScript hashes check (sigs ++ [dummy]) script =
      some [vchBool (checkSigs check script sigs keys.reverse)] := by
  obtain ⟨pcKeys, pcCount, pcCheck, hm, hkeys, hn, hcheck⟩ := h.form
  have hone := h.one_le
  have hle := h.le_length
  have hsixteen := h.length_le
  have hpushed : ∀ vchPubKey ∈ keys, vchPubKey.length ≤ 520 := by
    intro vchPubKey hmem
    have hsize := h.size vchPubKey hmem
    rw [isPubKeySize, and_eq_true, decide_eq_true_eq, decide_eq_true_eq] at hsize
    omega
  have hcheckOp : checkMultiSig check script 1
      (bigNumVch keys.length :: (keys.reverse ++ bigNumVch m :: (sigs ++ [dummy]))) =
        some ([vchBool (checkSigs check script sigs keys.reverse)], 1 + keys.length) := by
    have hreverse := keys.length_reverse
    rw [← hreverse, ← hsigs, checkMultiSig_eq script (by omega) (by omega) (by omega),
      h.foldl_findAndDelete_eq hnot]
  let last : EvalState :=
    ⟨[vchBool (checkSigs check script sigs keys.reverse)], [], [], 1 + keys.length, script⟩
  have hexecCheck : execOp hashes check OP_CHECKMULTISIG true []
      ⟨bigNumVch keys.length :: (keys.reverse ++ bigNumVch m :: (sigs ++ [dummy])), [], [], 1,
        script⟩ = some last := by
    rw [execOp, if_neg (by decide), if_neg (by decide), if_neg (by decide), if_neg (by decide),
      if_neg (by decide), if_pos (by decide)]
    simp only [hcheckOp, Option.bind_some]
    rfl
  have hruns : Runs hashes check script ⟨sigs ++ [dummy], [], [], 0, script⟩ last := by
    apply Runs.op hm (evalOp_of_smallint hone (Nat.le_trans hle hsixteen) rfl (Nat.zero_le _) _)
    · apply Runs.pushes hkeys rfl (Nat.zero_le _) hpushed _
      · apply Runs.op hn (evalOp_of_smallint (Nat.le_trans hone hle) hsixteen rfl (Nat.zero_le _) _)
        · apply Runs.op hcheck
            (evalOp_of_exec rfl (by decide) (Nat.succ_pos 200) (by decide) hexecCheck _) .nil
          simp [last]
        · simp only [EvalState.withStack, length_append, length_cons, length_nil, length_reverse, hsigs]
          omega
      · simp only [EvalState.withStack, length_append, length_cons, length_nil, hsigs]
        omega
    · simp only [length_append, length_cons, length_nil, hsigs]
      omega
  rw [evalScript_of_runs h.length_script_le hruns rfl]

/-- A canonical signature that the test accepts for a key. -/
def Signs (check : SigCheck) (script : CScript) (vchSig vchPubKey : Bytes) : Prop :=
  isCanonicalSignature vchSig = true ∧ check vchSig vchPubKey script = true

/-- The test accepts a signature for one key at most. -/
def OneKey (check : SigCheck) (script : CScript) : Prop :=
  ∀ vchSig vchPubKey vchPubKey', check vchSig vchPubKey script = true →
    check vchSig vchPubKey' script = true → vchPubKey = vchPubKey'

/-- **Signatures in the order of their keys pass.** -/
theorem checkSigs_of_signs (hone : OneKey check script) {signers : List Bytes} (hsub : signers.Sublist keys)
    (hnodup : keys.Nodup) (hcanonical : ∀ vchPubKey ∈ keys, isCanonicalPubKey vchPubKey = true)
    (hsigns : List.Forall₂ (Signs check script) sigs signers) : checkSigs check script sigs keys = true := by
  induction hsub generalizing sigs with
  | slnil =>
    cases hsigns
    rfl
  | @cons signers keys vchPubKey hsub ih =>
    obtain ⟨hnew, hnodup⟩ := nodup_cons.mp hnodup
    have hrest := ih hnodup (fun key hmem => hcanonical key (mem_cons_of_mem _ hmem)) hsigns
    cases hsigns with
    | nil => rfl
    | @cons vchSig signer sigs signers hsign hsigns =>
      -- the signature is for a later key
      have hother : check vchSig vchPubKey script = false := by
        rw [← not_eq_true]
        intro haccept
        have hsame := hone _ _ _ haccept hsign.2
        exact hnew (hsame ▸ hsub.subset mem_cons_self)
      have hlength : ¬(vchSig :: sigs).length > keys.length := by
        have hle := hsub.length_le
        rw [length_cons, ← hsigns.length_eq] at hle
        exact Nat.not_lt.mpr hle
      simp only [checkSigs, hother, Bool.and_false, false_eq_true, if_false, if_neg hlength]
      exact hrest
  | @cons_cons signers keys vchPubKey hsub ih =>
    cases hsigns with
    | @cons vchSig _ sigs _ hsign hsigns =>
      have hnodup := (nodup_cons.mp hnodup).2
      have hrest := ih hnodup (fun key hmem => hcanonical key (mem_cons_of_mem _ hmem)) hsigns
      have hlength : ¬sigs.length > keys.length := by
        rw [hsigns.length_eq]
        exact Nat.not_lt.mpr hsub.length_le
      simp only [checkSigs, hsign.1, hsign.2, hcanonical _ mem_cons_self, Bool.and_self, if_true,
        if_neg hlength]
      exact hrest

theorem checkSigs_of_not_canonical {vchSig : Bytes} (h : isCanonicalSignature vchSig = false) :
    checkSigs check script (vchSig :: sigs) keys = false := by
  induction keys with
  | nil => rfl
  | cons vchPubKey keys ih =>
    simp only [checkSigs, h, Bool.false_and, false_eq_true, if_false]
    split
    · rfl
    · exact ih

end

end MaryJaneCoin
