import MaryJaneCoin.Wallet.MultisigScript
import MaryJaneCoin.Chain.SignatureBinding
import MaryJaneCoin.Chain.TransactionCodec

/-!
# Partial signatures combined

`CombineSignatures` runs two scripts of an input, pools the values that they leave and
writes one script.  It does not ask whether the scripts ran through: what a failing script
leaves counts too.
-/

namespace MaryJaneCoin

open Codec CScript
open List hiding Vector
open Std (ExtTreeMap ExtTreeSet)

section

variable (hashes : ScriptHashes) (check : SigCheck)

/-- The stack behind an opcode that fails: the `VERIFY` forms have left their result,
`OP_PICK` and `OP_ROLL` have taken the number. -/
def failedOp (opcode : UInt8) (fExec : Bool) (rest : CScript) (st : EvalState) : List Bytes :=
  if opcode = 0x88 || opcode = 0x9d || opcode = OP_CHECKSIGVERIFY || opcode = OP_CHECKMULTISIGVERIFY then
    (execOp hashes check (opcode - 1) fExec rest st).elim st.stack EvalState.stack
  else if opcode = 0x79 || opcode = 0x7a then
    match st.stack with
    | top :: below :: stack =>
      if (castToBigNum top).isSome then below :: stack else top :: below :: stack
    | stack => stack
  else st.stack

/-- The stack behind a round of `EvalScript` that fails. -/
def failedRound (opcode : UInt8) (vchPushValue : Bytes) (rest : CScript) (st : EvalState) : List Bytes :=
  let fExec := st.vfExec.all id
  let nOpCount := if opcode > OP_16 then st.nOpCount + 1 else st.nOpCount
  if vchPushValue.length > 520 || nOpCount > 201 || isDisabled opcode then st.stack
  else if fExec && opcode ≤ OP_PUSHDATA4 then vchPushValue :: st.stack
  else if fExec || (OP_IF ≤ opcode && opcode ≤ OP_ENDIF) then
    let st := { st with nOpCount }
    (execOp hashes check opcode fExec rest st).elim
      (failedOp hashes check opcode fExec rest st) EvalState.stack
  else st.stack

/-- The stack that the loop of `EvalScript` leaves, whether it fails or not. -/
def leftBy : Nat → CScript → EvalState → List Bytes
  | _, [], st => st.stack
  | 0, _ :: _, st => st.stack
  | fuel + 1, pc, st =>
    match CScript.getOp pc with
    | none => st.stack
    | some (opcode, vchPushValue, rest) =>
      match evalOp hashes check opcode vchPushValue rest st with
      | none => failedRound hashes check opcode vchPushValue rest st
      | some st => leftBy fuel rest st

/-- The stack that `EvalScript` leaves, whether it fails or not. -/
def evalScriptStack (stack : List Bytes) (script : CScript) : List Bytes :=
  if script.length > 10000 then stack
  else leftBy hashes check script.length script ⟨stack, [], [], 0, script⟩

end

/-- `Solver`: the type and the parts that it returns by reference; no type is
`TX_NONSTANDARD`.  They are set for a multisignature that has wrong counts, too. -/
def solverRet (scriptPubKey : CScript) : Option TxnOutType × List Bytes :=
  if CScript.isPayToScriptHash scriptPubKey then
    (some .TX_SCRIPTHASH, [(scriptPubKey.drop 2).take 20])
  else if scriptPubKey.head? = some OP_RETURN then
    if scriptPubKey.length ≤ 83 then (some .TX_NULL_DATA, []) else (none, [])
  else
    match mTemplates.findSome? fun tplate =>
        (matchTemplate tplate.2 scriptPubKey).map fun vSolutions => (tplate.1, vSolutions) with
    | none => (none, [])
    | some (typeRet, vSolutions) => (some typeRet, vSolutions)

def pushAll (values : List Bytes) : CScript := values.flatMap CScript.pushData

section

variable (check : SigCheck)

/-- The pool of `CombineMultisig`: a set of the signatures that are not empty. -/
def allSigs (sigs1 sigs2 : List Bytes) : ExtTreeSet Bytes :=
  (sigs1 ++ sigs2).foldl (fun allsigs v => if v.isEmpty then allsigs else allsigs.insert v) ∅

/-- A signature goes to the first key that has none and that it is for. -/
def assignSig (scriptPubKey : CScript) (pubKeys : List Bytes) (sigs : ExtTreeMap Bytes Bytes)
    (sig : Bytes) : ExtTreeMap Bytes Bytes :=
  match pubKeys.find? fun pubkey => !sigs.contains pubkey && check sig pubkey scriptPubKey with
  | none => sigs
  | some pubkey => sigs.insert pubkey sig

/-- The loop of `CombineMultisig` over the keys: what it pushes while signatures are
required. -/
def takeSigs (sigs : ExtTreeMap Bytes Bytes) : Nat → List Bytes → List Bytes
  | 0, _ => []
  | _ + 1, [] => []
  | nLeft + 1, pubkey :: pubKeys =>
    match sigs[pubkey]? with
    | some sig => sig :: takeSigs sigs nLeft pubKeys
    | none => takeSigs sigs (nLeft + 1) pubKeys

def combineMultisig (scriptPubKey : CScript) (vSolutions sigs1 sigs2 : List Bytes) : CScript :=
  let nSigsRequired := ((vSolutions.headD []).headD 0).toNat
  let pubKeys := vSolutions.tail.dropLast
  let sigs := (allSigs sigs1 sigs2).toList.foldl (assignSig check scriptPubKey pubKeys) ∅
  let taken := takeSigs sigs nSigsRequired pubKeys
  0 :: (pushAll taken ++ List.replicate (nSigsRequired - taken.length) 0)

/-- `CombineSignatures` for a script that is solved and two stacks, with the first pushed
value first.  A type that has no case of its own gives the empty script. -/
def combineSolved (scriptPubKey : CScript) (solved : Option TxnOutType × List Bytes)
    (sigs1 sigs2 : List Bytes) : CScript :=
  match solved.1 with
  | none => if sigs1.length ≥ sigs2.length then pushAll sigs1 else pushAll sigs2
  | some .TX_PUBKEY | some .TX_PUBKEYHASH =>
    if (sigs1.headD []).isEmpty then pushAll sigs2 else pushAll sigs1
  | some .TX_SCRIPTHASH =>
    if hback : (sigs1.getLastD []).isEmpty then pushAll sigs2
    else if (sigs2.getLastD []).isEmpty then pushAll sigs1
    else
      have : sigs1.dropLast.length < sigs1.length := by
        cases sigs1 with
        | nil => exact absurd rfl hback
        | cons v sigs1 => simp
      let spk := sigs1.getLastD []
      combineSolved spk (solverRet spk) sigs1.dropLast sigs2.dropLast ++ CScript.pushData spk
  | some .TX_MULTISIG => combineMultisig check scriptPubKey solved.2 sigs1 sigs2
  | some .TX_NULL_DATA => []
termination_by sigs1.length

end

/-- `CTransaction()`, made at a time. -/
def CTransaction.null {H : Type} (nAdjustedTime : UInt32) : CTransaction H where
  nVersion := 1
  nTime := nAdjustedTime
  vin := []
  vout := []
  nLockTime := 0
  mwTx := CMWTransaction.null

def SigCrypto.combineSignatures {H : Type} (crypto : SigCrypto H) (nAdjustedTime : UInt32)
    (scriptPubKey : CScript) (txTo : CTransaction H) (nIn : Nat)
    (scriptSig1 scriptSig2 : CScript) : CScript :=
  let stackOf := fun scriptSig =>
    (evalScriptStack crypto.hashes
      (crypto.checkSig (CTransaction.null nAdjustedTime) 0 0) [] scriptSig).reverse
  combineSolved (crypto.checkSig txTo nIn 0) scriptPubKey (solverRet scriptPubKey)
    (stackOf scriptSig1) (stackOf scriptSig2)

section

variable {hashes : ScriptHashes} {check : SigCheck}

theorem leftBy_of_evalLoop {fuel : Nat} {pc : CScript} {st after : EvalState}
    (h : evalLoop hashes check fuel pc st = some after) : leftBy hashes check fuel pc st = after.stack := by
  induction fuel generalizing pc st with
  | zero =>
    cases pc with
    | nil =>
      rw [evalLoop] at h
      rw [leftBy, Option.some.inj h]
    | cons op pc => cases h
  | succ fuel ih =>
    cases pc with
    | nil =>
      rw [evalLoop] at h
      rw [leftBy, Option.some.inj h]
    | cons op pc =>
      simp only [evalLoop] at h
      simp only [leftBy]
      cases hop : getOp (op :: pc) with
      | none =>
        rw [hop] at h
        cases h
      | some read =>
        rw [hop] at h
        obtain ⟨mid, hmid, hrest⟩ := Option.bind_eq_some_iff.mp h
        simp only [hmid]
        exact ih hrest

theorem evalScriptStack_of_evalScript {stack result : List Bytes} {script : CScript}
    (h : evalScript hashes check stack script = some result) :
    evalScriptStack hashes check stack script = result := by
  rw [evalScript] at h
  split at h
  · cases h
  · rename_i hlength
    obtain ⟨after, hrun, hresult⟩ := Option.bind_eq_some_iff.mp h
    rw [evalScriptStack, if_neg hlength, leftBy_of_evalLoop hrun]
    split at hresult
    · exact Option.some.inj hresult
    · cases hresult

theorem solverRet_of_solver {scriptPubKey : CScript} {typeRet : TxnOutType}
    {vSolutions : List Bytes} (h : solver scriptPubKey = some (typeRet, vSolutions)) :
    solverRet scriptPubKey = (some typeRet, vSolutions) := by
  rw [solver] at h
  rw [solverRet]
  split at h
  · rename_i hscript
    rw [if_pos hscript]
    cases h
    rfl
  · rename_i hscript
    rw [if_neg hscript]
    split at h
    · rename_i hreturn
      rw [if_pos hreturn]
      split at h
      · rename_i hlength
        rw [if_pos hlength]
        cases h
        rfl
      · cases h
    · rename_i hreturn
      rw [if_neg hreturn]
      cases hfind : mTemplates.findSome? fun tplate =>
          (matchTemplate tplate.2 scriptPubKey).map fun vSolutions => (tplate.1, vSolutions) with
      | none =>
        rw [hfind] at h
        cases h
      | some matched =>
        rw [hfind] at h
        dsimp only at h
        split at h
        · cases h
        · cases h
          rfl

theorem mem_allSigs {sigs1 sigs2 : List Bytes} {v : Bytes} :
    v ∈ allSigs sigs1 sigs2 ↔ v ≠ [] ∧ (v ∈ sigs1 ∨ v ∈ sigs2) := by
  have hfold : ∀ (sigs : List Bytes) (pool : ExtTreeSet Bytes),
      v ∈ sigs.foldl (fun allsigs v => if v.isEmpty then allsigs else allsigs.insert v) pool ↔
        v ∈ pool ∨ v ≠ [] ∧ v ∈ sigs := by
    intro sigs
    induction sigs with
    | nil => simp
    | cons sig sigs ih =>
      intro pool
      rw [foldl_cons, ih]
      by_cases hempty : sig.isEmpty = true
      · have hnil := List.isEmpty_iff.mp hempty
        subst hnil
        rw [if_pos hempty, List.mem_cons]
        tauto
      · have hne : sig ≠ [] := fun hnil => hempty (List.isEmpty_iff.mpr hnil)
        rw [if_neg hempty, ExtTreeSet.mem_insert, Std.LawfulEqCmp.compare_eq_iff_eq, List.mem_cons]
        constructor
        · intro h
          rcases h with (rfl | hpool) | hrest
          · exact .inr ⟨hne, .inl rfl⟩
          · exact .inl hpool
          · exact .inr ⟨hrest.1, .inr hrest.2⟩
        · intro h
          rcases h with hpool | ⟨hv, rfl | hmem⟩
          · exact .inl (.inr hpool)
          · exact .inl (.inl rfl)
          · exact .inr ⟨hv, hmem⟩
  rw [allSigs, hfold, mem_append]
  simp only [ExtTreeSet.not_mem_empty, false_or]

theorem allSigs_comm (sigs1 sigs2 : List Bytes) : allSigs sigs1 sigs2 = allSigs sigs2 sigs1 := by
  apply ExtTreeSet.ext_mem
  intro v
  rw [mem_allSigs, mem_allSigs, or_comm]

/-- **The pool does not depend on the order of the two scripts.** -/
theorem combineMultisig_comm (check : SigCheck) (scriptPubKey : CScript)
    (vSolutions sigs1 sigs2 : List Bytes) :
    combineMultisig check scriptPubKey vSolutions sigs1 sigs2 =
      combineMultisig check scriptPubKey vSolutions sigs2 sigs1 := by
  rw [combineMultisig, combineMultisig, allSigs_comm]

variable {script : CScript} {keys : List Bytes}

/-- The assignment holds signatures for their keys. -/
def Assigned (check : SigCheck) (script : CScript) (keys pool : List Bytes)
    (sigs : ExtTreeMap Bytes Bytes) : Prop :=
  ∀ pubkey sig, sigs[pubkey]? = some sig → sig ∈ pool ∧ pubkey ∈ keys ∧ check sig pubkey script = true

/-- Every key that is signed for has a signature. -/
def Covered (check : SigCheck) (script : CScript) (keys pool : List Bytes)
    (sigs : ExtTreeMap Bytes Bytes) : Prop :=
  ∀ sig ∈ pool, ∀ pubkey ∈ keys, check sig pubkey script = true → pubkey ∈ sigs

variable {sigs : ExtTreeMap Bytes Bytes}

theorem assigned_assignSig {pool : List Bytes} (h : Assigned check script keys pool sigs)
    (sig : Bytes) : Assigned check script keys (pool ++ [sig]) (assignSig check script keys sigs sig) := by
  have hold : Assigned check script keys (pool ++ [sig]) sigs := by
    intro pubkey other hget
    obtain ⟨hmem, hkey, haccept⟩ := h pubkey other hget
    exact ⟨mem_append_left _ hmem, hkey, haccept⟩
  rw [assignSig]
  split
  · exact hold
  · rename_i pubkey hfind
    have hfound := find?_some hfind
    rw [Bool.and_eq_true] at hfound
    intro other vchSig hget
    by_cases hsame : pubkey = other
    · subst hsame
      rw [ExtTreeMap.getElem?_insert_self] at hget
      cases hget
      exact ⟨by simp, mem_of_find?_eq_some hfind, hfound.2⟩
    · rw [FinMap.getElem?_insert_ne _ _ hsame] at hget
      exact hold other vchSig hget

theorem covered_assignSig (hone : OneKey check script) {pool : List Bytes}
    (h : Covered check script keys pool sigs) (sig : Bytes) :
    Covered check script keys (pool ++ [sig]) (assignSig check script keys sigs sig) := by
  have hkept : ∀ pubkey ∈ sigs, pubkey ∈ assignSig check script keys sigs sig := by
    intro pubkey hmem
    rw [assignSig]
    split
    · exact hmem
    · exact ExtTreeMap.mem_insert.mpr (.inr hmem)
  intro vchSig hmem pubkey hkey haccept
  rcases mem_append.mp hmem with hold | hnew
  · exact hkept pubkey (h vchSig hold pubkey hkey haccept)
  · obtain rfl := mem_singleton.mp hnew
    by_cases hhas : pubkey ∈ sigs
    · exact hkept pubkey hhas
    · -- the signature is for no other key, so it goes to this one
      rw [assignSig]
      split
      · rename_i hnone
        have hmissed := find?_eq_none.mp hnone pubkey hkey
        rw [Bool.and_eq_true, not_and] at hmissed
        have hfree : (!sigs.contains pubkey) = true := by
          rw [Bool.not_eq_true', ← Bool.not_eq_true, ExtTreeMap.contains_iff_mem]
          exact hhas
        exact absurd haccept (hmissed hfree)
      · rename_i found hfind
        have hfound := find?_some hfind
        rw [Bool.and_eq_true] at hfound
        obtain rfl := hone _ _ _ hfound.2 haccept
        exact ExtTreeMap.mem_insert_self

/-- **The assignment** after the loop over the pool. -/
theorem assign_pool (hone : OneKey check script) (keys pool : List Bytes) :
    Assigned check script keys pool (pool.foldl (assignSig check script keys) ∅) ∧
      Covered check script keys pool (pool.foldl (assignSig check script keys) ∅) := by
  have hloop : ∀ (rest done : List Bytes) (sigs : ExtTreeMap Bytes Bytes),
      Assigned check script keys done sigs → Covered check script keys done sigs →
        Assigned check script keys (done ++ rest) (rest.foldl (assignSig check script keys) sigs) ∧
          Covered check script keys (done ++ rest) (rest.foldl (assignSig check script keys) sigs) := by
    intro rest
    induction rest with
    | nil =>
      intro done sigs hassigned hcovered
      rw [append_nil]
      exact ⟨hassigned, hcovered⟩
    | cons sig rest ih =>
      intro done sigs hassigned hcovered
      have hnext := ih _ _ (assigned_assignSig hassigned sig) (covered_assignSig hone hcovered sig)
      rw [append_assoc] at hnext
      exact hnext
  apply hloop pool [] ∅
  · intro pubkey sig hget
    rw [ExtTreeMap.getElem?_empty] at hget
    cases hget
  · intro sig hmem
    cases hmem

/-- What the loop over the keys pushes. -/
theorem takeSigs_forall₂ (sigs : ExtTreeMap Bytes Bytes) (n : Nat) (keys : List Bytes) :
    List.Forall₂ (fun sig pubkey => sigs[pubkey]? = some sig) (takeSigs sigs n keys)
      ((keys.filter sigs.contains).take n) := by
  induction keys generalizing n with
  | nil =>
    cases n with
    | zero => exact .nil
    | succ n => exact .nil
  | cons pubkey keys ih =>
    cases n with
    | zero => exact .nil
    | succ n =>
      rw [takeSigs]
      split
      · rename_i sig hget
        have hmem : sigs.contains pubkey = true :=
          ExtTreeMap.contains_iff_mem.mpr ((FinMap.mem_iff_exists sigs pubkey).mpr ⟨sig, hget⟩)
        rw [filter_cons, if_pos hmem, take_succ_cons]
        exact .cons hget (ih n)
      · rename_i hget
        have hnot : ¬sigs.contains pubkey = true := by
          rw [ExtTreeMap.contains_iff_mem, FinMap.mem_iff_exists]
          intro hexists
          obtain ⟨sig, hsome⟩ := hexists
          rw [hget] at hsome
          cases hsome
        rw [filter_cons, if_neg hnot]
        exact ih (n + 1)

/-- A key that some of the values sign for. -/
def signedFor (check : SigCheck) (script : CScript) (sigs : List Bytes) (vchPubKey : Bytes) : Bool :=
  sigs.any fun vchSig => isCanonicalSignature vchSig && check vchSig vchPubKey script

/-- Values that are empty or sign for a key. -/
def SignsOrEmpty (check : SigCheck) (script : CScript) (keys sigs : List Bytes) : Prop :=
  ∀ vchSig ∈ sigs, vchSig = [] ∨ ∃ vchPubKey ∈ keys, Signs check script vchSig vchPubKey

theorem exists_signer {taken signers : List Bytes} (h : List.Forall₂ (Signs check script) taken signers)
    {vchSig : Bytes} (hmem : vchSig ∈ taken) :
        ∃ vchPubKey ∈ signers, Signs check script vchSig vchPubKey := by
  induction h with
  | nil => cases hmem
  | cons hsigns _ ih =>
    rcases List.mem_cons.mp hmem with rfl | hmem
    · exact ⟨_, mem_cons_self, hsigns⟩
    · obtain ⟨vchPubKey, hin, hsigns⟩ := ih hmem
      exact ⟨vchPubKey, mem_cons_of_mem _ hin, hsigns⟩

/-- Taken signatures and empty values for what is missing. -/
def padded (m : Nat) (taken : List Bytes) : List Bytes := taken ++ List.replicate (m - taken.length) []

/-- **What `CombineMultisig` pushes**: signatures for the first keys that are signed for, and
empty values for what is missing. -/
theorem combineMultisig_eq (hone : OneKey check script) {m n : UInt8} {sigs1 sigs2 : List Bytes}
    (hsigs1 : SignsOrEmpty check script keys sigs1) (hsigs2 : SignsOrEmpty check script keys sigs2) :
    ∃ taken, combineMultisig check script ([m] :: (keys ++ [[n]])) ([] :: sigs1) ([] :: sigs2) =
        pushAll ([] :: padded m.toNat taken) ∧ List.Forall₂ (Signs check script) taken
        ((keys.filter (signedFor check script (sigs1 ++ sigs2))).take m.toNat) := by
  have hkeys : ([m] :: (keys ++ [[n]])).tail.dropLast = keys := by
    rw [tail_cons, dropLast_concat]
  obtain ⟨hassigned, hcovered⟩ := assign_pool hone keys (allSigs ([] :: sigs1) ([] :: sigs2)).toList
  have hpool : ∀ {vchSig : Bytes}, vchSig ∈ (allSigs ([] :: sigs1) ([] :: sigs2)).toList ↔
      vchSig ≠ [] ∧ vchSig ∈ sigs1 ++ sigs2 := by
    intro vchSig
    rw [ExtTreeSet.mem_toList, mem_allSigs, mem_append, List.mem_cons, List.mem_cons]
    tauto
  have hcanonical : ∀ vchSig ∈ sigs1 ++ sigs2, vchSig ≠ [] → isCanonicalSignature vchSig = true := by
    intro vchSig hmem hne
    rcases mem_append.mp hmem with hmem | hmem
    · obtain hnil | ⟨key, -, hsigns⟩ := hsigs1 vchSig hmem
      · exact absurd hnil hne
      · exact hsigns.1
    · obtain hnil | ⟨key, -, hsigns⟩ := hsigs2 vchSig hmem
      · exact absurd hnil hne
      · exact hsigns.1
  unfold combineMultisig
  simp only [hkeys, headD_cons]
  generalize ((allSigs ([] :: sigs1) ([] :: sigs2)).toList.foldl (assignSig check script keys) ∅) =
    sigs at hassigned hcovered ⊢
  refine ⟨takeSigs sigs m.toNat keys, ?_, ?_⟩
  · have hzeros : ∀ n, List.replicate n (0 : UInt8) = pushAll (List.replicate n []) := by
      intro n
      induction n with
      | zero => rfl
      | succ n ih =>
        rw [replicate_succ, replicate_succ, ih]
        rfl
    rw [hzeros, pushAll, pushAll, ← flatMap_append]
    rfl
  · have hfilter : keys.filter sigs.contains = keys.filter (signedFor check script (sigs1 ++ sigs2)) := by
      apply filter_congr
      intro key hkey
      rw [Bool.eq_iff_iff, ExtTreeMap.contains_iff_mem, signedFor, any_eq_true]
      constructor
      · intro hmem
        obtain ⟨vchSig, hget⟩ := (FinMap.mem_iff_exists sigs key).mp hmem
        obtain ⟨hin, -, haccept⟩ := hassigned key vchSig hget
        obtain ⟨hne, hin⟩ := hpool.mp hin
        exact ⟨vchSig, hin, by rw [hcanonical vchSig hin hne, haccept]; rfl⟩
      · intro hexists
        obtain ⟨vchSig, hin, hsigned⟩ := hexists
        rw [Bool.and_eq_true] at hsigned
        have hne : vchSig ≠ [] := by
          intro hnil
          rw [hnil] at hsigned
          exact absurd hsigned.1 (by decide)
        exact hcovered vchSig (hpool.mpr ⟨hne, hin⟩) key hkey hsigned.2
    rw [← hfilter]
    apply (takeSigs_forall₂ sigs m.toNat keys).imp
    intro vchSig key hget
    obtain ⟨hin, -, haccept⟩ := hassigned key vchSig hget
    obtain ⟨hne, hin⟩ := hpool.mp hin
    exact ⟨hcanonical vchSig hin hne, haccept⟩

end

section

variable {hashes : ScriptHashes} {check : SigCheck} {script : CScript} {m : Nat} {keys sigs : List Bytes}

theorem length_of_canonical {vchSig : Bytes} (h : isCanonicalSignature vchSig = true) :
    vchSig.length ≤ 73 := by
  simp only [isCanonicalSignature, Bool.and_eq_true, decide_eq_true_eq] at h
  omega

theorem canonical_ne {vchSig vchPubKey : Bytes} (hsig : isCanonicalSignature vchSig = true)
    (hkey : isCanonicalPubKey vchPubKey = true) : vchSig ≠ vchPubKey := by
  intro heq
  subst heq
  have hstart : vchSig.headD 0 = 0x30 := by
    simp only [isCanonicalSignature, Bool.and_eq_true, beq_iff_eq] at hsig
    have hbyte : vchSig.getD 0 0 = 0x30 := by tauto
    cases vchSig with
    | nil => exact hbyte
    | cons byte vchSig => exact hbyte
  rw [isCanonicalPubKey, hstart] at hkey
  simp at hkey

theorem SignsOrEmpty.short (h : SignsOrEmpty check script keys sigs) :
    ∀ vchSig ∈ sigs, vchSig.length ≤ 73 := by
  intro vchSig hmem
  obtain rfl | ⟨_, -, hsigns⟩ := h vchSig hmem
  · exact Nat.zero_le _
  · exact length_of_canonical hsigns.1

theorem SignsOrEmpty.not_key (h : SignsOrEmpty check script keys sigs)
    (hcanonical : ∀ vchPubKey ∈ keys, isCanonicalPubKey vchPubKey = true) :
        ∀ vchSig ∈ sigs, vchSig ∉ keys := by
  intro vchSig hmem hkey
  have hkey := hcanonical vchSig hkey
  obtain rfl | ⟨_, -, hsigns⟩ := h vchSig hmem
  · exact absurd hkey (by decide)
  · exact canonical_ne hsigns.1 hkey rfl

/-- **The loop of `OP_CHECKMULTISIG` on what was combined.** -/
theorem checkSigs_padded (hone : OneKey check script) (hnodup : keys.Nodup)
    (hcanonical : ∀ vchPubKey ∈ keys, isCanonicalPubKey vchPubKey = true) {signed : List Bytes}
    (hsub : signed.Sublist keys) {taken : List Bytes}
    (htaken : List.Forall₂ (Signs check script) taken (signed.take m)) :
    checkSigs check script (padded m taken).reverse keys.reverse = true ↔ m ≤ signed.length := by
  have hlength := htaken.length_eq
  rw [length_take] at hlength
  by_cases hle : m ≤ signed.length
  · have hfull : padded m taken = taken := by
      rw [padded, hlength, Nat.min_eq_left hle, Nat.sub_self, replicate_zero, append_nil]
    have hsubset : (signed.take m).reverse.Sublist keys.reverse :=
      ((take_sublist m signed).trans hsub).reverse
    rw [hfull]
    constructor
    · exact fun _ => hle
    · intro _
      exact checkSigs_of_signs hone hsubset (nodup_reverse.mpr hnodup)
        (fun key hmem => hcanonical key (mem_reverse.mp hmem)) (forall₂_reverse_iff.mpr htaken)
  · obtain ⟨missing, hmissing⟩ : ∃ missing, m - taken.length = missing + 1 := ⟨m - taken.length - 1, by omega⟩
    have hempty : (padded m taken).reverse = [] :: (taken ++ List.replicate missing []).reverse := by
      rw [padded, hmissing, replicate_succ', ← append_assoc, reverse_concat]
    rw [hempty, checkSigs_of_not_canonical (by decide)]
    constructor
    · intro hfalse
      cases hfalse
    · exact fun hm => absurd hm hle

/-- How an output asks for the script: plainly, or by its hash; and what a script for it pushes
last. -/
inductive AsksFor (hashes : ScriptHashes) (script : CScript) : CScript → List Bytes → Prop
  | plain : AsksFor hashes script script []
  | wrapped (hredeem : script.length ≤ 520) :
      AsksFor hashes script (CScript.setDestination (.scriptID (hashes.hash160 script))) [script]

theorem castToBool_vchBool (fValue : Bool) : castToBool (vchBool fValue) = fValue := by
  cases fValue
  · rfl
  · rfl

theorem isPushOnly_of_pushes {values : List Bytes} {pc : CScript}
    (h : CScript.Pushes pc values []) : isPushOnly pc = true := by
  obtain ⟨ops, hreads, -, hpush⟩ := h
  have hloop : ∀ fuel, pc.length ≤ fuel → pushOnlyLoop fuel pc = true := by
    generalize hrest : ([] : CScript) = rest at hreads
    induction hreads with
    | nil =>
      subst hrest
      intro fuel _
      rw [pushOnlyLoop]
    | @cons pc _ _ opcode _ _ hop _ ih =>
      intro fuel hfuel
      have hlt := length_getOp hop
      cases fuel with
      | zero => omega
      | succ fuel =>
        cases pc with
        | nil => cases hop
        | cons op pc =>
          have hle : opcode ≤ OP_16 := UInt8.le_trans (hpush _ mem_cons_self) (by decide)
          simp only [pushOnlyLoop, hop, hle, decide_true, Bool.true_and]
          exact ih (fun op hmem => hpush op (mem_cons_of_mem _ hmem)) hrest fuel (by omega)
  exact hloop _ le_rfl

theorem evalScript_scriptHash (stack : List Bytes) (hstack : stack.length ≤ 900) :
    evalScript hashes check (script :: stack) (setDestination (.scriptID (hashes.hash160 script))) =
      some (vchTrue :: stack) := by
  have hhash : (hashes.hash160 script).toList.length = 20 := Vector.length_toList
  have hlt : ((hashes.hash160 script).toList ++ [OP_EQUAL]).length < 2 ^ 32 := by
    rw [length_append, hhash]
    decide
  obtain ⟨opcode, hle, hpush⟩ := getOp_pushData hlt
  have hform : setDestination (.scriptID (hashes.hash160 script)) =
      OP_HASH160 :: (pushData (hashes.hash160 script).toList ++ [OP_EQUAL]) := rfl
  have hlength : (setDestination (.scriptID (hashes.hash160 script))).length ≤ 10000 := by
    rw [hform, pushData, if_pos (by rw [hhash]; decide)]
    simp only [length_cons, length_append, length_nil, hhash]
    omega
  rw [hform] at hlength ⊢
  generalize hcode : OP_HASH160 :: (pushData (hashes.hash160 script).toList ++ [OP_EQUAL]) = code
    at hlength
  have hhashOp : execOp hashes check OP_HASH160 true (pushData (hashes.hash160 script).toList ++ [OP_EQUAL])
      ⟨script :: stack, [], [], 1, code⟩ =
        some ⟨(hashes.hash160 script).toList :: stack, [], [], 1, code⟩ := rfl
  have hequalOp : execOp hashes check OP_EQUAL true []
      ⟨(hashes.hash160 script).toList :: (hashes.hash160 script).toList :: stack, [], [], 2, code⟩ =
        some ⟨vchTrue :: stack, [], [], 2, code⟩ := by
    show some (EvalState.mk
      (vchBool ((hashes.hash160 script).toList == (hashes.hash160 script).toList) :: stack)
      [] [] 2 code) = _
    rw [beq_self_eq_true]
    rfl
  have hruns : Runs hashes check code ⟨script :: stack, [], [], 0, code⟩
      ⟨vchTrue :: stack, [], [], 2, code⟩ := by
    have hfirst : getOp code =
        some (OP_HASH160, [], pushData (hashes.hash160 script).toList ++ [OP_EQUAL]) := by
      rw [← hcode]
      rfl
    have hlast : getOp [OP_EQUAL] = some (OP_EQUAL, [], []) := rfl
    have hone : (1 : Nat) ≤ 201 := by decide
    have htwo : (1 : Nat) < 201 := by decide
    apply Runs.op hfirst (evalOp_of_exec rfl (by decide) (Nat.succ_pos 200) (by decide) hhashOp _)
    · apply Runs.op hpush (evalOp_of_push rfl hle hone (by rw [hhash]; decide) _)
      · apply Runs.op hlast (evalOp_of_exec rfl (by decide) htwo (by decide) hequalOp _) .nil
        show stack.length + 1 + 0 ≤ 1000
        omega
      · show stack.length + 1 + 0 < 1000
        omega
    · show stack.length + 1 + 0 ≤ 1000
      omega
  rw [evalScript_of_runs hlength hruns rfl]

end

theorem isPayToScriptHash_setDestination (scriptID : Vector UInt8 20) :
    isPayToScriptHash (setDestination (.scriptID scriptID)) = true := by
  have hlength : scriptID.toList.length = 20 := Vector.length_toList
  have hform : setDestination (.scriptID scriptID) =
      [OP_HASH160, 0x14] ++ scriptID.toList ++ [OP_EQUAL] := by
    show [OP_HASH160] ++ pushData scriptID.toList ++ [OP_EQUAL] = _
    rw [pushData, if_pos (by rw [hlength]; decide), hlength]
    rfl
  have hfront : ([OP_HASH160, 0x14] ++ scriptID.toList).length = 22 := by
    rw [length_append, hlength]
    rfl
  have hlast : (setDestination (.scriptID scriptID))[22]? = some OP_EQUAL := by
    rw [hform, getElem?_append_right (Nat.le_of_eq hfront), hfront]
    rfl
  have hsize : (setDestination (.scriptID scriptID)).length = 23 := by
    rw [hform, length_append, hfront]
    rfl
  rw [isPayToScriptHash, hlast, hsize, hform]
  rfl

section

variable {hashes : ScriptHashes} {check : SigCheck} {script scriptPubKey : CScript} {m : Nat}
  {keys behind sigs : List Bytes}

variable {values : List Bytes}

theorem length_pushAll_le (hlength : ∀ b ∈ values, b.length ≤ 520) :
    (pushAll values).length ≤ values.length * 525 := by
  induction values with
  | nil => exact Nat.le_refl 0
  | cons b values ih =>
    have hfirst := Nat.le_trans (length_pushData_le b) (Nat.add_le_add_right (hlength b mem_cons_self) 5)
    have hmore := ih fun b hb => hlength b (mem_cons_of_mem _ hb)
    rw [pushAll, flatMap_cons, length_append, length_cons, Nat.succ_mul]
    exact Nat.le_trans (Nat.add_le_add hfirst hmore) (Nat.le_of_eq (Nat.add_comm _ _))

theorem pushes_pushAll (hlength : ∀ b ∈ values, b.length ≤ 520)
    (hcount : values.length ≤ 2000) : CScript.Pushes (pushAll values) values [] := by
  have hall := length_pushAll_le hlength
  have hlt : (values.flatMap pushData ++ []).length < 2 ^ 32 := by
    rw [append_nil]
    exact Nat.lt_of_le_of_lt (Nat.le_trans hall (Nat.mul_le_mul_right _ hcount)) (by decide)
  have hpushes := pushes_flatMap hlt
  rwa [append_nil] at hpushes

theorem IsMultisig.script_ne (h : IsMultisig script m keys) : script ≠ [] := by
  intro hnil
  obtain ⟨pcKeys, pcCount, pcCheck, hm, -⟩ := h.form
  rw [hnil] at hm
  cases hm

theorem AsksFor.behind_le (h : AsksFor hashes script scriptPubKey behind) :
    behind.length ≤ 1 ∧ ∀ b ∈ behind, b.length ≤ 520 := by
  cases h with
  | plain => exact ⟨Nat.zero_le 1, by simp⟩
  | wrapped hredeem =>
    refine ⟨Nat.le_refl 1, ?_⟩
    intro b hmem
    rw [mem_singleton.mp hmem]
    exact hredeem

/-- **`VerifyScript` on an empty value and as many values as the script asks for**: the loop of
`OP_CHECKMULTISIG` decides. -/
theorem verifyScript_values (h : IsMultisig script m keys) (hplain : isPayToScriptHash script = false)
    (hasks : AsksFor hashes script scriptPubKey behind) (hcount : values.length = m)
    (hshort : ∀ vchSig ∈ values, vchSig.length ≤ 73) (hnot : ∀ vchSig ∈ values, vchSig ∉ keys) :
    verifyScript hashes check (pushAll ([] :: values ++ behind)) scriptPubKey =
      checkSigs check script values.reverse keys.reverse := by
  obtain ⟨hbehind, hbehindData⟩ := hasks.behind_le
  have hkeys := h.le_length
  have hsixteen := h.length_le
  have hdata : ∀ b ∈ [] :: values ++ behind, b.length ≤ 520 := by
    intro b hmem
    rw [cons_append, List.mem_cons, mem_append] at hmem
    rcases hmem with rfl | hmem | hmem
    · exact Nat.zero_le _
    · exact Nat.le_trans (hshort b hmem) (by decide)
    · exact hbehindData b hmem
  have hsize : ([] :: values ++ behind).length ≤ 18 := by
    rw [length_append, length_cons]
    omega
  have hpushes := pushes_pushAll hdata (Nat.le_trans hsize (by decide))
  have hlength : (pushAll ([] :: values ++ behind)).length ≤ 10000 :=
    Nat.le_trans (Nat.le_trans (length_pushAll_le hdata) (Nat.mul_le_mul_right _ hsize)) (by decide)
  have hscript : evalScript hashes check (values.reverse ++ [[]]) script =
      some [vchBool (checkSigs check script values.reverse keys.reverse)] := by
    apply h.evalScript_eq (by rw [length_reverse, hcount])
    exact fun vchSig hmem => hnot vchSig (mem_reverse.mp hmem)
  have hstack : evalScript hashes check [] (pushAll ([] :: values ++ behind)) =
      some (behind.reverse ++ (values.reverse ++ [[]])) := by
    rw [evalScript_of_pushes hpushes hlength hdata (Nat.le_trans hsize (by decide)), reverse_append,
      reverse_cons]
  rw [verifyScript, hstack]
  cases hasks with
  | plain =>
    simp only [reverse_nil, nil_append, hscript, hplain, topIsTrue, castToBool_vchBool,
      Bool.not_false, Bool.true_or, Bool.and_true]
  | wrapped =>
    have houter : evalScript hashes check (script :: (values.reverse ++ [[]]))
        (setDestination (.scriptID (hashes.hash160 script))) =
          some (vchTrue :: (values.reverse ++ [[]])) := by
      apply evalScript_scriptHash
      rw [length_append, length_reverse, length_singleton]
      omega
    have htrue : castToBool vchTrue = true := rfl
    simp only [reverse_singleton, singleton_append, houter, topIsTrue, htrue, Bool.true_and,
      isPayToScriptHash_setDestination, Bool.not_true, Bool.false_or, isPushOnly_of_pushes hpushes,
      hscript, castToBool_vchBool]

end

namespace SigCrypto

variable {H : Type} {crypto : SigCrypto H} {txTo : CTransaction H} {nIn : Nat}
  {script scriptPubKey : CScript} {m : Nat} {keys behind : List Bytes}

/-- ECDSA as it is meant to be: a signature verifies for one key and one message at most. -/
def ExactVerify (crypto : SigCrypto H) : Prop :=
  ∀ vchPubKey vchPubKey' hash hash' vchSig, crypto.verify vchPubKey hash vchSig = true →
    crypto.verify vchPubKey' hash' vchSig = true → vchPubKey = vchPubKey' ∧ hash = hash'

theorem ExactVerify.oneKey (h : ExactVerify crypto) (txTo : CTransaction H) (nIn : Nat) (nHashType : UInt8)
    (script : CScript) : OneKey (crypto.checkSig txTo nIn nHashType) script := by
  intro vchSig vchPubKey vchPubKey' haccept haccept'
  simp only [checkSig] at haccept haccept'
  split at haccept
  · cases haccept
  · rename_i last hlast
    rw [hlast] at haccept'
    split at haccept
    · cases haccept
    · rename_i htype
      simp only [if_neg htype] at haccept'
      exact (h _ _ _ _ _ haccept haccept').1

/-- A script of an input with some of the signatures: an empty value, then signatures of keys
or empty values, within the limits of `EvalScript`. -/
structure PartlySigned (check : SigCheck) (script : CScript) (keys behind : List Bytes)
    (scriptSig : CScript) (sigs : List Bytes) : Prop where
  pushes : CScript.Pushes scriptSig ([] :: sigs ++ behind) []
  signs : SignsOrEmpty check script keys sigs
  length_le : scriptSig.length ≤ 10000
  count_le : ([] :: sigs ++ behind).length ≤ 1000

theorem PartlySigned.stack_eq {check : SigCheck} {hashes : ScriptHashes}
    {check' : SigCheck} {scriptSig : CScript}
    {sigs : List Bytes} (h : PartlySigned check script keys behind scriptSig sigs)
    (hbehind : ∀ b ∈ behind, b.length ≤ 520) :
    (evalScriptStack hashes check' [] scriptSig).reverse = [] :: sigs ++ behind := by
  have hdata : ∀ b ∈ [] :: sigs ++ behind, b.length ≤ 520 := by
    intro b hmem
    rw [cons_append, List.mem_cons, mem_append] at hmem
    rcases hmem with rfl | hmem | hmem
    · exact Nat.zero_le _
    · exact Nat.le_trans (h.signs.short b hmem) (by decide)
    · exact hbehind b hmem
  rw [evalScriptStack_of_evalScript (evalScript_of_pushes h.pushes h.length_le hdata h.count_le),
    reverse_reverse]

theorem combineSolved_asks {check : SigCheck} {hashes : ScriptHashes} {vSolutions : List Bytes}
    (hsolver : solver script = some (.TX_MULTISIG, vSolutions)) (hne : script ≠ [])
    (hasks : AsksFor hashes script scriptPubKey behind) (values1 values2 : List Bytes) :
    combineSolved check scriptPubKey (solverRet scriptPubKey) (values1 ++ behind) (values2 ++ behind) =
      combineMultisig check script vSolutions values1 values2 ++ pushAll behind := by
  have hmultisig : ∀ values1 values2, combineSolved check script (solverRet script) values1
      values2 = combineMultisig check script vSolutions values1 values2 := by
    intro values1 values2
    rw [solverRet_of_solver hsolver, combineSolved]
  cases hasks with
  | plain =>
    rw [append_nil, append_nil, hmultisig]
    exact (append_nil _).symm
  | wrapped =>
    have htype : (solverRet (setDestination (.scriptID (hashes.hash160 script)))).1 =
        some .TX_SCRIPTHASH := by
      rw [solverRet, if_pos (isPayToScriptHash_setDestination _)]
    have hfull : ¬script.isEmpty = true := fun hempty => hne (List.isEmpty_iff.mp hempty)
    unfold combineSolved
    simp only [htype, getLastD_concat, hfull, dropLast_concat, hmultisig, dite_false, if_false,
      Bool.false_eq_true]
    rw [pushAll, flatMap_singleton]

/-- **Partial multisignatures combine.**  For scripts of an input within the limits of
`EvalScript`, the combined script has signatures for the first keys that are signed for in either,
it is accepted exactly when enough keys are signed for, and it does not depend on the order of the
two. -/
theorem combineSignatures_multisig (hexact : crypto.ExactVerify) {m n : UInt8}
    (hsolver : solver script = some (.TX_MULTISIG, [m] :: (keys ++ [[n]]))) (hnodup : keys.Nodup)
    (hcanonical : ∀ vchPubKey ∈ keys, isCanonicalPubKey vchPubKey = true)
    (hasks : AsksFor crypto.hashes script scriptPubKey behind) {scriptSig1 scriptSig2 : CScript}
    {sigs1 sigs2 : List Bytes}
    (h1 : PartlySigned (crypto.checkSig txTo nIn 0) script keys behind scriptSig1 sigs1)
    (h2 : PartlySigned (crypto.checkSig txTo nIn 0) script keys behind scriptSig2 sigs2)
    (nAdjustedTime : UInt32) :
    (∃ taken, crypto.combineSignatures nAdjustedTime scriptPubKey txTo nIn scriptSig1 scriptSig2 =
        pushAll ([] :: padded m.toNat taken ++ behind) ∧
      List.Forall₂ (Signs (crypto.checkSig txTo nIn 0) script) taken
        ((keys.filter (signedFor (crypto.checkSig txTo nIn 0) script (sigs1 ++ sigs2))).take m.toNat)) ∧
    (verifyScript crypto.hashes (crypto.checkSig txTo nIn 0)
        (crypto.combineSignatures nAdjustedTime scriptPubKey txTo nIn scriptSig1 scriptSig2) scriptPubKey = true ↔
      m.toNat ≤ (keys.filter (signedFor (crypto.checkSig txTo nIn 0) script (sigs1 ++ sigs2))).length) ∧
    crypto.combineSignatures nAdjustedTime scriptPubKey txTo nIn scriptSig2 scriptSig1 =
      crypto.combineSignatures nAdjustedTime scriptPubKey txTo nIn scriptSig1 scriptSig2 := by
  have hone := hexact.oneKey txTo nIn 0 script
  have hmultisig : IsMultisig script m.toNat keys := by
    obtain ⟨m', keys', heq, hform⟩ := isMultisig_of_solver hsolver
    obtain ⟨hm, hkeys⟩ := List.cons.inj heq
    obtain ⟨rfl, -⟩ := append_inj' hkeys rfl
    obtain ⟨rfl, -⟩ := List.cons.inj hm
    have hlt : m' < 256 := by
      have hle := hform.le_length
      have hsixteen := hform.length_le
      omega
    have hbyte : (UInt8.ofNat m').toNat = m' := UInt8.toNat_ofNat_of_lt hlt
    rwa [hbyte]
  have hplain : isPayToScriptHash script = false := by
    rw [← Bool.not_eq_true]
    intro hscript
    rw [solver, if_pos hscript] at hsolver
    cases hsolver
  obtain ⟨-, hbehind⟩ := hasks.behind_le
  have hcombine : ∀ {scriptSig scriptSig' : CScript} {sigs sigs' : List Bytes},
      PartlySigned (crypto.checkSig txTo nIn 0) script keys behind scriptSig sigs →
      PartlySigned (crypto.checkSig txTo nIn 0) script keys behind scriptSig' sigs' →
        crypto.combineSignatures nAdjustedTime scriptPubKey txTo nIn scriptSig scriptSig' =
          combineMultisig (crypto.checkSig txTo nIn 0) script
            ([m] :: (keys ++ [[n]])) ([] :: sigs) ([] :: sigs') ++
            pushAll behind := by
    intro scriptSig scriptSig' sigs sigs' hsigned hsigned'
    unfold combineSignatures
    simp only [hsigned.stack_eq hbehind, hsigned'.stack_eq hbehind]
    exact combineSolved_asks hsolver hmultisig.script_ne hasks _ _
  obtain ⟨taken, hpushed, htaken⟩ := combineMultisig_eq (m := m) (n := n) hone h1.signs h2.signs
  have hresult : crypto.combineSignatures nAdjustedTime scriptPubKey txTo nIn scriptSig1 scriptSig2 =
      pushAll ([] :: padded m.toNat taken ++ behind) := by
    rw [hcombine h1 h2, hpushed, pushAll, pushAll, pushAll, flatMap_append]
  refine ⟨⟨taken, hresult, htaken⟩, ?_, ?_⟩
  · have hcount := htaken.length_eq
    rw [length_take] at hcount
    have hpadded : (padded m.toNat taken).length = m.toNat := by
      rw [padded, length_append, length_replicate]
      omega
    have hvalues : SignsOrEmpty (crypto.checkSig txTo nIn 0) script keys (padded m.toNat taken) := by
      intro vchSig hmem
      rcases mem_append.mp hmem with hmem | hmem
      · obtain ⟨key, hkey, hsigns⟩ := exists_signer htaken hmem
        exact .inr ⟨key, mem_of_mem_filter (mem_of_mem_take hkey), hsigns⟩
      · exact .inl (eq_of_mem_replicate hmem)
    rw [hresult,
      verifyScript_values hmultisig hplain hasks hpadded hvalues.short (hvalues.not_key hcanonical)]
    exact checkSigs_padded hone hnodup hcanonical filter_sublist htaken
  · rw [hcombine h2 h1, hcombine h1 h2, combineMultisig_comm]

end SigCrypto

/-- A compressed key. -/
def multisigKey (x : UInt8) : Bytes := 0x02 :: List.replicate 32 x

/-- A canonical signature for all of a transaction. -/
def multisigSig (r : UInt8) : Bytes := [0x30, 0x06, 0x02, 0x01, r, 0x02, 0x01, 0x01, SIGHASH_ALL]

/-- Two of three keys. -/
def twoOfThree : CScript :=
  0x52 :: ([1, 2, 3].map multisigKey).flatMap CScript.pushData ++ [0x53, OP_CHECKMULTISIG]

def oneOfOne : CScript := 0x51 :: CScript.pushData (multisigKey 1) ++ [0x51, OP_CHECKMULTISIG]

/-- Signatures of keys under one script, for one input of a transaction. -/
def multisigCrypto (script : CScript) : SigCrypto (List Nat) where
  sha := transparent
  hashes := openCrypto.hashes
  one := [1]
  verify vchPubKey hash vchSig :=
    hash == openCrypto.signatureHash script twoInputs 0 SIGHASH_ALL &&
      ([1, 2, 3].any fun x => vchPubKey == multisigKey x && vchSig == (multisigSig x).dropLast)

theorem multisigCrypto_exact (script : CScript) : (multisigCrypto script).ExactVerify := by
  intro vchPubKey vchPubKey' hash hash' vchSig haccept haccept'
  simp only [multisigCrypto, Bool.and_eq_true, beq_iff_eq, any_eq_true] at haccept haccept'
  obtain ⟨hhash, x, -, hkey, hsig⟩ := haccept
  obtain ⟨hhash', x', -, hkey', hsig'⟩ := haccept'
  have hsame : x = x' := by
    have heq := hsig.symm.trans hsig'
    simpa [multisigSig] using heq
  rw [hkey, hkey', hhash, hhash', hsame]
  exact ⟨rfl, rfl⟩

/-- One signature of a script behind its hash. -/
theorem partlySigned_twoOfThree {x : UInt8} (hx : x = 1 ∨ x = 3) :
    SigCrypto.PartlySigned ((multisigCrypto twoOfThree).checkSig twoInputs 0 0) twoOfThree
      ([1, 2, 3].map multisigKey) [twoOfThree] (pushAll [[], multisigSig x, twoOfThree]) [multisigSig x] := by
  rcases hx with rfl | rfl
  · refine ⟨pushes_pushAll (by decide) (by decide), ?_, by decide, by decide⟩
    intro vchSig hmem
    rw [mem_singleton.mp hmem]
    exact .inr ⟨multisigKey 1, by decide, by decide, by decide +kernel⟩
  · refine ⟨pushes_pushAll (by decide) (by decide), ?_, by decide, by decide⟩
    intro vchSig hmem
    rw [mem_singleton.mp hmem]
    exact .inr ⟨multisigKey 3, by decide, by decide, by decide +kernel⟩

theorem combineSignatures_twoOfThree :
    verifyScript (multisigCrypto twoOfThree).hashes ((multisigCrypto twoOfThree).checkSig twoInputs 0 0)
      ((multisigCrypto twoOfThree).combineSignatures 0 (setDestination
        (.scriptID ((multisigCrypto twoOfThree).hashes.hash160 twoOfThree))) twoInputs 0
        (pushAll [[], multisigSig 3, twoOfThree]) (pushAll [[], multisigSig 1, twoOfThree]))
      (setDestination (.scriptID ((multisigCrypto twoOfThree).hashes.hash160 twoOfThree))) = true := by
  have hsolver : solver twoOfThree = some (.TX_MULTISIG, [2] :: ([1, 2, 3].map multisigKey ++ [[3]])) := by
    decide +kernel
  have hcombined := SigCrypto.combineSignatures_multisig (multisigCrypto_exact twoOfThree) hsolver (by decide)
    (by decide) (.wrapped (by decide)) (partlySigned_twoOfThree (.inr rfl))
      (partlySigned_twoOfThree (.inl rfl)) 0
  exact hcombined.2.1.mpr (by decide +kernel)

/-- **A script beyond the limits of `EvalScript`** loses its signatures. -/
theorem combineSignatures_long_lost : CScript.Pushes (pushAll ([] :: List.replicate 1100 (multisigSig 1)))
        ([] :: List.replicate 1100 (multisigSig 1)) [] ∧
      Signs ((multisigCrypto oneOfOne).checkSig twoInputs 0 0) oneOfOne (multisigSig 1)
      (multisigKey 1) ∧ solver oneOfOne = some (.TX_MULTISIG, [[1], multisigKey 1, [1]]) ∧
      verifyScript (multisigCrypto oneOfOne).hashes ((multisigCrypto oneOfOne).checkSig twoInputs 0 0)
        ((multisigCrypto oneOfOne).combineSignatures 0 oneOfOne twoInputs 0 (pushAll
          ([] :: List.replicate 1100 (multisigSig 1))) (pushAll [[]])) oneOfOne = false := by
  have hdata : ∀ b ∈ [] :: List.replicate 1100 (multisigSig 1), b.length ≤ 520 := by
    intro b hmem
    rcases List.mem_cons.mp hmem with rfl | hmem
    · exact Nat.zero_le _
    · rw [eq_of_mem_replicate hmem]
      decide
  have hsolver : solver oneOfOne = some (.TX_MULTISIG, [[1], multisigKey 1, [1]]) := by decide +kernel
  have hcount : ([] :: List.replicate 1100 (multisigSig 1)).length ≤ 2000 := by
    rw [length_cons, length_replicate]
    decide
  refine ⟨pushes_pushAll hdata hcount, ⟨by decide, by decide +kernel⟩, hsolver, ?_⟩
  have hlong : (pushAll ([] :: List.replicate 1100 (multisigSig 1))).length > 10000 := by
    have hpush : (pushData (multisigSig 1)).length = 10 := by decide
    rw [pushAll, flatMap_cons, length_append, length_flatMap, map_replicate, hpush, sum_replicate_nat]
    omega
  have hshort : ∀ check : SigCheck, evalScriptStack (multisigCrypto oneOfOne).hashes check []
      (pushAll [[]]) = [[]] := fun _ => rfl
  have hcombined : (multisigCrypto oneOfOne).combineSignatures 0 oneOfOne twoInputs 0
      (pushAll ([] :: List.replicate 1100 (multisigSig 1))) (pushAll [[]]) = [0, 0] := by
    unfold SigCrypto.combineSignatures
    simp only [hshort, solverRet_of_solver hsolver]
    rw [evalScriptStack, if_pos hlong, combineSolved]
    decide +kernel
  rw [hcombined]
  decide +kernel

end MaryJaneCoin
