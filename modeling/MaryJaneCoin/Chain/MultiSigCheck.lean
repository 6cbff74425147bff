import MaryJaneCoin.Chain.Interpreter
import MaryJaneCoin.Lib.Matching

/-!
# `OP_CHECKMULTISIG` is exact

The loop over the signatures and the keys stops early where fewer keys than signatures
are left, and takes for a signature the first key that accepts it.  It succeeds exactly
if the signatures can be assigned to the keys in order.
-/

namespace MaryJaneCoin

open Codec OrderedMatching List Option

/-- A signature and a key that are canonical and pass `CheckSig`. -/
def acceptsPair (checkSig : SigCheck) (scriptCode : CScript) (vchSig vchPubKey : Bytes) : Bool :=
  isCanonicalSignature vchSig && isCanonicalPubKey vchPubKey && checkSig vchSig vchPubKey scriptCode

/-- The script code without the signatures that are checked. -/
def multiSigCode (codehash : CScript) (sigs : List Bytes) : CScript :=
  sigs.foldl (fun code vchSig => CScript.findAndDelete (CScript.pushData vchSig) code) codehash

/-- A stack on which `OP_CHECKMULTISIG` runs, top first: the number of keys, the keys, the
number of signatures, the signatures, and one element more. -/
structure MultiSigStack where
  keysCount : Bytes
  keys : List Bytes
  sigsCount : Bytes
  sigs : List Bytes
  extra : Bytes
  below : List Bytes
  keysCount_eq : castToBigNum keysCount = some (keys.length : Int)
  sigsCount_eq : castToBigNum sigsCount = some (sigs.length : Int)
  sigs_le : sigs.length ≤ keys.length
  keys_le : keys.length ≤ 20

namespace MultiSigStack

/-- What the operation removes. -/
def popped (args : MultiSigStack) : List Bytes :=
  args.keysCount :: (args.keys ++ args.sigsCount :: (args.sigs ++ [args.extra]))

/-- The whole stack. -/
def stack (args : MultiSigStack) : List Bytes := args.popped ++ args.below

/-- The two counts, the keys, the signatures and the extra element. -/
theorem length_popped (args : MultiSigStack) :
    args.popped.length = args.keys.length + args.sigs.length + 3 := by
  simp only [popped, length_cons, length_append, length_nil]
  omega

theorem drop_stack (args : MultiSigStack) :
    args.stack.drop (args.keys.length + args.sigs.length + 3) = args.below := by
  rw [stack, ← args.length_popped, drop_left]

theorem stack_eq (args : MultiSigStack) : args.stack =
    args.keysCount :: (args.keys ++ args.sigsCount :: (args.sigs ++ args.extra :: args.below)) := by
  simp only [stack, popped, cons_append, append_assoc, nil_append]

end MultiSigStack

section

variable {hashes : ScriptHashes} {check : SigCheck} {codehash : CScript}

/-- The early exit changes nothing. -/
theorem checkSigs_eq_greedy {sigs keys : List Bytes} (hle : sigs.length ≤ keys.length) :
    checkSigs check codehash sigs keys = greedy (acceptsPair check codehash) sigs keys := by
  induction keys generalizing sigs with
  | nil =>
    cases sigs with
    | nil => rfl
    | cons _ _ => rfl
  | cons vchPubKey keys ih =>
    cases sigs with
    | nil => rfl
    | cons vchSig sigs =>
      rw [checkSigs, greedy]
      generalize hleft : (if acceptsPair check codehash vchSig vchPubKey then sigs else vchSig :: sigs) = left
      rw [acceptsPair] at hleft
      rw [hleft]
      split
      · rename_i hmany
        exact (greedy_of_length_lt hmany).symm
      · rename_i hmany
        exact ih (Nat.le_of_not_lt hmany)

/-- **When `OP_CHECKMULTISIG` has a result**, and which. -/
theorem checkMultiSig_eq_some {nOpCount : Nat} {stack : List Bytes} {result : List Bytes × Nat} :
    checkMultiSig check codehash nOpCount stack = some result ↔
      ∃ args : MultiSigStack, args.stack = stack ∧ nOpCount + args.keys.length ≤ 201 ∧
        result = (vchBool (checkSigs check (multiSigCode codehash args.sigs) args.sigs args.keys) ::
          args.below, nOpCount + args.keys.length) := by
  constructor
  · intro h
    cases stack with
    | nil => cases h
    | cons keysCount stack =>
      obtain ⟨nKeysCount, hkeys, h⟩ := bind_eq_some_iff.mp h
      split at h
      · cases h
      rename_i hrange
      simp only at h
      split at h
      · cases h
      rename_i hops
      split at h
      · cases h
      rename_i sigsCount behind hdrop
      obtain ⟨nSigsCount, hsigs, h⟩ := bind_eq_some_iff.mp h
      split at h
      · cases h
      rename_i hfew
      split at h
      · cases h
      rename_i hdeep
      cases h
      simp only [Bool.or_eq_true, decide_eq_true_eq, not_or, Int.not_lt] at hrange hfew
      obtain ⟨n, rfl⟩ := Int.eq_ofNat_of_zero_le hrange.1
      obtain ⟨m, rfl⟩ := Int.eq_ofNat_of_zero_le hfew.1
      simp only [Int.toNat_natCast] at hdrop hops hdeep ⊢
      have hn : (stack.take n).length = n := by
        have hlong := congrArg List.length hdrop
        rw [length_drop, length_cons] at hlong
        rw [length_take]
        omega
      have hm : (behind.take m).length = m := by
        rw [length_take]
        omega
      have hextra : m < behind.length := by omega
      have hbehind : behind.take m ++ behind[m] :: behind.drop (m + 1) = behind := by
        rw [← drop_eq_getElem_cons hextra, take_append_drop]
      let args : MultiSigStack := ⟨keysCount, stack.take n, sigsCount, behind.take m, behind[m],
        behind.drop (m + 1), by rw [hn]; exact hkeys, by rw [hm]; exact hsigs, by omega, by omega⟩
      refine ⟨args, ?_, ?_, ?_⟩
      · rw [MultiSigStack.stack_eq]
        show keysCount ::
          (stack.take n ++ sigsCount :: (behind.take m ++ behind[m] :: behind.drop (m + 1))) = _
        rw [hbehind, ← hdrop, take_append_drop]
      · show nOpCount + (stack.take n).length ≤ 201
        omega
      · show _ = (_, nOpCount + (stack.take n).length)
        rw [hn]
        rfl
  · rintro ⟨args, rfl, hops, rfl⟩
    have hkeys := args.keys_le
    have hsigs := args.sigs_le
    have hrange :
        ¬(decide ((args.keys.length : Int) < 0) || decide ((args.keys.length : Int) > 20)) =
          true := by
      simp only [Bool.or_eq_true, decide_eq_true_eq]
      omega
    have hfew : ¬(decide ((args.sigs.length : Int) < 0) ||
        decide ((args.sigs.length : Int) > (args.keys.length : Int))) = true := by
      simp only [Bool.or_eq_true, decide_eq_true_eq]
      omega
    have hdeep : ¬(args.sigs ++ args.extra :: args.below).length < args.sigs.length + 1 := by
      rw [length_append, length_cons]
      omega
    have hdrop : (args.sigs ++ args.extra :: args.below).drop (args.sigs.length + 1) = args.below := by
      rw [← drop_drop, drop_left]
      rfl
    rw [MultiSigStack.stack_eq]
    simp only [checkMultiSig, bind, args.keysCount_eq, bind_some, if_neg hrange, Int.toNat_natCast,
      if_neg (Nat.not_lt.mpr hops), gt_iff_lt, drop_left, args.sigsCount_eq, if_neg hdeep,
      take_left, hdrop, multiSigCode]
    rw [if_neg hfew]

theorem execOp_checkMultiSig {fExec : Bool} {rest : CScript} {st : EvalState} :
    execOp hashes check OP_CHECKMULTISIG fExec rest st =
      (checkMultiSig check st.codehash st.nOpCount st.stack).bind fun result =>
        (verifyTop false result.1).map fun stack => { st with stack, nOpCount := result.2 } := rfl

/-- **`OP_CHECKMULTISIG` is exact.**  With `n` keys and `m` signatures it removes
`n + m + 3` elements, and leaves true exactly if the signatures can be assigned to the
keys in order, so that every pair is accepted. -/
theorem opCheckMultiSig_exact {fExec : Bool} {rest : CScript} {st after : EvalState} :
    execOp hashes check OP_CHECKMULTISIG fExec rest st = some after ↔
      ∃ args : MultiSigStack, args.stack = st.stack ∧ st.nOpCount + args.keys.length ≤ 201 ∧
        ∃ fSuccess, (fSuccess = true ↔ Assignable (acceptsPair check
          (multiSigCode st.codehash args.sigs)) args.sigs args.keys) ∧ after = { st with
            stack := vchBool fSuccess :: st.stack.drop (args.keys.length + args.sigs.length + 3)
            nOpCount := st.nOpCount + args.keys.length } := by
  have hscan : ∀ args : MultiSigStack,
      checkSigs check (multiSigCode st.codehash args.sigs) args.sigs args.keys = true ↔ Assignable
        (acceptsPair check (multiSigCode st.codehash args.sigs)) args.sigs args.keys := by
    intro args
    rw [checkSigs_eq_greedy args.sigs_le]
    exact greedy_iff_assignable
  rw [execOp_checkMultiSig, Option.bind_eq_some_iff]
  constructor
  · rintro ⟨result, hresult, hafter⟩
    obtain ⟨args, hstack, hops, rfl⟩ := checkMultiSig_eq_some.mp hresult
    cases hafter
    exact ⟨args, hstack, hops, _, hscan args, by rw [← hstack, args.drop_stack]⟩
  · rintro ⟨args, hstack, hops, fSuccess, hsuccess, rfl⟩
    refine ⟨_, checkMultiSig_eq_some.mpr ⟨args, hstack, hops, rfl⟩, ?_⟩
    have hsame := Bool.eq_iff_iff.mpr ((hscan args).trans hsuccess.symm)
    rw [hsame, ← hstack, args.drop_stack]
    rfl

end

end MaryJaneCoin
