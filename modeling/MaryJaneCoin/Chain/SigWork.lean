import MaryJaneCoin.Chain.MultiSigCheck
import MaryJaneCoin.Chain.Signing

/-!
# The work of checking signatures

How often `CheckSig` is evaluated while scripts run, also by scripts that fail.  The
counts that `GetSigOpCount` reads off a script without running it are never below.
-/

namespace MaryJaneCoin

open Codec CScript Option List UInt8

section

variable (hashes : ScriptHashes) (checkSig : SigCheck)

/-- The evaluations in the loop of `OP_CHECKMULTISIG`. -/
def checkSigsCalls (scriptCode : CScript) : List Bytes → List Bytes → Nat
  | [], _ => 0
  | _ :: _, [] => 0
  | vchSig :: sigs, vchPubKey :: keys =>
    let left := if acceptsPair checkSig scriptCode vchSig vchPubKey then sigs else vchSig :: sigs
    (if isCanonicalSignature vchSig && isCanonicalPubKey vchPubKey then 1 else 0) +
      if left.length > keys.length then 0 else checkSigsCalls scriptCode left keys

/-- The keys, the signatures and the elements that are left, where `OP_CHECKMULTISIG` comes
to its loop. -/
def multiSigArgs (nOpCount : Nat) : List Bytes → Option (List Bytes × List Bytes × List Bytes)
  | [] => none
  | top :: stack => do
      let nKeysCount ← castToBigNum top
      if nKeysCount < 0 || nKeysCount > 20 then none
      else
        let nKeys := nKeysCount.toNat
        if nOpCount + nKeys > 201 then none
        else
          match stack.drop nKeys with
          | [] => none
          | count :: below => do
              let nSigsCount ← castToBigNum count
              if nSigsCount < 0 || nSigsCount > nKeysCount then none
              else
                let nSigs := nSigsCount.toNat
                if below.length < nSigs + 1 then none
                else some (stack.take nKeys, below.take nSigs, below.drop (nSigs + 1))

def opCalls (opcode : UInt8) (st : EvalState) : Nat :=
  if opcode = OP_CHECKSIG || opcode = OP_CHECKSIGVERIFY then
    if st.stack.length < 2 then 0 else 1
  else if opcode = OP_CHECKMULTISIG || opcode = OP_CHECKMULTISIGVERIFY then
    match multiSigArgs st.nOpCount st.stack with
    | none => 0
    | some (keys, sigs, _) => checkSigsCalls checkSig (multiSigCode st.codehash sigs) sigs keys
  else 0

/-- The evaluations in one round of the loop of `EvalScript`. -/
def roundCalls (opcode : UInt8) (vchPushValue : Bytes) (st : EvalState) : Nat :=
  let nOpCount := if opcode > OP_16 then st.nOpCount + 1 else st.nOpCount
  if vchPushValue.length > 520 || nOpCount > 201 || isDisabled opcode then 0
  else if st.vfExec.all id then opCalls checkSig opcode { st with nOpCount } else 0

/-- The evaluations in the loop of `EvalScript`. -/
def loopCalls : Nat → CScript → EvalState → Nat
  | _, [], _ => 0
  | 0, _ :: _, _ => 0
  | fuel + 1, pc, st =>
    match CScript.getOp pc with
    | none => 0
    | some (opcode, vchPushValue, rest) =>
      roundCalls checkSig opcode vchPushValue st +
        match evalOp hashes checkSig opcode vchPushValue rest st with
        | none => 0
        | some st => loopCalls fuel rest st

/-- The evaluations in `EvalScript`. -/
def scriptCalls (stack : List Bytes) (script : CScript) : Nat :=
  if script.length > 10000 then 0
  else loopCalls hashes checkSig script.length script ⟨stack, [], [], 0, script⟩

/-- The evaluations in `VerifyScript`. -/
def verifyCalls (scriptSig scriptPubKey : CScript) : Nat :=
  scriptCalls hashes checkSig [] scriptSig +
    match evalScript hashes checkSig [] scriptSig with
    | none => 0
    | some stack =>
      scriptCalls hashes checkSig stack scriptPubKey +
        if topIsTrue (evalScript hashes checkSig stack scriptPubKey) &&
            CScript.isPayToScriptHash scriptPubKey && CScript.isPushOnly scriptSig then
          match stack with
          | [] => 0
          | pubKeySerialized :: stack => scriptCalls hashes checkSig stack pubKeySerialized
        else 0

end

section

variable {hashes : ScriptHashes} {check : SigCheck}

/-- The loop of `OP_CHECKMULTISIG` evaluates once for each key at most. -/
theorem checkSigsCalls_le (scriptCode : CScript) (sigs keys : List Bytes) :
    checkSigsCalls check scriptCode sigs keys ≤ keys.length := by
  induction keys generalizing sigs with
  | nil =>
    cases sigs with
    | nil => exact Nat.le_refl 0
    | cons _ _ => exact Nat.le_refl 0
  | cons vchPubKey keys ih =>
    cases sigs with
    | nil => exact Nat.zero_le _
    | cons vchSig sigs =>
      rw [checkSigsCalls]
      have hfirst : (if isCanonicalSignature vchSig && isCanonicalPubKey vchPubKey then 1 else 0) ≤ 1 := by
        split
        · exact Nat.le_refl 1
        · exact Nat.zero_le 1
      have hmore : ∀ left : List Bytes,
          (if left.length > keys.length then 0 else checkSigsCalls check scriptCode left keys) ≤
            keys.length := by
        intro left
        split
        · exact Nat.zero_le _
        · exact ih left
      have hleft := hmore (if acceptsPair check scriptCode vchSig vchPubKey then sigs else vchSig :: sigs)
      rw [length_cons]
      omega

/-- **`OP_CHECKMULTISIG`** works on these arguments. -/
theorem checkMultiSig_eq_map (codehash : CScript) (nOpCount : Nat) (stack : List Bytes) :
    checkMultiSig check codehash nOpCount stack = (multiSigArgs nOpCount stack).map fun args =>
      (vchBool (checkSigs check (multiSigCode codehash args.2.1) args.2.1 args.1) :: args.2.2,
        nOpCount + args.1.length) := by
  cases stack with
  | nil => rfl
  | cons top stack =>
    rw [checkMultiSig, multiSigArgs]
    cases castToBigNum top with
    | none => rfl
    | some nKeysCount =>
      simp only [bind, Option.bind_some]
      split
      · rfl
      · split
        · rfl
        · cases hbelow : stack.drop nKeysCount.toNat with
          | nil => rfl
          | cons count below =>
            have hlength : (stack.take nKeysCount.toNat).length = nKeysCount.toNat := by
              have hdrop := congrArg List.length hbelow
              rw [length_drop, length_cons] at hdrop
              rw [length_take]
              omega
            dsimp only
            cases castToBigNum count with
            | none => rfl
            | some nSigsCount =>
              simp only [Option.bind_some]
              split
              · rfl
              · split
                · rfl
                · rw [Option.map_some, hlength]
                  rfl

theorem multiSigArgs_keys {nOpCount : Nat} {stack keys sigs below : List Bytes}
    (h : multiSigArgs nOpCount stack = some (keys, sigs, below)) : keys.length ≤ 20 ∧
    ∃ top rest, stack = top :: rest ∧ castToBigNum top = some (keys.length : Int) := by
  cases stack with
  | nil => cases h
  | cons top stack =>
    obtain ⟨nKeysCount, hcount, h⟩ := bind_eq_some_iff.mp h
    split at h
    · cases h
    rename_i hrange
    simp only at h
    split at h
    · cases h
    split at h
    · cases h
    rename_i count behind hdrop
    obtain ⟨nSigsCount, hsigs, h⟩ := bind_eq_some_iff.mp h
    split at h
    · cases h
    split at h
    · cases h
    cases h
    simp only [Bool.or_eq_true, decide_eq_true_eq, not_or, Int.not_lt] at hrange
    have hlength : (stack.take nKeysCount.toNat).length = nKeysCount.toNat := by
      have hlong := congrArg List.length hdrop
      rw [length_drop, length_cons] at hlong
      rw [length_take]
      omega
    refine ⟨by omega, top, stack, rfl, ?_⟩
    rw [hlength, Int.toNat_of_nonneg hrange.1]
    exact hcount

/-- What one opcode adds to `GetSigOpCount`. -/
def opCount (fAccurate : Bool) (lastOpcode opcode : UInt8) : Nat :=
  if opcode = OP_CHECKSIG || opcode = OP_CHECKSIGVERIFY then 1
  else if opcode = OP_CHECKMULTISIG || opcode = OP_CHECKMULTISIGVERIFY then
    if fAccurate && OP_1 ≤ lastOpcode && lastOpcode ≤ OP_16 then lastOpcode.toNat - (OP_1.toNat - 1)
    else 20
  else 0

variable {data : Bytes} {fAccurate : Bool}

theorem sigOpCountFrom_op {lastOpcode opcode : UInt8} {pc rest : CScript}
    (hop : getOp pc = some (opcode, data, rest)) : sigOpCountFrom fAccurate lastOpcode pc =
      opCount fAccurate lastOpcode opcode + sigOpCountFrom fAccurate opcode rest := by
  rw [sigOpCountFrom]
  split
  · rename_i hnone
    rw [hop] at hnone
    cases hnone
  · rename_i hsome
    obtain ⟨rfl, -, rfl⟩ := Option.some.inj (hop.symm.trans hsome)
    rfl

theorem opCount_le (fAccurate : Bool) (lastOpcode opcode : UInt8) :
    opCount fAccurate lastOpcode opcode ≤ 20 := by
  have hsixteen : OP_16.toNat = 0x60 ∧ OP_1.toNat = 0x51 := by decide
  unfold opCount
  split
  · decide
  · split
    · split
      · rename_i hlast
        simp only [Bool.and_eq_true, decide_eq_true_eq, le_iff_toNat_le, hsixteen] at hlast
        omega
      · exact Nat.le_refl 20
    · exact Nat.zero_le 20

/-- Every byte adds twenty at most. -/
theorem sigOpCountFrom_le (fAccurate : Bool) (lastOpcode : UInt8) (pc : CScript) :
    sigOpCountFrom fAccurate lastOpcode pc ≤ 20 * pc.length := by
  induction hn : pc.length using Nat.strong_induction_on generalizing lastOpcode pc with
  | _ n ih =>
    cases hop : getOp pc with
    | none =>
      rw [sigOpCountFrom]
      split
      · exact Nat.zero_le _
      · rename_i hsome
        rw [hop] at hsome
        cases hsome
    | some read =>
      obtain ⟨opcode, data, rest⟩ := read
      have hlt := length_getOp hop
      have hmore := ih rest.length (by omega) opcode rest rfl
      have hone := opCount_le fAccurate lastOpcode opcode
      rw [sigOpCountFrom_op hop]
      omega

/-- Where code is executed, a small number that was read last is on the top. -/
def LastPushed (lastOpcode : UInt8) (st : EvalState) : Prop :=
  OP_1 ≤ lastOpcode → lastOpcode ≤ OP_16 → st.vfExec.all id = true →
    ∃ rest, st.stack = bigNumVch ((lastOpcode.toNat - 0x50 : Nat) : Int) :: rest

variable {opcode : UInt8} {rest : CScript}

theorem execOp_smallint {st : EvalState} (hlow : OP_1 ≤ opcode)
    (hhigh : opcode ≤ OP_16) : execOp hashes check opcode true rest st =
      some { st with stack := bigNumVch ((opcode.toNat - 0x50 : Nat) : Int) :: st.stack } := by
  have hall : ∀ n, 0x51 ≤ n → n ≤ 0x60 → execOp hashes check (UInt8.ofNat n) true rest st =
      some { st with stack := bigNumVch ((n - 0x50 : Nat) : Int) :: st.stack } := by
    intro n hlow hhigh
    interval_cases n <;> rfl
  have hopcode := hall opcode.toNat (le_iff_toNat_le.mp hlow) (le_iff_toNat_le.mp hhigh)
  rwa [UInt8.ofNat_toNat] at hopcode

variable {st after : EvalState}

/-- **One round pushes** the small number that it reads, or is not executed. -/
theorem lastPushed_of_evalOp
    (h : evalOp hashes check opcode data rest st = some after) : LastPushed opcode after := by
  intro hlow hhigh hexec
  have hnot : ¬opcode > OP_16 := UInt8.not_lt.mpr hhigh
  have hpush : ¬opcode ≤ OP_PUSHDATA4 := UInt8.not_le.mpr (UInt8.lt_of_lt_of_le (by decide) hlow)
  have hbranch : ¬(OP_IF ≤ opcode) := UInt8.not_le.mpr (UInt8.lt_of_le_of_lt hhigh (by decide))
  simp only [evalOp, if_neg hnot, hpush, hbranch, decide_false, Bool.and_false, Bool.false_and,
    Bool.false_eq_true, Bool.or_false, if_false] at h
  split at h
  · cases h
  · obtain ⟨hsome, -⟩ := filter_eq_some_iff.mp h
    split at hsome
    · rename_i hall
      rw [hall, execOp_smallint hlow hhigh] at hsome
      cases hsome
      exact ⟨st.stack, rfl⟩
    · rename_i hall
      cases hsome
      exact absurd hexec hall

/-- **One round evaluates** no more than its opcode counts for. -/
theorem roundCalls_le {lastOpcode opcode : UInt8} {st : EvalState}
    (hlast : fAccurate = true → LastPushed lastOpcode st) :
    roundCalls check opcode data st ≤ opCount fAccurate lastOpcode opcode := by
  unfold roundCalls
  simp only
  generalize (if opcode > OP_16 then st.nOpCount + 1 else st.nOpCount) = nOpCount
  split
  · exact Nat.zero_le _
  split
  · rename_i hexec
    unfold opCalls opCount
    split
    · split
      · exact Nat.zero_le 1
      · exact Nat.le_refl 1
    split
    · cases hargs : multiSigArgs nOpCount st.stack with
      | none => exact Nat.zero_le _
      | some args =>
        obtain ⟨keys, sigs, below⟩ := args
        have hcalls := @checkSigsCalls_le check (multiSigCode st.codehash sigs) sigs keys
        obtain ⟨hkeys, top, rest, hstack, htop⟩ := multiSigArgs_keys hargs
        show checkSigsCalls check (multiSigCode st.codehash sigs) sigs keys ≤ _
        split
        · rename_i hsmall
          simp only [Bool.and_eq_true, decide_eq_true_eq] at hsmall
          obtain ⟨pushed, hpushed⟩ := hlast hsmall.1.1 hsmall.1.2 hsmall.2 hexec
          have hhigh : lastOpcode.toNat ≤ 0x60 := le_iff_toNat_le.mp hsmall.2
          rw [hstack] at hpushed
          obtain ⟨rfl, -⟩ := List.cons.inj hpushed
          rw [castToBigNum_small (by omega)] at htop
          have hcount : lastOpcode.toNat - 0x50 = keys.length := Int.ofNat.inj (Option.some.inj htop)
          have hone : OP_1.toNat = 0x51 := by decide
          simp only [hone]
          omega
        · exact Nat.le_trans hcalls hkeys
    · exact Nat.le_refl 0
  · exact Nat.zero_le _

/-- **The loop of `EvalScript`** evaluates no more than the script counts for. -/
theorem loopCalls_le (fuel : Nat) (lastOpcode : UInt8) (pc : CScript) (st : EvalState)
    (hlast : fAccurate = true → LastPushed lastOpcode st) :
    loopCalls hashes check fuel pc st ≤ sigOpCountFrom fAccurate lastOpcode pc := by
  induction fuel generalizing lastOpcode pc st with
  | zero =>
    cases pc with
    | nil => exact Nat.zero_le _
    | cons _ _ => exact Nat.zero_le _
  | succ fuel ih =>
    cases pc with
    | nil => exact Nat.zero_le _
    | cons byte pc =>
      simp only [loopCalls]
      cases hop : getOp (byte :: pc) with
      | none => exact Nat.zero_le _
      | some read =>
        obtain ⟨opcode, data, rest⟩ := read
        rw [sigOpCountFrom_op hop]
        refine Nat.add_le_add (roundCalls_le hlast) ?_
        cases hround : evalOp hashes check opcode data rest st with
        | none => exact Nat.zero_le _
        | some after => exact ih opcode rest after fun _ => lastPushed_of_evalOp hround

/-- **`EvalScript` evaluates no more than `GetSigOpCount`**, also where that count is an
`unsigned int`. -/
theorem scriptCalls_le (fAccurate : Bool) (stack : List Bytes) (script : CScript) :
    scriptCalls hashes check stack script ≤ getSigOpCount script fAccurate % 2 ^ 32 := by
  unfold scriptCalls
  split
  · exact Nat.zero_le _
  · rename_i hshort
    have hcount := sigOpCountFrom_le fAccurate OP_INVALIDOPCODE script
    have hlast : fAccurate = true → LastPushed OP_INVALIDOPCODE ⟨stack, [], [], 0, script⟩ :=
      fun _ _ hhigh => absurd hhigh (by decide)
    rw [getSigOpCount, Nat.mod_eq_of_lt (by omega)]
    exact loopCalls_le _ _ _ _ hlast

/-- A script without evaluations on any stack. -/
def Harmless (hashes : ScriptHashes) (check : SigCheck) (script : CScript) : Prop :=
  ∀ stack, scriptCalls hashes check stack script = 0

theorem harmless_smallint {k : Nat} (hone : 1 ≤ k) (hk : k ≤ 16) : Harmless hashes check (bigNumVch k) := by
  intro stack
  interval_cases k <;> rfl

theorem stackOp_reserved (stack : List Bytes) : stackOp hashes 0x50 stack = none := by
  match stack with
  | [] => rfl
  | [_] => rfl
  | b :: a :: stack =>
    show ((castToBigNum a).bind fun bn1 => (castToBigNum b).bind fun bn2 =>
      (binaryNumber 0x50 bn1 bn2).bind fun result => verifyTop false (bigNumVch result :: stack)) = none
    cases castToBigNum a with
    | none => rfl
    | some _ =>
      cases castToBigNum b with
      | none => rfl
      | some _ => rfl

theorem top_of_evalOp (hexec : st.vfExec = []) (hop : opcode ≤ OP_16)
    (h : evalOp hashes check opcode data rest st = some after) : after.vfExec = [] ∧
    ∃ top below, after.stack = top :: below ∧ (top = data ∨ Harmless hashes check top) := by
  by_cases hpush : opcode ≤ OP_PUSHDATA4
  · obtain ⟨hstack, hafter⟩ := evalOp_push hexec hpush h
    exact ⟨hafter, data, st.stack, hstack, .inl rfl⟩
  · have hhigh : opcode.toNat ≤ 0x60 := le_iff_toNat_le.mp hop
    have hlow : 0x4e < opcode.toNat := lt_iff_toNat_lt.mp (UInt8.not_le.mp hpush)
    obtain ⟨nOpCount, hexecOp⟩ := evalOp_exec hexec (UInt8.not_le.mp hpush) h
    by_cases hsmall : OP_1 ≤ opcode
    · have hone : 0x51 ≤ opcode.toNat := le_iff_toNat_le.mp hsmall
      rw [execOp_smallint hsmall hop] at hexecOp
      cases hexecOp
      exact ⟨hexec, _, st.stack, rfl, .inr (harmless_smallint (by omega) (by omega))⟩
    · have hbelow : opcode.toNat < 0x51 := lt_iff_toNat_lt.mp (UInt8.not_le.mp hsmall)
      have htwo : opcode.toNat = 0x4f ∨ opcode.toNat = 0x50 := by omega
      rcases htwo with heq | heq
      · obtain rfl : opcode = OP_1NEGATE := UInt8.toNat_inj.mp heq
        cases hexecOp
        exact ⟨hexec, _, st.stack, rfl, .inr fun _ => rfl⟩
      · obtain rfl : opcode = 0x50 := UInt8.toNat_inj.mp heq
        have hnone : execOp hashes check 0x50 true rest { st with nOpCount } =
            (stackOp hashes 0x50 st.stack).map fun stack => { st with stack, nOpCount } := rfl
        rw [hnone, stackOp_reserved] at hexecOp
        cases hexecOp

/-- **The last push of `scriptSig`** is what `GetSigOpCount` reads, unless it is a number. -/
theorem lastPush_of_evalLoop {fuel fuel' : Nat} {pc : CScript}
    (hexec : st.vfExec = []) (hpush : pushOnlyLoop fuel' pc = true)
    (h : evalLoop hashes check fuel pc st = some after)
    (htop : ∀ top below, st.stack = top :: below → top = data ∨ Harmless hashes check top) :
    ∃ last, lastPush data pc = some last ∧
      ∀ top below, after.stack = top :: below → top = last ∨ Harmless hashes check top := by
  induction fuel generalizing fuel' pc data st with
  | zero =>
    cases pc with
    | nil =>
      cases h
      rw [lastPush]
      exact ⟨data, rfl, htop⟩
    | cons _ _ => cases h
  | succ fuel ih =>
    cases pc with
    | nil =>
      cases h
      rw [lastPush]
      exact ⟨data, rfl, htop⟩
    | cons byte pc =>
      cases fuel' with
      | zero => cases hpush
      | succ fuel' =>
        simp only [evalLoop] at h
        simp only [pushOnlyLoop] at hpush
        rw [lastPush, if_neg (by simp)]
        split
        · rename_i hop
          rw [hop] at h
          cases h
        · rename_i opcode pushed rest hop
          simp only [hop, Bool.and_eq_true, decide_eq_true_eq] at h hpush
          obtain ⟨mid, hmid, hrest⟩ := bind_eq_some_iff.mp h
          obtain ⟨hexec', top, below, hstack, hmidTop⟩ := top_of_evalOp hexec hpush.1 hmid
          rw [if_neg (UInt8.not_lt.mpr hpush.1)]
          refine ih hexec' hpush.2 hrest ?_
          intro top' below' hstack'
          rw [hstack] at hstack'
          obtain ⟨rfl, -⟩ := List.cons.inj hstack'
          exact hmidTop

/-- **Signature work is bounded by the count of signature operations.**  The counts are
`unsigned int`s. -/
theorem verifyCalls_le (scriptSig scriptPubKey : CScript) : verifyCalls hashes check scriptSig scriptPubKey ≤
      getSigOpCount scriptSig false % 2 ^ 32 + getSigOpCount scriptPubKey false % 2 ^ 32 +
        if isPayToScriptHash scriptPubKey then
          getP2SHSigOpCount scriptPubKey scriptSig % 2 ^ 32
        else 0 := by
  unfold verifyCalls
  rw [Nat.add_assoc]
  refine Nat.add_le_add (scriptCalls_le false [] scriptSig) ?_
  cases hsig : evalScript hashes check [] scriptSig with
  | none => exact Nat.zero_le _
  | some stack =>
    refine Nat.add_le_add (scriptCalls_le false stack scriptPubKey) ?_
    split
    · rename_i hredeem
      simp only [Bool.and_eq_true] at hredeem
      rw [if_pos hredeem.1.2]
      cases stack with
      | nil => exact Nat.zero_le _
      | cons pubKeySerialized stack =>
        obtain ⟨-, after, ⟨fuel, hloop⟩, hafter⟩ := leads_of_evalScript hsig
        obtain ⟨last, hlast, htop⟩ := lastPush_of_evalLoop rfl hredeem.2 hloop
          (fun top below hstack => absurd hstack (List.cons_ne_nil top below).symm)
        rw [getP2SHSigOpCount, if_neg (by simp [hredeem.1.2]), hlast]
        rcases htop pubKeySerialized stack hafter with rfl | hharmless
        · exact scriptCalls_le true stack _
        · exact Nat.le_trans (Nat.le_of_eq (hharmless stack)) (Nat.zero_le _)
    · exact Nat.zero_le _

end

end MaryJaneCoin
