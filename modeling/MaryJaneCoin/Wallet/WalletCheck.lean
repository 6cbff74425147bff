import MaryJaneCoin.Wallet.FixSpentCoins

/-!
# What the check of a wallet leaves

Without removals the entries keep their outputs and amounts, so which of them are conflicted or
orphaned does not change on the way.  A check takes marks from outputs that a conflicted
transaction spends, and it does nothing else to the entries.
-/

namespace MaryJaneCoin

open Std StoredTx WalletMap List

namespace WalletMap

variable {H : Type} [Ord H] [TransOrd H] {isMine : CScript → Bool} {mapWallet after : WalletMap H}

theorem ownPrevOut_congr (hinfo : info after = info mapWallet) (prevout : COutPoint H) :
    ownPrevOut isMine after prevout = ownPrevOut isMine mapWallet prevout := by
  have hvout : ∀ mapWallet : WalletMap H,
      ((mapWallet[prevout.hash]?).bind fun prev => prev.vout[prevout.n.toNat]?) =
        ((info mapWallet prevout.hash).bind fun prev => prev.vout[prevout.n.toNat]?) := by
    intro mapWallet
    rw [info, Option.bind_map]
    rfl
  rw [ownPrevOut, ownPrevOut, hvout, hvout, hinfo]

theorem debitOf_congr (hinfo : info after = info mapWallet) (vin : List (CTxIn H)) :
    debitOf isMine after vin = debitOf isMine mapWallet vin := by
  rw [debitOf, debitOf]
  simp only [ownPrevOut_congr hinfo]

end WalletMap

theorem StoredTx.eq_of_forgetFlags {H : Type} {wtx wtx' : StoredTx H}
    (h : wtx'.forgetFlags = wtx.forgetFlags) : wtx' = { wtx with vfSpent := wtx'.vfSpent } := by
  cases wtx
  cases wtx'
  simp only [forgetFlags, StoredTx.mk.injEq, true_and] at h ⊢
  exact h

namespace RepairState

variable {H : Type} [Ord H] [TransOrd H] {world : RepairWorld H} {fCheckOnly : Bool}
  {s s' : RepairState H} {key hash : H} {pcoin : StoredTx H} {i : Nat}

section

variable [LawfulEqOrd H]

/-- The input spends an own output that is marked as spent and is not spent in the index. -/
def Restorable (world : RepairWorld H) (s : RepairState H) (txin : CTxIn H) : Prop :=
  ∃ prev txout, s.mapWallet[txin.prevout.hash]? = some prev ∧
    prev.vout[txin.prevout.n.toNat]? = some txout ∧ world.isMine txout.scriptPubKey = true ∧
    (world.readTxIndex (prev.getHash world.toSha256)).isSome = true ∧
    spentInIndex (world.readTxIndex (prev.getHash world.toSha256)) txin.prevout.n.toNat = false ∧
    prev.isSpent txin.prevout.n.toNat = true

/-- The state but for its entries and their records. -/
structure SameCaches (s s' : RepairState H) : Prop where
  debit : s'.nDebitCached = s.nDebitCached
  credit : s'.nCreditCached = s.nCreditCached
  mismatch : s'.nMismatchFound = s.nMismatchFound
  orphans : s'.nOrphansFound = s.nOrphansFound

omit [TransOrd H] [LawfulEqOrd H] in
theorem SameCaches.trans {t : RepairState H} (h : SameCaches s s') (h' : SameCaches s' t) : SameCaches s t :=
  ⟨h'.debit.trans h.debit, h'.credit.trans h.credit, h'.mismatch.trans h.mismatch, h'.orphans.trans h.orphans⟩

/-- The output is own and not spent in the index. -/
def FreeInIndex (world : RepairWorld H) (s : RepairState H) (hash : H) (i : Nat) : Prop :=
  ∃ prev txout, s.mapWallet[hash]? = some prev ∧ prev.vout[i]? = some txout ∧
    world.isMine txout.scriptPubKey = true ∧
    (world.readTxIndex (prev.getHash world.toSha256)).isSome = true ∧
    spentInIndex (world.readTxIndex (prev.getHash world.toSha256)) i = false

/-- What restoring inputs may do: marks of outputs go that are not spent in the index. -/
structure Restores (world : RepairWorld H) (s s' : RepairState H) : Prop extends SameCaches s s' where
  info : info s'.mapWallet = info s.mapWallet
  fewer : ∀ hash i, SpentAt s'.mapWallet hash i → SpentAt s.mapWallet hash i
  freed : ∀ hash i, SpentAt s.mapWallet hash i → SpentAt s'.mapWallet hash i ∨ FreeInIndex world s hash i

section

omit [LawfulEqOrd H]

theorem freeInIndex_congr (hinfo : WalletMap.info s'.mapWallet hash = WalletMap.info s.mapWallet hash) :
    FreeInIndex world s' hash i ↔ FreeInIndex world s hash i := by
  have hform : ∀ s : RepairState H, FreeInIndex world s hash i ↔
      ∃ entry, WalletMap.info s.mapWallet hash = some entry ∧ ∃ txout, entry.vout[i]? = some txout ∧
        world.isMine txout.scriptPubKey = true ∧
        (world.readTxIndex (entry.getHash world.toSha256)).isSome = true ∧
        spentInIndex (world.readTxIndex (entry.getHash world.toSha256)) i = false := by
    intro s
    rw [FreeInIndex, WalletMap.info]
    cases s.mapWallet[hash]? with
    | none => simp
    | some prev => simp [forgetFlags]
  rw [hform, hform, hinfo]

theorem Restores.refl (s : RepairState H) : Restores world s s :=
  ⟨⟨rfl, rfl, rfl, rfl⟩, rfl, fun _ _ => id, fun _ _ => .inl⟩

theorem Restores.trans {t : RepairState H} (h : Restores world s s') (h' : Restores world s' t) :
    Restores world s t := by
  refine ⟨h.toSameCaches.trans h'.toSameCaches, h'.info.trans h.info,
    fun hash i hspent => h.fewer hash i (h'.fewer hash i hspent), fun hash i hspent => ?_⟩
  rcases h.freed hash i hspent with hmid | hfree
  · rcases h'.freed hash i hmid with hlast | hfree
    · exact .inl hlast
    · exact .inr ((freeInIndex_congr (congrFun h.info hash)).mp hfree)
  · exact .inr hfree

theorem restoreInput_of_not {txin : CTxIn H} (h : ¬Restorable world s txin) :
    s.restoreInput world txin = s := by
  unfold restoreInput
  split
  · rfl
  · rename_i prev hprev
    split
    · rfl
    · rename_i txout htxout
      simp only
      split
      · rename_i hall
        simp only [Bool.and_eq_true, Bool.not_eq_true'] at hall
        exact absurd ⟨prev, txout, hprev, htxout, hall.1.1.1, hall.1.1.2, hall.1.2, hall.2⟩ h
      · rfl

end

/-- **A restored input**: the mark of its output goes. -/
theorem restoreInput_of_restorable {txin : CTxIn H} (h : Restorable world s txin) :
    Restores world s (s.restoreInput world txin) ∧
      SpentAt s.mapWallet txin.prevout.hash txin.prevout.n.toNat ∧
      ¬SpentAt (s.restoreInput world txin).mapWallet txin.prevout.hash txin.prevout.n.toNat := by
  obtain ⟨prev, txout, hprev, htxout, hmine, hindexed, hfree, hspent⟩ := h
  have hlt : txin.prevout.n.toNat < prev.vout.length := (List.getElem?_eq_some_iff.mp htxout).1
  have hmark : prev.markUnspent txin.prevout.n.toNat =
      some { prev with vfSpent := prev.resized.set txin.prevout.n.toNat false } := if_pos hlt
  have hresult : s.restoreInput world txin = s.write world txin.prevout.hash
        { prev with vfSpent := prev.resized.set txin.prevout.n.toNat false } := by
    simp only [restoreInput, hprev, htxout, hmine, hindexed, hfree, hspent, hmark, Bool.and_self,
      Bool.not_false, if_true, Option.elim_some]
  have hflags : ∀ hash i, SpentAt (s.restoreInput world txin).mapWallet hash i ↔
      SpentAt s.mapWallet hash i ∧ ¬(txin.prevout.hash = hash ∧ txin.prevout.n.toNat = i) := by
    intro hash i
    rw [hresult]
    exact spentAt_markUnspent hprev hmark
  refine ⟨⟨?_, ?_, fun hash i hafter => ((hflags hash i).mp hafter).1, ?_⟩,
    ⟨prev, hprev, hlt, hspent⟩, fun hafter => ((hflags _ _).mp hafter).2 ⟨rfl, rfl⟩⟩
  · rw [hresult]
    exact ⟨rfl, rfl, rfl, rfl⟩
  · rw [hresult]
    exact info_insert hprev (mark_spec hmark).2.1
  · intro hash i hbefore
    by_cases hsame : txin.prevout.hash = hash ∧ txin.prevout.n.toNat = i
    · obtain ⟨rfl, rfl⟩ := hsame
      exact .inr ⟨prev, txout, hprev, htxout, hmine, hindexed, hfree⟩
    · exact .inl ((hflags hash i).mpr ⟨hbefore, hsame⟩)

theorem restores_restoreInput (txin : CTxIn H) : Restores world s (s.restoreInput world txin) := by
  by_cases h : Restorable world s txin
  · exact (restoreInput_of_restorable h).1
  · rw [restoreInput_of_not h]
    exact Restores.refl s

variable (world) in
/-- **The loop over the inputs.** -/
theorem restores_foldl (vin : List (CTxIn H)) (s : RepairState H) :
    Restores world s (vin.foldl (restoreInput world) s) := by
  induction vin generalizing s with
  | nil => exact Restores.refl s
  | cons txin vin ih => exact (restores_restoreInput txin).trans (ih _)

variable (world) in
theorem foldl_restoreInput_cases (vin : List (CTxIn H)) (s : RepairState H) :
    ((∀ txin ∈ vin, ¬Restorable world s txin) ∧ vin.foldl (restoreInput world) s = s) ∨
      ((∃ txin ∈ vin, Restorable world s txin) ∧ ∃ hash i, SpentAt s.mapWallet hash i ∧
        ¬SpentAt (vin.foldl (restoreInput world) s).mapWallet hash i) := by
  induction vin with
  | nil => exact .inl ⟨fun _ hin => (not_mem_nil hin).elim, rfl⟩
  | cons txin vin ih =>
    rw [foldl_cons]
    by_cases h : Restorable world s txin
    · obtain ⟨-, hbefore, hafter⟩ := restoreInput_of_restorable h
      exact .inr ⟨⟨txin, mem_cons_self, h⟩, _, _, hbefore, fun hlast =>
        hafter ((restores_foldl world vin _).fewer _ _ hlast)⟩
    · rw [restoreInput_of_not h]
      rcases ih with ⟨hnone, hsame⟩ | ⟨⟨other, hother, hrestorable⟩, hchange⟩
      · exact .inl ⟨forall_mem_cons.mpr ⟨h, hnone⟩, hsame⟩
      · exact .inr ⟨⟨other, mem_cons_of_mem _ hother, hrestorable⟩, hchange⟩

/-- What fixing an entry may do to the rest. -/
structure Fixes (s s' : RepairState H) (key : H) : Prop where
  debit : s'.nDebitCached = s.nDebitCached
  credit : s'.nCreditCached = s.nCreditCached
  orphans : s'.nOrphansFound = s.nOrphansFound
  mismatch : s.nMismatchFound ≤ s'.nMismatchFound
  info : info s'.mapWallet = info s.mapWallet
  others : ∀ hash i, hash ≠ key → (SpentAt s'.mapWallet hash i ↔ SpentAt s.mapWallet hash i)

omit [LawfulEqOrd H] in
theorem Fixes.refl (s : RepairState H) (key : H) : Fixes s s key :=
  ⟨rfl, rfl, rfl, le_rfl, rfl, fun _ _ _ => Iff.rfl⟩

omit [LawfulEqOrd H] in
theorem Fixes.trans {t : RepairState H} (h : Fixes s s' key) (h' : Fixes s' t key) : Fixes s t key :=
  ⟨h'.debit.trans h.debit, h'.credit.trans h.credit, h'.orphans.trans h.orphans,
    Nat.le_trans h.mismatch h'.mismatch, h'.info.trans h.info,
    fun hash i hne => (h'.others hash i hne).trans (h.others hash i hne)⟩

/-- The flag of an output is as in the index, if the output is own. -/
def FlagFits (world : RepairWorld H) (s : RepairState H) (key : H) (txindex : Option CTxIndex)
    (output : CTxOut × Nat) : Prop :=
  world.isMine output.1.scriptPubKey = true →
    (SpentAt s.mapWallet key output.2 ↔ spentInIndex txindex output.2 = true)

variable {txindex : Option CTxIndex} {output : CTxOut × Nat}

omit [LawfulEqOrd H] in
variable (world key txindex output) in
theorem fixOutput_check (s : RepairState H) :
    ∃ nMismatchFound nBalanceInQuestion, s.nMismatchFound ≤ nMismatchFound ∧
      fixOutput world true key txindex s output =
        { s with nMismatchFound := nMismatchFound, nBalanceInQuestion := nBalanceInQuestion } := by
  unfold fixOutput
  split
  · exact ⟨_, _, le_rfl, rfl⟩
  · simp only [if_true]
    split
    · exact ⟨_, _, Nat.le_succ _, rfl⟩
    · split
      · exact ⟨_, _, Nat.le_succ _, rfl⟩
      · exact ⟨_, _, le_rfl, rfl⟩

omit [LawfulEqOrd H] in
variable (world key txindex) in
theorem foldl_fixOutput_check (outputs : List (CTxOut × Nat)) (s : RepairState H) :
    ∃ nMismatchFound nBalanceInQuestion, s.nMismatchFound ≤ nMismatchFound ∧
      outputs.foldl (fixOutput world true key txindex) s =
        { s with nMismatchFound := nMismatchFound, nBalanceInQuestion := nBalanceInQuestion } := by
  induction outputs generalizing s with
  | nil => exact ⟨_, _, le_rfl, rfl⟩
  | cons output outputs ih =>
    obtain ⟨nMismatch, nBalance, hle, hfirst⟩ := fixOutput_check world key txindex output s
    obtain ⟨nMismatch', nBalance', hle', hrest⟩ := ih { s with
      nMismatchFound := nMismatch, nBalanceInQuestion := nBalance }
    refine ⟨nMismatch', nBalance', Nat.le_trans hle hle', ?_⟩
    rw [foldl_cons, hfirst, hrest]

variable (world txindex) in
/-- **One output**: its flag is as in the index afterwards, and nothing else is touched. -/
theorem fixOutput_spec (hpcoin : s.mapWallet[key]? = some pcoin)
    (hout : pcoin.vout[output.2]? = some output.1) :
    let s' := fixOutput world false key txindex s output
    Fixes s s' key ∧ FlagFits world s' key txindex output ∧
      ∀ i, i ≠ output.2 → (SpentAt s'.mapWallet key i ↔ SpentAt s.mapWallet key i) := by
  obtain ⟨txout, n⟩ := output
  have hlt : n < pcoin.vout.length := (List.getElem?_eq_some_iff.mp hout).1
  have hunmark : pcoin.markUnspent n = some { pcoin with vfSpent := pcoin.resized.set n false } :=
    if_pos hlt
  have hmark : pcoin.markSpent n = some { pcoin with vfSpent := pcoin.resized.set n true } :=
    if_pos hlt
  have hflag : SpentAt s.mapWallet key n ↔ pcoin.isSpent n = true := by
    rw [spentAt_of_getElem? hpcoin]
    exact and_iff_right hlt
  simp only [fixOutput, hpcoin, hunmark, hmark, Option.elim_some, Bool.false_eq_true, if_false]
  split
  · rename_i hlost
    simp only [Bool.and_eq_true, Bool.not_eq_true'] at hlost
    have hspent : ∀ hash i, SpentAt
        (s.mapWallet.insert key { pcoin with vfSpent := pcoin.resized.set n false }) hash i ↔
          SpentAt s.mapWallet hash i ∧ ¬(key = hash ∧ n = i) :=
      fun hash i => spentAt_markUnspent hpcoin hunmark
    refine ⟨⟨rfl, rfl, rfl, Nat.le_succ _, info_insert hpcoin (mark_spec hunmark).2.1, ?_⟩, ?_, ?_⟩
    · intro hash i hne
      exact (hspent hash i).trans (and_iff_left fun hsame => hne hsame.1.symm)
    · intro _
      refine iff_of_false (fun hafter => ((hspent key n).mp hafter).2 ⟨rfl, rfl⟩) ?_
      rw [hlost.2]
      exact Bool.false_ne_true
    · intro i hne
      exact (hspent key i).trans (and_iff_left fun hsame => hne hsame.2.symm)
  · rename_i hkept
    split
    · rename_i hmissed
      simp only [Bool.and_eq_true, Bool.not_eq_true'] at hmissed
      have hspent : ∀ hash i, SpentAt
          (s.mapWallet.insert key { pcoin with vfSpent := pcoin.resized.set n true }) hash i ↔
            (key = hash ∧ n = i) ∨ SpentAt s.mapWallet hash i :=
        fun hash i => spentAt_markSpent hpcoin hmark
      refine ⟨⟨rfl, rfl, rfl, Nat.le_succ _, info_insert hpcoin (mark_spec hmark).2.1, ?_⟩, ?_, ?_⟩
      · intro hash i hne
        exact (hspent hash i).trans (or_iff_right fun hsame => hne hsame.1.symm)
      · intro _
        exact iff_of_true ((hspent key n).mpr (.inl ⟨rfl, rfl⟩)) hmissed.2
      · intro i hne
        exact (hspent key i).trans (or_iff_right fun hsame => hne hsame.2.symm)
    · rename_i hagreed
      refine ⟨Fixes.refl s key, fun hmine => ?_, fun _ _ => Iff.rfl⟩
      have hmine : world.isMine txout.scriptPubKey = true := hmine
      rw [hflag]
      show pcoin.isSpent n = true ↔ spentInIndex txindex n = true
      rw [hmine] at hkept hagreed
      cases hspent : pcoin.isSpent n <;> cases hindex : spentInIndex txindex n <;>
        simp_all

variable (world txindex) in
/-- **The loop over the outputs** of an entry. -/
theorem foldl_fixOutput {outputs : List (CTxOut × Nat)} (hpcoin : s.mapWallet[key]? = some pcoin)
    (houts : ∀ output ∈ outputs, pcoin.vout[output.2]? = some output.1) :
    let s' := outputs.foldl (fixOutput world false key txindex) s
    Fixes s s' key ∧ (∀ output ∈ outputs, FlagFits world s' key txindex output) ∧
      ∀ output, pcoin.vout[output.2]? = some output.1 → FlagFits world s key txindex output →
        FlagFits world s' key txindex output := by
  induction outputs generalizing s pcoin with
  | nil => exact ⟨Fixes.refl s key, fun _ hout => (not_mem_nil hout).elim, fun _ _ => id⟩
  | cons output outputs ih =>
    rw [forall_mem_cons] at houts
    obtain ⟨hfixes, hfits, hkept⟩ := fixOutput_spec world txindex hpcoin houts.1
    rw [foldl_cons]
    have hkeeps : ∀ other, pcoin.vout[other.2]? = some other.1 → FlagFits world s key txindex
        other → FlagFits world (fixOutput world false key txindex s output) key txindex other := by
      intro other hother hfit hmine
      by_cases hsame : other.2 = output.2
      · rw [hsame, houts.1] at hother
        have hother : other = output := Prod.ext (Option.some.inj hother).symm hsame
        rw [hother] at hmine ⊢
        exact hfits hmine
      · exact (hkept other.2 hsame).trans (hfit hmine)
    generalize fixOutput world false key txindex s output = mid at hfixes hfits hkeeps ⊢
    have hmid : WalletMap.info mid.mapWallet key = some pcoin.forgetFlags := by
      rw [hfixes.info, WalletMap.info, hpcoin]
      rfl
    obtain ⟨pcoin', hpcoin', hforget⟩ := Option.map_eq_some_iff.mp hmid
    have hvout := vout_eq_of_forgetFlags hforget
    obtain ⟨hfixes', hall, hkeeps'⟩ := ih hpcoin' (hvout ▸ houts.2)
    refine ⟨hfixes.trans hfixes', forall_mem_cons.mpr
      ⟨hkeeps' output (hvout ▸ houts.1) hfits, hall⟩, fun other hother hfit => ?_⟩
    exact hkeeps' other (hvout ▸ hother) (hkeeps other hother hfit)

omit [LawfulEqOrd H] in
theorem foldl_fixOutput_of_fits {outputs : List (CTxOut × Nat)} (hpcoin : s.mapWallet[key]? = some pcoin)
    (houts : ∀ output ∈ outputs, pcoin.vout[output.2]? = some output.1)
    (hfits : ∀ output ∈ outputs, FlagFits world s key txindex output) :
    outputs.foldl (fixOutput world fCheckOnly key txindex) s = s := by
  induction outputs with
  | nil => rfl
  | cons output outputs ih =>
    rw [forall_mem_cons] at houts hfits
    have hlt : output.2 < pcoin.vout.length := (List.getElem?_eq_some_iff.mp houts.1).1
    have hfit := hfits.1
    rw [FlagFits, spentAt_of_getElem? hpcoin, and_iff_right hlt] at hfit
    have hfirst : fixOutput world fCheckOnly key txindex s output = s := by
      simp only [fixOutput, hpcoin]
      cases hmine : world.isMine output.1.scriptPubKey with
      | false => rfl
      | true =>
        have hsame := Bool.eq_iff_iff.mpr (hfit hmine)
        rw [hsame]
        cases spentInIndex txindex output.2 <;> rfl
    rw [foldl_cons, hfirst]
    exact ih houts.2 hfits.2

/-- Entries, their amounts and the counts, as far as nothing is removed. -/
structure Keeps (world : RepairWorld H) (s s' : RepairState H) : Prop where
  info : info s'.mapWallet = info s.mapWallet
  debit : ∀ key entry, WalletMap.info s.mapWallet key = some entry →
    s'.debit world key entry = s.debit world key entry
  credit : ∀ key entry, WalletMap.info s.mapWallet key = some entry →
    s'.credit world key entry = s.credit world key entry
  mismatch : s.nMismatchFound ≤ s'.nMismatchFound
  orphans : s.nOrphansFound ≤ s'.nOrphansFound

section

omit [LawfulEqOrd H]

theorem Keeps.refl (s : RepairState H) : Keeps world s s :=
  ⟨rfl, fun _ _ _ => rfl, fun _ _ _ => rfl, le_rfl, le_rfl⟩

theorem Keeps.trans {t : RepairState H} (h : Keeps world s s') (h' : Keeps world s' t) : Keeps world s t :=
  ⟨h'.info.trans h.info,
    fun key entry hentry => (h'.debit key entry (h.info ▸ hentry)).trans (h.debit key entry hentry),
    fun key entry hentry => (h'.credit key entry (h.info ▸ hentry)).trans (h.credit key entry hentry),
    Nat.le_trans h.mismatch h'.mismatch, Nat.le_trans h.orphans h'.orphans⟩

theorem Keeps.of_caches (hinfo : WalletMap.info s'.mapWallet = WalletMap.info s.mapWallet)
    (hdebit : s'.nDebitCached = s.nDebitCached) (hcredit : s'.nCreditCached = s.nCreditCached)
    (hmismatch : s.nMismatchFound ≤ s'.nMismatchFound)
    (horphans : s.nOrphansFound ≤ s'.nOrphansFound) : Keeps world s s' := by
  refine ⟨hinfo, fun key entry _ => ?_, fun key entry _ => ?_, hmismatch, horphans⟩
  · rw [RepairState.debit, RepairState.debit, hdebit, debitOf_congr hinfo]
  · rw [RepairState.credit, RepairState.credit, hcredit]

theorem Restores.keeps (h : Restores world s s') : Keeps world s s' :=
  .of_caches h.info h.debit h.credit (Nat.le_of_eq h.mismatch.symm) (Nat.le_of_eq h.orphans.symm)

theorem Fixes.keeps (h : Fixes s s' key) : Keeps world s s' :=
  .of_caches h.info h.debit h.credit h.mismatch (Nat.le_of_eq h.orphans.symm)

end

variable [DecidableEq H]

omit [LawfulEqOrd H] in
/-- The amount that is kept is the one that was returned. -/
theorem keeps_cacheDebit {nDebit : Int64} (hinfo : info s.mapWallet key = some pcoin.forgetFlags)
    (h : s.debit world key pcoin = some nDebit) : Keeps world s (s.cacheDebit key nDebit) := by
  refine ⟨rfl, fun key' entry hentry => ?_, fun _ _ _ => rfl, le_rfl, le_rfl⟩
  by_cases hkey : key' = key
  · subst hkey
    rw [hinfo] at hentry
    cases hentry
    rw [show s.debit world key' pcoin.forgetFlags = some nDebit from h, debit]
    rw [debit] at h
    by_cases hempty : pcoin.vin.isEmpty = true
    · rw [if_pos hempty] at h
      rw [if_pos (show pcoin.forgetFlags.vin.isEmpty = true from hempty), h]
    · rw [if_neg (show ¬pcoin.forgetFlags.vin.isEmpty = true from hempty), cacheDebit_self]
      rfl
  · rw [debit, debit, cacheDebit_of_ne hkey]
    rfl

omit [LawfulEqOrd H] in
theorem keeps_cacheCredit {nCredit : Int64} (hinfo : info s.mapWallet key = some pcoin.forgetFlags)
    (h : s.credit world key pcoin = some nCredit) : Keeps world s (s.cacheCredit key nCredit) := by
  refine ⟨rfl, fun _ _ _ => rfl, fun key' entry hentry => ?_, le_rfl, le_rfl⟩
  by_cases hkey : key' = key
  · subst hkey
    rw [hinfo] at hentry
    cases hentry
    rw [show s.credit world key' pcoin.forgetFlags = some nCredit from h, credit, cacheCredit_self]
    rfl
  · rw [credit, credit, cacheCredit_of_ne hkey]

/-- The entry is a conflicted transaction that only pays the wallet. -/
def Receives (world : RepairWorld H) (s : RepairState H) (key : H) (pcoin : StoredTx H) : Prop :=
  s.debit world key pcoin = some 0 ∧ ∃ txout ∈ pcoin.vout, world.isMine txout.scriptPubKey = true

/-- The entry is one that spends outputs of the wallet. -/
def Sends (world : RepairWorld H) (s : RepairState H) (key : H) (pcoin : StoredTx H) : Prop :=
  ∃ nDebit, s.debit world key pcoin = some nDebit ∧ 0 < nDebit

/-- The entry is an orphaned generation. -/
def Orphaned (world : RepairWorld H) (pcoin : StoredTx H) : Prop :=
  (pcoin.isCoinBase world.toSha256 || pcoin.isCoinStake world.toSha256) = true ∧
    world.depthInMainChain pcoin.forgetFlags ≤ 0

variable (world fCheckOnly s key pcoin) in
/-- **The branches for a conflicted transaction.** -/
theorem fixConflicted_cases :
    (s.debit world key pcoin = none ∧ s.fixConflicted world fCheckOnly key pcoin = .error s) ∨
    ∃ nDebit, s.debit world key pcoin = some nDebit ∧
      ((Receives world s key pcoin ∧ ∃ nValue, s.fixConflicted world fCheckOnly key pcoin =
          .ok ((s.cacheDebit key nDebit).removeConflicted world fCheckOnly
            (pcoin.getHash world.toSha256) nValue)) ∨
      (Sends world s key pcoin ∧ s.credit world key pcoin = none ∧
        s.fixConflicted world fCheckOnly key pcoin =
          .error (pcoin.vin.foldl (restoreInput world) (s.cacheDebit key nDebit))) ∨
      (Sends world s key pcoin ∧ ∃ nCredit nValue, s.credit world key pcoin = some nCredit ∧
        s.fixConflicted world fCheckOnly key pcoin =
          .ok (((pcoin.vin.foldl (restoreInput world) (s.cacheDebit key nDebit)).cacheCredit key
            nCredit).removeConflicted world fCheckOnly (pcoin.getHash world.toSha256) nValue)) ∨
      (¬Receives world s key pcoin ∧ ¬Sends world s key pcoin ∧
        s.fixConflicted world fCheckOnly key pcoin = .ok (s.cacheDebit key nDebit))) := by
  simp only [fixConflicted]
  cases hdebit : s.debit world key pcoin with
  | none => exact .inl ⟨rfl, rfl⟩
  | some nDebit =>
    refine .inr ⟨nDebit, rfl, ?_⟩
    have hreceives : Receives world s key pcoin ↔
        (nDebit = 0 && !(pcoin.vout.filter fun txout => world.isMine txout.scriptPubKey).isEmpty) = true := by
      rw [Receives, hdebit, Option.some.injEq]
      simp
    have hsends : Sends world s key pcoin ↔ nDebit > 0 := by
      rw [Sends, hdebit]
      simp
    have hcredit : (pcoin.vin.foldl (restoreInput world) (s.cacheDebit key nDebit)).credit world key
        pcoin = s.credit world key pcoin := by
      rw [credit, credit, (restores_foldl world pcoin.vin _).credit]
      rfl
    simp only
    split
    · rename_i hreceived
      exact .inl ⟨hreceives.mpr hreceived, _, rfl⟩
    · rename_i hother
      split
      · rename_i hpositive
        rw [hcredit]
        cases hvalue : s.credit world key pcoin with
        | none => exact .inr (.inl ⟨hsends.mpr hpositive, rfl, rfl⟩)
        | some nCredit => exact .inr (.inr (.inl ⟨hsends.mpr hpositive, nCredit, _, rfl, rfl⟩))
      · rename_i hzero
        exact .inr (.inr (.inr ⟨fun h => hother (hreceives.mp h), fun h => hzero (hsends.mp h), rfl⟩))

/-- The visit of the entry throws. -/
def ThrowsAt (world : RepairWorld H) (s : RepairState H) (key : H) : Prop :=
  ∃ pcoin, s.mapWallet[key]? = some pcoin ∧ isConflicted world pcoin = true ∧
    (s.debit world key pcoin = none ∨ Sends world s key pcoin ∧ s.credit world key pcoin = none)

/-- The entry is a conflicted transaction that spends outputs of the wallet, and one of its inputs
can be restored. -/
def RestoresAt (world : RepairWorld H) (s : RepairState H) (key : H) : Prop :=
  ∃ pcoin, s.mapWallet[key]? = some pcoin ∧ isConflicted world pcoin = true ∧ Sends world s key pcoin ∧
    ∃ txin ∈ pcoin.vin, Restorable world s txin

/-- No input can be restored at these entries, up to one that throws. -/
def RestoresNothing (world : RepairWorld H) (s : RepairState H) : List H → Prop
  | [] => True
  | key :: keys => ¬RestoresAt world s key ∧ (¬ThrowsAt world s key → RestoresNothing world s keys)

/-- What a check does at most. -/
structure Checks (world : RepairWorld H) (s s' : RepairState H) : Prop extends Keeps world s s' where
  fewer : ∀ hash i, SpentAt s'.mapWallet hash i → SpentAt s.mapWallet hash i

section

omit [LawfulEqOrd H] [DecidableEq H]

theorem Checks.refl (s : RepairState H) : Checks world s s := ⟨Keeps.refl s, fun _ _ => id⟩

theorem Checks.trans {t : RepairState H} (h : Checks world s s') (h' : Checks world s' t) :
    Checks world s t :=
  ⟨h.toKeeps.trans h'.toKeeps, fun hash i hspent => h.fewer hash i (h'.fewer hash i hspent)⟩

theorem Checks.counts {nMismatchFound nOrphansFound : Nat} {nBalanceInQuestion : Int64}
    (hmismatch : s.nMismatchFound ≤ nMismatchFound) (horphans : s.nOrphansFound ≤ nOrphansFound) :
    Checks world s { s with
      nMismatchFound := nMismatchFound
      nBalanceInQuestion := nBalanceInQuestion
      nOrphansFound := nOrphansFound } :=
  ⟨.of_caches rfl rfl rfl hmismatch horphans, fun _ _ => id⟩

end

/-- What the visit of an entry does to the rest: nothing, or a mark is gone. -/
def ChecksAt (world : RepairWorld H) (s s' : RepairState H) (key : H) : Prop :=
  Checks world s s' ∧
    ((¬RestoresAt world s key ∧ s'.mapWallet = s.mapWallet ∧ s'.walletdb = s.walletdb) ∨
      (RestoresAt world s key ∧ ∃ hash i, SpentAt s.mapWallet hash i ∧ ¬SpentAt s'.mapWallet hash i))

theorem fixConflicted_check (hpcoin : s.mapWallet[key]? = some pcoin) : ∃ s', Checks world s s' ∧
      ((¬(Sends world s key pcoin ∧ ∃ txin ∈ pcoin.vin, Restorable world s txin) ∧
          s'.mapWallet = s.mapWallet ∧ s'.walletdb = s.walletdb) ∨
        ((Sends world s key pcoin ∧ ∃ txin ∈ pcoin.vin, Restorable world s txin) ∧
          ∃ hash i, SpentAt s.mapWallet hash i ∧ ¬SpentAt s'.mapWallet hash i)) ∧
      (((s.debit world key pcoin = none ∨ Sends world s key pcoin ∧ s.credit world key pcoin = none) ∧
          s.fixConflicted world true key pcoin = .error s') ∨
        (¬(s.debit world key pcoin = none ∨ Sends world s key pcoin ∧ s.credit world key pcoin = none) ∧
          s.fixConflicted world true key pcoin = .ok s')) := by
  have hinfo : info s.mapWallet key = some pcoin.forgetFlags := by
    rw [info, hpcoin]
    rfl
  rcases fixConflicted_cases world true s key pcoin with ⟨hdebit, hresult⟩ | ⟨nDebit, hdebit, hcases⟩
  · have hnot : ¬Sends world s key pcoin := by
      rintro ⟨nDebit, hsome, -⟩
      rw [hdebit] at hsome
      cases hsome
    exact ⟨s, Checks.refl s, .inl ⟨fun h => hnot h.1, rfl, rfl⟩, .inl ⟨.inl hdebit, hresult⟩⟩
  have hcached : Checks world s (s.cacheDebit key nDebit) := ⟨keeps_cacheDebit hinfo hdebit, fun _ _ => id⟩
  have hsome : ¬s.debit world key pcoin = none := by
    rw [hdebit]
    exact Option.some_ne_none nDebit
  have hrestored := restores_foldl world pcoin.vin (s.cacheDebit key nDebit)
  have hchecked : Checks world s (pcoin.vin.foldl (restoreInput world) (s.cacheDebit key nDebit)) :=
    hcached.trans ⟨hrestored.keeps, hrestored.fewer⟩
  have hchanged := foldl_restoreInput_cases world pcoin.vin (s.cacheDebit key nDebit)
  have hinfo' := hrestored.info.trans (show info (s.cacheDebit key nDebit).mapWallet = _ from rfl)
  have hcredited := hrestored.credit
  generalize pcoin.vin.foldl (restoreInput world) (s.cacheDebit key nDebit) = restored at *
  -- What the loop over the inputs did shows in every state from there on.
  have hafter : ∀ s' : RepairState H, Sends world s key pcoin → s'.mapWallet = restored.mapWallet →
      s'.walletdb = restored.walletdb →
      ((¬(Sends world s key pcoin ∧ ∃ txin ∈ pcoin.vin, Restorable world s txin) ∧
          s'.mapWallet = s.mapWallet ∧ s'.walletdb = s.walletdb) ∨
        ((Sends world s key pcoin ∧ ∃ txin ∈ pcoin.vin, Restorable world s txin) ∧
          ∃ hash i, SpentAt s.mapWallet hash i ∧ ¬SpentAt s'.mapWallet hash i)) := by
    intro s' hsends hmap hdb
    rcases hchanged with ⟨hnone, hsame⟩ | ⟨hany, hchange⟩
    · refine .inl ⟨?_, hmap.trans (hsame ▸ rfl), hdb.trans (hsame ▸ rfl)⟩
      rintro ⟨-, txin, hin, h⟩
      exact hnone txin hin h
    · exact .inr ⟨⟨hsends, hany⟩, hmap ▸ hchange⟩
  rcases hcases with ⟨hreceives, nValue, hresult⟩ | ⟨hsends, hcredit, hresult⟩ |
    ⟨hsends, nCredit, nValue, hcredit, hresult⟩ | ⟨-, hnot, hresult⟩
  · have hnot : ¬Sends world s key pcoin := by
      rintro ⟨nOther, hother, hpositive⟩
      rw [hreceives.1] at hother
      cases hother
      exact absurd hpositive (by decide)
    refine ⟨_, hcached.trans (Checks.counts (Nat.le_succ _) le_rfl),
      .inl ⟨fun h => hnot h.1, ?_, ?_⟩, .inr ⟨?_, hresult⟩⟩
    · rfl
    · rfl
    · exact fun h => h.elim hsome fun h => hnot h.1
  · exact ⟨restored, hchecked, hafter restored hsends rfl rfl, .inl ⟨.inr ⟨hsends, hcredit⟩, hresult⟩⟩
  · have hkept : Checks world restored (restored.cacheCredit key nCredit) := by
      have hentry : info restored.mapWallet key = some pcoin.forgetFlags := by
        rw [hinfo']
        exact hinfo
      have hcredit' : restored.credit world key pcoin = some nCredit := by
        rw [credit, hcredited]
        exact hcredit
      exact ⟨keeps_cacheCredit hentry hcredit', fun _ _ => id⟩
    refine ⟨_, (hchecked.trans hkept).trans (Checks.counts (Nat.le_succ _) le_rfl),
      hafter _ hsends rfl rfl, .inr ⟨?_, hresult⟩⟩
    rintro (hnone | ⟨-, hnone⟩)
    · exact hsome hnone
    · rw [hcredit] at hnone
      cases hnone
  · exact ⟨_, hcached, .inl ⟨fun h => hnot h.1, rfl, rfl⟩,
      .inr ⟨fun h => h.elim hsome fun h => hnot h.1, hresult⟩⟩

omit [LawfulEqOrd H] in
/-- The visit of an entry of the chain or of a generation. -/
theorem fixCoins_check : Checks world s (s.fixCoins world true key pcoin) ∧
    (s.fixCoins world true key pcoin).mapWallet = s.mapWallet ∧
    (s.fixCoins world true key pcoin).walletdb = s.walletdb := by
  obtain ⟨nMismatch, nBalance, hle, hcounts⟩ := foldl_fixOutput_check world key
    (world.readTxIndex (pcoin.getHash world.toSha256)) pcoin.vout.zipIdx s
  simp only [fixCoins, hcounts, if_true]
  split
  · exact ⟨Checks.counts hle (Nat.le_succ _), rfl, rfl⟩
  · exact ⟨Checks.counts hle le_rfl, rfl, rfl⟩

variable (world) in
/-- **One visit of a check.** -/
theorem fixCoin_check (hpcoin : s.mapWallet[key]? = some pcoin) : ∃ s', ChecksAt world s s' key ∧
      ((ThrowsAt world s key ∧ fixCoin world true s key = .error s') ∨
        (¬ThrowsAt world s key ∧ fixCoin world true s key = .ok s')) := by
  simp only [ChecksAt, ThrowsAt, RestoresAt, fixCoin, hpcoin, Option.some.injEq, exists_eq_left']
  by_cases hconflicted : isConflicted world pcoin = true
  · simp only [hconflicted, true_and, if_true]
    obtain ⟨s', hchecks, hchange, hresult⟩ := fixConflicted_check hpcoin
    exact ⟨s', ⟨hchecks, hchange⟩, hresult⟩
  · simp only [hconflicted, false_and, not_false_eq_true, true_and, if_false, false_or, or_false,
      Bool.false_eq_true]
    split
    · exact ⟨s, ⟨Checks.refl s, rfl, rfl⟩, rfl⟩
    · exact ⟨_, fixCoins_check, rfl⟩

section

omit [LawfulEqOrd H]

omit [DecidableEq H] in
theorem caches_of_keeps (hkeeps : Keeps world s s') (hpcoin : s.mapWallet[key]? = some pcoin) :
    s'.debit world key pcoin = s.debit world key pcoin ∧
      s'.credit world key pcoin = s.credit world key pcoin := by
  have hinfo : info s.mapWallet key = some pcoin.forgetFlags := by
    rw [info, hpcoin]
    rfl
  exact ⟨hkeeps.debit key pcoin.forgetFlags hinfo, hkeeps.credit key pcoin.forgetFlags hinfo⟩

theorem throwsAt_congr (hkeeps : Keeps world s s') (hmap : s'.mapWallet = s.mapWallet) :
    ThrowsAt world s' key ↔ ThrowsAt world s key := by
  rw [ThrowsAt, ThrowsAt, hmap]
  refine exists_congr fun pcoin => and_congr_right fun hpcoin => ?_
  obtain ⟨hdebit, hcredit⟩ := caches_of_keeps hkeeps hpcoin
  rw [Sends, Sends, hdebit, hcredit]

theorem restoresAt_congr (hkeeps : Keeps world s s') (hmap : s'.mapWallet = s.mapWallet) :
    RestoresAt world s' key ↔ RestoresAt world s key := by
  rw [RestoresAt, RestoresAt, hmap]
  refine exists_congr fun pcoin => and_congr_right fun hpcoin => ?_
  simp only [Sends, (caches_of_keeps hkeeps hpcoin).1, Restorable, hmap]

theorem restoresNothing_congr {keys : List H} (hkeeps : Keeps world s s')
    (hmap : s'.mapWallet = s.mapWallet) : RestoresNothing world s' keys ↔ RestoresNothing world s keys := by
  induction keys with
  | nil => exact Iff.rfl
  | cons key keys ih =>
    rw [RestoresNothing, RestoresNothing, restoresAt_congr hkeeps hmap, throwsAt_congr hkeeps hmap, ih]

end

theorem checks_pass {keys : List H} (hkeys : ∀ key ∈ keys, ∃ pcoin, info s.mapWallet key = some pcoin) :
    Checks world s (Sweep.left (keys.foldlM (fixCoin world true) s)) := by
  induction keys generalizing s with
  | nil => exact Checks.refl s
  | cons key keys ih =>
    rw [forall_mem_cons] at hkeys
    obtain ⟨entry, hentry⟩ := hkeys.1
    obtain ⟨pcoin, hpcoin, -⟩ := Option.map_eq_some_iff.mp hentry
    obtain ⟨s', ⟨hchecks, -⟩, hresult⟩ := fixCoin_check world hpcoin
    rw [Sweep.left_cons]
    rcases hresult with ⟨-, hresult⟩ | ⟨-, hresult⟩
    · rw [hresult]
      exact hchecks
    · rw [hresult]
      exact hchecks.trans (ih fun later hlater => hchecks.info ▸ hkeys.2 later hlater)

/-- **A check over these entries changes nothing exactly when no input can be restored there.** -/
theorem check_pass_iff {keys : List H} (hkeys : ∀ key ∈ keys, ∃ pcoin, info s.mapWallet key = some pcoin) :
    ((Sweep.left (keys.foldlM (fixCoin world true) s)).mapWallet = s.mapWallet ∧
      (Sweep.left (keys.foldlM (fixCoin world true) s)).walletdb = s.walletdb) ↔
    RestoresNothing world s keys := by
  induction keys generalizing s with
  | nil => exact iff_of_true ⟨rfl, rfl⟩ trivial
  | cons key keys ih =>
    rw [forall_mem_cons] at hkeys
    obtain ⟨entry, hentry⟩ := hkeys.1
    obtain ⟨pcoin, hpcoin, -⟩ := Option.map_eq_some_iff.mp hentry
    obtain ⟨s', ⟨hchecks, hchange⟩, hresult⟩ := fixCoin_check world hpcoin
    have hlater : ∀ later ∈ keys, ∃ pcoin, info s'.mapWallet later = some pcoin :=
      fun later hlater => hchecks.info ▸ hkeys.2 later hlater
    rw [Sweep.left_cons, RestoresNothing]
    rcases hchange with ⟨hnot, hmap, hdb⟩ | ⟨hrestores, hash, i, hbefore, hafter⟩
    · rcases hresult with ⟨hthrows, hresult⟩ | ⟨hreturns, hresult⟩
      · rw [hresult]
        exact iff_of_true ⟨hmap, hdb⟩ ⟨hnot, fun h => absurd hthrows h⟩
      · rw [hresult, ← hmap, ← hdb]
        refine (ih hlater).trans ((restoresNothing_congr hchecks.toKeeps hmap).trans ?_)
        exact ⟨fun h => ⟨hnot, fun _ => h⟩, fun h => h.2 hreturns⟩
    · -- The mark that is gone does not come back.
      refine iff_of_false (fun hsame => hafter ?_) fun h => h.1 hrestores
      rcases hresult with ⟨-, hresult⟩ | ⟨-, hresult⟩
      · rw [hresult] at hsame
        exact hsame.1 ▸ hbefore
      · rw [hresult] at hsame
        exact (checks_pass hlater).fewer hash i (hsame.1 ▸ hbefore)

end

end RepairState

end MaryJaneCoin
