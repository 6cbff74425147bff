import MaryJaneCoin.Wallet.CommitTransaction

/-!
# What the loops of the wallet do to the spent flags

A wallet map is looked at through the entries without their flags and through the
flag of each output that exists.  Every marking changes one flag and no entry, and
the loops add up.
-/

namespace MaryJaneCoin

open Std List

namespace StoredTx

variable {H : Type} {wtx wtx' : StoredTx H} {fSpent : Bool} {nOut i : Nat}

/-- The entry without its flags. -/
def forgetFlags (wtx : StoredTx H) : StoredTx H := { wtx with vfSpent := [] }

theorem vout_eq_of_forgetFlags (h : wtx'.forgetFlags = wtx.forgetFlags) : wtx'.vout = wtx.vout :=
  congrArg (fun wtx => wtx.vout) h

theorem length_resized (wtx : StoredTx H) : wtx.resized.length = wtx.vout.length := by
  rw [resized, length_append, length_take, length_replicate]
  omega

theorem getElem?_resized (hlt : i < wtx.vout.length) : wtx.resized[i]? = some (wtx.isSpent i) := by
  rw [resized, isSpent, getElem?_append]
  by_cases hflag : i < wtx.vfSpent.length
  · rw [if_pos (by rw [length_take]; omega), getElem?_take_of_lt hlt,
      getElem?_eq_getElem hflag, Option.getD_some]
  · rw [if_neg (by rw [length_take]; omega), getElem?_replicate,
      if_pos (by rw [length_take]; omega), getElem?_eq_none (by omega), Option.getD_none]

/-- **What a marking does**: one flag of an output that exists. -/
theorem mark_spec (h : mark fSpent wtx nOut = some wtx') :
    nOut < wtx.vout.length ∧ wtx'.forgetFlags = wtx.forgetFlags ∧
      ∀ i < wtx.vout.length, wtx'.isSpent i = if i = nOut then fSpent else wtx.isSpent i := by
  rw [mark] at h
  split at h
  · rename_i hlt
    cases h
    refine ⟨hlt, rfl, fun i hi => ?_⟩
    show (wtx.resized.set nOut fSpent)[i]?.getD false = _
    rw [getElem?_set]
    by_cases hi' : i = nOut
    · rw [if_pos hi'.symm, if_pos hi', if_pos (by rw [length_resized]; exact hlt), Option.getD_some]
    · rw [if_neg (Ne.symm hi'), if_neg hi', getElem?_resized hi, Option.getD_some]
  · cases h

/-- The transaction to be recorded knows of a spent output, and the entry has a
flag that says otherwise. -/
def Learns (wtxNew wtx : StoredTx H) (i : Nat) : Prop :=
  wtxNew.vfSpent[i]? = some true ∧ wtx.vfSpent[i]? = some false

theorem updateSpent_spec (vfNewSpent vfSpent : List Bool) : ((updateSpent vfNewSpent vfSpent).1 = true ↔
      ∃ i : Nat, vfNewSpent[i]? = some true ∧ vfSpent[i]? = some false) ∧
    ∀ i : Nat, (updateSpent vfNewSpent vfSpent).2[i]?.getD false = true ↔
      vfSpent[i]?.getD false = true ∨ vfNewSpent[i]? = some true ∧ vfSpent[i]? = some false := by
  induction vfNewSpent generalizing vfSpent with
  | nil => simp [updateSpent]
  | cons fNew vfNewSpent ih =>
    cases vfSpent with
    | nil => simp [updateSpent]
    | cons fSpent vfSpent =>
      obtain ⟨hchanged, hflags⟩ := ih vfSpent
      constructor
      · rw [updateSpent, Bool.or_eq_true, hchanged]
        constructor
        · rintro (hhead | ⟨i, hi⟩)
          · exact ⟨0, by simpa using hhead⟩
          · exact ⟨i + 1, by simpa using hi⟩
        · rintro ⟨i, hi⟩
          cases i with
          | zero => exact .inl (by simpa using hi)
          | succ i => exact .inr ⟨i, by simpa using hi⟩
      · intro i
        cases i with
        | zero => cases fNew <;> cases fSpent <;> simp [updateSpent]
        | succ i => simpa [updateSpent] using hflags i

/-- What is told about the block and the origin of a transaction is in the entry. -/
def SameOrigin (sha : Sha256 H) (wtxNew wtx : StoredTx H) : Prop :=
  (wtxNew.hashBlock = sha.zero ∨ wtxNew.hashBlock = wtx.hashBlock) ∧
    (wtxNew.nIndex = -1 ∨ wtxNew.vMerkleBranch = wtx.vMerkleBranch ∧ wtxNew.nIndex = wtx.nIndex) ∧
    (wtxNew.fFromMe = true → wtx.fFromMe = true)

variable [DecidableEq H] {sha : Sha256 H} {wtxNew : StoredTx H}

theorem merge_toCTransaction : (merge sha wtxNew wtx).2.toCTransaction = wtx.toCTransaction := rfl

theorem isSpent_merge :
    (merge sha wtxNew wtx).2.isSpent i = true ↔ wtx.isSpent i = true ∨ Learns wtxNew wtx i :=
  (updateSpent_spec wtxNew.vfSpent wtx.vfSpent).2 i

theorem forgetFlags_merge_iff :
    (merge sha wtxNew wtx).2.forgetFlags = wtx.forgetFlags ↔ SameOrigin sha wtxNew wtx := by
  simp only [merge, forgetFlags, SameOrigin, StoredTx.mk.injEq, true_and, and_true,
    ite_eq_right_iff, Bool.and_eq_true, Bool.or_eq_true, bne_iff_ne, ne_eq]
  have hfrom : (wtxNew.fFromMe = true ∧ ¬wtxNew.fFromMe = wtx.fFromMe →
      wtxNew.fFromMe = wtx.fFromMe) ↔ (wtxNew.fFromMe = true → wtx.fFromMe = true) := by
    cases wtxNew.fFromMe <;> cases wtx.fFromMe <;> simp
  rw [hfrom]
  tauto

end StoredTx

namespace WalletMap

open StoredTx

variable {H : Type} [Ord H] [TransOrd H]

/-- The entry at a hash without its flags. -/
def info (mapWallet : WalletMap H) (hash : H) : Option (StoredTx H) := mapWallet[hash]?.map forgetFlags

/-- The output exists in the wallet and is marked spent. -/
def SpentAt (mapWallet : WalletMap H) (hash : H) (i : Nat) : Prop :=
  ∃ wtx : StoredTx H, mapWallet[hash]? = some wtx ∧ i < wtx.vout.length ∧ wtx.isSpent i = true

/-- One of the inputs spends the output. -/
def Spends (vin : List (CTxIn H)) (hash : H) (i : Nat) : Prop :=
  ∃ txin ∈ vin, txin.prevout.hash = hash ∧ txin.prevout.n.toNat = i

/-- The wallet's own outputs of a transaction. -/
def OwnOutput (isMine : CScript → Bool) (vout : List CTxOut) (i : Nat) : Prop :=
  ∃ txout : CTxOut, vout[i]? = some txout ∧ isMine txout.scriptPubKey = true

/-- The output is one of an entry of the wallet, and the wallet's own. -/
def OwnAt (isMine : CScript → Bool) (mapWallet : WalletMap H) (hash : H) (i : Nat) : Prop :=
  ∃ wtx : StoredTx H, mapWallet[hash]? = some wtx ∧ OwnOutput isMine wtx.vout i

omit [Ord H] [TransOrd H] in
theorem spends_cons {txin : CTxIn H} {vin : List (CTxIn H)} {hash : H} {i : Nat} :
    Spends (txin :: vin) hash i ↔
      (txin.prevout.hash = hash ∧ txin.prevout.n.toNat = i) ∨ Spends vin hash i := by
  simp [Spends]

variable [LawfulEqOrd H] {mapWallet after : WalletMap H} {hash hash' : H} {wtx wtx' : StoredTx H}
  {nOut i : Nat} {isMine : CScript → Bool} {txin : CTxIn H} {vin : List (CTxIn H)}

theorem info_insert (hwtx : mapWallet[hash]? = some wtx) (hforget : wtx'.forgetFlags = wtx.forgetFlags) :
    info (mapWallet.insert hash wtx') = info mapWallet := by
  funext hash'
  rw [info, info, ExtTreeMap.getElem?_insert]
  split
  · rename_i heq
    rw [← LawfulEqCmp.eq_of_compare heq, hwtx, Option.map_some, Option.map_some, hforget]
  · rfl

theorem spentAt_insert_self :
    SpentAt (mapWallet.insert hash wtx') hash i ↔ i < wtx'.vout.length ∧ wtx'.isSpent i = true := by
  simp [SpentAt]

theorem spentAt_insert_ne (hne : hash ≠ hash') :
    SpentAt (mapWallet.insert hash wtx') hash' i ↔ SpentAt mapWallet hash' i := by
  rw [SpentAt, SpentAt, ExtTreeMap.getElem?_insert, if_neg (by simpa using hne)]

omit [LawfulEqOrd H] in
theorem spentAt_of_getElem? (hwtx : mapWallet[hash]? = some wtx) :
    SpentAt mapWallet hash i ↔ i < wtx.vout.length ∧ wtx.isSpent i = true := by
  simp [SpentAt, hwtx]

theorem spentAt_mark {fSpent : Bool} (hwtx : mapWallet[hash]? = some wtx)
    (hmark : mark fSpent wtx nOut = some wtx') : SpentAt (mapWallet.insert hash wtx') hash' i ↔
      (hash = hash' ∧ nOut = i) ∧ fSpent = true ∨
        ¬(hash = hash' ∧ nOut = i) ∧ SpentAt mapWallet hash' i := by
  obtain ⟨hlt, hforget, hflag⟩ := mark_spec hmark
  by_cases hhash : hash = hash'
  · subst hhash
    rw [spentAt_insert_self, spentAt_of_getElem? hwtx, vout_eq_of_forgetFlags hforget]
    by_cases hi : i < wtx.vout.length
    · rw [hflag i hi]
      by_cases hout : i = nOut
      · subst hout
        simp [hlt]
      · simp [hi, hout, Ne.symm hout]
    · simp [hi, show nOut ≠ i by omega]
  · rw [spentAt_insert_ne hhash]
    simp [hhash]

theorem spentAt_markSpent (hwtx : mapWallet[hash]? = some wtx) (hmark : wtx.markSpent nOut = some wtx') :
    SpentAt (mapWallet.insert hash wtx') hash' i ↔ (hash = hash' ∧ nOut = i) ∨ SpentAt mapWallet hash' i := by
  rw [spentAt_mark hwtx hmark]
  tauto

theorem spentAt_markUnspent (hwtx : mapWallet[hash]? = some wtx) (hmark : wtx.markUnspent nOut = some wtx') :
    SpentAt (mapWallet.insert hash wtx') hash' i ↔
      SpentAt mapWallet hash' i ∧ ¬(hash = hash' ∧ nOut = i) := by
  rw [spentAt_mark hwtx hmark]
  simp [and_comm]

/-- **One round of the loop of `CommitTransaction`.** -/
theorem markInput_spec (h : markInput mapWallet txin = some after) :
    info after = info mapWallet ∧ ∀ hash i, SpentAt after hash i ↔
      (txin.prevout.hash = hash ∧ txin.prevout.n.toNat = i) ∨ SpentAt mapWallet hash i := by
  rw [markInput] at h
  split at h
  · cases h
  · rename_i coin hcoin
    obtain ⟨marked, hmarked, rfl⟩ := Option.map_eq_some_iff.mp h
    exact ⟨info_insert hcoin (mark_spec hmarked).2.1, fun hash i => spentAt_markSpent hcoin hmarked⟩

theorem markInputs_spec (h : vin.foldlM markInput mapWallet = some after) :
    info after = info mapWallet ∧ ∀ hash i, SpentAt after hash i ↔
      Spends vin hash i ∨ SpentAt mapWallet hash i := by
  induction vin generalizing mapWallet with
  | nil =>
    cases h
    exact ⟨rfl, fun hash i => by simp [Spends]⟩
  | cons txin vin ih =>
    obtain ⟨mid, hstep, hrest⟩ := OptionLoop.foldlM_cons h
    obtain ⟨hinfo, hspent⟩ := markInput_spec hstep
    obtain ⟨hinfo', hspent'⟩ := ih hrest
    refine ⟨hinfo'.trans hinfo, fun hash i => ?_⟩
    rw [hspent', hspent, spends_cons, or_left_comm, or_assoc]

omit [LawfulEqOrd H] in
theorem ownAt_iff_info : OwnAt isMine mapWallet hash i ↔ ∃ entry, info mapWallet hash = some entry ∧
      OwnOutput isMine entry.vout i := by
  rw [OwnAt, info]
  cases mapWallet[hash]? with
  | none => simp
  | some wtx => simp [forgetFlags]

omit [LawfulEqOrd H] in
theorem ownAt_congr (hinfo : info after = info mapWallet) :
    OwnAt isMine after hash i ↔ OwnAt isMine mapWallet hash i := by
  rw [ownAt_iff_info, ownAt_iff_info, hinfo]

/-- **One round of the first loop of `WalletUpdateSpent`.** -/
theorem updateInput_spec (h : updateInput isMine mapWallet txin = some after) :
    info after = info mapWallet ∧ ∀ hash i, SpentAt after hash i ↔ SpentAt mapWallet hash i ∨
      (txin.prevout.hash = hash ∧ txin.prevout.n.toNat = i) ∧ OwnAt isMine mapWallet hash i := by
  have hsame : (∀ hash i, txin.prevout.hash = hash → txin.prevout.n.toNat = i →
        OwnAt isMine mapWallet hash i → SpentAt mapWallet hash i) → after = mapWallet →
      info after = info mapWallet ∧ ∀ hash i, SpentAt after hash i ↔ SpentAt mapWallet hash i ∨
        (txin.prevout.hash = hash ∧ txin.prevout.n.toNat = i) ∧ OwnAt isMine mapWallet hash i := by
    rintro hmarked rfl
    exact ⟨rfl, fun hash i => ⟨.inl, fun hor => hor.elim id
      fun ⟨⟨hhash, hi⟩, hown⟩ => hmarked hash i hhash hi hown⟩⟩
  rw [updateInput] at h
  split at h
  · rename_i hnone
    refine hsame (fun hash i hhash hi hown => ?_) (Option.some.inj h).symm
    obtain ⟨wtx, hwtx, -⟩ := hown
    rw [← hhash, hnone] at hwtx
    cases hwtx
  · rename_i wtx hwtx
    split at h
    · rename_i hnone
      refine hsame (fun hash i hhash hi hown => ?_) (Option.some.inj h).symm
      obtain ⟨wtx', hwtx', txout, htxout, -⟩ := hown
      rw [← hhash, hwtx] at hwtx'
      cases hwtx'
      rw [← hi, hnone] at htxout
      cases htxout
    · rename_i txout htxout
      have hlt := (List.getElem?_eq_some_iff.mp htxout).1
      split at h
      · rename_i hunspent
        rw [Bool.and_eq_true] at hunspent
        obtain ⟨marked, hmarked, rfl⟩ := Option.map_eq_some_iff.mp h
        refine ⟨info_insert hwtx (mark_spec hmarked).2.1, fun hash i => ?_⟩
        rw [spentAt_markSpent hwtx hmarked, or_comm]
        refine or_congr_right (and_iff_left_of_imp ?_).symm
        rintro ⟨rfl, rfl⟩
        exact ⟨wtx, hwtx, txout, htxout, hunspent.2⟩
      · rename_i hno
        refine hsame (fun hash i hhash hi hown => ?_) (Option.some.inj h).symm
        obtain ⟨wtx', hwtx', txout', htxout', hmine⟩ := hown
        rw [← hhash, hwtx] at hwtx'
        cases hwtx'
        rw [← hi, htxout] at htxout'
        cases htxout'
        refine ⟨wtx, hhash ▸ hwtx, hi ▸ hlt, hi ▸ ?_⟩
        simpa [hmine] using hno

/-- **The first loop of `WalletUpdateSpent`** marks what the transaction spends of the
wallet's own. -/
theorem updateInputs_spec (h : vin.foldlM (updateInput isMine) mapWallet = some after) :
    info after = info mapWallet ∧ ∀ hash i, SpentAt after hash i ↔
      SpentAt mapWallet hash i ∨ Spends vin hash i ∧ OwnAt isMine mapWallet hash i := by
  induction vin generalizing mapWallet with
  | nil =>
    cases h
    exact ⟨rfl, fun hash i => by simp [Spends]⟩
  | cons txin vin ih =>
    obtain ⟨mid, hstep, hrest⟩ := OptionLoop.foldlM_cons h
    obtain ⟨hinfo, hspent⟩ := updateInput_spec hstep
    obtain ⟨hinfo', hspent'⟩ := ih hrest
    refine ⟨hinfo'.trans hinfo, fun hash i => ?_⟩
    rw [hspent', hspent, ownAt_congr hinfo, spends_cons, or_assoc, ← or_and_right]

theorem unmarkOutput_spec {output : CTxOut × Nat}
    (h : unmarkOutput isMine hash mapWallet output = some after) :
    info after = info mapWallet ∧ ∀ hash' i, SpentAt after hash' i ↔ SpentAt mapWallet hash' i ∧
      ¬(isMine output.1.scriptPubKey = true ∧ hash = hash' ∧ output.2 = i) := by
  rw [unmarkOutput] at h
  split at h
  · rename_i hmine
    split at h
    · cases h
    · rename_i wtx hwtx
      obtain ⟨marked, hmarked, rfl⟩ := Option.map_eq_some_iff.mp h
      refine ⟨info_insert hwtx (mark_spec hmarked).2.1, fun hash' i => ?_⟩
      rw [spentAt_markUnspent hwtx hmarked]
      simp [hmine]
  · rename_i hmine
    cases h
    simp [hmine]

/-- The second loop of `WalletUpdateSpent` takes the mark from the outputs that
are the wallet's own. -/
theorem unmarkOutputs_spec {outputs : List (CTxOut × Nat)}
    (h : outputs.foldlM (unmarkOutput isMine hash) mapWallet = some after) :
    info after = info mapWallet ∧ ∀ hash' i, SpentAt after hash' i ↔ SpentAt mapWallet hash' i ∧
      ¬(hash = hash' ∧ ∃ output ∈ outputs, isMine output.1.scriptPubKey = true ∧ output.2 = i) := by
  induction outputs generalizing mapWallet with
  | nil =>
    cases h
    simp
  | cons output outputs ih =>
    obtain ⟨mid, hstep, hrest⟩ := OptionLoop.foldlM_cons h
    obtain ⟨hinfo, hspent⟩ := unmarkOutput_spec hstep
    obtain ⟨hinfo', hspent'⟩ := ih hrest
    refine ⟨hinfo'.trans hinfo, fun hash' i => ?_⟩
    rw [hspent', hspent]
    rw [exists_mem_cons_iff]
    generalize (∃ later ∈ outputs, isMine later.1.scriptPubKey = true ∧ later.2 = i) = hlater
    tauto

variable {sha : Sha256 H} {tx : CTransaction H} {fBlock : Bool}

/-- **What `WalletUpdateSpent` does.** -/
theorem walletUpdateSpent_exact (h : walletUpdateSpent sha isMine mapWallet tx fBlock = some after) :
    info after = info mapWallet ∧ ∀ hash i, SpentAt after hash i ↔
      (SpentAt mapWallet hash i ∨ Spends tx.vin hash i ∧ OwnAt isMine mapWallet hash i) ∧
        ¬(fBlock = true ∧ tx.getHash sha = hash ∧ OwnOutput isMine tx.vout i) := by
  obtain ⟨mid, hmid, hrest⟩ := Option.bind_eq_some_iff.mp h
  obtain ⟨hinfo, hspent⟩ := updateInputs_spec hmid
  cases fBlock with
  | false =>
    cases hrest
    refine ⟨hinfo, fun hash i => ?_⟩
    rw [hspent]
    simp
  | true =>
    obtain ⟨hinfo', hspent'⟩ := unmarkOutputs_spec hrest
    refine ⟨hinfo'.trans hinfo, fun hash i => ?_⟩
    rw [hspent', hspent]
    simp [OwnOutput, mem_zipIdx_iff_getElem?, and_comm]

/-- The same, up to the marks of what the transaction spends. -/
theorem walletUpdateSpent_spec (h : walletUpdateSpent sha isMine mapWallet tx fBlock = some after) :
    info after = info mapWallet ∧ ∀ hash i, Spends tx.vin hash i ∨ (SpentAt after hash i ↔
      SpentAt mapWallet hash i ∧ ¬(fBlock = true ∧ tx.getHash sha = hash ∧ OwnOutput isMine tx.vout i)) := by
  obtain ⟨hinfo, hspent⟩ := walletUpdateSpent_exact h
  refine ⟨hinfo, fun hash i => ?_⟩
  by_cases hspends : Spends tx.vin hash i
  · exact .inl hspends
  · refine .inr ((hspent hash i).trans ?_)
    rw [or_iff_left fun hor => hspends hor.1]

end WalletMap

end MaryJaneCoin
