import MaryJaneCoin.Wallet.CommitRollback
import MaryJaneCoin.Wallet.InvolvingMe

/-!
# Spent flags over a run of the wallet

An own output of an entry is to be marked once an entry spends it.  What a call
does to the flags is put in one form: the entries it leaves, the outputs it marks
and those it takes the mark from.  The flags go on to match the entries exactly
when the call takes no mark that is needed and marks what it makes own or spent.
-/

namespace MaryJaneCoin

open Std StoredTx Option

namespace WalletMap

variable {H : Type} [Ord H] [TransOrd H]

/-- A transaction of the wallet spends the output. -/
def SpentBy (mapWallet : WalletMap H) (hash : H) (i : Nat) : Prop :=
  ∃ (key : H) (wtx : StoredTx H), mapWallet[key]? = some wtx ∧ Spends wtx.vin hash i

/-- **The flags match the entries**: an own output of an entry is unspent only when no
transaction of the wallet spends it. -/
def FlagsMatch (isMine : CScript → Bool) (mapWallet : WalletMap H) : Prop :=
  ∀ (hash : H) (wtx : StoredTx H) (i : Nat), mapWallet[hash]? = some wtx →
    OwnOutput isMine wtx.vout i → wtx.isSpent i = false → ¬SpentBy mapWallet hash i

variable {isMine : CScript → Bool} {mapWallet after : WalletMap H} {hash : H} {i : Nat}

theorem flagsMatch_iff : FlagsMatch isMine mapWallet ↔ ∀ hash i, OwnAt isMine mapWallet hash i →
    SpentBy mapWallet hash i → SpentAt mapWallet hash i := by
  constructor
  · intro hmatch hash i hown hby
    obtain ⟨wtx, hwtx, txout, htxout, hmine⟩ := hown
    refine ⟨wtx, hwtx, (List.getElem?_eq_some_iff.mp htxout).1, ?_⟩
    by_contra hflag
    exact hmatch hash wtx i hwtx ⟨txout, htxout, hmine⟩ (by simpa using hflag) hby
  · intro hmarked hash wtx i hwtx hown hflag hby
    obtain ⟨wtx', hwtx', -, hspent⟩ := hmarked hash i ⟨wtx, hwtx, hown⟩ hby
    rw [hwtx] at hwtx'
    cases hwtx'
    rw [hflag] at hspent
    cases hspent

theorem spentBy_iff_info : SpentBy mapWallet hash i ↔ ∃ key entry, info mapWallet key = some entry ∧
    Spends entry.vin hash i := by
  refine exists_congr fun key => ?_
  rw [info]
  cases mapWallet[key]? with
  | none => simp
  | some wtx => simp [forgetFlags]

theorem spentBy_congr (hinfo : info after = info mapWallet) :
    SpentBy after hash i ↔ SpentBy mapWallet hash i := by
  rw [spentBy_iff_info, spentBy_iff_info, hinfo]

end WalletMap

/-- What a call does to the flags. -/
structure SpentEffect (H : Type) [Ord H] where
  /-- The entries, before a flag is changed. -/
  recorded : WalletMap H
  Marks : H → Nat → Prop
  Resets : H → Nat → Prop

namespace SpentEffect

open WalletMap

variable {H : Type} [Ord H] [TransOrd H]

/-- The call leaves the entries with their flags so changed. -/
def Leaves (e : SpentEffect H) (after : WalletMap H) : Prop :=
  info after = info e.recorded ∧ ∀ hash i, SpentAt after hash i ↔
    (SpentAt e.recorded hash i ∨ e.Marks hash i) ∧ ¬e.Resets hash i

/-- The call fits the entries `mapWallet` before it, where `old` says what was own
before and `own` what is own after: it takes no mark that is needed, and what it makes
own or spent is marked. -/
structure Fits (old own : CScript → Bool) (mapWallet : WalletMap H) (e : SpentEffect H) : Prop where
  keepsMarks : ∀ hash i, OwnAt own e.recorded hash i → SpentBy e.recorded hash i → ¬e.Resets hash i
  marksNew : ∀ hash i, OwnAt own e.recorded hash i → SpentBy e.recorded hash i →
    ¬(OwnAt old mapWallet hash i ∧ SpentBy mapWallet hash i) →
      SpentAt e.recorded hash i ∨ e.Marks hash i

/-- **A call keeps the match exactly when it fits.** -/
theorem flagsMatch_iff_fits {old own : CScript → Bool} {mapWallet after : WalletMap H}
    {e : SpentEffect H} (hleaves : e.Leaves after) (hmatch : FlagsMatch old mapWallet)
    (hgrow : ∀ hash i, SpentAt mapWallet hash i → SpentAt e.recorded hash i) :
    FlagsMatch own after ↔ e.Fits old own mapWallet := by
  obtain ⟨hinfo, hspent⟩ := hleaves
  rw [flagsMatch_iff]
  constructor
  · intro hafter
    have hflag : ∀ hash i, OwnAt own e.recorded hash i → SpentBy e.recorded hash i →
        (SpentAt e.recorded hash i ∨ e.Marks hash i) ∧ ¬e.Resets hash i :=
      fun hash i hown hby => (hspent hash i).mp
        (hafter hash i ((ownAt_congr hinfo).mpr hown) ((spentBy_congr hinfo).mpr hby))
    exact ⟨fun hash i hown hby => (hflag hash i hown hby).2,
      fun hash i hown hby _ => (hflag hash i hown hby).1⟩
  · intro hfits hash i hown hby
    have hown := (ownAt_congr hinfo).mp hown
    have hby := (spentBy_congr hinfo).mp hby
    refine (hspent hash i).mpr ⟨?_, hfits.keepsMarks hash i hown hby⟩
    by_cases hbefore : OwnAt old mapWallet hash i ∧ SpentBy mapWallet hash i
    · exact .inl (hgrow hash i (flagsMatch_iff.mp hmatch hash i hbefore.1 hbefore.2))
    · exact hfits.marksNew hash i hown hby hbefore

end SpentEffect

namespace CWalletState

open WalletMap

variable {H : Type} [Ord H] [TransOrd H] [DecidableEq H]

section

variable (world : WalletWorld H)

/-- The entry that `AddToWallet` puts in the map, and whether it is new or changed. -/
def entryFor (sha : Sha256 H) (wallet : CWalletState H) (wtxIn : StoredTx H) : Bool × StoredTx H :=
  match wallet.mapWallet[wtxIn.getHash sha]? with
  | none => (true, newEntry world sha wallet wtxIn)
  | some wtx => StoredTx.merge sha wtxIn wtx

/-- The entry did not have to be written, or could be. -/
def Written (entry : Bool × StoredTx H) : Prop := entry.1 = true → world.writeTx entry.2 = true

/-- The keys after `AddToWallet` for the entry. -/
def KeysAfter (keys : WalletKeys) (entry : Bool × StoredTx H) (after : WalletKeys) : Prop :=
  (Written world entry ∧
    (if world.qtGui then some keys else keys.renewDefaultKeys world.toKeySource entry.2.vout) = some after) ∨
  (¬Written world entry ∧ after = keys)

/-- The effect of an entry that `AddToWallet` puts in the map, where `own` says what is
own after it. -/
def entryEffect (sha : Sha256 H) (mapWallet : WalletMap H) (hash : H) (entry : Bool × StoredTx H)
    (fBlock : Bool) (own : CScript → Bool) : SpentEffect H :=
  { recorded := mapWallet.insert hash entry.2
    Marks := fun hash' i => Written world entry ∧ Spends entry.2.vin hash' i ∧
      OwnAt own (mapWallet.insert hash entry.2) hash' i
    Resets := fun hash' i => Written world entry ∧ fBlock = true ∧
      entry.2.getHash sha = hash' ∧ OwnOutput own entry.2.vout i }

/-- What `AddToWallet` does to the flags. -/
def addEffect (sha : Sha256 H) (wallet : CWalletState H) (wtxIn : StoredTx H)
    (own : CScript → Bool) : SpentEffect H :=
  entryEffect world sha wallet.mapWallet (wtxIn.getHash sha) (entryFor world sha wallet wtxIn)
    (wtxIn.hashBlock != sha.zero) own

variable {world} {wallet after : CWalletState H} {sha : Sha256 H} {wtxIn : StoredTx H}
  {entry : Bool × StoredTx H} {hash : H} {fResult fBlock : Bool}

section

omit [Ord H] [TransOrd H] [DecidableEq H]

theorem KeysAfter.unique {keys keys' keys'' : WalletKeys} (h : KeysAfter world keys entry keys')
    (h' : KeysAfter world keys entry keys'') : keys' = keys'' := by
  rcases h with ⟨hwritten, h⟩ | ⟨hnot, rfl⟩
  · rcases h' with ⟨-, h'⟩ | ⟨hnot, -⟩
    · exact Option.some.inj (h.symm.trans h')
    · exact absurd hwritten hnot
  · rcases h' with ⟨hwritten, -⟩ | ⟨-, rfl⟩
    · exact absurd hwritten hnot
    · rfl

/-- What fits for the keys after the call fits for all that may be after it. -/
theorem forall_keysAfter {keys keys' : WalletKeys} {P : WalletKeys → Prop}
    (h : KeysAfter world keys entry keys') :
    (∀ keys'', KeysAfter world keys entry keys'' → P keys'') ↔ P keys' :=
  ⟨fun hall => hall keys' h, fun hP _ h' => h.unique h' ▸ hP⟩

end

variable [LawfulEqOrd H]

omit [DecidableEq H] in
theorem entryAdded_effect (wallet : CWalletState H) (entry : Bool × StoredTx H)
    (h : entryAdded world sha wallet hash entry.2 entry.1 fBlock = some (fResult, after)) :
    KeysAfter world wallet.keys entry after.keys ∧ (entryEffect world sha wallet.mapWallet hash entry fBlock
        (world.isMine after.keys.keyStore)).Leaves after.mapWallet := by
  rw [entryAdded] at h
  split at h
  · rename_i hfailed
    cases h
    have hnot : ¬Written world entry := fun hwritten => by
      simp only [Bool.and_eq_true, Bool.not_eq_true'] at hfailed
      rw [hwritten hfailed.1] at hfailed
      cases hfailed.2
    exact ⟨.inr ⟨hnot, rfl⟩, rfl, fun hash' i => by simp [entryEffect, hnot]⟩
  · rename_i hwritten
    have hwritten : Written world entry := by
      simpa [Written] using hwritten
    obtain ⟨keys, hkeys, hupdate⟩ := bind_eq_some_iff.mp h
    obtain ⟨mapWallet, hmap, hafter⟩ := map_eq_some_iff.mp hupdate
    cases hafter
    obtain ⟨hinfo, hspent⟩ := walletUpdateSpent_exact hmap
    exact ⟨.inl ⟨hwritten, hkeys⟩, hinfo, fun hash' i => by simp [entryEffect, hwritten, hspent]⟩

/-- **The effect of `AddToWallet`.** -/
theorem addToWallet_effect (h : addToWallet world sha wallet wtxIn = some (fResult, after)) :
    KeysAfter world wallet.keys (entryFor world sha wallet wtxIn) after.keys ∧
      (addEffect world sha wallet wtxIn (world.isMine after.keys.keyStore)).Leaves after.mapWallet := by
  rw [addToWallet] at h
  rw [addEffect, entryFor]
  cases hwtx : wallet.mapWallet[wtxIn.getHash sha]? with
  | none =>
    simp only [hwtx] at h ⊢
    exact entryAdded_effect { wallet with nOrderPosNext := wallet.nOrderPosNext + 1 }
      (true, newEntry world sha wallet wtxIn) h
  | some wtx =>
    simp only [hwtx] at h ⊢
    exact entryAdded_effect wallet (StoredTx.merge sha wtxIn wtx) h

/-- No mark is lost with the entry. -/
theorem spentAt_recorded {own : CScript → Bool} {hash : H} {i : Nat} (h : SpentAt wallet.mapWallet hash i) :
    SpentAt (addEffect world sha wallet wtxIn own).recorded hash i := by
  show SpentAt (wallet.mapWallet.insert (wtxIn.getHash sha) (entryFor world sha wallet wtxIn).2) hash i
  by_cases hhash : wtxIn.getHash sha = hash
  · subst hhash
    obtain ⟨wtx, hwtx, hlt, hflag⟩ := h
    rw [spentAt_insert_self, entryFor, hwtx]
    exact ⟨hlt, isSpent_merge.mpr (.inl hflag)⟩
  · rwa [spentAt_insert_ne hhash]

end

/-- A world in which so much is the wallet's own. -/
structure OwnWorld (H : Type) (mine : List CKeyID → CScript → Bool) extends StealthWorld H where
  isMine_eq : toStealthWorld.isMine = mine

/-- The calls that record transactions, each in the world as it is then. -/
inductive WalletCall (H : Type) [Ord H] [TransOrd H] [DecidableEq H]
    (isMine : List CKeyID → CScript → Bool) where
  | addToWalletIfInvolvingMe (world : OwnWorld H isMine) (tx : CTransaction H)
      (pblock : Option (CBlock H)) (fUpdate : Bool)
  | commitTransaction (world : OwnWorld H isMine) (wtxNew : StoredTx H) (reservekey : CReserveKey)
      (pool : CTxMemPool H) (s : Node H) (env : Env H) (policy : RelayPolicy H)

variable {isMine : List CKeyID → CScript → Bool} (c : Consensus H)

/-- One call: none when it throws, or when the memory pool refuses what is committed. -/
def runCall (wallet : CWalletState H) : WalletCall H isMine → Option (CWalletState H)
  | .addToWalletIfInvolvingMe world tx pblock fUpdate =>
    (wallet.addToWalletIfInvolvingMe world.toStealthWorld c tx pblock fUpdate).map Prod.snd
  | .commitTransaction world wtxNew reservekey pool s env policy =>
    (wallet.commitTransaction world.toWalletWorld c pool s env policy wtxNew reservekey).bind
      fun (fAccepted, wallet, _) => if fAccepted then some wallet else none

/-- The effect of a call that records nothing and only looks at inputs. -/
def inputsEffect (mapWallet : WalletMap H) (vin : List (CTxIn H)) (own : CScript → Bool) :
    SpentEffect H :=
  ⟨mapWallet, fun hash i => Spends vin hash i ∧ OwnAt own mapWallet hash i, fun _ _ => False⟩

/-- The effect of a commit, which marks the inputs once more. -/
def commitEffect (world : WalletWorld H) (sha : Sha256 H) (wallet : CWalletState H)
    (wtxNew : StoredTx H) (own : CScript → Bool) : SpentEffect H :=
  let added := addEffect world sha wallet wtxNew own
  ⟨added.recorded, fun hash i => added.Marks hash i ∨ Spends wtxNew.vin hash i,
    fun hash i => added.Resets hash i ∧ ¬Spends wtxNew.vin hash i⟩

/-- **The condition on a call**, for the wallet before it. -/
def CallFits (wallet : CWalletState H) : WalletCall H isMine → Prop
  | .addToWalletIfInvolvingMe world tx pblock fUpdate =>
    let old := isMine wallet.keys.keyStore
    let mid := wallet.imported world.toStealthWorld tx
    let wtxIn := StoredTx.arriving c tx pblock
    let own := isMine mid.keys.keyStore
    if wallet.mapWallet.contains (tx.getHash c.toSha256) && !fUpdate then
      -- Nothing but the keys may change.
      (inputsEffect wallet.mapWallet [] own).Fits old own wallet.mapWallet
    else
      (mid.involved world.toStealthWorld c.toSha256 tx = some true → ∀ keys,
        KeysAfter world.toWalletWorld mid.keys (entryFor world.toWalletWorld c.toSha256 mid wtxIn)
        keys → (addEffect world.toWalletWorld c.toSha256 mid wtxIn (isMine keys.keyStore)).Fits old
          (isMine keys.keyStore) wallet.mapWallet) ∧
      (mid.involved world.toStealthWorld c.toSha256 tx = some false →
        (inputsEffect wallet.mapWallet tx.vin own).Fits old own wallet.mapWallet)
  | .commitTransaction world wtxNew reservekey _ _ _ _ =>
    let mid := { wallet with keys := (wallet.keys.keepReserved reservekey).1 }
    ∀ keys, KeysAfter world.toWalletWorld mid.keys
      (entryFor world.toWalletWorld c.toSha256 mid wtxNew) keys →
      (commitEffect world.toWalletWorld c.toSha256 mid wtxNew (isMine keys.keyStore)).Fits
        (isMine wallet.keys.keyStore) (isMine keys.keyStore) wallet.mapWallet

variable {c} {wallet after : CWalletState H}

variable [LawfulEqOrd H]

omit [DecidableEq H] in
theorem inputsEffect_leaves {own : CScript → Bool} {mapWallet mapWallet' : WalletMap H} {sha : Sha256 H}
    {tx : CTransaction H} (h : walletUpdateSpent sha own mapWallet tx false = some mapWallet') :
    (inputsEffect mapWallet tx.vin own).Leaves mapWallet' := by
  obtain ⟨hinfo, hspent⟩ := walletUpdateSpent_exact h
  exact ⟨hinfo, fun hash i => by simp [inputsEffect, hspent]⟩

omit [DecidableEq H] [LawfulEqOrd H] in
theorem inputsEffect_nil_leaves {own : CScript → Bool} (mapWallet : WalletMap H) :
    (inputsEffect mapWallet [] own).Leaves mapWallet :=
  ⟨rfl, fun hash i => by simp [inputsEffect, Spends]⟩

theorem spentAt_committed {world : WalletWorld H} {sha : Sha256 H} {wtxNew : StoredTx H}
    {own : CScript → Bool} {hash : H} {i : Nat} (h : SpentAt wallet.mapWallet hash i) :
    SpentAt (commitEffect world sha wallet wtxNew own).recorded hash i :=
  @spentAt_recorded _ _ _ _ world wallet sha wtxNew _ own hash i h

theorem commitEffect_leaves {world : WalletWorld H} {sha : Sha256 H} {wtxNew : StoredTx H}
    {own : CScript → Bool} {mid mapWallet : WalletMap H}
    (hadd : (addEffect world sha wallet wtxNew own).Leaves mid)
    (hmark : wtxNew.vin.foldlM markInput mid = some mapWallet) :
    (commitEffect world sha wallet wtxNew own).Leaves mapWallet := by
  obtain ⟨hinfo, hspent⟩ := hadd
  obtain ⟨hinfo', hspent'⟩ := markInputs_spec hmark
  refine ⟨hinfo'.trans hinfo, fun hash i => ?_⟩
  rw [hspent', hspent, commitEffect]
  by_cases hspends : Spends wtxNew.vin hash i
  · simp [hspends]
  · simp [hspends]

omit [LawfulEqOrd H] in
/-- What a call to `AddToWalletIfInvolvingMe` comes to. -/
theorem addToWalletIfInvolvingMe_cases {world : StealthWorld H} {tx : CTransaction H}
    {pblock : Option (CBlock H)} {fUpdate fResult : Bool}
    (h : wallet.addToWalletIfInvolvingMe world c tx pblock fUpdate = some (fResult, after)) :
    let known := wallet.mapWallet.contains (tx.getHash c.toSha256) && !fUpdate
    let mid := wallet.imported world tx
    (known = true ∧ after = mid) ∨
    (known = false ∧ mid.involved world c.toSha256 tx = some true ∧
      addToWallet world.toWalletWorld c.toSha256 mid (StoredTx.arriving c tx pblock) =
        some (fResult, after)) ∨
    (known = false ∧ mid.involved world c.toSha256 tx = some false ∧ ∃ mapWallet,
      walletUpdateSpent c.toSha256 (world.isMine mid.keys.keyStore) wallet.mapWallet tx false =
        some mapWallet ∧ after = { mid with mapWallet := mapWallet }) := by
  rw [addToWalletIfInvolvingMe] at h
  split at h
  · rename_i hknown
    exact .inl ⟨hknown, congrArg Prod.snd (Option.some.inj h).symm⟩
  · rename_i hknown
    have hknown := Bool.eq_false_iff.mpr hknown
    obtain ⟨fInvolved, hinvolved, hrest⟩ := bind_eq_some_iff.mp h
    cases fInvolved with
    | true => exact .inr (.inl ⟨hknown, hinvolved, hrest⟩)
    | false =>
      obtain ⟨mapWallet, hmap, hafter⟩ := map_eq_some_iff.mp hrest
      exact .inr (.inr ⟨hknown, hinvolved, mapWallet, hmap, congrArg Prod.snd hafter.symm⟩)

/-- **One call**: the flags go on to match the entries exactly when it fits. -/
theorem runCall_flagsMatch_iff {call : WalletCall H isMine} (h : runCall c wallet call = some after)
    (hmatch : FlagsMatch (isMine wallet.keys.keyStore) wallet.mapWallet) :
    FlagsMatch (isMine after.keys.keyStore) after.mapWallet ↔ CallFits c wallet call := by
  cases call with
  | addToWalletIfInvolvingMe world tx pblock fUpdate =>
    obtain ⟨⟨fResult, after⟩, hadd, rfl⟩ := map_eq_some_iff.mp h
    rw [CallFits]
    rcases addToWalletIfInvolvingMe_cases hadd with ⟨hknown, rfl⟩ | ⟨hknown, hinvolved, hrest⟩ |
      ⟨hknown, hinvolved, mapWallet, hmap, rfl⟩
    · rw [if_pos hknown]
      exact SpentEffect.flagsMatch_iff_fits (inputsEffect_nil_leaves _) hmatch fun _ _ => id
    · obtain ⟨hkeys, hleaves⟩ := addToWallet_effect hrest
      rw [world.isMine_eq] at hleaves
      rw [if_neg (Bool.eq_false_iff.mp hknown), hinvolved, forall_keysAfter hkeys]
      simp only [true_imp_iff, Option.some.injEq, Bool.true_eq_false, false_imp_iff, and_true]
      exact SpentEffect.flagsMatch_iff_fits hleaves hmatch fun _ _ => spentAt_recorded
    · rw [world.isMine_eq] at hmap
      rw [if_neg (Bool.eq_false_iff.mp hknown), hinvolved]
      simp only [Option.some.injEq, Bool.false_eq_true, false_imp_iff, true_and, true_imp_iff]
      exact SpentEffect.flagsMatch_iff_fits (inputsEffect_leaves hmap) hmatch fun _ _ => id
  | commitTransaction world wtxNew reservekey pool s env policy =>
    obtain ⟨⟨fAccepted, committed, reservekey', pool'⟩, hcommit, hsome⟩ := bind_eq_some_iff.mp h
    obtain ⟨⟨fResult, mid⟩, hadd, hrest⟩ := bind_eq_some_iff.mp hcommit
    obtain ⟨mapWallet, hmark, hcommitted⟩ := map_eq_some_iff.mp hrest
    obtain rfl : { mid with mapWallet := mapWallet } = after := by
      simp only [Prod.mk.injEq] at hcommitted
      rw [← hcommitted.2.1] at hsome
      cases fAccepted
      · cases hsome
      · exact Option.some.inj hsome
    obtain ⟨hkeys, hleaves⟩ := addToWallet_effect hadd
    rw [world.isMine_eq] at hleaves
    refine Iff.trans ?_ (forall_keysAfter hkeys).symm
    exact SpentEffect.flagsMatch_iff_fits (commitEffect_leaves hleaves hmark) hmatch
      fun _ _ => spentAt_committed

variable (c) in
/-- The calls one after the other. -/
def runCalls (wallet : CWalletState H) (calls : List (WalletCall H isMine)) : Option (CWalletState H) :=
  calls.foldlM (runCall c) wallet

/-- **A run of the wallet**: its flags match its entries in every state reached
exactly when every call of it fits. -/
theorem runCalls_flagsMatch_iff (hmatch : FlagsMatch (isMine wallet.keys.keyStore) wallet.mapWallet)
    (calls : List (WalletCall H isMine)) :
    (∀ pre post mid, calls = pre ++ post → runCalls c wallet pre = some mid →
      FlagsMatch (isMine mid.keys.keyStore) mid.mapWallet) ↔
    ∀ pre call post mid after, calls = pre ++ call :: post → runCalls c wallet pre = some mid →
      runCall c mid call = some after → CallFits c mid call := by
  constructor
  · intro hmatches pre call post mid after hsplit hpre hcall
    have hafter : runCalls c wallet (pre ++ [call]) = some after := by
      rw [runCalls, List.foldlM_append]
      show (runCalls c wallet pre).bind _ = _
      rw [hpre]
      simpa using hcall
    rw [← runCall_flagsMatch_iff hcall (hmatches pre (call :: post) mid hsplit hpre)]
    exact hmatches (pre ++ [call]) post after (by simpa using hsplit) hafter
  · intro hfits pre
    induction pre using List.reverseRecOn with
    | nil =>
      intro post mid hsplit hpre
      cases hpre
      exact hmatch
    | append_singleton pre call ih =>
      intro post after hsplit hrun
      obtain ⟨mid, hpre, hlast⟩ := OptionLoop.foldlM_append hrun
      have hcall : runCall c mid call = some after := by simpa using hlast
      have hsplit : calls = pre ++ call :: post := by simpa using hsplit
      rw [runCall_flagsMatch_iff hcall (ih (call :: post) mid hsplit hpre)]
      exact hfits pre call post mid after hsplit hpre hcall

/-- The world of the wallet with the coin, without stealth addresses. -/
def coinStealthWorld : OwnWorld (List Nat) coinWorld.isMine where
  toWalletWorld := coinWorld
  nMinimumInputValue := 0
  mapStealthAddresses := []
  extractDestination _ := none
  detectStealthPayment _ _ _ := none
  deriveStealthSpendKey _ _ _ := none
  isMine_eq := rfl

/-- The wallet with its key, before any transaction. -/
def keyWallet : CWalletState (List Nat) := { coinWallet with mapWallet := ∅, nOrderPosNext := 0 }

/-- The coin arrives, and is spent. -/
def coinSpent : List (WalletCall (List Nat) coinWorld.isMine) :=
  [.addToWalletIfInvolvingMe coinStealthWorld coinTx none false,
    .addToWalletIfInvolvingMe coinStealthWorld (sendTx 2) none false]

def coinBlock : CBlock (List Nat) :=
  sampleBlock 1 (sampleGenesis.getHash sampleConsensus) [sampleCoinbase 1 [⟨COIN, []⟩], coinTx]

/-- Both states of that run. -/
theorem runCalls_flagsMatch_iff_coin :
    (∀ pre post mid, coinSpent = pre ++ post → runCalls sampleConsensus keyWallet pre = some mid →
      FlagsMatch (coinWorld.isMine mid.keys.keyStore) mid.mapWallet) ↔
    ∀ pre call post mid after, coinSpent = pre ++ call :: post →
      runCalls sampleConsensus keyWallet pre = some mid →
      runCall sampleConsensus mid call = some after → CallFits sampleConsensus mid call := by
  refine runCalls_flagsMatch_iff (fun hash wtx i hwtx => ?_) coinSpent
  simp [keyWallet] at hwtx

/-- **The coin is confirmed after it was spent**: its output is unspent again, and the
transaction that spends it is in the wallet. -/
theorem confirmed_after_spent : ∃ wallet, runCalls sampleConsensus keyWallet
        (coinSpent ++ [.addToWalletIfInvolvingMe coinStealthWorld coinTx (some coinBlock) true]) =
      some wallet ∧ ¬FlagsMatch (coinWorld.isMine wallet.keys.keyStore) wallet.mapWallet := by
  have hrun : ((runCalls sampleConsensus keyWallet
      (coinSpent ++ [.addToWalletIfInvolvingMe coinStealthWorld coinTx (some coinBlock) true])).map
      fun wallet => (wallet.mapWallet[coinTx.getHash transparent]?.map fun wtx => (wtx.vout, wtx.isSpent 0),
        wallet.mapWallet[(sendTx 2).getHash transparent]?.map fun wtx => wtx.vin)) =
      some (some (coinTx.vout, false), some (sendTx 2).vin) := by
    decide +kernel
  obtain ⟨wallet, hwallet, hentries⟩ := Option.map_eq_some_iff.mp hrun
  obtain ⟨hcoin, hsend⟩ := Prod.mk.inj hentries
  obtain ⟨coin, hcoin, hflag⟩ := Option.map_eq_some_iff.mp hcoin
  obtain ⟨send, hsend, hvin⟩ := Option.map_eq_some_iff.mp hsend
  obtain ⟨hvout, hunspent⟩ := Prod.mk.inj hflag
  refine ⟨wallet, hwallet, fun hmatch => ?_⟩
  refine hmatch (coinTx.getHash transparent) coin 0 hcoin ?_ hunspent ⟨_, send, hsend, ?_⟩
  · rw [hvout]
    exact ⟨⟨100 * COIN, payTo 1⟩, rfl, beq_self_eq_true (payTo 1)⟩
  · rw [hvin]
    exact ⟨_, List.mem_singleton_self _, rfl, rfl⟩

end CWalletState

end MaryJaneCoin
