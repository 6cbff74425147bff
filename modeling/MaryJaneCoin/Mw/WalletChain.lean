import MaryJaneCoin.Mw.StateSpend
import MaryJaneCoin.Mw.StateUndo
import MaryJaneCoin.Mw.WalletReceive

/-!
# The wallet beside the chain

`ConnectBlock` applies a Mimblewimble block to `g_mwState` and scans it into
`g_mwWallet`; `DisconnectBlock` undoes it in `g_mwState` only.  Whether the wallet
lists what it owns of the unspent set is decided step by step: a connected block
must be skipped or taken by both alike, and a disconnected one must not have moved
an output of the wallet.
-/

namespace MaryJaneCoin

open CMWState Option
open List hiding Vector
open Std FinMap

section

variable {H P : Type} [AddCommGroup P] [DecidableEq P] (crypto : CurveCrypto H P)

/-- The output is the wallet's own: the wallet has keys and can recover it. -/
def CMWWallet.Owns (wallet : CMWWallet) (output : CMWOutput) : Prop :=
  wallet.hasKeys = true ∧ (wallet.recoverOutput crypto 0 output).isSome = true

def CMWWallet.getUnspentOutputs (wallet : CMWWallet) : List CMWOwnedOutput :=
  (wallet.mapOwnedOutputs.toList.map Prod.snd).filter fun owned => !owned.fSpent

/-- A node as far as Mimblewimble goes: the state, the wallet, and the blocks that
are connected, latest first, each with the state that it was connected to. -/
structure MWNode (H : Type) [Ord H] where
  g_mwState : CMWState H
  g_mwWallet : CMWWallet
  chain : List (CMWState H × MWStep H)

/-- A block is connected, or the latest one disconnected. -/
inductive MWEvent (H : Type) where
  | connect (step : MWStep H)
  | disconnect

namespace MWNode

/-- A node without blocks, with the keys of a wallet. -/
def start [Ord H] (wallet : CMWWallet) : MWNode H where
  g_mwState := CMWState.empty crypto.toSha256
  g_mwWallet := { wallet with mapOwnedOutputs := ∅ }
  chain := []

/-- The Mimblewimble part of `ConnectBlock` and of `DisconnectBlock`: none when
they return false. -/
def step [Ord H] [TransOrd H] [DecidableEq H] (node : MWNode H) : MWEvent H → Option (MWNode H)
  | .connect step =>
    (node.g_mwState.connect crypto.toMWCrypto step).map fun state =>
      { g_mwState := state
        g_mwWallet := (node.g_mwWallet.scanForOutputs crypto step.block).2
        chain := (node.g_mwState, step) :: node.chain }
  | .disconnect =>
    match node.chain with
    | [] => none
    | (_, step) :: chain =>
      let undone := node.g_mwState.disconnectBlock step.hashBlock false
      if undone.1 then some { node with g_mwState := undone.2, chain := chain } else none

/-- **The wallet follows the chain**: it lists an output if and only if the output
is its own and in the unspent set. -/
def InSync [Ord H] (node : MWNode H) : Prop :=
  ∀ output : CMWOutput, (∃ owned ∈ node.g_mwWallet.getUnspentOutputs, owned.output = output) ↔
      node.g_mwWallet.Owns crypto output ∧
        node.g_mwState.mapOutputs[output.commitment]? = some output

/-- **When a connected block is taken alike**: of the outputs that the wallet owns
and the block does not spend, the wallet skips exactly those that the state
refuses, and no spending of an output of the wallet is refused. -/
structure ConnectFits [Ord H] (node : MWNode H) (step : MWStep H) : Prop where
  skips : ∀ output ∈ step.block.body.vOutputs, node.g_mwWallet.Owns crypto output →
    step.spends output.commitment = false → (output.commitment ∈ node.g_mwWallet.mapOwnedOutputs ↔
      output.commitment ∈ node.g_mwState.mapOutputs ∨ output.isNull = true)
  spends : ∀ output, node.g_mwWallet.Owns crypto output →
    node.g_mwState.mapOutputs[output.commitment]? = some output →
    step.spends output.commitment = true → output.commitment ∉ node.g_mwState.setSpent

/-- The condition on a step.  The latest block can be disconnected when it neither
brought an output of the wallet into the unspent set nor took one out. -/
def Fits [Ord H] (node : MWNode H) : MWEvent H → Prop
  | .connect step => node.ConnectFits crypto step
  | .disconnect =>
    match node.chain with
    | [] => True
    | (before, _) :: _ => ∀ output : CMWOutput, node.g_mwWallet.Owns crypto output →
        (node.g_mwState.mapOutputs[output.commitment]? = some output ↔
          before.mapOutputs[output.commitment]? = some output)

/-- The wallet follows the chain at every point of a run. -/
def AllInSync [Ord H] [TransOrd H] [DecidableEq H] : MWNode H → List (MWEvent H) → Prop
  | node, [] => node.InSync crypto
  | node, event :: events => node.InSync crypto ∧
      ∀ next, node.step crypto event = some next → AllInSync next events

/-- Every step of a run that is taken meets its condition. -/
def AllFit [Ord H] [TransOrd H] [DecidableEq H] : MWNode H → List (MWEvent H) → Prop
  | _, [] => True
  | node, event :: events =>
    ∀ next, node.step crypto event = some next → node.Fits crypto event ∧ AllFit next events

end MWNode

end

section

variable {H : Type} [Ord H]

/-- **What connecting a valid block does to the output map.** -/
theorem CMWState.connect_lookup [TransOrd H] [DecidableEq H] {mwCrypto : MWCrypto H}
    {state state' : CMWState H} {step : MWStep H} (h : state.connect mwCrypto step = some state') :
    (∀ c, step.spends c = true → c ∈ state.mapOutputs) ∧
      (step.block.body.vOutputs.map CMWOutput.commitment).Nodup ∧ ∀ c : Commitment,
      state'.mapOutputs[c]? = if step.spends c = true ∧ c ∉ state.setSpent then none
        else (state.mapOutputs[c]?).or
          (step.block.body.vOutputs.find? fun out => out.commitment = c && !out.isNull) := by
  rw [connect] at h
  split at h
  · rename_i hvalid
    obtain ⟨hknown, -, houts⟩ := validateMWBlock_spec hvalid
    refine ⟨fun c hspends => ?_, houts, fun c => ?_⟩
    · obtain ⟨input, hin, rfl⟩ := mem_map.mp (of_decide_eq_true hspends)
      exact hknown input hin
    · rw [applyBlock] at h
      split at h
      · cases h
      · have hmap : state'.mapOutputs = (state.applyBody mwCrypto.toSha256 step.block.body
            step.nSupplyDelta).1.mapOutputs := by
          rw [← Option.some.inj h]
        have hlook := getElem?_applyOutputs mwCrypto.toSha256 step.block.body.vOutputs state
          (state.newUndo step.nSupplyDelta) c
        have hspent := setSpent_applyOutputs mwCrypto.toSha256 step.block.body.vOutputs state
          (state.newUndo step.nSupplyDelta)
        rw [hmap, applyBody]
        generalize step.block.body.vOutputs.foldl (applyOutput mwCrypto.toSha256)
          (state, state.newUndo step.nSupplyDelta) = mid at hlook hspent ⊢
        obtain ⟨mid, undo⟩ := mid
        rw [getElem?_applyInputs, hlook, hspent]
        simp only [MWStep.spends, decide_eq_true_iff]
  · cases h

end

section

variable {H P : Type} [AddCommGroup P] [DecidableEq P] {crypto : CurveCrypto H P}
  {wallet : CMWWallet} {output : CMWOutput}

/-- The entries stand under their own commitments. -/
def CMWWallet.Filed (wallet : CMWWallet) : Prop :=
  ∀ (c : Commitment) (owned : CMWOwnedOutput), wallet.mapOwnedOutputs[c]? = some owned →
    owned.output.commitment = c

/-- The wallet has an entry for the output that is not marked as spent. -/
def CMWWallet.Lists (wallet : CMWWallet) (output : CMWOutput) : Prop :=
  ∃ owned, wallet.mapOwnedOutputs[output.commitment]? = some owned ∧ owned.fSpent = false ∧
    owned.output = output

theorem mem_getUnspentOutputs_iff (hfiled : wallet.Filed) :
    (∃ owned ∈ wallet.getUnspentOutputs, owned.output = output) ↔ wallet.Lists output := by
  constructor
  · rintro ⟨owned, hmem, rfl⟩
    obtain ⟨hentry, hunspent⟩ := mem_filter.mp hmem
    obtain ⟨⟨c, owned'⟩, hpair, rfl⟩ := mem_map.mp hentry
    rw [ExtTreeMap.mem_toList_iff_getElem?_eq_some] at hpair
    obtain rfl := hfiled c owned' hpair
    exact ⟨owned', hpair, by simpa using hunspent, rfl⟩
  · rintro ⟨owned, hlook, hunspent, rfl⟩
    refine ⟨owned, mem_filter.mpr ⟨mem_map.mpr ⟨(owned.output.commitment, owned), ?_, rfl⟩,
      by simpa using hunspent⟩, rfl⟩
    exact ExtTreeMap.mem_toList_iff_getElem?_eq_some.mpr hlook

/-- Scanning keeps the entries under their commitments, and the keys. -/
theorem CMWWallet.Filed.scan (hfiled : wallet.Filed) (block : CMWBlock H) :
    (wallet.scanForOutputs crypto block).2.Filed := by
  cases hkeys : wallet.hasKeys with
  | false =>
    rw [scanForOutputs_of_not_hasKeys hkeys]
    exact hfiled
  | true =>
    intro c owned hlook
    rw [getElem?_scanForOutputs hkeys] at hlook
    have hbefore : ∀ owned, (wallet.mapOwnedOutputs[c]?).or
        (wallet.recoverFrom crypto block.nHeight c block.body.vOutputs) = some owned →
        owned.output.commitment = c := by
      intro owned hsome
      rcases or_eq_some_iff.mp hsome with hold | ⟨-, hnew⟩
      · exact hfiled c owned hold
      · obtain ⟨output, -, hfound⟩ := exists_of_findSome?_eq_some hnew
        split at hfound
        · rename_i heq
          rw [(recoverOutput_output hfound).1, heq]
        · cases hfound
    split at hlook
    · obtain ⟨old, hold, rfl⟩ := map_eq_some_iff.mp hlook
      exact hbefore old hold
    · exact hbefore owned hlook

theorem owns_scan (wallet : CMWWallet) (block : CMWBlock H) :
    (wallet.scanForOutputs crypto block).2.Owns crypto output ↔ wallet.Owns crypto output := by
  obtain ⟨mapOwnedOutputs, hframe⟩ := scanForOutputs_frame crypto wallet block
  rw [hframe]
  exact Iff.rfl

/-- **What is listed after a scan**, with distinct output commitments. -/
theorem lists_scan (hkeys : wallet.hasKeys = true) {block : CMWBlock H}
    (hnodup : (block.body.vOutputs.map CMWOutput.commitment).Nodup) :
    (wallet.scanForOutputs crypto block).2.Lists output ↔
      output.commitment ∉ block.body.vInputs.map CMWInput.commitment ∧
        (wallet.Lists output ∨ (output.commitment ∉ wallet.mapOwnedOutputs ∧
          output ∈ block.body.vOutputs ∧ wallet.Owns crypto output)) := by
  rw [CMWWallet.Lists, CMWWallet.Lists, getElem?_scanForOutputs hkeys]
  split
  · rename_i hspent
    simp only [hspent, not_true_eq_false, false_and, iff_false]
    rintro ⟨owned, hlook, hunspent, -⟩
    obtain ⟨old, -, rfl⟩ := map_eq_some_iff.mp hlook
    cases hunspent
  · rename_i hfree
    simp only [hfree, not_false_eq_true, true_and]
    cases hlook : wallet.mapOwnedOutputs[output.commitment]? with
    | some owned => simp [(mem_iff_exists _ _).mpr ⟨owned, hlook⟩]
    | none =>
      have hnew : output.commitment ∉ wallet.mapOwnedOutputs := by simp [mem_iff_exists, hlook]
      simp only [none_or, reduceCtorEq, false_and, exists_false, false_or, hnew,
        not_false_eq_true, true_and, CMWWallet.Owns, hkeys]
      constructor
      · rintro ⟨owned, hrecover, -, rfl⟩
        obtain ⟨first, hmem, hfirst⟩ := exists_of_findSome?_eq_some hrecover
        split at hfirst
        · obtain rfl := (recoverOutput_output hfirst).1
          refine ⟨hmem, ?_⟩
          rw [isSome_recoverOutput wallet 0 block.nHeight, hfirst]
          rfl
        · cases hfirst
      · rintro ⟨hmem, hown⟩
        rw [isSome_recoverOutput wallet 0 block.nHeight] at hown
        obtain ⟨owned, hrecover⟩ := isSome_iff_exists.mp hown
        obtain ⟨hsame, hunspent⟩ := recoverOutput_output hrecover
        exact ⟨owned, (recoverFrom_of_mem hnodup hmem).trans hrecover, hunspent, hsame⟩

variable [Ord H] [TransOrd H] [DecidableEq H] {step : MWStep H}

/-- **What is in the unspent set after a valid block.** -/
theorem CMWState.connect_holds {mwCrypto : MWCrypto H} {state state' : CMWState H}
    (h : state.connect mwCrypto step = some state') : state'.mapOutputs[output.commitment]? =
      some output ↔ ¬(step.spends output.commitment = true ∧ output.commitment ∉ state.setSpent) ∧
        (state.mapOutputs[output.commitment]? = some output ∨
          (output.commitment ∉ state.mapOutputs ∧ output ∈ step.block.body.vOutputs ∧
            ¬output.isNull = true)) := by
  obtain ⟨-, hnodup, hlook⟩ := connect_lookup h
  rw [hlook]
  split
  · rename_i hgone
    simp [hgone]
  · rename_i hstays
    simp only [hstays, not_false_eq_true, true_and]
    cases hold : state.mapOutputs[output.commitment]? with
    | some old => simp [(mem_iff_exists _ _).mpr ⟨old, hold⟩]
    | none =>
      have hnew : output.commitment ∉ state.mapOutputs := by simp [mem_iff_exists, hold]
      simp only [none_or, reduceCtorEq, false_or, hnew, not_false_eq_true, true_and]
      constructor
      · intro hfind
        exact ⟨mem_of_find?_eq_some hfind, by simpa using find?_some hfind⟩
      · rintro ⟨hmem, hproper⟩
        cases hfind : step.block.body.vOutputs.find? (fun out =>
            out.commitment = output.commitment && !out.isNull) with
        | none =>
          have hnone := find?_eq_none.mp hfind output hmem
          simp [hproper] at hnone
        | some first =>
          have hfirst := find?_some hfind
          simp only [Bool.and_eq_true, decide_eq_true_eq] at hfirst
          exact congrArg some (inj_on_of_nodup_map hnodup (mem_of_find?_eq_some hfind) hmem hfirst.1)

namespace MWNode

variable {node next : MWNode H}

omit [TransOrd H] [DecidableEq H] in
theorem inSync_iff (hfiled : node.g_mwWallet.Filed) :
    node.InSync crypto ↔ ∀ output, node.g_mwWallet.Lists output ↔
      node.g_mwWallet.Owns crypto output ∧ node.g_mwState.mapOutputs[output.commitment]? = some output :=
  forall_congr' fun output => by rw [mem_getUnspentOutputs_iff hfiled]

theorem taken_alike_iff {listed own held has known created null spent old : Prop}
    (hsync : listed ↔ own ∧ held) (hlisted : listed → has) (hheld : held → known) (hspends : spent → known) :
    ((¬spent ∧ (listed ∨ ¬has ∧ created ∧ own)) ↔ own ∧ ¬(spent ∧ ¬old) ∧ (held ∨ ¬known ∧ created ∧ ¬null)) ↔
      (created → own → ¬spent → (has ↔ known ∨ null)) ∧ (own → held → spent → ¬old) := by
  by_cases hown : own
  · by_cases hspent : spent <;> by_cases hold : held <;> grind
  · grind

/-- **Step lemma of connecting.**  From a state in which the wallet follows the
chain, it follows after a valid block exactly if the block is taken alike. -/
theorem connect_inSync_iff (hfiled : node.g_mwWallet.Filed) (hsync : node.InSync crypto)
    (h : node.step crypto (.connect step) = some next) :
    next.InSync crypto ↔ node.ConnectFits crypto step := by
  obtain ⟨state', hconnect, rfl⟩ := map_eq_some_iff.mp h
  rw [inSync_iff hfiled] at hsync
  rw [inSync_iff (hfiled.scan step.block)]
  obtain ⟨hknown, hnodup, -⟩ := CMWState.connect_lookup hconnect
  simp only [owns_scan, connect_holds hconnect]
  cases hkeys : node.g_mwWallet.hasKeys with
  | false =>
    -- A wallet without keys owns nothing, lists nothing, and does not scan.
    have hnone : ∀ output, ¬node.g_mwWallet.Owns crypto output := fun output hown => by
      rw [CMWWallet.Owns, hkeys] at hown
      exact Bool.false_ne_true hown.1
    rw [scanForOutputs_of_not_hasKeys hkeys]
    simp only [hnone, false_and, iff_false] at hsync ⊢
    exact ⟨fun _ => ⟨fun output _ hown => absurd hown (hnone output),
      fun output hown => absurd hown (hnone output)⟩, fun _ => hsync⟩
  | true =>
    have hspends : ∀ c, c ∈ step.block.body.vInputs.map CMWInput.commitment ↔
        step.spends c = true := fun c => by rw [MWStep.spends, decide_eq_true_iff]
    simp only [lists_scan hkeys hnodup, hspends]
    have hhas : ∀ output, node.g_mwWallet.Lists output →
        output.commitment ∈ node.g_mwWallet.mapOwnedOutputs := by
      rintro output ⟨owned, hlook, -⟩
      exact (mem_iff_exists _ _).mpr ⟨owned, hlook⟩
    have hheld : ∀ output : CMWOutput, node.g_mwState.mapOutputs[output.commitment]? = some output →
        output.commitment ∈ node.g_mwState.mapOutputs :=
      fun output hlook => (mem_iff_exists _ _).mpr ⟨output, hlook⟩
    constructor
    · intro hnext
      have hone := fun output => (taken_alike_iff (hsync output) (hhas output) (hheld output)
        (hknown output.commitment)).mp (hnext output)
      exact ⟨fun output hmem hown hfree => (hone output).1 hmem hown (by simp [hfree]),
        fun output => (hone output).2⟩
    · intro hfits output
      refine (taken_alike_iff (hsync output) (hhas output) (hheld output)
        (hknown output.commitment)).mpr ⟨fun hmem hown hfree => ?_, hfits.spends output⟩
      exact hfits.skips output hmem hown (by simpa using hfree)

/-- One state stands for another: the same in what a block changes, and with no
other undo records. -/
structure Like (state ideal : CMWState H) : Prop where
  view : state.view = ideal.view
  records : ∀ (h : H) (undo : CMWBlockUndo H), state.mapBlockUndo[h]? = some undo →
    ideal.mapBlockUndo[h]? = some undo

omit [DecidableEq H] in
theorem Like.trans {state mid ideal : CMWState H} (h : Like state mid) (h' : Like mid ideal) :
    Like state ideal :=
  ⟨h.view.trans h'.view, fun hash undo hundo => h'.records hash undo (h.records hash undo hundo)⟩

/-- The state is what connecting the blocks of the chain gives. -/
def Linked (mwCrypto : MWCrypto H) : CMWState H → List (CMWState H × MWStep H) → Prop
  | _, [] => True
  | state, (before, step) :: chain => before.WF ∧
      (∃ applied, before.connect mwCrypto step = some applied ∧ Like state applied) ∧
      Linked mwCrypto before chain

variable {chain : List (CMWState H × MWStep H)}

theorem Linked.like {mwCrypto : MWCrypto H} {state ideal : CMWState H} (hlike : Like state ideal)
    (h : Linked mwCrypto ideal chain) : Linked mwCrypto state chain := by
  cases chain with
  | nil => trivial
  | cons entry chain =>
    obtain ⟨hwf, ⟨applied, happlied, hideal⟩, hrest⟩ := h
    exact ⟨hwf, ⟨applied, happlied, hlike.trans hideal⟩, hrest⟩

variable [LawfulEqOrd H]

/-- **Undoing the latest block** leads back to the state that it was connected to. -/
theorem Linked.disconnect {mwCrypto : MWCrypto H} {state before : CMWState H}
    {step : MWStep H} (h : Linked mwCrypto state ((before, step) :: chain))
    (hok : (state.disconnectBlock step.hashBlock false).1 = true) :
    Like (state.disconnectBlock step.hashBlock false).2 before := by
  obtain ⟨hwf, ⟨applied, happlied, hlike⟩, -⟩ := h
  have happly : before.apply mwCrypto.toSha256
      ⟨step.block, step.nBlockHeight, step.hashBlock, step.nSupplyDelta⟩ = some applied := by
    rw [CMWState.connect] at happlied
    split at happlied
    · exact happlied
    · cases happlied
  obtain ⟨hwf', hundo⟩ := hwf.apply happly
  cases hrecord : state.mapBlockUndo[step.hashBlock]? with
  | none =>
    rw [disconnectBlock, hrecord] at hok
    cases hok
  | some undo =>
    have hnewest := hundo.newest.symm.trans (hlike.records _ _ hrecord)
    obtain ⟨restored, hdisconnect, hview, hrecords⟩ := hwf.disconnect_apply happly hlike.view
      (hrecord.trans hnewest.symm) false
    rw [hdisconnect]
    refine ⟨hview, fun hash later hlater => ?_⟩
    rw [hrecords, ExtTreeMap.getElem?_erase] at hlater
    split at hlater
    · cases hlater
    · rename_i hne
      have hkept := hlike.records _ _ hlater
      rw [← hundo.kept hash ((hwf'.recorded hash).mp ((mem_iff_exists _ _).mpr ⟨later, hkept⟩))
        (fun heq => hne (by rw [heq]; exact ReflCmp.compare_self))]
      exact hkept

/-- What holds of a node at every point of a run. -/
structure Good (crypto : CurveCrypto H P) (node : MWNode H) : Prop where
  wf : node.g_mwState.WF
  filed : node.g_mwWallet.Filed
  linked : Linked crypto.toMWCrypto node.g_mwState node.chain

omit [DecidableEq P] [LawfulEqOrd H] in
theorem start_good (crypto : CurveCrypto H P) (wallet : CMWWallet) :
    (start crypto wallet : MWNode H).Good crypto where
  wf := wf_empty
  filed c owned hlook := by
    rw [start, ExtTreeMap.getElem?_empty] at hlook
    cases hlook
  linked := trivial

/-- **Step lemma.**  The invariant is kept, and whether the wallet still follows the
chain is decided by the condition on the step. -/
theorem Good.after_step (hgood : node.Good crypto) {event : MWEvent H}
    (h : node.step crypto event = some next) :
    next.Good crypto ∧ (node.InSync crypto → (next.InSync crypto ↔ node.Fits crypto event)) := by
  cases event with
  | connect step =>
    refine ⟨?_, fun hsync => connect_inSync_iff hgood.filed hsync h⟩
    obtain ⟨state', hconnect, rfl⟩ := map_eq_some_iff.mp h
    have hwf : state'.WF := by
      rw [CMWState.connect] at hconnect
      split at hconnect
      · have happly : node.g_mwState.apply crypto.toSha256 ⟨step.block, step.nBlockHeight,
            step.hashBlock, step.nSupplyDelta⟩ = some state' := hconnect
        exact (hgood.wf.apply happly).1
      · cases hconnect
    exact ⟨hwf, hgood.filed.scan step.block, hgood.wf, ⟨state', hconnect, rfl, fun _ _ => id⟩, hgood.linked⟩
  | disconnect =>
    rw [MWNode.step] at h
    cases hchain : node.chain with
    | nil =>
      rw [hchain] at h
      cases h
    | cons entry chain =>
      obtain ⟨before, step⟩ := entry
      rw [hchain] at h
      simp only at h
      split at h
      · rename_i hok
        cases h
        have hlinked := hchain ▸ hgood.linked
        have hlike := hlinked.disconnect hok
        refine ⟨⟨hgood.wf.disconnect _ _, hgood.filed, hlinked.2.2.like hlike⟩, fun hsync => ?_⟩
        rw [inSync_iff hgood.filed] at hsync
        refine (inSync_iff ?_).trans ?_
        · exact hgood.filed
        rw [Fits, hchain]
        have hmap : (node.g_mwState.disconnectBlock step.hashBlock false).2.mapOutputs =
            before.mapOutputs := congrArg MWView.mapOutputs hlike.view
        simp only [hmap]
        refine forall_congr' fun output => ?_
        have hold := hsync output
        tauto
      · cases h

omit [LawfulEqOrd H] in
theorem AllInSync.head {events : List (MWEvent H)} (h : AllInSync crypto node events) :
    node.InSync crypto := by
  cases events with
  | nil => exact h
  | cons event events => exact h.1

/-- **Run lemma.** -/
theorem Good.allInSync_iff (hgood : node.Good crypto) (hsync : node.InSync crypto)
    (events : List (MWEvent H)) : AllInSync crypto node events ↔ AllFit crypto node events := by
  induction events generalizing node with
  | nil => exact ⟨fun _ => trivial, fun _ => hsync⟩
  | cons event events ih =>
    constructor
    · intro hall next hstep
      obtain ⟨hgood', hiff⟩ := hgood.after_step hstep
      have hnext := (hall.2 next hstep).head
      exact ⟨(hiff hsync).mp hnext, (ih hgood' hnext).mp (hall.2 next hstep)⟩
    · intro hfit
      refine ⟨hsync, fun next hstep => ?_⟩
      obtain ⟨hgood', hiff⟩ := hgood.after_step hstep
      obtain ⟨hfits, hrest⟩ := hfit next hstep
      exact (ih hgood' ((hiff hsync).mpr hfits)).mpr hrest

/-- **When the wallet follows the chain.**  In every run of connected and
disconnected blocks, the wallet lists at every point just what it owns of the
unspent set if and only if every step meets its condition. -/
theorem wallet_follows_chain_iff (wallet : CMWWallet) (events : List (MWEvent H)) :
    AllInSync crypto (start crypto wallet) events ↔ AllFit crypto (start crypto wallet) events := by
  refine (start_good crypto wallet).allInSync_iff ?_ events
  rw [inSync_iff (start_good crypto wallet).filed]
  intro output
  simp [start, CMWState.empty, CMWWallet.Lists]

end MWNode

end

def giftBlind : BlindingFactor :=
  PedersenContext.generateBlindingFactor sampleCurve (sampleDraws luckyBlind 19).blind

/-- An output of no value to the receiver of the samples. -/
def giftOutput : CMWOutput :=
  (makeOutput sampleCrypto (sampleRandomness luckyBlind).dest sampleReceiver.scanPubKey
    sampleReceiver.spendPubKey 0 giftBlind).getD (sampleOutput 5)

def giftKernel : CMWKernel where
  nFeatures := KERNEL_PLAIN
  nFee := 0
  nPegAmount := 0
  nLockHeight := 0
  excess := PedersenContext.commitBlind sampleCurve giftBlind
  signature := Vector.replicate 64 1
  pegoutScript := []

/-- A first block with just the gift. -/
def giftStep : MWStep SampleDigest where
  block :=
    { hashPrevMWBlock := sampleCrypto.zero
      body := { vInputs := [], vOutputs := [giftOutput], vKernels := [giftKernel] }
      vCutThrough := []
      nHeight := 1
      offset := Vector.replicate 32 0 }
  nBlockHeight := 1
  nTransparentPegIn := 0
  nTransparentPegOut := 0
  hashBlock := scalarBytes 9
  nSupplyDelta := 0

/-- The node of the receiver, before the block. -/
def giftNode : MWNode SampleDigest := MWNode.start sampleCrypto sampleReceiver

theorem MWNode.wallet_follows_chain_iff_gift :
    (giftNode.step sampleCrypto (.connect giftStep)).isSome = true ∧
      giftNode.AllInSync sampleCrypto [.connect giftStep] := by
  refine ⟨by decide +kernel, (MWNode.wallet_follows_chain_iff sampleReceiver _).mpr ?_⟩
  intro next _
  refine ⟨⟨?_, ?_⟩, trivial⟩
  · intro output hmem _ _
    have hout : output = giftOutput := mem_singleton.mp hmem
    have hnull : giftOutput.isNull = false := by decide +kernel
    simp [hout, hnull, MWNode.start, CMWState.empty]
  · intro output _ hfound
    simp [MWNode.start, CMWState.empty] at hfound

/-- **An output of an abandoned block stays in the wallet**: the block with the
gift is connected and disconnected again, the unspent set is empty, and the wallet
still lists one output. -/
theorem abandoned_output_listed :
    ∃ connected disconnected, giftNode.step sampleCrypto (.connect giftStep) = some connected ∧
      connected.step sampleCrypto .disconnect = some disconnected ∧
      disconnected.g_mwState.mapOutputs.isEmpty = true ∧
      disconnected.g_mwWallet.getUnspentOutputs.length = 1 ∧ ¬ disconnected.InSync sampleCrypto := by
  have hrun : ((giftNode.step sampleCrypto (.connect giftStep)).any fun connected =>
      (connected.step sampleCrypto .disconnect).any fun disconnected =>
        disconnected.g_mwState.mapOutputs.isEmpty &&
          disconnected.g_mwWallet.getUnspentOutputs.length == 1) = true := by decide +kernel
  rw [Option.any_eq_true] at hrun
  obtain ⟨connected, hconnected, hrun⟩ := hrun
  rw [Option.any_eq_true] at hrun
  obtain ⟨disconnected, hdisconnected, hrun⟩ := hrun
  rw [Bool.and_eq_true, beq_iff_eq] at hrun
  obtain ⟨hempty, hlength⟩ := hrun
  refine ⟨connected, disconnected, hconnected, hdisconnected, hempty, hlength, ?_⟩
  intro hsync
  obtain ⟨owned, hlisted⟩ := length_eq_one_iff.mp hlength
  have hheld := ((hsync owned.output).mp ⟨owned, by simp [hlisted], rfl⟩).2
  rw [ExtTreeMap.isEmpty_iff.mp hempty] at hheld
  simp at hheld

end MaryJaneCoin
