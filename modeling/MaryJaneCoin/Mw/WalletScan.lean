import MaryJaneCoin.Mw.Wallet

/-!
# What `ScanForOutputs` does to the wallet

The keys stay.  The first loop records the outputs that the wallet can recover
under commitments that it does not have, the second marks what the block spends,
and no entry is ever taken out.
-/

namespace MaryJaneCoin

open Std List CMWWallet ExtTreeMap Option

variable {H P : Type} [AddCommGroup P] [DecidableEq P] {crypto : CurveCrypto H P}
  {wallet : CMWWallet} {output : CMWOutput}

/-- **Frame of the scanning loop**: only the map of outputs changes, and there
only what was scanned. -/
theorem scanOutputs_frame (crypto : CurveCrypto H P) (nHeight : Int32) (outputs : List CMWOutput)
    (scanned : Nat × CMWWallet) :
    ∃ mapOwnedOutputs, (outputs.foldl (scanOutput crypto nHeight) scanned).2 =
        { scanned.2 with mapOwnedOutputs } ∧ ∀ c ∉ outputs.map CMWOutput.commitment,
        mapOwnedOutputs[c]? = scanned.2.mapOwnedOutputs[c]? := by
  induction outputs generalizing scanned with
  | nil => exact ⟨_, rfl, fun _ _ => rfl⟩
  | cons output outputs ih =>
    obtain ⟨last, hlast, hframe⟩ := ih (scanOutput crypto nHeight scanned output)
    have hstep : ∃ mid, (scanOutput crypto nHeight scanned output).2 =
          { scanned.2 with mapOwnedOutputs := mid } ∧
        ∀ c ≠ output.commitment, mid[c]? = scanned.2.mapOwnedOutputs[c]? := by
      unfold scanOutput
      split
      · exact ⟨_, rfl, fun _ _ => rfl⟩
      · split
        · exact ⟨_, rfl, fun _ _ => rfl⟩
        · exact ⟨_, rfl, fun c hc => FinMap.getElem?_insert_ne _ _ hc.symm⟩
    obtain ⟨mid, hmid, hother⟩ := hstep
    rw [hmid] at hlast hframe
    refine ⟨last, hlast, ?_⟩
    intro c hc
    rw [map_cons, List.mem_cons, not_or] at hc
    rw [hframe c hc.2]
    exact hother c hc.1

/-- What a list of outputs has for a wallet under a commitment: the first output
that can be recovered. -/
def CMWWallet.recoverFrom (crypto : CurveCrypto H P) (wallet : CMWWallet) (nHeight : Int32)
    (c : Commitment) (outputs : List CMWOutput) : Option CMWOwnedOutput :=
  outputs.findSome? fun output =>
    if output.commitment = c then wallet.recoverOutput crypto nHeight output else none

/-- **The scanning loop, exactly.** -/
theorem getElem?_scanOutputs_or (nHeight : Int32) (outputs : List CMWOutput) (nFound : Nat)
    (wallet : CMWWallet) (c : Commitment) :
    (outputs.foldl (scanOutput crypto nHeight) (nFound, wallet)).2.mapOwnedOutputs[c]? =
      (wallet.mapOwnedOutputs[c]?).or (wallet.recoverFrom crypto nHeight c outputs) := by
  induction outputs generalizing nFound wallet with
  | nil => simp [recoverFrom]
  | cons output outputs ih =>
    rw [foldl_cons, scanOutput]
    by_cases hmem : output.commitment ∈ wallet.mapOwnedOutputs
    · obtain ⟨owned, howned⟩ := (FinMap.mem_iff_exists _ _).mp hmem
      rw [if_pos hmem, ih]
      by_cases hc : output.commitment = c
      · subst hc
        rw [howned, some_or, some_or]
      · rw [recoverFrom, recoverFrom, findSome?_cons, if_neg hc]
    · rw [if_neg hmem]
      cases hrecover : wallet.recoverOutput crypto nHeight output with
      | none =>
        simp only
        rw [ih, recoverFrom, recoverFrom, findSome?_cons]
        split
        · rename_i heq
          rw [hrecover, ite_self] at heq
          cases heq
        · rfl
      | some owned =>
        simp only
        rw [ih]
        by_cases hc : output.commitment = c
        · subst hc
          rw [getElem?_insert_self, ExtTreeMap.getElem?_eq_none hmem, some_or,
            none_or, recoverFrom, findSome?_cons, if_pos rfl, hrecover]
        · rw [FinMap.getElem?_insert_ne _ _ hc, recoverFrom, recoverFrom,
            findSome?_cons, if_neg hc]
          rfl

variable {outputs : List CMWOutput} {nHeight : Int32}

theorem recoverFrom_of_mem
    (hnodup : (outputs.map CMWOutput.commitment).Nodup) (hmem : output ∈ outputs) :
    wallet.recoverFrom crypto nHeight output.commitment outputs =
      wallet.recoverOutput crypto nHeight output := by
  induction outputs with
  | nil => cases hmem
  | cons first outputs ih =>
    rw [map_cons, nodup_cons] at hnodup
    rw [recoverFrom, findSome?_cons]
    rcases List.mem_cons.mp hmem with rfl | hrest
    · rw [if_pos rfl]
      cases hrecover : wallet.recoverOutput crypto nHeight output with
      | some owned => rfl
      | none =>
        refine findSome?_eq_none_iff.mpr fun other hother => if_neg fun heq => ?_
        exact hnodup.1 (heq ▸ mem_map_of_mem hother)
    · have hne : first.commitment ≠ output.commitment := fun heq =>
        hnodup.1 (heq ▸ mem_map_of_mem hrest)
      rw [if_neg hne]
      exact ih hnodup.2 hrest

/-- **What the scanning loop records for an output**: what was there before, or
what was recovered. -/
theorem getElem?_scanOutputs
    (hnodup : (outputs.map CMWOutput.commitment).Nodup) (hmem : output ∈ outputs) (nFound : Nat) :
    (outputs.foldl (scanOutput crypto nHeight)
        (nFound, wallet)).2.mapOwnedOutputs[output.commitment]? =
      (wallet.mapOwnedOutputs[output.commitment]?).or (wallet.recoverOutput crypto nHeight output) := by
  rw [getElem?_scanOutputs_or, recoverFrom_of_mem hnodup hmem]

theorem scanOutputs_eq_empty {nFound : Nat} :
    (outputs.foldl (scanOutput crypto nHeight) (nFound, wallet)).2.mapOwnedOutputs = ∅ ↔
      wallet.mapOwnedOutputs = ∅ ∧ ∀ output ∈ outputs, wallet.recoverOutput crypto nHeight output = none := by
  induction outputs generalizing wallet nFound with
  | nil => simp
  | cons output outputs ih =>
    rw [foldl_cons, forall_mem_cons]
    by_cases hmem : output.commitment ∈ wallet.mapOwnedOutputs
    · have hskip : scanOutput crypto nHeight (nFound, wallet) output =
          (nFound, wallet) := if_pos hmem
      have hne : wallet.mapOwnedOutputs ≠ ∅ := by
        intro hempty
        rw [hempty] at hmem
        exact not_mem_empty hmem
      rw [hskip, ih]
      simp [hne]
    · cases hrecover : wallet.recoverOutput crypto nHeight output with
      | none =>
        have hskip : scanOutput crypto nHeight (nFound, wallet) output =
            (nFound, wallet) := by simp only [scanOutput, if_neg hmem, hrecover]
        rw [hskip, ih]
        simp
      | some owned =>
        have hfound : scanOutput crypto nHeight (nFound, wallet) output = (nFound + 1, { wallet with
              mapOwnedOutputs := wallet.mapOwnedOutputs.insert output.commitment owned }) := by
          simp only [scanOutput, if_neg hmem, hrecover]
        rw [hfound, ih]
        simp

/-- An entry marked as spent. -/
def CMWOwnedOutput.asSpent (owned : CMWOwnedOutput) : CMWOwnedOutput := { owned with fSpent := true }

theorem getElem?_markOutputSpent (wallet : CMWWallet) (commitment c : Commitment) :
    (wallet.markOutputSpent commitment).mapOwnedOutputs[c]? =
      if commitment = c then wallet.mapOwnedOutputs[c]?.map CMWOwnedOutput.asSpent
      else wallet.mapOwnedOutputs[c]? := by
  rw [markOutputSpent]
  by_cases heq : commitment = c
  · subst heq
    rw [if_pos rfl]
    cases hlook : wallet.mapOwnedOutputs[commitment]? with
    | none => exact hlook
    | some owned => exact getElem?_insert_self
  · rw [if_neg heq]
    cases wallet.mapOwnedOutputs[commitment]? with
    | none => rfl
    | some owned => exact FinMap.getElem?_insert_ne _ _ heq

theorem markOutputSpent_frame (wallet : CMWWallet) (commitment : Commitment) :
    ∃ mapOwnedOutputs, wallet.markOutputSpent commitment = { wallet with mapOwnedOutputs } := by
  rw [markOutputSpent]
  split
  · exact ⟨_, rfl⟩
  · exact ⟨_, rfl⟩

/-- **The second loop of `ScanForOutputs`**: the entries that the inputs name are
marked as spent. -/
theorem markInputs_frame (wallet : CMWWallet) (inputs : List CMWInput) :
    ∃ mapOwnedOutputs, inputs.foldl (fun wallet input => wallet.markOutputSpent input.commitment)
        wallet = { wallet with mapOwnedOutputs } ∧ ∀ c : Commitment, mapOwnedOutputs[c]? =
        if c ∈ inputs.map CMWInput.commitment then wallet.mapOwnedOutputs[c]?.map CMWOwnedOutput.asSpent
        else wallet.mapOwnedOutputs[c]? := by
  induction inputs generalizing wallet with
  | nil => exact ⟨_, rfl, fun c => rfl⟩
  | cons input inputs ih =>
    obtain ⟨last, hlast, hlook⟩ := ih (wallet.markOutputSpent input.commitment)
    obtain ⟨mid, hmid⟩ := markOutputSpent_frame wallet input.commitment
    refine ⟨last, by rw [foldl_cons, hlast, hmid], fun c => ?_⟩
    rw [hlook, getElem?_markOutputSpent, map_cons]
    by_cases hhead : input.commitment = c
    · have hspent : ∀ owned : CMWOwnedOutput, owned.asSpent.asSpent = owned.asSpent := fun _ => rfl
      subst hhead
      cases wallet.mapOwnedOutputs[input.commitment]? <;> simp [hspent]
    · simp [hhead, Ne.symm hhead]

/-- **Frame of `ScanForOutputs`**: the keys stay. -/
theorem scanForOutputs_frame (crypto : CurveCrypto H P) (wallet : CMWWallet) (block : CMWBlock H) :
    ∃ mapOwnedOutputs, (wallet.scanForOutputs crypto block).2 = { wallet with mapOwnedOutputs } := by
  rw [scanForOutputs]
  split
  · exact ⟨_, rfl⟩
  · obtain ⟨mid, hmid, -⟩ := scanOutputs_frame crypto block.nHeight block.body.vOutputs (0, wallet)
    obtain ⟨last, hlast, -⟩ := markInputs_frame
      (block.body.vOutputs.foldl (scanOutput crypto block.nHeight) (0, wallet)).2
      block.body.vInputs
    exact ⟨last, hlast.trans (by rw [hmid])⟩

theorem scanForOutputs_eq_empty {block : CMWBlock H} :
    (wallet.scanForOutputs crypto block).2.mapOwnedOutputs = ∅ ↔
      wallet.mapOwnedOutputs = ∅ ∧ (wallet.hasKeys = true → ∀ output ∈ block.body.vOutputs,
        wallet.recoverOutput crypto block.nHeight output = none) := by
  rw [scanForOutputs]
  cases hkeys : wallet.hasKeys with
  | false => simp
  | true =>
    simp only [Bool.not_true, Bool.false_eq_true, if_false, forall_const]
    rw [← scanOutputs_eq_empty]
    obtain ⟨last, hlast, hlook⟩ := markInputs_frame
      (block.body.vOutputs.foldl (scanOutput crypto block.nHeight) (0, wallet)).2
      block.body.vInputs
    rw [hlast, FinMap.eq_empty_iff, FinMap.eq_empty_iff]
    refine forall_congr' fun c => ?_
    rw [hlook]
    split
    · exact map_eq_none_iff
    · exact Iff.rfl

/-- **What a scan leaves under a commitment.** -/
theorem getElem?_scanForOutputs (hkeys : wallet.hasKeys = true) (block : CMWBlock H)
    (c : Commitment) : (wallet.scanForOutputs crypto block).2.mapOwnedOutputs[c]? =
      if c ∈ block.body.vInputs.map CMWInput.commitment then ((wallet.mapOwnedOutputs[c]?).or
          (wallet.recoverFrom crypto block.nHeight c block.body.vOutputs)).map CMWOwnedOutput.asSpent
      else (wallet.mapOwnedOutputs[c]?).or
        (wallet.recoverFrom crypto block.nHeight c block.body.vOutputs) := by
  rw [scanForOutputs, hkeys]
  simp only [Bool.not_true, Bool.false_eq_true, if_false]
  obtain ⟨last, hlast, hlook⟩ := markInputs_frame
    (block.body.vOutputs.foldl (scanOutput crypto block.nHeight) (0, wallet)).2
    block.body.vInputs
  rw [hlast]
  simp only
  rw [hlook, getElem?_scanOutputs_or]

theorem scanForOutputs_of_not_hasKeys (hkeys : wallet.hasKeys = false) (block : CMWBlock H) :
    (wallet.scanForOutputs crypto block).2 = wallet := by
  rw [scanForOutputs, hkeys]
  rfl

theorem recoverOutput_output {owned : CMWOwnedOutput}
    (h : wallet.recoverOutput crypto nHeight output = some owned) :
    owned.output = output ∧ owned.fSpent = false := by
  rw [recoverOutput] at h
  obtain ⟨sharedSecret, -, h⟩ := bind_eq_some_iff.mp h
  simp only at h
  split at h
  · obtain ⟨oneTimeSpendKey, -, h⟩ := bind_eq_some_iff.mp h
    obtain ⟨recovered, -, rfl⟩ := map_eq_some_iff.mp h
    exact ⟨rfl, rfl⟩
  · cases h

theorem isSome_recoverOutput (wallet : CMWWallet) (nHeight nHeight' : Int32) (output : CMWOutput) :
    (wallet.recoverOutput crypto nHeight output).isSome =
      (wallet.recoverOutput crypto nHeight' output).isSome := by
  rw [recoverOutput, recoverOutput]
  cases computeECDHSharedSecret crypto wallet.scanPrivKey output.senderPubKey with
  | none => rfl
  | some sharedSecret =>
    simp only [bind_some]
    split
    · cases wallet.deriveSpendKey crypto output.senderPubKey with
      | none => rfl
      | some oneTimeSpendKey => simp
    · rfl

end MaryJaneCoin
