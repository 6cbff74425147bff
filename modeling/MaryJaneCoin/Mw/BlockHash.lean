import MaryJaneCoin.Mw.Authorisation

/-!
# What the hash of a block covers

`CMWBlock::GetHash` hashes the previous hash, the height, the offset, the hash of the body
and the length of the cut-through list; the hash of the body covers three counts and what
the kernels sign.  A chain of hashes fixes these data for every block of it, and nothing
else.
-/

namespace MaryJaneCoin

open List hiding Vector
open Codec Nat Function

variable {H : Type} {sha : Sha256 H}

/-- The data that the hash of a body covers agree. -/
structure CMWTransactionBody.SameHashed (body body' : CMWTransactionBody) : Prop where
  vInputs : body.vInputs.length % 2 ^ 32 = body'.vInputs.length % 2 ^ 32
  vOutputs : body.vOutputs.length % 2 ^ 32 = body'.vOutputs.length % 2 ^ 32
  vKernels : body.vKernels.map CMWKernel.terms = body'.vKernels.map CMWKernel.terms

/-- The data that the hash of a block covers agree. -/
structure CMWBlock.SameHashed (block block' : CMWBlock H) : Prop where
  hashPrevMWBlock : block.hashPrevMWBlock = block'.hashPrevMWBlock
  body : block.body.SameHashed block'.body
  nHeight : block.nHeight = block'.nHeight
  offset : block.offset = block'.offset
  vCutThrough : block.vCutThrough.length % 2 ^ 32 = block'.vCutThrough.length % 2 ^ 32

/-- A number is written as far as the width goes. -/
theorem putLE_congr {width m n : Nat} (h : m % 256 ^ width = n % 256 ^ width) :
    putLE width m = putLE width n := by
  induction width generalizing m n with
  | zero => rfl
  | succ width ih =>
    rw [Nat.pow_succ, Nat.mul_comm] at h
    have hlow : m % 256 = n % 256 := by
      rw [← mod_mul_right_mod m 256 (256 ^ width), h, mod_mul_right_mod]
    have hhigh : m / 256 % 256 ^ width = n / 256 % 256 ^ width := by
      rw [← mod_mul_right_div_self, h, mod_mul_right_div_self]
    have hbyte : UInt8.ofNat m = UInt8.ofNat n := UInt8.toNat_inj.mp (by simpa using hlow)
    rw [putLE, putLE, hbyte, ih hhigh]

/-- A count is written as far as 32 bits go. -/
theorem feedLE_congr {m n : Nat} (h : m % 2 ^ 32 = n % 2 ^ 32) : feedLE (H := H) 4 m = feedLE 4 n :=
  congrArg feed (putLE_congr h)

theorem CMWKernel.getSignatureMessage_terms (kernel : CMWKernel) :
    kernel.terms.getSignatureMessage sha = kernel.getSignatureMessage sha := by
  have hpegIn : kernel.terms.isPegIn = kernel.isPegIn := rfl
  have hpegOut : kernel.terms.isPegOut = kernel.isPegOut := rfl
  have hlocked : kernel.terms.isHeightLocked = kernel.isHeightLocked := rfl
  unfold getSignatureMessage
  rw [hpegIn, hpegOut, hlocked]
  unfold terms
  cases kernel.isPegIn <;> cases kernel.isPegOut <;> cases kernel.isHeightLocked <;> rfl

theorem map_getSignatureMessage_eq_iff (hinj : Injective sha.sha256)
    {kernels kernels' : List CMWKernel} : kernels.map (CMWKernel.getSignatureMessage sha) =
    kernels'.map (CMWKernel.getSignatureMessage sha) ↔
      kernels.map CMWKernel.terms = kernels'.map CMWKernel.terms := by
  constructor
  · intro hmessages
    induction kernels generalizing kernels' with
    | nil =>
      rw [map_eq_nil_iff.mp hmessages.symm]
    | cons kernel kernels ih =>
      cases kernels' with
      | nil => cases hmessages
      | cons kernel' kernels' =>
        obtain ⟨hfirst, hrest⟩ := List.cons.inj hmessages
        rw [map_cons, map_cons, ih hrest, CMWKernel.terms_of_getSignatureMessage_eq hinj hfirst]
  · intro hterms
    have hsign : ∀ signed : List CMWKernel, signed.map (CMWKernel.getSignatureMessage sha) =
        (signed.map CMWKernel.terms).map (CMWKernel.getSignatureMessage sha) := by
      intro signed
      rw [map_map]
      exact map_congr_left fun kernel _ => kernel.getSignatureMessage_terms.symm
    rw [hsign kernels, hsign kernels', hterms]

/-- **The hash of a body** covers the three counts and the terms of the kernels. -/
theorem CMWTransactionBody.getHash_eq_iff (hinj : Injective sha.sha256)
    {body body' : CMWTransactionBody} : body.getHash sha = body'.getHash sha ↔ body.SameHashed body' := by
  have hmap : ∀ kernels : List CMWKernel,
      (kernels.map fun kernel => Atom.digest (kernel.getSignatureMessage sha)) =
        (kernels.map (CMWKernel.getSignatureMessage sha)).map Atom.digest := by
    intro kernels
    rw [map_map]
    rfl
  constructor
  · intro h
    have hbody := hinj h
    simp only [List.cons.injEq, Atom.digest.injEq, and_true] at hbody
    have heq := Sha256.sha256d_injective hinj hbody
    simp only [append_assoc] at heq
    obtain ⟨hinputs, heq⟩ := feedLE_append_mod heq
    obtain ⟨houtputs, heq⟩ := feedLE_append_mod heq
    obtain ⟨_, hkernels⟩ := feedLE_append_mod heq
    rw [hmap, hmap] at hkernels
    have hmessages := map_injective_iff.mpr (fun _ _ => Atom.digest.inj) hkernels
    exact ⟨hinputs, houtputs, (map_getSignatureMessage_eq_iff hinj).mp hmessages⟩
  · intro h
    have hcount := congrArg List.length h.vKernels
    rw [length_map, length_map] at hcount
    have hinputs := feedLE_congr (H := H) h.vInputs
    have houtputs := feedLE_congr (H := H) h.vOutputs
    rw [getHash, getHash, hmap, hmap, (map_getSignatureMessage_eq_iff hinj).mpr h.vKernels, hcount,
      hinputs, houtputs]

/-- **The hash of a block** covers exactly these data. -/
theorem CMWBlock.getHash_eq_iff (hinj : Injective sha.sha256) {block block' : CMWBlock H} :
    block.getHash sha = block'.getHash sha ↔ block.SameHashed block' := by
  constructor
  · intro h
    have heq := Sha256.sha256d_injective hinj h
    simp only [append_assoc, cons_append, nil_append, List.cons.injEq, Atom.digest.injEq] at heq
    obtain ⟨hprev, hbody, heq⟩ := heq
    obtain ⟨hheight, heq⟩ := feedLE_append_mod heq
    obtain ⟨hoffset, heq⟩ := feed_append_inj
      (block.offset.length_toList.trans block'.offset.length_toList.symm) heq
    have hcut := mod_eq_of_putLE_eq (feed_injective heq)
    have hlt : block.nHeight.toUInt32.toNat < 256 ^ 4 := block.nHeight.toUInt32.toNat_lt
    have hlt' : block'.nHeight.toUInt32.toNat < 256 ^ 4 := block'.nHeight.toUInt32.toNat_lt
    rw [mod_eq_of_lt hlt, mod_eq_of_lt hlt'] at hheight
    exact ⟨hprev, (CMWTransactionBody.getHash_eq_iff hinj).mp hbody, toUInt32_toNat_inj hheight,
      Vector.toList_inj.mp hoffset, hcut⟩
  · intro h
    have hcut := feedLE_congr (H := H) h.vCutThrough
    rw [getHash, getHash, h.hashPrevMWBlock, (CMWTransactionBody.getHash_eq_iff hinj).mpr h.body,
      h.nHeight, h.offset, hcut]

/-- Blocks that are chained by `hashPrevMWBlock`, the latest one first. -/
def HashChained (sha : Sha256 H) : List (CMWBlock H) → Prop
  | block :: prev :: below => block.hashPrevMWBlock = prev.getHash sha ∧ HashChained sha (prev :: below)
  | _ => True

/-- **What a block hash fixes.**  Two blocks have one hash exactly when the data that it
covers agree, and two chains of blocks of one length with one latest hash agree in these
data block by block. -/
theorem blockHash_commitment (hinj : Function.Injective sha.sha256) : (∀ block block' : CMWBlock H,
    block.getHash sha = block'.getHash sha ↔ block.SameHashed block') ∧
    ∀ chain chain' : List (CMWBlock H), chain.length = chain'.length → HashChained sha chain →
      HashChained sha chain' →
      chain.head?.map (CMWBlock.getHash sha) = chain'.head?.map (CMWBlock.getHash sha) →
      List.Forall₂ CMWBlock.SameHashed chain chain' := by
  refine ⟨fun block block' => CMWBlock.getHash_eq_iff hinj, ?_⟩
  intro chain
  induction chain with
  | nil =>
    intro chain' hlength _ _ _
    rw [length_eq_zero_iff.mp hlength.symm]
    exact .nil
  | cons block below ih =>
    intro chain' hlength hchain hchain' hlatest
    cases chain' with
    | nil => cases hlength
    | cons block' below' =>
      have hsame := (CMWBlock.getHash_eq_iff hinj).mp (Option.some.inj hlatest)
      have hbelow : below.length = below'.length := Nat.succ.inj hlength
      refine .cons hsame ?_
      cases below with
      | nil =>
        rw [length_eq_zero_iff.mp hbelow.symm]
        exact .nil
      | cons prev rest =>
        cases below' with
        | nil => cases hbelow
        | cons prev' rest' =>
          refine ih _ hbelow hchain.2 hchain'.2 ?_
          rw [head?_cons, head?_cons, Option.map_some, Option.map_some, ← hchain.1,
            ← hchain'.1, hsame.hashPrevMWBlock]

/-- The block with an output of the same commitment for another receiver. -/
def redirectedBlock : CMWBlock (List Nat) :=
  { balancedBlock with
    body := { balancedBlock.body with
      vOutputs := [{ blindedOutput 1 with receiverPubKey := samplePubKey 99 }] } }

theorem blockHash_commitment_balanced :
    balancedBlock.SameHashed redirectedBlock ∧
      List.Forall₂ CMWBlock.SameHashed [balancedBlock] [redirectedBlock] := by
  have hsame : balancedBlock.getHash transparent = redirectedBlock.getHash transparent := by decide +kernel
  obtain ⟨hpair, hchains⟩ := blockHash_commitment Node.transparent_injective
  exact ⟨(hpair _ _).mp hsame,
    hchains [balancedBlock] [redirectedBlock] rfl trivial trivial (congrArg some hsame)⟩

/-- **One hash, different outputs.**  Both blocks are accepted behind the same state and
leave the same `hashLatestMWBlock`, with an output that belongs to different receivers. -/
theorem block_hash_misses_outputs : Function.Injective transparent.sha256 ∧ (validateMWBlock
      (proving.withPedersen sampleCurve) balancedBlock fundedState 1 0 0).isValid = true ∧
      (validateMWBlock (proving.withPedersen sampleCurve) redirectedBlock fundedState 1 0 0).isValid =
        true ∧ balancedBlock.getHash transparent = redirectedBlock.getHash transparent ∧
      balancedBlock.body.vOutputs ≠ redirectedBlock.body.vOutputs ∧
      (fundedState.applyBlock transparent balancedBlock 1 [1] 0).map CMWState.hashLatestMWBlock =
        (fundedState.applyBlock transparent redirectedBlock 1 [1] 0).map CMWState.hashLatestMWBlock ∧
      (fundedState.applyBlock transparent balancedBlock 1 [1] 0).map
          (·.getOutput (blindedOutput 1).commitment) ≠
        (fundedState.applyBlock transparent redirectedBlock 1 [1] 0).map
          (·.getOutput (blindedOutput 1).commitment) :=
  ⟨Node.transparent_injective, by decide +kernel, by decide +kernel, by decide +kernel,
    by decide +kernel, by decide +kernel, by decide +kernel⟩

end MaryJaneCoin
