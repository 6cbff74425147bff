import MaryJaneCoin.Chain.BestChain
import MaryJaneCoin.Chain.ConnectSpec
import MaryJaneCoin.Lib.ExactCodec

/-!
# What a block hash commits to

`GetHash` hashes the header only.  The header commits to the version and,
through the merkle root, to the transactions, but nothing in it depends on
`mwExtBlock`.  So the hashes of a chain determine which of its blocks apply an
extension block, and not which one.
-/

namespace MaryJaneCoin

open List hiding Vector
open Std Codec PrefixCode

section

variable {H : Type}

/-- Injective hashing, hashed twice. -/
theorem Sha256.sha256d_injective {sha : Sha256 H} (hinj : Function.Injective sha.sha256) :
    Function.Injective sha.sha256d := by
  intro data data' heq
  have hinner := hinj heq
  simp only [List.cons.injEq, Atom.digest.injEq, and_true] at hinner
  exact hinj hinner

theorem byte_injective : Function.Injective (Atom.byte : UInt8 → Atom H) := by
  intro a b heq
  cases heq
  rfl

theorem prefixFree_feedLE (width : Nat) : PrefixFree (feedLE (H := H) width) (· < 256 ^ width) :=
  (prefixFree_of_reads (reads_LE width)).map byte_injective

theorem prefixFree_feedInt32 : PrefixFree (fun n : Int32 => feed (H := H) (putInt32 n)) (fun _ => True) :=
  (prefixFree_of_reads reads_int32).map byte_injective

/-- A `uint32_t` at the front of a preimage. -/
theorem feedUInt32_inj {m n : UInt32} {rest rest' : Preimage H}
    (heq : feedLE 4 m.toNat ++ rest = feedLE 4 n.toNat ++ rest') : m = n ∧ rest = rest' := by
  obtain ⟨hnat, hrest⟩ := prefixFree_feedLE 4 _ _ _ _ m.toNat_lt n.toNat_lt heq
  exact ⟨UInt32.toNat_inj.mp hnat, hrest⟩

/-- The header can be read off what is hashed. -/
theorem CBlockHeader.serialize_injective : Function.Injective (CBlockHeader.serialize (H := H)) := by
  intro a b heq
  unfold serialize at heq
  obtain ⟨hversion, heq⟩ := prefixFree_feedInt32 _ _ _ _ trivial trivial heq
  injection heq with hprev heq
  injection heq with hroot heq
  obtain ⟨htime, heq⟩ := feedUInt32_inj heq
  obtain ⟨hbits, heq⟩ := feedUInt32_inj heq
  obtain ⟨hnonce, _⟩ := feedUInt32_inj
    ((append_nil _).trans (heq.trans (append_nil _).symm))
  cases a
  cases b
  cases hprev
  cases hroot
  simp_all

theorem CBlock.header_eq_of_getHash_eq {c : Consensus H} (hinj : Function.Injective c.hash9)
    {a b : CBlock H} (heq : a.getHash c = b.getHash c) : a.toCBlockHeader = b.toCBlockHeader :=
  CBlockHeader.serialize_injective (hinj heq)

end

namespace Node

variable {H : Type} [Ord H] [TransOrd H] [DecidableEq H] {c : Consensus H}

/-- What a call of `ConnectBlock` is given. -/
structure ConnectCall (H : Type) where
  env : Env H
  block : CBlock H
  pindex : CBlockIndex H
  pprev : PIndex H

/-- `ConnectBlock` of a chain of blocks behind one at `nHeight`.  Between the
calls the node may do whatever leaves the Mimblewimble state alone. -/
inductive ConnectsChain (c : Consensus H) : Nat → Node H → List (ConnectCall H) → Node H → Prop
  | done (nHeight : Nat) (s : Node H) : ConnectsChain c nHeight s [] s
  | next {nHeight : Nat} {s t u v : Node H} {call : ConnectCall H} {calls : List (ConnectCall H)}
      (hash : call.pindex.hash = call.block.getHash c)
      (height : call.pindex.nHeight = nHeight + 1)
      (connects : s.connectBlock c call.env call.block call.pindex call.pprev false = (true, t))
      (idle : u.g_mwState = t.g_mwState)
      (rest : ConnectsChain c (nHeight + 1) u calls v) : ConnectsChain c nHeight s (call :: calls) v

/-- The extension blocks of two calls agree wherever one is applied. -/
def SameExtension (a b : ConnectCall H) : Prop :=
  MWEB_ACTIVATION_HEIGHT ≤ a.pindex.nHeight → a.block.hasMWEBVersion →
    a.block.mwExtBlock = b.block.mwExtBlock

theorem connectMWEB_eq {mwState mwState₁ mwState₂ : CMWState H} {a b : ConnectCall H}
    (hhash : a.pindex.hash = b.pindex.hash) (hheight : a.pindex.nHeight = b.pindex.nHeight)
    (hversion : a.block.nVersion = b.block.nVersion) (hext : SameExtension a b)
    (ha : connectMWEB c mwState a.block a.pindex = some mwState₁)
    (hb : connectMWEB c mwState b.block b.pindex = some mwState₂) : mwState₁ = mwState₂ := by
  have hbit : b.block.hasMWEBVersion = a.block.hasMWEBVersion := by
    unfold CBlock.hasMWEBVersion
    rw [hversion]
  unfold connectMWEB at ha hb
  rw [hbit, ← hheight, ← hhash] at hb
  by_cases hactive : a.pindex.nHeight < MWEB_ACTIVATION_HEIGHT
  · rw [if_pos hactive] at ha hb
    rw [← Option.some.inj ha, Option.some.inj hb]
  · cases hflag : a.block.hasMWEBVersion with
    | false => grind
    | true =>
      rw [← hext (Nat.not_lt.mp hactive) hflag] at hb
      grind

omit [Ord H] [TransOrd H] [DecidableEq H] in
/-- Blocks with the same hashes have the same headers. -/
theorem headers_of_hashes (hinj : Function.Injective c.hash9) {calls₁ calls₂ : List (ConnectCall H)}
    (hhashes : calls₁.map (fun call => call.block.getHash c) =
      calls₂.map (fun call => call.block.getHash c)) :
    calls₁.map (fun call => call.block.toCBlockHeader) =
      calls₂.map (fun call => call.block.toCBlockHeader) := by
  induction calls₁ generalizing calls₂ with
  | nil =>
    cases calls₂ with
    | nil => rfl
    | cons => cases hhashes
  | cons call calls ih =>
    cases calls₂ with
    | nil => cases hhashes
    | cons call' calls' =>
      rw [map_cons, map_cons, List.cons.injEq] at hhashes
      rw [map_cons, map_cons, CBlock.header_eq_of_getHash_eq hinj hhashes.1, ih hhashes.2]

/-- **The chain's hashes determine the headers, and with equal extension blocks
the Mimblewimble state.** -/
theorem mwState_of_hashes (hinj : Function.Injective c.hash9) {nHeight : Nat}
    {s₁ s₂ t₁ t₂ : Node H} {calls₁ calls₂ : List (ConnectCall H)}
    (hsame : s₁.g_mwState = s₂.g_mwState) (hrun₁ : ConnectsChain c nHeight s₁ calls₁ t₁)
    (hrun₂ : ConnectsChain c nHeight s₂ calls₂ t₂)
    (hhashes : calls₁.map (fun call => call.block.getHash c) =
      calls₂.map (fun call => call.block.getHash c)) :
    calls₁.map (fun call => call.block.toCBlockHeader) =
        calls₂.map (fun call => call.block.toCBlockHeader) ∧
      ((∀ pair ∈ calls₁.zip calls₂, SameExtension pair.1 pair.2) → t₁.g_mwState = t₂.g_mwState) := by
  refine ⟨headers_of_hashes hinj hhashes, fun hext => ?_⟩
  induction hrun₁ generalizing s₂ calls₂ with
  | done nHeight s =>
    cases hrun₂ with
    | done => exact hsame
    | next => cases hhashes
  | @next nHeight s t u v call calls hash height connects idle rest ih =>
    cases hrun₂ with
    | done => cases hhashes
    | @next _ _ t' u' _ call' calls' hash' height' connects' idle' rest' =>
      rw [map_cons, map_cons, List.cons.injEq] at hhashes
      have hheader := CBlock.header_eq_of_getHash_eq hinj hhashes.1
      obtain ⟨_, mwState, _, happly, ht⟩ := connectBlock_true connects
      obtain ⟨_, mwState', _, happly', ht'⟩ := connectBlock_true connects'
      rw [← hsame] at happly'
      have hmw : mwState = mwState' :=
        connectMWEB_eq (hash.trans (hhashes.1.trans hash'.symm)) (height.trans height'.symm)
          (congrArg CBlockHeader.nVersion hheader)
          (hext (call, call') (by rw [zip_cons_cons]; exact mem_cons_self))
          happly happly'
      have hnext : u.g_mwState = u'.g_mwState := by
        rw [idle, idle', ht, ht']
        exact hmw
      exact ih hnext rest' hhashes.2 fun pair hpair =>
        hext pair (by rw [zip_cons_cons]; exact mem_cons_of_mem _ hpair)

/-- A path of index entries from a height down to genesis. -/
def samplePath : Nat → PIndex (List Nat)
  | 0 => [⟨[0], 1, 0, 0, 0, false, ⟨[], 0⟩, 0, 0⟩]
  | nHeight + 1 =>
    ⟨[nHeight + 1], 1, 0, nHeight + 1, nHeight + 1, true, ⟨[], 0⟩, 0, UInt32.ofNat (nHeight + 1)⟩ ::
      samplePath nHeight

/-- An old coinbase that can be staked. -/
def stakedCoinbase : CTransaction (List Nat) := sampleCoinbase 1 [⟨COIN, []⟩]

/-- A node that has connected the block with that coinbase, in a batch. -/
def stakingNode : Node (List Nat) where
  txdb := CTxDB.txnBegin ⟨⟨(∅ : TxIndexMap (List Nat)).insert (stakedCoinbase.getHash transparent)
    ⟨⟨1, 1000, 1081⟩, [none]⟩, ∅, none⟩, none⟩
  blockFiles nFile nBlockPos :=
    if nFile = 1 ∧ nBlockPos = 1000 then some (sampleBlock 1 [] [stakedCoinbase]) else none
  mapBlockIndex := ∅
  pnext := ∅
  nMint := ∅
  nMoneySupply := ∅
  setStakeSeen := ∅
  pindexGenesisBlock := samplePath 0
  hashBestChain := [49999]
  pindexBest := samplePath 49999
  nBestHeight := 49999
  nBestChainTrust := 49999
  g_mwState := CMWState.empty transparent

/-- A proof-of-stake block at the height where extension blocks start.  Its
extension block creates output `tag`, worth nothing. -/
def extensionBlock (tag : UInt8) : CBlock (List Nat) :=
  { sampleBlock 50000 [49999]
      [sampleCoinbase 50000 [⟨0, []⟩, ⟨0, []⟩],
        samplePayment 50000 ⟨stakedCoinbase.getHash transparent, 0⟩ [⟨0, []⟩, ⟨COIN, [OP_1]⟩]] with
    nVersion := MWEB_VERSION_BIT ||| 1
    mwExtBlock := ⟨transparent.zero, ⟨[], [sampleOutput tag],
      [⟨0, 0, 0, 0, sampleCommitment 6, Vector.replicate 64 1, []⟩]⟩, [], 50000,
      Vector.replicate 32 0⟩ }

def extensionCall (tag : UInt8) : ConnectCall (List Nat) where
  env := sampleEnv 2000
  block := extensionBlock tag
  pindex := newIndex sampleConsensus (extensionBlock tag) 1 2000 (samplePath 49999)
  pprev := samplePath 49999

theorem transparent_injective : Function.Injective transparent.sha256 := by
  intro data data' heq
  refine PrefixFree.flatMap_injective (?_ : PrefixFree _ fun _ => True) ?_ (List.cons.inj heq).2
  · intro a b rest rest' _ _ heq
    cases a with
    | byte m =>
      cases b with
      | byte n =>
        injection heq with _ heq
        injection heq with hnat hrest
        exact ⟨congrArg Atom.byte (UInt8.toNat_inj.mp hnat), hrest⟩
      | digest h => injection heq with hzero; cases hzero
    | digest g =>
      cases b with
      | byte n => injection heq with hone; cases hone
      | digest h =>
        injection heq with _ heq
        injection heq with hlength happend
        obtain ⟨hdigest, hrest⟩ := append_inj happend hlength
        exact ⟨congrArg Atom.digest hdigest, hrest⟩
  · intro atom
    cases atom with
    | byte b => exact cons_ne_nil _ _
    | digest h => exact cons_ne_nil _ _

theorem ConnectsChain.single {nHeight : Nat} {s : Node H} {call : ConnectCall H}
    (hash : call.pindex.hash = call.block.getHash c) (height : call.pindex.nHeight = nHeight + 1)
    (h : (s.connectBlock c call.env call.block call.pindex call.pprev false).1 = true) :
    ConnectsChain c nHeight s [call] (s.connectBlock c call.env call.block call.pindex call.pprev false).2 :=
  .next hash height (Prod.ext h rfl) rfl (.done _ _)

theorem mwState_of_hashes_extensionCall :
    ∃ t₁ t₂, ConnectsChain sampleConsensus 49999 stakingNode [extensionCall 7] t₁ ∧
      ConnectsChain sampleConsensus 49999 stakingNode
        [{ extensionCall 7 with env := sampleEnv 3000 }] t₂ ∧ t₁.g_mwState = t₂.g_mwState := by
  have hrun₁ : ConnectsChain sampleConsensus 49999 stakingNode [extensionCall 7] _ :=
    .single rfl (by decide +kernel) (by decide +kernel)
  have hrun₂ : ConnectsChain sampleConsensus 49999 stakingNode
      [{ extensionCall 7 with env := sampleEnv 3000 }] _ :=
    .single rfl (by decide +kernel) (by decide +kernel)
  refine ⟨_, _, hrun₁, hrun₂, (mwState_of_hashes transparent_injective rfl hrun₁ hrun₂ rfl).2 ?_⟩
  intro pair hpair
  rw [mem_singleton.mp hpair]
  intro _ _
  rfl

/-- **The hash does not commit to the extension block.**  Two blocks with one
hash pass `CheckBlock` and the rules of `AcceptBlock`, and lead from one node to
different Mimblewimble states. -/
theorem same_hash_different_mwState :
    Function.Injective sampleConsensus.hash9 ∧ Function.Injective sampleConsensus.sha256 ∧
      ∃ t₁ t₂, ConnectsChain sampleConsensus 49999 stakingNode [extensionCall 7] t₁ ∧
        ConnectsChain sampleConsensus 49999 stakingNode [extensionCall 9] t₂ ∧
        (extensionCall 7).block.getHash sampleConsensus = (extensionCall 9).block.getHash sampleConsensus ∧
        (∀ call ∈ [extensionCall 7, extensionCall 9],
          call.block.checkBlock sampleConsensus call.env.adjustedTime true true true ∧
            call.pprev.head?.any fun pindexPrev =>
              call.block.acceptRules sampleConsensus pindexPrev call.pprev.tail true true) ∧
        t₁.g_mwState ≠ t₂.g_mwState := by
  have hrun₁ : ConnectsChain sampleConsensus 49999 stakingNode [extensionCall 7] _ :=
    .single rfl (by decide +kernel) (by decide +kernel)
  have hrun₂ : ConnectsChain sampleConsensus 49999 stakingNode [extensionCall 9] _ :=
    .single rfl (by decide +kernel) (by decide +kernel)
  refine ⟨transparent_injective, transparent_injective, _, _, hrun₁, hrun₂, rfl, by decide +kernel, ?_⟩
  intro heq
  have hmmr := congrArg (fun mwState => mwState.mmr.vNodes) heq
  revert hmmr
  decide +kernel

end Node

/-!
## Transactions can be read off what is hashed

Sizes, scripts, inputs and outputs stand at the front of a preimage in a form
that determines them, for all vectors a machine can hold.  So a serialized
transaction determines all its fields, and of the Mimblewimble part what is
written of it.
-/

/-- `ReadCompactSize` without its checks. -/
def getAnySize : Get Nat
  | [] => none
  | chSize :: bytes =>
    if chSize.toNat < 253 then some (chSize.toNat, bytes)
    else if chSize.toNat = 253 then getLE 2 bytes
    else if chSize.toNat = 254 then getLE 4 bytes
    else getLE 8 bytes

theorem reads_anySize : Reads putCompactSize getAnySize (· < 2 ^ 64) := by
  intro n rest hlt
  have hlt' : n < 256 ^ 8 := hlt
  by_cases h1 : n < 253
  · have hbyte : (UInt8.ofNat n).toNat = n := by
      rw [UInt8.toNat_ofNat']
      omega
    simp only [putCompactSize, if_pos h1, cons_append, nil_append, getAnySize, hbyte]
  · by_cases h2 : n ≤ 0xFFFF
    · simp only [putCompactSize, if_neg h1, if_pos h2, cons_append, getAnySize]
      rw [if_neg (by decide), if_pos (by decide), reads_LE 2 n rest (by omega)]
    · by_cases h3 : n ≤ 0xFFFFFFFF
      · simp only [putCompactSize, if_neg h1, if_neg h2, if_pos h3, cons_append, getAnySize]
        rw [if_neg (by decide), if_neg (by decide), if_pos (by decide), reads_LE 4 n rest (by omega)]
      · simp only [putCompactSize, if_neg h1, if_neg h2, if_neg h3, cons_append, getAnySize]
        rw [if_neg (by decide), if_neg (by decide), if_neg (by decide), reads_LE 8 n rest hlt']

section

variable {H : Type}

theorem prefixFree_compactSize : PrefixFree (fun n => feed (H := H) (putCompactSize n)) (· < 2 ^ 64) :=
  (prefixFree_of_reads reads_anySize).map byte_injective

theorem feed_append (bytes bytes' : Bytes) : feed (H := H) (bytes ++ bytes') = feed bytes ++ feed bytes' :=
  map_append

theorem feed_inj {bytes bytes' : Bytes} (heq : feed (H := H) bytes = feed bytes') : bytes = bytes' :=
  map_injective_iff.mpr byte_injective heq

theorem prefixFree_script : PrefixFree (fun script : Bytes => feed (H := H) (putVec putByte script))
      (fun script => script.length < 2 ^ 64) := by
  have hbytes : ∀ script : Bytes, script.flatMap putByte = script := flatMap_singleton'
  intro a b rest rest' ha hb heq
  simp only [putVec, hbytes, feed_append, append_assoc] at heq
  obtain ⟨hlength, heq⟩ := prefixFree_compactSize _ _ _ _ ha hb heq
  obtain ⟨hscript, hrest⟩ := append_inj heq (by simpa [feed] using hlength)
  exact ⟨feed_inj hscript, hrest⟩

/-- An input can be read off what is hashed. -/
theorem CTxIn.prefixFree_serialize :
    PrefixFree (CTxIn.serialize (H := H)) (fun txin => txin.scriptSig.length < 2 ^ 64) := by
  intro a b rest rest' ha hb heq
  unfold serialize at heq
  simp only [cons_append, append_assoc] at heq
  injection heq with hhash heq
  obtain ⟨hn, heq⟩ := feedUInt32_inj heq
  obtain ⟨hscriptSig, heq⟩ := prefixFree_script _ _ _ _ ha hb heq
  obtain ⟨hsequence, hrest⟩ := feedUInt32_inj heq
  refine ⟨?_, hrest⟩
  obtain ⟨⟨_, _⟩, _, _⟩ := a
  obtain ⟨⟨_, _⟩, _, _⟩ := b
  injection hhash with hhash
  simp_all

/-- An output can be read off what is hashed. -/
theorem CTxOut.prefixFree_serialize :
    PrefixFree (CTxOut.serialize (H := H)) (fun txout => txout.scriptPubKey.length < 2 ^ 64) := by
  have hvalue : PrefixFree (fun n : Int64 => feed (H := H) (putInt64 n)) (fun _ => True) :=
    (prefixFree_of_reads reads_int64).map byte_injective
  intro a b rest rest' ha hb heq
  unfold serialize at heq
  simp only [feed_append, append_assoc] at heq
  obtain ⟨hn, heq⟩ := hvalue _ _ _ _ trivial trivial heq
  obtain ⟨hscript, hrest⟩ := prefixFree_script _ _ _ _ ha hb heq
  refine ⟨?_, hrest⟩
  obtain ⟨_, _⟩ := a
  obtain ⟨_, _⟩ := b
  simp_all

namespace CTransaction

/-- What is written of the Mimblewimble part. -/
def mwPart (tx : CTransaction H) : Bytes :=
  if tx.nVersion ≥ CT_TX_VERSION then putCMWTransaction tx.mwTx else []

/-- The vectors have sizes that a `size_t` can count. -/
structure Countable (tx : CTransaction H) : Prop where
  vin : tx.vin.length < 2 ^ 64
  scriptSig : ∀ txin ∈ tx.vin, txin.scriptSig.length < 2 ^ 64
  vout : tx.vout.length < 2 ^ 64
  scriptPubKey : ∀ txout ∈ tx.vout, txout.scriptPubKey.length < 2 ^ 64

/-- **A serialized transaction determines the transaction**, up to what is not
written of the Mimblewimble part. -/
theorem eq_of_serialize_append {tx tx' : CTransaction H} {rest rest' : Preimage H}
    (h : tx.Countable) (h' : tx'.Countable) (heq : tx.serialize ++ rest = tx'.serialize ++ rest') :
    (tx.nVersion = tx'.nVersion ∧ tx.nTime = tx'.nTime ∧ tx.vin = tx'.vin ∧ tx.vout = tx'.vout ∧
      tx.nLockTime = tx'.nLockTime) ∧ feed tx.mwPart ++ rest = feed tx'.mwPart ++ rest' := by
  have hpart : ∀ tx : CTransaction H, feed tx.mwPart =
      if tx.nVersion ≥ CT_TX_VERSION then feed (H := H) (putCMWTransaction tx.mwTx) else [] := by
    intro tx
    rw [mwPart]
    split <;> rfl
  unfold serialize at heq
  simp only [append_assoc, ← hpart] at heq
  obtain ⟨hversion, heq⟩ := prefixFree_feedInt32 _ _ _ _ trivial trivial heq
  obtain ⟨htime, heq⟩ := feedUInt32_inj heq
  obtain ⟨hinputs, heq⟩ := prefixFree_compactSize _ _ _ _ h.vin h'.vin heq
  obtain ⟨hvin, heq⟩ := CTxIn.prefixFree_serialize.many hinputs h.scriptSig h'.scriptSig heq
  obtain ⟨houtputs, heq⟩ := prefixFree_compactSize _ _ _ _ h.vout h'.vout heq
  obtain ⟨hvout, heq⟩ := CTxOut.prefixFree_serialize.many houtputs h.scriptPubKey h'.scriptPubKey heq
  obtain ⟨hlock, heq⟩ := feedUInt32_inj heq
  exact ⟨⟨hversion, htime, hvin, hvout, hlock⟩, heq⟩

end CTransaction

end

end MaryJaneCoin
