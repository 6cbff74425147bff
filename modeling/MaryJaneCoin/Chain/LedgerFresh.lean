import MaryJaneCoin.Chain.Ledger
import MaryJaneCoin.Chain.Identity

/-!
# Transactions connected and disconnected again

The entry of the transaction index that a transaction gets when it is connected is new, so
disconnecting it gives back the index from before.
-/

/-!
## Disconnecting is the inverse of connecting

`DisconnectInputs` clears the marks of a transaction and erases its entry.  That
gives back the transaction index from before it was connected, provided that
its entry was new then: an entry that was overwritten is not restored.
-/

namespace MaryJaneCoin

open Std List FinMap

namespace Ledger

variable {H : Type} [Ord H] [TransOrd H] [LawfulEqOrd H] {index index' : TxIndexMap H}
  {pos pos' : CDiskTxPos} {p q : COutPoint H}

theorem mem_spend (h : spend pos index p = some index') (hash : H) : hash ∈ index' ↔ hash ∈ index := by
  obtain ⟨txindex, hlook, _, rfl⟩ := spend_eq_some.mp h
  rw [ExtTreeMap.mem_insert]
  constructor
  · intro hor
    rcases hor with heq | hmem
    · rw [← LawfulEqCmp.eq_of_compare heq]
      exact (mem_iff_exists _ _).mpr ⟨txindex, hlook⟩
    · exact hmem
  · exact Or.inr

theorem mark_mark {txindex : CTxIndex} {n : Nat} (hnull : txindex.vSpent[n]? = some none) :
    mark (mark txindex n (some pos)) n none = txindex := by
  have hset : (txindex.vSpent.set n (some pos)).set n none = txindex.vSpent := by
    rw [set_set]
    apply ext_getElem?
    intro i
    rw [getElem?_set]
    grind
  unfold mark
  rw [hset]

/-- Two marks can be made in either order. -/
theorem spend_comm {mid : TxIndexMap H} (hp : spend pos index p = some mid)
    (hq : spend pos' mid q = some index') :
    ∃ mid', spend pos' index q = some mid' ∧ spend pos mid' p = some index' := by
  obtain ⟨e, hlook, hnull, rfl⟩ := spend_eq_some.mp hp
  obtain ⟨e', hlook', hnull', rfl⟩ := spend_eq_some.mp hq
  by_cases hhash : p.hash = q.hash
  · rw [← hhash, ExtTreeMap.getElem?_insert_self] at hlook'
    cases hlook'
    -- the first mark is no longer free, so the second one stands elsewhere
    have hne : p.n.toNat ≠ q.n.toNat := by
      intro heq
      rw [mark, ← heq, getElem?_set] at hnull'
      grind
    have hfree : e.vSpent[q.n.toNat]? = some none := by
      rw [mark, getElem?_set_ne hne] at hnull'
      exact hnull'
    refine ⟨_, spend_eq_some.mpr ⟨e, hhash ▸ hlook, hfree, rfl⟩, ?_⟩
    refine spend_eq_some.mpr ⟨mark e q.n.toNat (some pos'), ?_, ?_, ?_⟩
    · rw [hhash, ExtTreeMap.getElem?_insert_self]
    · rw [mark, getElem?_set_ne hne.symm]
      exact hnull
    · rw [← hhash, insert_insert, insert_insert]
      unfold mark
      rw [set_comm _ _ hne]
  · rw [FinMap.getElem?_insert_ne _ _ hhash] at hlook'
    refine ⟨_, spend_eq_some.mpr ⟨e', hlook', hnull', rfl⟩, spend_eq_some.mpr ⟨e, ?_, hnull, ?_⟩⟩
    · rw [FinMap.getElem?_insert_ne _ _ (Ne.symm hhash), hlook]
    · rw [insert_comm _ _ _ hhash]

/-- The first of several marks can be made last. -/
theorem foldlM_spend_first {ps : List (COutPoint H)} (h : (p :: ps).foldlM (spend pos) index = some index') :
    ∃ mid, ps.foldlM (spend pos) index = some mid ∧ spend pos mid p = some index' := by
  induction ps generalizing index with
  | nil =>
    obtain ⟨first, hfirst, hrest⟩ := OptionLoop.foldlM_cons h
    cases hrest
    exact ⟨index, rfl, hfirst⟩
  | cons q ps ih =>
    obtain ⟨first, hfirst, hrest⟩ := OptionLoop.foldlM_cons h
    obtain ⟨second, hsecond, hrest⟩ := OptionLoop.foldlM_cons hrest
    obtain ⟨swapped, hq, hp⟩ := spend_comm hfirst hsecond
    have hmoved : (p :: ps).foldlM (spend pos) swapped = some index' := by
      rw [List.foldlM_cons, hp]
      exact hrest
    obtain ⟨mid, hmid, hlast⟩ := ih hmoved
    refine ⟨mid, ?_, hlast⟩
    rw [List.foldlM_cons, hq]
    exact hmid

/-- Marks are made beside an entry of their own. -/
theorem foldlM_spend_insert {ps : List (COutPoint H)} {hash : H} (txindex : CTxIndex)
    (hnew : hash ∉ index) (h : ps.foldlM (spend pos) index = some index') :
    ps.foldlM (spend pos) (index.insert hash txindex) = some (index'.insert hash txindex) := by
  induction ps generalizing index with
  | nil => cases h; rfl
  | cons p ps ih =>
    obtain ⟨mid, hmid, hrest⟩ := OptionLoop.foldlM_cons h
    have hnew' : hash ∉ mid := fun hmem => hnew ((mem_spend hmid hash).mp hmem)
    obtain ⟨e, hlook, hnull, rfl⟩ := spend_eq_some.mp hmid
    have hne : hash ≠ p.hash := by
      intro heq
      exact hnew (heq ▸ (mem_iff_exists _ _).mpr ⟨e, hlook⟩)
    have hstep : spend pos (index.insert hash txindex) p =
        some ((index.insert p.hash (mark e p.n.toNat (some pos))).insert hash txindex) := by
      refine spend_eq_some.mpr ⟨e, ?_, hnull, insert_comm _ _ _ hne.symm⟩
      rw [FinMap.getElem?_insert_ne _ _ hne, hlook]
    rw [List.foldlM_cons, hstep]
    exact ih hnew' hrest

variable [DecidableEq H] (sha : Sha256 H)

/-- Every transaction is new when its turn comes. -/
def FreshTxs (nFile nBlockPos : Nat) : Nat → List (CTransaction H) → TxIndexMap H → Prop
  | _, [], _ => True
  | nTxPos, tx :: rest, index =>
    tx.getHash sha ∉ index ∧ ∀ index', connectTx sha ⟨nFile, nBlockPos, nTxPos⟩ index tx =
      some index' → FreshTxs nFile nBlockPos (nTxPos + tx.serializeSize) rest index'

end Ledger

namespace Node

variable {H : Type} [Ord H] [TransOrd H] [LawfulEqOrd H] {c : Consensus H} {txdb : CTxDB H}
  {index : TxIndexMap H}

theorem disconnectInput_loop {pos : CDiskTxPos} {vin : List (CTxIn H)}
    (h : (vin.map CTxIn.prevout).foldlM (Ledger.spend pos) index = some txdb.view.txindex) :
    ∃ txdb', EarlyExit.loop disconnectInput txdb vin = (true, txdb') ∧ txdb'.view.txindex = index := by
  induction vin generalizing txdb with
  | nil =>
    cases h
    exact ⟨txdb, rfl, rfl⟩
  | cons txin vin ih =>
    obtain ⟨mid, hmid, hlast⟩ := Ledger.foldlM_spend_first h
    obtain ⟨e, hlook, hnull, hview⟩ := Ledger.spend_eq_some.mp hlast
    have hread : txdb.readTxIndex txin.prevout.hash =
        some (Ledger.mark e txin.prevout.n.toNat (some pos)) := by
      rw [CTxDB.readTxIndex, hview, ExtTreeMap.getElem?_insert_self]
    have hlength : ¬ txin.prevout.n.toNat ≥
        (Ledger.mark e txin.prevout.n.toNat (some pos)).vSpent.length := by
      have hlt := (List.getElem?_eq_some_iff.mp hnull).1
      rw [Ledger.mark, length_set]
      omega
    have hstep : disconnectInput txdb txin = (true, txdb.updateTxIndex txin.prevout.hash e) := by
      unfold disconnectInput
      simp only [hread, if_neg hlength]
      have hback : Ledger.mark (Ledger.mark e txin.prevout.n.toNat (some pos))
          txin.prevout.n.toNat none = e := Ledger.mark_mark hnull
      unfold Ledger.mark at hback ⊢
      rw [hback]
    have hrest : (txdb.updateTxIndex txin.prevout.hash e).view.txindex = mid := by
      rw [CTxDB.view_updateTxIndex]
      simp only
      rw [hview, insert_insert, insert_of_getElem? hlook]
    obtain ⟨txdb', hloop, hindex⟩ := ih (hmid.trans (congrArg some hrest.symm))
    exact ⟨txdb', EarlyExit.loop_cons_true.mpr ⟨_, hstep, hloop⟩, hindex⟩

variable [DecidableEq H]

/-- **`DisconnectInputs` undoes a transaction whose entry was new.** -/
theorem disconnectInputs_connectTx {pos : CDiskTxPos} {tx : CTransaction H}
    (hnew : tx.getHash c.toSha256 ∉ index)
    (h : Ledger.connectTx c.toSha256 pos index tx = some txdb.view.txindex) :
    ∃ txdb', disconnectInputs c txdb tx = (true, txdb') ∧ txdb'.view.txindex = index := by
  obtain ⟨spent, hspent, hview⟩ := Option.map_eq_some_iff.mp h
  have hinputs : Ledger.spends c.toSha256 tx =
      (if tx.isCoinBase c.toSha256 then [] else tx.vin).map CTxIn.prevout := by
    unfold Ledger.spends
    split
    · rfl
    · rfl
  have hinserted := Ledger.foldlM_spend_insert (CTxIndex.new pos tx.vout.length) hnew hspent
  rw [hinputs, hview] at hinserted
  obtain ⟨txdb', hloop, hindex⟩ := disconnectInput_loop hinserted
  refine ⟨txdb'.eraseTxIndex (tx.getHash c.toSha256), ?_, ?_⟩
  · unfold disconnectInputs
    simp only [hloop, if_true]
  · rw [CTxDB.view_eraseTxIndex]
    simp only [hindex]
    exact erase_insert _ hnew

theorem disconnectInputs_loop {nFile nBlockPos nTxPos : Nat} {txs : List (CTransaction H)}
    (hfresh : Ledger.FreshTxs c.toSha256 nFile nBlockPos nTxPos txs index)
    (h : Ledger.connectTxs c.toSha256 nFile nBlockPos nTxPos txs index = some txdb.view.txindex) :
    ∃ txdb', EarlyExit.loop (disconnectInputs c) txdb txs.reverse = (true, txdb') ∧
      txdb'.view.txindex = index := by
  induction txs generalizing nTxPos index with
  | nil =>
    cases h
    exact ⟨txdb, rfl, rfl⟩
  | cons tx txs ih =>
    obtain ⟨first, hfirst, hrest⟩ := Option.bind_eq_some_iff.mp h
    obtain ⟨mid, hloop, hmid⟩ := ih (hfresh.2 first hfirst) hrest
    rw [← hmid] at hfirst
    obtain ⟨txdb', hlast, hindex⟩ := disconnectInputs_connectTx hfresh.1 hfirst
    refine ⟨txdb', ?_, hindex⟩
    rw [reverse_cons]
    exact EarlyExit.loop_append_true.mpr ⟨mid, hloop, EarlyExit.loop_cons_true.mpr ⟨txdb', hlast, rfl⟩⟩

/-- **`DisconnectBlock` undoes a block whose transactions were new.** -/
theorem disconnectBlock_ledger {s t : Node H} {block : CBlock H} {pindex : CBlockIndex H}
    {pprev : PIndex H} (hfresh : Ledger.FreshTxs c.toSha256 pindex.nFile pindex.nBlockPos
      (block.firstTxPos pindex.nBlockPos) block.vtx index)
    (hconnected : Ledger.connectBlock c.toSha256 block pindex index = some s.txdb.view.txindex)
    (h : s.disconnectBlock c block pindex pprev = (true, t)) : t.txdb.view.txindex = index := by
  obtain ⟨txdb', hloop, hindex⟩ := disconnectInputs_loop hfresh hconnected
  unfold disconnectBlock at h
  simp only [hloop, Bool.not_true, Bool.false_eq_true, if_false] at h
  cases pprev with
  | nil => grind
  | cons prev rest =>
    have hlinked : ∀ entry, (txdb'.writeBlockIndex prev.hash entry).view.txindex = index := by
      intro entry
      rw [CTxDB.txindex_writeBlockIndex, hindex]
    grind

end Node

/-!
## Connected transactions are new

No transaction is connected twice along a chain.  A coinbase starts with the
height of its block, which no other block of the chain has.  Any other
transaction spends an output, and a transaction with the same hash would have
spent it before.  Hashing is assumed to be injective here; nothing is restored
when an entry of the index is overwritten, so this is what makes
`DisconnectBlock` exact.
-/

open Codec PrefixCode Nat UInt8

namespace CScript

/-- The number is determined by its bytes. -/
theorem getvch_injective : Function.Injective getvch := by
  have hread : ∀ n, Nat.ofDigits 256 ((getvch n).map UInt8.toNat) = n := by
    intro n
    have hdigits : ((Nat.digits 256 n).map UInt8.ofNat).map UInt8.toNat = Nat.digits 256 n := by
      rw [map_map]
      refine (map_congr_left ?_).trans (map_id _)
      intro digit hdigit
      have hlt : digit < 256 := digits_lt_base (by decide) hdigit
      show (UInt8.ofNat digit).toNat = digit
      rw [toNat_ofNat', mod_eq_of_lt hlt]
    unfold getvch
    simp only
    split
    · rw [map_append, hdigits, ofDigits_append, ofDigits_digits]
      simp
    · rw [hdigits, ofDigits_digits]
  intro m n heq
  rw [← hread m, heq, hread n]

theorem pushData_inj {a b rest rest' : Bytes} (ha : a.length ≤ 0xff) (hb : b.length ≤ 0xff)
    (heq : pushData a ++ rest = pushData b ++ rest') : a = b := by
  have hlength : ∀ {m n : Nat}, m ≤ 0xff → n ≤ 0xff → UInt8.ofNat m = UInt8.ofNat n → m = n := by
    intro m n hm hn hbyte
    have hnat := congrArg UInt8.toNat hbyte
    rw [toNat_ofNat', toNat_ofNat'] at hnat
    omega
  have hopcode : OP_PUSHDATA1 = UInt8.ofNat 0x4c := rfl
  unfold pushData at heq
  rw [if_pos ha, if_pos hb, hopcode] at heq
  by_cases hashort : a.length < 0x4c
  · rw [if_pos hashort] at heq
    by_cases hbshort : b.length < 0x4c
    · rw [if_pos hbshort] at heq
      obtain ⟨hbyte, hrest⟩ := List.cons.inj heq
      exact (append_inj hrest (hlength ha hb hbyte)).1
    · rw [if_neg hbshort] at heq
      have hbyte := hlength ha (by decide) (List.cons.inj heq).1
      omega
  · rw [if_neg hashort] at heq
    by_cases hbshort : b.length < 0x4c
    · rw [if_pos hbshort] at heq
      have hbyte := hlength (by decide) hb (List.cons.inj heq).1
      omega
    · rw [if_neg hbshort] at heq
      obtain ⟨hbyte, hrest⟩ := List.cons.inj (List.cons.inj heq).2
      exact (append_inj hrest (hlength ha hb hbyte)).1

/-- A short push starts with an opcode below those of the small numbers. -/
theorem pushData_head {a : Bytes} (ha : a.length ≤ 0xff) :
    ∃ opcode tail, pushData a = opcode :: tail ∧ opcode.toNat ≤ 0x4c := by
  unfold pushData
  by_cases hshort : a.length < 0x4c
  · rw [if_pos hshort]
    refine ⟨_, _, rfl, ?_⟩
    rw [toNat_ofNat']
    omega
  · rw [if_neg hshort, if_pos ha]
    exact ⟨_, _, rfl, by decide⟩

/-- **A script that starts with a pushed height starts with no other one.** -/
theorem pushInt64_inj {m n : Nat} {script : CScript} (hlength : script.length ≤ 100)
    (hm : pushInt64 m <+: script) (hn : pushInt64 n <+: script) : m = n := by
  have hshort : ∀ k, ¬(1 ≤ k ∧ k ≤ 16) → pushInt64 k <+: script → (getvch k).length ≤ 0xff := by
    intro k hk hpre
    have hlong := hpre.length_le
    rw [pushInt64, if_neg hk] at hlong
    have hdata := length_le_pushData (getvch k)
    omega
  -- a small number and a pushed one differ in the first byte
  have hmixed : ∀ {i k : Nat}, 1 ≤ i ∧ i ≤ 16 → ¬(1 ≤ k ∧ k ≤ 16) → pushInt64 i <+: script →
      pushInt64 k <+: script → False := by
    intro i k hi hk hpre hpre'
    obtain ⟨opcode, tail, hpush, hlow⟩ := pushData_head (hshort k hk hpre')
    rw [pushInt64, if_pos hi] at hpre
    rw [pushInt64, if_neg hk, hpush] at hpre'
    obtain ⟨rest, hrest⟩ := hpre
    obtain ⟨rest', hrest'⟩ := hpre'
    have hbyte := congrArg UInt8.toNat (List.cons.inj (hrest.trans hrest'.symm)).1
    rw [toNat_ofNat'] at hbyte
    omega
  by_cases hmsmall : 1 ≤ m ∧ m ≤ 16
  · by_cases hnsmall : 1 ≤ n ∧ n ≤ 16
    · rw [pushInt64, if_pos hmsmall] at hm
      rw [pushInt64, if_pos hnsmall] at hn
      obtain ⟨rest, hrest⟩ := hm
      obtain ⟨rest', hrest'⟩ := hn
      have hbyte := congrArg UInt8.toNat (List.cons.inj (hrest.trans hrest'.symm)).1
      rw [toNat_ofNat', toNat_ofNat'] at hbyte
      omega
    · exact absurd (hmixed hmsmall hnsmall hm hn) not_false
  · by_cases hnsmall : 1 ≤ n ∧ n ≤ 16
    · exact absurd (hmixed hnsmall hmsmall hn hm) not_false
    · have hmdata := hshort m hmsmall hm
      have hndata := hshort n hnsmall hn
      rw [pushInt64, if_neg hmsmall] at hm
      rw [pushInt64, if_neg hnsmall] at hn
      obtain ⟨rest, hrest⟩ := hm
      obtain ⟨rest', hrest'⟩ := hn
      exact getvch_injective (pushData_inj hmdata hndata (hrest.trans hrest'.symm))

end CScript

section

variable {H : Type}

theorem length_le_size (data : Preimage H) : data.length ≤ Preimage.size data := by
  unfold Preimage.size
  induction data with
  | nil => simp
  | cons atom data ih =>
    rw [map_cons, sum_cons, length_cons]
    cases atom with
    | byte b => simp only; omega
    | digest h => simp only; omega

namespace CTransaction

variable {tx : CTransaction H}

/-- The inputs of a transaction that is not too large are not either. -/
theorem vin_bounds (hsize : tx.serializeSize ≤ MAX_BLOCK_SIZE) :
    tx.vin.length < 2 ^ 64 ∧ ∀ txin ∈ tx.vin, txin.scriptSig.length < 2 ^ 64 := by
  have hlimit : MAX_BLOCK_SIZE < 2 ^ 64 := by decide
  have hflat : (tx.vin.flatMap CTxIn.serialize).length ≤ MAX_BLOCK_SIZE := by
    have htotal := (length_le_size tx.serialize).trans hsize
    unfold serialize at htotal
    simp only [length_append] at htotal
    omega
  constructor
  · have hcount : tx.vin.length ≤ (tx.vin.flatMap CTxIn.serialize).length := by
      generalize tx.vin = vin
      induction vin with
      | nil => simp
      | cons txin vin ih =>
        rw [flatMap_cons, length_append, length_cons]
        have hone : 1 ≤ txin.serialize.length := by simp [CTxIn.serialize]
        omega
    omega
  · intro txin htxin
    have hpart : txin.serialize.length ≤ (tx.vin.flatMap CTxIn.serialize).length :=
      (sublist_flatten_of_mem (mem_map_of_mem htxin)).length_le
    have hscript : txin.scriptSig.length ≤ txin.serialize.length := by
      have hbytes : (txin.scriptSig.flatMap putByte).length = txin.scriptSig.length := by
        simp [putByte, length_flatMap]
      simp only [CTxIn.serialize, length_cons, length_append, feed, length_map, putVec, hbytes]
      omega
    omega

variable {tx' : CTransaction H}

/-- The inputs can be read off what is hashed. -/
theorem vin_of_serialize_eq (hsize : tx.serializeSize ≤ MAX_BLOCK_SIZE)
    (hsize' : tx'.serializeSize ≤ MAX_BLOCK_SIZE) (heq : tx.serialize = tx'.serialize) :
    tx.vin = tx'.vin := by
  obtain ⟨hcount, hscripts⟩ := vin_bounds hsize
  obtain ⟨hcount', hscripts'⟩ := vin_bounds hsize'
  unfold serialize at heq
  obtain ⟨_, heq⟩ := prefixFree_feedInt32 _ _ _ _ trivial trivial heq
  obtain ⟨_, heq⟩ := feedUInt32_inj heq
  obtain ⟨hlength, heq⟩ := prefixFree_compactSize _ _ _ _ hcount hcount' heq
  exact (CTxIn.prefixFree_serialize.many hlength hscripts hscripts' heq).1

variable [DecidableEq H] {crypto : MWCrypto H}

/-- What is needed of `CheckTransaction` here. -/
theorem checkTransaction_vin (h : tx.checkTransaction crypto) :
    tx.vin ≠ [] ∧ tx.vout ≠ [] ∧ tx.serializeSize ≤ MAX_BLOCK_SIZE ∧
      (tx.isCoinBase crypto.toSha256 → ∀ txin ∈ tx.vin.head?, txin.scriptSig.length ≤ 100) := by
  unfold checkTransaction at h
  simp only [Bool.and_eq_true, Bool.not_eq_true', decide_eq_true_iff] at h
  obtain ⟨⟨⟨⟨⟨⟨⟨hvin, hvout⟩, hsize⟩, _⟩, _⟩, hscript⟩, _⟩, _⟩ := h
  refine ⟨by simpa using hvin, by simpa using hvout, hsize, ?_⟩
  intro hcoinbase txin htxin
  rw [if_pos hcoinbase, Option.mem_def.mp htxin, Option.any_some] at hscript
  simpa using (Bool.and_eq_true_iff.mp hscript).2

theorem vin_of_getHash_eq (hinj : Function.Injective crypto.sha256)
    (h : tx.checkTransaction crypto) (h' : tx'.checkTransaction crypto)
    (heq : tx.getHash crypto.toSha256 = tx'.getHash crypto.toSha256) : tx.vin = tx'.vin := by
  have hinner := hinj heq
  injection hinner with hatom
  injection hatom with hdigest
  exact vin_of_serialize_eq (checkTransaction_vin h).2.2.1 (checkTransaction_vin h').2.2.1
    (hinj hdigest)

/-- Whether a transaction is a coinbase depends on its inputs. -/
theorem isCoinBase_of_vin_eq {sha : Sha256 H} (hvin : tx.vin = tx'.vin)
    (hvout' : tx'.vout ≠ []) (h : tx.isCoinBase sha) : tx'.isCoinBase sha := by
  unfold isCoinBase at h ⊢
  rw [← hvin]
  split at h
  · simp only [Bool.and_eq_true, decide_eq_true_iff] at h ⊢
    exact ⟨h.1, length_pos_iff.mpr hvout'⟩
  · cases h

/-- The first input starts with a pushed height, as `AcceptBlock` asks of a
coinbase. -/
def Tagged (tx : CTransaction H) (nHeight : Nat) : Prop :=
  ∃ txin ∈ tx.vin.head?, CScript.pushInt64 nHeight <+: txin.scriptSig

end CTransaction

end

namespace Ledger

section

variable {H : Type} [Ord H] [TransOrd H]

/-- The output is marked as spent. -/
def Marked (index : TxIndexMap H) (prevout : COutPoint H) : Prop :=
  ∃ txindex pos, index[prevout.hash]? = some txindex ∧
    txindex.vSpent[prevout.n.toNat]? = some (some pos)

variable [LawfulEqOrd H] {index index' : TxIndexMap H} {pos : CDiskTxPos} {p q : COutPoint H}

theorem Marked.insert {hash : H} (h : Marked index p) (txindex : CTxIndex) (hnew : hash ∉ index) :
    Marked (index.insert hash txindex) p := by
  obtain ⟨e, at', hlook, hmarked⟩ := h
  have hne : hash ≠ p.hash := by
    intro heq
    exact hnew (heq ▸ (mem_iff_exists _ _).mpr ⟨e, hlook⟩)
  exact ⟨e, at', by rw [FinMap.getElem?_insert_ne _ _ hne, hlook], hmarked⟩

theorem Marked.spend (h : Marked index p) (hspend : spend pos index q = some index') : Marked index' p := by
  obtain ⟨e, at', hlook, hmarked⟩ := h
  obtain ⟨e', hlook', hnull, rfl⟩ := spend_eq_some.mp hspend
  by_cases hhash : q.hash = p.hash
  · rw [hhash, hlook] at hlook'
    cases hlook'
    have hne : q.n.toNat ≠ p.n.toNat := by
      intro heq
      rw [heq, hmarked] at hnull
      cases hnull
    refine ⟨mark e q.n.toNat (some pos), at', ?_, ?_⟩
    · rw [hhash, ExtTreeMap.getElem?_insert_self]
    · rw [mark, getElem?_set_ne hne]
      exact hmarked
  · exact ⟨e, at', by rw [FinMap.getElem?_insert_ne _ _ hhash, hlook], hmarked⟩

omit [LawfulEqOrd H] in
theorem marked_of_spend (h : Ledger.spend pos index p = some index') : Marked index' p := by
  obtain ⟨e, _, hnull, rfl⟩ := spend_eq_some.mp h
  refine ⟨mark e p.n.toNat (some pos), pos, ExtTreeMap.getElem?_insert_self, ?_⟩
  have hlt := (List.getElem?_eq_some_iff.mp hnull).1
  rw [mark, getElem?_set_self hlt]

/-- After a row of marks, all of them are made and no entry is new. -/
theorem foldlM_spend_marked {ps : List (COutPoint H)} (h : ps.foldlM (Ledger.spend pos) index = some index') :
    (∀ p ∈ ps, Marked index' p) ∧ (∀ q, Marked index q → Marked index' q) ∧
      ∀ hash, hash ∈ index' ↔ hash ∈ index := by
  induction ps generalizing index with
  | nil =>
    cases h
    exact ⟨fun _ hmem => absurd hmem not_mem_nil, fun _ hmarked => hmarked, fun _ => Iff.rfl⟩
  | cons p ps ih =>
    obtain ⟨mid, hmid, hrest⟩ := OptionLoop.foldlM_cons h
    obtain ⟨hall, hkept, hkeys⟩ := ih hrest
    refine ⟨?_, fun q hq => hkept q (hq.spend hmid), fun hash => (hkeys hash).trans (mem_spend hmid hash)⟩
    intro q hq
    rcases List.mem_cons.mp hq with rfl | hq
    · exact hkept q (marked_of_spend hmid)
    · exact hall q hq

end

variable {H : Type} [Ord H] [TransOrd H] [DecidableEq H]

/-- The index is that of these transactions, from blocks up to a height. -/
structure Connected (c : Consensus H) (index : TxIndexMap H) (txs : List (CTransaction H))
    (nHeight : Nat) : Prop where
  entered : ∀ hash ∈ index, ∃ tx ∈ txs, tx.getHash c.toSha256 = hash
  checked : ∀ tx ∈ txs, tx.checkTransaction c.toMWCrypto
  spent : ∀ tx ∈ txs, tx.isCoinBase c.toSha256 = false → ∀ txin ∈ tx.vin, Marked index txin.prevout
  tagged : ∀ tx ∈ txs, tx.isCoinBase c.toSha256 → ∃ nBlockHeight ≤ nHeight, tx.Tagged nBlockHeight

variable {c : Consensus H} {index index' : TxIndexMap H} {txs : List (CTransaction H)}
  {nHeight : Nat} {tx : CTransaction H} {pos : CDiskTxPos}

theorem connected_empty (c : Consensus H) (nHeight : Nat) : Connected c ∅ [] nHeight where
  entered hash hmem := by simp at hmem
  checked tx hmem := by cases hmem
  spent tx hmem := by cases hmem
  tagged tx hmem := by cases hmem

/-- **A coinbase of a higher block is new.** -/
theorem Connected.fresh_coinbase (hinj : Function.Injective c.sha256)
    (h : Connected c index txs nHeight) (hchecked : tx.checkTransaction c.toMWCrypto)
    (hcoinbase : tx.isCoinBase c.toSha256) {nBlockHeight : Nat} (htagged : tx.Tagged nBlockHeight)
    (hlater : nHeight < nBlockHeight) : tx.getHash c.toSha256 ∉ index := by
  intro hmem
  obtain ⟨tx', htx', hhash⟩ := h.entered _ hmem
  have hchecked' := h.checked tx' htx'
  have hvin := CTransaction.vin_of_getHash_eq hinj hchecked hchecked' hhash.symm
  obtain ⟨_, hvout', _, _⟩ := CTransaction.checkTransaction_vin hchecked'
  have hcoinbase' := CTransaction.isCoinBase_of_vin_eq hvin hvout' hcoinbase
  obtain ⟨nOther, hle, txin', htxin', hpre'⟩ := h.tagged tx' htx' hcoinbase'
  obtain ⟨txin, htxin, hpre⟩ := htagged
  rw [hvin] at htxin
  have hsame : txin = txin' := Option.some.inj (htxin.symm.trans htxin')
  subst hsame
  have hlength := (CTransaction.checkTransaction_vin hchecked').2.2.2 hcoinbase' txin htxin'
  have := CScript.pushInt64_inj hlength hpre hpre'
  omega

/-- **A transaction that spends something is new.** -/
theorem Connected.fresh_inputs (hinj : Function.Injective c.sha256)
    (h : Connected c index txs nHeight) (hchecked : tx.checkTransaction c.toMWCrypto)
    (hcoinbase : tx.isCoinBase c.toSha256 = false)
    (hconnect : connectTx c.toSha256 pos index tx = some index') : tx.getHash c.toSha256 ∉ index := by
  intro hmem
  obtain ⟨tx', htx', hhash⟩ := h.entered _ hmem
  have hchecked' := h.checked tx' htx'
  have hvin := CTransaction.vin_of_getHash_eq hinj hchecked hchecked' hhash.symm
  obtain ⟨hvinne, hvout, _, _⟩ := CTransaction.checkTransaction_vin hchecked
  have hcoinbase' : tx'.isCoinBase c.toSha256 = false := by
    by_contra htrue
    have hback := CTransaction.isCoinBase_of_vin_eq hvin.symm hvout (by simpa using htrue)
    rw [hcoinbase] at hback
    cases hback
  obtain ⟨spent, hspent, _⟩ := Option.map_eq_some_iff.mp hconnect
  rw [spends, if_neg (by rw [hcoinbase]; exact Bool.false_ne_true)] at hspent
  cases hfirst : tx.vin with
  | nil => exact hvinne hfirst
  | cons txin rest =>
    -- its first input is marked already
    obtain ⟨txindex, marked, hlook, hmarked⟩ :=
      h.spent tx' htx' hcoinbase' txin (by rw [← hvin, hfirst]; exact mem_cons_self)
    rw [hfirst, map_cons] at hspent
    obtain ⟨mid, hmid, _⟩ := OptionLoop.foldlM_cons hspent
    obtain ⟨txindex', hlook', hnull, _⟩ := spend_eq_some.mp hmid
    rw [hlook] at hlook'
    cases hlook'
    rw [hmarked] at hnull
    cases hnull

variable [LawfulEqOrd H]

/-- **One transaction.** -/
theorem Connected.step (h : Connected c index txs nHeight) {nBlockHeight : Nat}
    (hlater : nHeight ≤ nBlockHeight) (hchecked : tx.checkTransaction c.toMWCrypto)
    (htagged : tx.isCoinBase c.toSha256 → tx.Tagged nBlockHeight) (hnew : tx.getHash c.toSha256 ∉ index)
    (hconnect : connectTx c.toSha256 pos index tx = some index') :
    Connected c index' (txs ++ [tx]) nBlockHeight := by
  obtain ⟨spent, hspent, rfl⟩ := Option.map_eq_some_iff.mp hconnect
  obtain ⟨hall, hkept, hkeys⟩ := foldlM_spend_marked hspent
  have hnew' : tx.getHash c.toSha256 ∉ spent := fun hmem => hnew ((hkeys _).mp hmem)
  refine ⟨?_, ?_, ?_, ?_⟩
  · intro hash hmem
    rcases ExtTreeMap.mem_insert.mp hmem with heq | hmem
    · exact ⟨tx, by simp, LawfulEqCmp.eq_of_compare heq⟩
    · obtain ⟨tx', htx', hhash⟩ := h.entered hash ((hkeys hash).mp hmem)
      exact ⟨tx', mem_append_left _ htx', hhash⟩
  · intro tx' htx'
    rcases mem_append.mp htx' with htx' | htx'
    · exact h.checked tx' htx'
    · rw [mem_singleton.mp htx']
      exact hchecked
  · intro tx' htx' hcoinbase' txin htxin
    rcases mem_append.mp htx' with htx' | htx'
    · exact (hkept _ (h.spent tx' htx' hcoinbase' txin htxin)).insert _ hnew'
    · rw [mem_singleton.mp htx'] at hcoinbase' htxin
      refine (hall _ ?_).insert _ hnew'
      rw [spends, if_neg (by rw [hcoinbase']; exact Bool.false_ne_true)]
      exact mem_map_of_mem htxin
  · intro tx' htx' hcoinbase'
    rcases mem_append.mp htx' with htx' | htx'
    · obtain ⟨nOther, hle, htag⟩ := h.tagged tx' htx' hcoinbase'
      exact ⟨nOther, hle.trans hlater, htag⟩
    · rw [mem_singleton.mp htx'] at hcoinbase' ⊢
      exact ⟨nBlockHeight, le_rfl, htagged hcoinbase'⟩

theorem Connected.inputs (hinj : Function.Injective c.sha256) {nFile nBlockPos nTxPos : Nat}
    {row : List (CTransaction H)} (h : Connected c index txs nHeight)
    (hchecked : ∀ tx ∈ row, tx.checkTransaction c.toMWCrypto)
    (hcoinbase : ∀ tx ∈ row, tx.isCoinBase c.toSha256 = false)
    (hconnect : connectTxs c.toSha256 nFile nBlockPos nTxPos row index = some index') :
    FreshTxs c.toSha256 nFile nBlockPos nTxPos row index ∧ Connected c index' (txs ++ row) nHeight := by
  induction row generalizing index nTxPos txs with
  | nil =>
    cases hconnect
    rw [append_nil]
    exact ⟨trivial, h⟩
  | cons tx row ih =>
    obtain ⟨mid, hmid, hrest⟩ := Option.bind_eq_some_iff.mp hconnect
    have hfirst := hchecked tx mem_cons_self
    have hno := hcoinbase tx mem_cons_self
    have hnew := h.fresh_inputs hinj hfirst hno hmid
    have hstep := h.step le_rfl hfirst (fun hyes => by rw [hno] at hyes; cases hyes) hnew hmid
    obtain ⟨hfresh, hlast⟩ := ih hstep (fun tx' htx' => hchecked tx' (mem_cons_of_mem _ htx'))
      (fun tx' htx' => hcoinbase tx' (mem_cons_of_mem _ htx')) hrest
    rw [append_assoc, singleton_append] at hlast
    refine ⟨⟨hnew, ?_⟩, hlast⟩
    intro mid' hmid'
    rw [hmid] at hmid'
    cases hmid'
    exact hfresh

/-- **One block**: its transactions are new, and the invariant moves on. -/
theorem Connected.block (hinj : Function.Injective c.sha256) {block : CBlock H}
    {pindex : CBlockIndex H} {coinbase : CTransaction H} {rest : List (CTransaction H)}
    (h : Connected c index txs nHeight) (hshape : block.Shape c coinbase rest)
    (htagged : coinbase.Tagged pindex.nHeight) (hlater : nHeight < pindex.nHeight)
    (hconnect : connectBlock c.toSha256 block pindex index = some index') :
    FreshTxs c.toSha256 pindex.nFile pindex.nBlockPos (block.firstTxPos pindex.nBlockPos) block.vtx
      index ∧ Connected c index' (txs ++ block.vtx) pindex.nHeight := by
  have hchecked := hshape.checked
  rw [connectBlock, hshape.vtx] at hconnect
  rw [hshape.vtx] at hchecked ⊢
  obtain ⟨mid, hmid, hrest⟩ := Option.bind_eq_some_iff.mp hconnect
  have hfirst := hchecked coinbase mem_cons_self
  have hnew := h.fresh_coinbase hinj hfirst hshape.isCoinBase htagged hlater
  have hstep := h.step hlater.le hfirst (fun _ => htagged) hnew hmid
  obtain ⟨hfresh, hlast⟩ := hstep.inputs hinj
    (fun tx htx => hchecked tx (mem_cons_of_mem _ htx)) hshape.noCoinBase hrest
  rw [append_assoc, singleton_append] at hlast
  refine ⟨⟨hnew, ?_⟩, hlast⟩
  intro mid' hmid'
  rw [hmid] at hmid'
  cases hmid'
  exact hfresh

end Ledger

end MaryJaneCoin
