import MaryJaneCoin.Lib.OptionLoop
import MaryJaneCoin.Mw.StateDB
import MaryJaneCoin.Mw.StateUndo

/-!
# What survives a save and a load

The scan of `LoadFromDB` takes every entry it finds, whichever save it is
from.  `Covers` says when that does no harm, and `loadFromDB_saveAll` that it
does harm in every other case.
-/

namespace MaryJaneCoin

open List hiding Vector
open Std Codec FinMap ExtTreeMap Or OptionLoop

section Keys

variable {letter letter' : UInt8} {c c' : Commitment} {i j : Nat}

@[simp] theorem makeKey_inj : makeKey letter c = makeKey letter' c' ↔ letter = letter' ∧ c = c' := by
  simp [makeKey, Vector.toList_inj]

@[simp] theorem length_makeKey : (makeKey letter c).length = 34 := by
  simp [makeKey]

@[simp] theorem length_makeIndexKey : (makeIndexKey letter i).length = 9 := by
  simp [makeIndexKey, length_putLE]

@[simp] theorem makeKey_ne_singleton : makeKey letter c ≠ [letter'] := by
  intro h
  have := congrArg List.length h
  simp at this

@[simp] theorem singleton_ne_makeKey : [letter'] ≠ makeKey letter c := Ne.symm makeKey_ne_singleton

@[simp] theorem makeIndexKey_ne_singleton : makeIndexKey letter i ≠ [letter'] := by
  intro h
  have := congrArg List.length h
  simp at this

@[simp] theorem singleton_ne_makeIndexKey : [letter'] ≠ makeIndexKey letter i :=
  Ne.symm makeIndexKey_ne_singleton

@[simp] theorem makeKey_ne_makeIndexKey : makeKey letter c ≠ makeIndexKey letter' i := by
  intro h
  have := congrArg List.length h
  simp at this

@[simp] theorem makeIndexKey_ne_makeKey : makeIndexKey letter' i ≠ makeKey letter c :=
  Ne.symm makeKey_ne_makeIndexKey

theorem makeIndexKey_inj (hi : i < 2 ^ 64) (hj : j < 2 ^ 64)
    (h : makeIndexKey letter i = makeIndexKey letter j) : i = j :=
  @putLE_inj 8 i j hi hj (List.cons.inj h).2

end Keys

namespace CMWState

variable {state : CMWState uint256} {k v : Bytes} {c : Commitment}

theorem mem_indexEntry :
    (k, v) ∈ state.indexEntry c ↔ ∃ nIdx, state.mapMMRIndex[c]? = some nIdx ∧
      k = makeKey DB_PREFIX_MMRINDEX c ∧ v = putUInt64 nIdx := by
  rw [indexEntry]
  split
  · rename_i nIdx hidx
    simp [hidx]
  · rename_i hidx
    simp [hidx]

theorem mem_batch : (k, v) ∈ state.batch ↔
      (k = [DB_KEY_VERSION] ∧ v = putInt32 MWSTATE_DB_VERSION) ∨
      (k = [DB_KEY_META] ∧ v = state.putMeta) ∨ (k = [DB_KEY_MMR] ∧ v = putCMMR state.mmr) ∨
      (∃ c out, state.mapOutputs[c]? = some out ∧ k = makeKey DB_PREFIX_OUTPUT c ∧
      v = putCMWOutput out) ∨ (∃ c nIdx, (c ∈ state.mapOutputs ∨ c ∈ state.setSpent) ∧
        state.mapMMRIndex[c]? = some nIdx ∧ k = makeKey DB_PREFIX_MMRINDEX c ∧ v = putUInt64 nIdx) ∨
      (∃ c ∈ state.setSpent, k = makeKey DB_PREFIX_SPENT c ∧ v = []) ∨
      (k = [DB_KEY_KERNEL_COUNT] ∧ v = putLE 8 state.vKernelExcesses.length) ∨
      (∃ i excess, state.vKernelExcesses[i]? = some excess ∧
        k = makeIndexKey DB_PREFIX_KERNEL i ∧ v = excess.toList) := by
  have houtputs : (k, v) ∈ state.mapOutputs.toList.flatMap (fun entry =>
      (makeKey DB_PREFIX_OUTPUT entry.1, putCMWOutput entry.2) :: state.indexEntry entry.1) ↔
      (∃ c out, state.mapOutputs[c]? = some out ∧ k = makeKey DB_PREFIX_OUTPUT c ∧ v = putCMWOutput out) ∨
      ∃ c nIdx, c ∈ state.mapOutputs ∧ state.mapMMRIndex[c]? = some nIdx ∧
        k = makeKey DB_PREFIX_MMRINDEX c ∧ v = putUInt64 nIdx := by
    simp only [mem_flatMap, List.mem_cons, mem_indexEntry, Prod.exists,
      mem_toList_iff_getElem?_eq_some, Prod.mk.injEq, mem_iff_exists]
    constructor
    · rintro ⟨c, out, hout, hhere | ⟨nIdx, hidx⟩⟩
      · exact inl ⟨c, out, hout, hhere⟩
      · exact inr ⟨c, nIdx, ⟨out, hout⟩, hidx⟩
    · rintro (⟨c, out, hout, hhere⟩ | ⟨c, nIdx, ⟨out, hout⟩, hidx⟩)
      · exact ⟨c, out, hout, inl hhere⟩
      · exact ⟨c, out, hout, inr ⟨nIdx, hidx⟩⟩
  have hspent : (k, v) ∈ state.setSpent.toList.flatMap (fun commit =>
      (makeKey DB_PREFIX_SPENT commit, []) :: state.indexEntry commit) ↔
      (∃ c ∈ state.setSpent, k = makeKey DB_PREFIX_SPENT c ∧ v = []) ∨
      ∃ c nIdx, c ∈ state.setSpent ∧ state.mapMMRIndex[c]? = some nIdx ∧
        k = makeKey DB_PREFIX_MMRINDEX c ∧ v = putUInt64 nIdx := by
    simp only [mem_flatMap, List.mem_cons, mem_indexEntry, ExtTreeSet.mem_toList, Prod.mk.injEq]
    constructor
    · rintro ⟨c, hc, hhere | ⟨nIdx, hidx⟩⟩
      · exact inl ⟨c, hc, hhere⟩
      · exact inr ⟨c, nIdx, hc, hidx⟩
    · rintro (⟨c, hc, hhere⟩ | ⟨c, nIdx, hc, hidx⟩)
      · exact ⟨c, hc, inl hhere⟩
      · exact ⟨c, hc, inr ⟨nIdx, hidx⟩⟩
  have hkernels : (k, v) ∈ state.vKernelExcesses.mapIdx (fun i excess =>
      (makeIndexKey DB_PREFIX_KERNEL i, excess.toList)) ↔
      ∃ i excess, state.vKernelExcesses[i]? = some excess ∧
        k = makeIndexKey DB_PREFIX_KERNEL i ∧ v = excess.toList := by
    simp only [mem_mapIdx, Prod.mk.injEq, List.getElem?_eq_some_iff]
    constructor
    · rintro ⟨i, hi, hk, hv⟩
      exact ⟨i, _, ⟨hi, rfl⟩, hk.symm, hv.symm⟩
    · rintro ⟨i, excess, ⟨hi, rfl⟩, hk, hv⟩
      exact ⟨i, hi, hk.symm, hv.symm⟩
  simp only [batch, mem_append, houtputs, hspent, hkernels, List.mem_cons, Prod.mk.injEq,
    not_mem_nil, or_false, or_and_right, exists_or]
  apply iff_of_eq
  ac_rfl

section Entries

variable {state : CMWState uint256} {c : Commitment} {v : Bytes}

theorem mem_batch_output : (makeKey DB_PREFIX_OUTPUT c, v) ∈ state.batch ↔
    ∃ out, state.mapOutputs[c]? = some out ∧ v = putCMWOutput out := by
  simp [mem_batch, DB_PREFIX_OUTPUT, DB_PREFIX_MMRINDEX, DB_PREFIX_SPENT]

theorem mem_batch_index : (makeKey DB_PREFIX_MMRINDEX c, v) ∈ state.batch ↔
    (c ∈ state.mapOutputs ∨ c ∈ state.setSpent) ∧
      ∃ nIdx, state.mapMMRIndex[c]? = some nIdx ∧ v = putUInt64 nIdx := by
  simp [mem_batch, DB_PREFIX_OUTPUT, DB_PREFIX_MMRINDEX, DB_PREFIX_SPENT]

theorem mem_batch_spent : (makeKey DB_PREFIX_SPENT c, v) ∈ state.batch ↔ c ∈ state.setSpent ∧ v = [] := by
  simp [mem_batch, DB_PREFIX_OUTPUT, DB_PREFIX_MMRINDEX, DB_PREFIX_SPENT]

theorem mem_batch_fixed {letter : UInt8} : ([letter], v) ∈ state.batch ↔
    (letter = DB_KEY_VERSION ∧ v = putInt32 MWSTATE_DB_VERSION) ∨
      (letter = DB_KEY_META ∧ v = state.putMeta) ∨ (letter = DB_KEY_MMR ∧ v = putCMMR state.mmr) ∨
      (letter = DB_KEY_KERNEL_COUNT ∧ v = putLE 8 state.vKernelExcesses.length) := by
  simp [mem_batch]

theorem mem_batch_kernel {i : Nat} : (makeIndexKey DB_PREFIX_KERNEL i, v) ∈ state.batch ↔
    ∃ j excess, state.vKernelExcesses[j]? = some excess ∧
      makeIndexKey DB_PREFIX_KERNEL i = makeIndexKey DB_PREFIX_KERNEL j ∧ v = excess.toList := by
  simp [mem_batch]

end Entries

theorem getElem?_saveToDB_of_mem (db : MWStateDB)
    (hmem : (k, v) ∈ state.batch) (honly : ∀ v', (k, v') ∈ state.batch → v' = v) :
    (saveToDB db state)[k]? = some v := by
  rcases getElem?_foldl_insert (α := Bytes) (β := Bytes) Prod.fst Prod.snd state.batch db k with
    ⟨hnone, _⟩ | ⟨⟨k', v'⟩, hin, rfl, hlook⟩
  · exact absurd rfl (hnone (k, v) hmem)
  · exact hlook.trans (congrArg some (honly v' hin))

/-- A key of one letter holds what the save wrote to it. -/
theorem getElem?_saveToDB_fixed (db : MWStateDB) {letter : UInt8}
    (hmem : ([letter], v) ∈ state.batch) : (saveToDB db state)[[letter]]? = some v := by
  refine getElem?_saveToDB_of_mem db hmem fun v' hmem' => ?_
  rw [mem_batch_fixed] at hmem hmem'
  rcases hmem with ⟨rfl, rfl⟩ | ⟨rfl, rfl⟩ | ⟨rfl, rfl⟩ | ⟨rfl, rfl⟩ <;>
    simpa [DB_KEY_VERSION, DB_KEY_META, DB_KEY_MMR, DB_KEY_KERNEL_COUNT] using hmem'

/-- A key holds what the save wrote to it or what it held before. -/
theorem getElem?_saveToDB (state : CMWState uint256) (db : MWStateDB) (k : Bytes) :
    ((∀ v, (k, v) ∉ state.batch) ∧ (saveToDB db state)[k]? = db[k]?) ∨
      ∃ v, (k, v) ∈ state.batch ∧ (saveToDB db state)[k]? = some v := by
  rcases getElem?_foldl_insert (α := Bytes) (β := Bytes) Prod.fst Prod.snd state.batch db k with
    ⟨hnone, hlook⟩ | ⟨⟨k', v'⟩, hin, rfl, hlook⟩
  · exact inl ⟨fun v hmem => hnone (k, v) hmem rfl, hlook⟩
  · exact inr ⟨v', hin, hlook⟩

/-- **Nothing is deleted**: the keys after a sequence of saves are all that were
ever written. -/
theorem mem_saveAll {states : List (CMWState uint256)} {k : Bytes} :
    k ∈ saveAll states ↔ ∃ state ∈ states, ∃ v, (k, v) ∈ state.batch := by
  suffices hgen : ∀ db : MWStateDB, k ∈ states.foldl saveToDB db ↔
      k ∈ db ∨ ∃ state ∈ states, ∃ v, (k, v) ∈ state.batch by
    simpa [saveAll] using hgen ∅
  induction states with
  | nil => simp
  | cons state states ih =>
    intro db
    have hone : k ∈ saveToDB db state ↔ k ∈ db ∨ ∃ v, (k, v) ∈ state.batch := by
      rw [mem_iff_exists, mem_iff_exists]
      rcases getElem?_saveToDB state db k with ⟨hnone, hlook⟩ | ⟨v, hin, hlook⟩
      · rw [hlook]
        exact ⟨inl, fun h => h.resolve_right fun ⟨v, hv⟩ => hnone v hv⟩
      · rw [hlook]
        exact ⟨fun _ => inr ⟨v, hin⟩, fun _ => ⟨v, rfl⟩⟩
    rw [foldl_cons, ih, hone]
    simp [or_assoc]

/-- One round of the scan. -/
theorem loadEntry_cases {state state' : CMWState uint256}
    (hload : loadEntry state (k, v) = some state') :
    (∃ c out rest, k = makeKey DB_PREFIX_OUTPUT c ∧ getCMWOutput v = some (out, rest) ∧
      state' = { state with mapOutputs := state.mapOutputs.insert c out }) ∨
    (∃ c nIdx rest, k = makeKey DB_PREFIX_MMRINDEX c ∧ getUInt64 v = some (nIdx, rest) ∧
      state' = { state with mapMMRIndex := state.mapMMRIndex.insert c nIdx }) ∨ (∃ c,
    k = makeKey DB_PREFIX_SPENT c ∧ state' = { state with setSpent := state.setSpent.insert c }) ∨
    ((∀ c, k ≠ makeKey DB_PREFIX_OUTPUT c ∧ k ≠ makeKey DB_PREFIX_MMRINDEX c ∧
      k ≠ makeKey DB_PREFIX_SPENT c) ∧ state' = state) := by
  cases k with
  | nil =>
    refine inr (inr (inr ⟨fun c => by simp [makeKey], ?_⟩))
    exact (Option.some.inj hload).symm
  | cons cPrefix strKey =>
    simp only [loadEntry] at hload
    split at hload
    · rename_i hlen
      have hkey : ∀ letter, letter :: strKey =
          makeKey letter (⟨strKey.toArray, by simp [hlen]⟩ : Commitment) := fun _ => rfl
      split at hload
      · rename_i hletter
        obtain ⟨⟨out, rest⟩, hout, hstate⟩ := Option.map_eq_some_iff.mp hload
        exact inl ⟨_, out, rest, hletter ▸ hkey cPrefix, hout, hstate.symm⟩
      · split at hload
        · rename_i hletter
          obtain ⟨⟨nIdx, rest⟩, hidx, hstate⟩ := Option.map_eq_some_iff.mp hload
          exact inr (inl ⟨_, nIdx, rest, hletter ▸ hkey cPrefix, hidx, hstate.symm⟩)
        · split at hload
          · rename_i hletter
            exact inr (inr (inl ⟨_, hletter ▸ hkey cPrefix, (Option.some.inj hload).symm⟩))
          · refine inr (inr (inr ⟨fun c => ?_, (Option.some.inj hload).symm⟩))
            simp_all [makeKey]
    · rename_i hlen
      refine inr (inr (inr ⟨fun c => ?_, (Option.some.inj hload).symm⟩))
      have hne : strKey ≠ c.toList := fun heq => hlen (heq ▸ c.length_toList)
      simp [makeKey, hne]

section Scan

variable {db : MWStateDB} {state loaded : CMWState uint256}

/-- A scan of entries, seen at one key.  Something that only the entry of the key
can change is after the scan what that entry made it. -/
theorem foldlM_loadEntry_at {ρ : Type} (look : CMWState uint256 → ρ) {k v : Bytes}
    {entries : List (Bytes × Bytes)} (hdistinct : entries.Pairwise fun a b => ¬ compare a.1 b.1 = .eq)
    (hframe : ∀ k' v s s', k' ≠ k → loadEntry s (k', v) = some s' → look s' = look s)
    (hmem : (k, v) ∈ entries) (hscan : entries.foldlM loadEntry state = some loaded) :
    ∃ s s', loadEntry s (k, v) = some s' ∧ look loaded = look s' := by
  obtain ⟨pre, post, rfl⟩ := append_of_mem hmem
  obtain ⟨s, _, hrest⟩ := foldlM_append hscan
  obtain ⟨s', hstep, hpost⟩ := foldlM_cons hrest
  refine ⟨s, s', hstep, foldlM_frame look ?_ hpost⟩
  rintro ⟨k', v'⟩ hmem' a b hab
  refine hframe k' v' a b ?_ hab
  rintro rfl
  have hpair := (pairwise_cons.mp (pairwise_append.mp hdistinct).2.1).1 _ hmem'
  exact hpair (by simp)

/-- **The scan, seen at one key.** -/
theorem scan_spec {ρ : Type} (look : CMWState uint256 → ρ) (k : Bytes)
    (hframe : ∀ k' v s s', k' ≠ k → loadEntry s (k', v) = some s' → look s' = look s)
    (hscan : db.toList.foldlM loadEntry state = some loaded) : (db[k]? = none → look loaded = look state) ∧
      ∀ v, db[k]? = some v → ∃ s s', loadEntry s (k, v) = some s' ∧ look loaded = look s' := by
  constructor
  · intro hnone
    refine foldlM_frame look ?_ hscan
    rintro ⟨k', v'⟩ hmem s s' hstep
    refine hframe k' v' s s' ?_ hstep
    rintro rfl
    rw [mem_toList_iff_getElem?_eq_some, hnone] at hmem
    cases hmem
  · intro v hsome
    exact foldlM_loadEntry_at look db.distinct_keys_toList hframe
      (mem_toList_iff_getElem?_eq_some.mpr hsome) hscan

theorem loadEntry_output_frame (c : Commitment) (k v : Bytes) (s s' : CMWState uint256)
    (hk : k ≠ makeKey DB_PREFIX_OUTPUT c) (hstep : loadEntry s (k, v) = some s') :
    s'.mapOutputs[c]? = s.mapOutputs[c]? := by
  rcases loadEntry_cases hstep with ⟨c', out, rest, rfl, _, rfl⟩ | ⟨c', n, rest, _, _, rfl⟩ |
    ⟨c', _, rfl⟩ | ⟨_, rfl⟩
  · exact getElem?_insert_ne _ _ fun heq => hk (by rw [heq])
  · rfl
  · rfl
  · rfl

theorem loadEntry_index_frame (c : Commitment) (k v : Bytes) (s s' : CMWState uint256)
    (hk : k ≠ makeKey DB_PREFIX_MMRINDEX c) (hstep : loadEntry s (k, v) = some s') :
    s'.mapMMRIndex[c]? = s.mapMMRIndex[c]? := by
  rcases loadEntry_cases hstep with ⟨c', out, rest, _, _, rfl⟩ | ⟨c', n, rest, rfl, _, rfl⟩ |
    ⟨c', _, rfl⟩ | ⟨_, rfl⟩
  · rfl
  · exact getElem?_insert_ne _ _ fun heq => hk (by rw [heq])
  · rfl
  · rfl

theorem loadEntry_spent_frame (c : Commitment) (k v : Bytes) (s s' : CMWState uint256)
    (hk : k ≠ makeKey DB_PREFIX_SPENT c) (hstep : loadEntry s (k, v) = some s') :
    (c ∈ s'.setSpent) = (c ∈ s.setSpent) := by
  rcases loadEntry_cases hstep with ⟨c', out, rest, _, _, rfl⟩ | ⟨c', n, rest, _, _, rfl⟩ |
    ⟨c', rfl, rfl⟩ | ⟨_, rfl⟩
  · rfl
  · rfl
  · have hne : c' ≠ c := fun heq => hk (by rw [heq])
    simp [ExtTreeSet.mem_insert, hne]
  · rfl

variable (hscan : db.toList.foldlM loadEntry state = some loaded)

include hscan

theorem scan_output (c : Commitment) :
    (db[makeKey DB_PREFIX_OUTPUT c]? = none → loaded.mapOutputs[c]? = state.mapOutputs[c]?) ∧
    ∀ v, db[makeKey DB_PREFIX_OUTPUT c]? = some v →
      ∃ out rest, getCMWOutput v = some (out, rest) ∧ loaded.mapOutputs[c]? = some out := by
  obtain ⟨habsent, hpresent⟩ := scan_spec (fun s => s.mapOutputs[c]?) _
    (loadEntry_output_frame c) hscan
  refine ⟨habsent, ?_⟩
  intro v hsome
  obtain ⟨s, s', hstep, hlook⟩ := hpresent v hsome
  rcases loadEntry_cases hstep with ⟨c', out, rest, hk, hget, rfl⟩ | ⟨c', n, rest, hk, _, _⟩ |
    ⟨c', hk, _⟩ | ⟨hk, _⟩
  · obtain ⟨_, rfl⟩ := makeKey_inj.mp hk
    exact ⟨out, rest, hget, hlook.trans getElem?_insert_self⟩
  · exact absurd (makeKey_inj.mp hk).1 (by decide)
  · exact absurd (makeKey_inj.mp hk).1 (by decide)
  · exact absurd rfl (hk c).1

theorem scan_index (c : Commitment) :
    (db[makeKey DB_PREFIX_MMRINDEX c]? = none → loaded.mapMMRIndex[c]? = state.mapMMRIndex[c]?) ∧
    ∀ v, db[makeKey DB_PREFIX_MMRINDEX c]? = some v →
      ∃ nIdx rest, getUInt64 v = some (nIdx, rest) ∧ loaded.mapMMRIndex[c]? = some nIdx := by
  obtain ⟨habsent, hpresent⟩ := scan_spec (fun s => s.mapMMRIndex[c]?) _
    (loadEntry_index_frame c) hscan
  refine ⟨habsent, ?_⟩
  intro v hsome
  obtain ⟨s, s', hstep, hlook⟩ := hpresent v hsome
  rcases loadEntry_cases hstep with ⟨c', out, rest, hk, _, _⟩ | ⟨c', n, rest, hk, hget, rfl⟩ |
    ⟨c', hk, _⟩ | ⟨hk, _⟩
  · exact absurd (makeKey_inj.mp hk).1 (by decide)
  · obtain ⟨_, rfl⟩ := makeKey_inj.mp hk
    exact ⟨n, rest, hget, hlook.trans getElem?_insert_self⟩
  · exact absurd (makeKey_inj.mp hk).1 (by decide)
  · exact absurd rfl (hk c).2.1

theorem scan_spent (c : Commitment) :
    c ∈ loaded.setSpent ↔ c ∈ state.setSpent ∨ makeKey DB_PREFIX_SPENT c ∈ db := by
  obtain ⟨habsent, hpresent⟩ := scan_spec (fun s => (c ∈ s.setSpent : Prop)) _
    (loadEntry_spent_frame c) hscan
  by_cases hkey : makeKey DB_PREFIX_SPENT c ∈ db
  · obtain ⟨v, hsome⟩ := (mem_iff_exists _ _).mp hkey
    obtain ⟨s, s', hstep, hlook⟩ := hpresent v hsome
    refine ⟨fun _ => inr hkey, fun _ => ?_⟩
    rw [hlook]
    rcases loadEntry_cases hstep with ⟨c', out, rest, hk, _, _⟩ | ⟨c', n, rest, hk, _, _⟩ |
      ⟨c', hk, rfl⟩ | ⟨hk, _⟩
    · exact absurd (makeKey_inj.mp hk).1 (by decide)
    · exact absurd (makeKey_inj.mp hk).1 (by decide)
    · obtain ⟨_, rfl⟩ := makeKey_inj.mp hk
      exact ExtTreeSet.mem_insert_self
    · exact absurd rfl (hk c).2.2
  · rw [habsent (ExtTreeMap.getElem?_eq_none hkey)]
    exact ⟨inl, fun h => h.resolve_right hkey⟩

/-- What the scan leaves alone. -/
def unscanned (state : CMWState uint256) :=
  (state.mmr, state.vKernelExcesses, state.hashLatestMWBlock, state.nHeight, state.nMWEBSupply,
    state.mapBlockUndo)

theorem scan_unscanned : loaded.unscanned = state.unscanned := by
  refine foldlM_frame unscanned ?_ hscan
  rintro ⟨k, v⟩ _ s s' hstep
  rcases loadEntry_cases hstep with ⟨_, _, _, _, _, rfl⟩ | ⟨_, _, _, _, _, rfl⟩ | ⟨_, _, rfl⟩ |
    ⟨_, rfl⟩
  · rfl
  · rfl
  · rfl
  · rfl

end Scan

/-- The bounds of the `uint64_t` and `size_t` fields: every state has them. -/
structure Representable (state : CMWState uint256) : Prop where
  nodes : state.mmr.vNodes.length < 2 ^ 64
  leaves : state.mmr.nLeaves < 2 ^ 64
  kernels : state.vKernelExcesses.length < 2 ^ 64
  proofs : ∀ (c : Commitment) (out : CMWOutput), state.mapOutputs[c]? = some out →
    out.rangeProof.length < 2 ^ 64

section Sections

variable (db : MWStateDB) {last : CMWState uint256} (state : CMWState uint256)

theorem loadVersion_saveToDB : loadVersion (saveToDB db last) = some () := by
  have hkey : (saveToDB db last)[[DB_KEY_VERSION]]? = some (putInt32 MWSTATE_DB_VERSION) :=
    getElem?_saveToDB_fixed db (mem_batch_fixed.mpr (inl ⟨rfl, rfl⟩))
  have hread := reads_int32 MWSTATE_DB_VERSION [] trivial
  rw [append_nil] at hread
  simp only [loadVersion, hkey, hread, Option.bind_some, if_true]

theorem loadMeta_saveToDB : loadMeta (saveToDB db last) state = some { state with
      hashLatestMWBlock := last.hashLatestMWBlock
      nHeight := last.nHeight
      nMWEBSupply := last.nMWEBSupply } := by
  have hkey : (saveToDB db last)[[DB_KEY_META]]? = some last.putMeta :=
    getElem?_saveToDB_fixed db (mem_batch_fixed.mpr (inr (inl ⟨rfl, rfl⟩)))
  have hsupply := reads_int64 last.nMWEBSupply [] trivial
  rw [append_nil] at hsupply
  simp only [loadMeta, hkey, putMeta, reads_hash _ _ trivial, reads_int32 _ _ trivial, hsupply,
    Option.bind_some, Option.map_some]

theorem loadMMR_saveToDB (hrep : last.Representable) : loadMMR (saveToDB db last) state =
    if MAX_SIZE < last.mmr.vNodes.length then none else some { state with mmr := last.mmr } := by
  have hkey : (saveToDB db last)[[DB_KEY_MMR]]? = some (putCMMR last.mmr) :=
    getElem?_saveToDB_fixed db (mem_batch_fixed.mpr (inr (inr (inl ⟨rfl, rfl⟩))))
  simp only [loadMMR, hkey]
  split
  · rename_i hlong
    have hread := getCMMR_too_long last.mmr [] hlong hrep.nodes
    rw [append_nil] at hread
    rw [hread, Option.map_none]
  · rename_i hshort
    have hread := reads_mmr last.mmr [] ⟨Nat.le_of_not_lt hshort, hrep.leaves⟩
    rw [append_nil] at hread
    rw [hread, Option.map_some]

theorem loadKernels_saveToDB (hrep : last.Representable) : loadKernels (saveToDB db last) state =
    some { state with vKernelExcesses := last.vKernelExcesses } := by
  have hkey : (saveToDB db last)[[DB_KEY_KERNEL_COUNT]]? = some (putLE 8 last.vKernelExcesses.length) :=
    getElem?_saveToDB_fixed db (mem_batch_fixed.mpr (inr (inr (inr ⟨rfl, rfl⟩))))
  have hcount := reads_LE 8 last.vKernelExcesses.length [] hrep.kernels
  rw [append_nil] at hcount
  have hkernel : ∀ i excess, last.vKernelExcesses[i]? = some excess →
      loadKernel (saveToDB db last) i = some excess := by
    intro i excess hi
    have hval : (saveToDB db last)[makeIndexKey DB_PREFIX_KERNEL i]? = some excess.toList := by
      refine getElem?_saveToDB_of_mem db (mem_batch_kernel.mpr ⟨i, excess, hi, rfl, rfl⟩) ?_
      intro v hv
      obtain ⟨j, other, hj, hij, rfl⟩ := mem_batch_kernel.mp hv
      have hlt := (List.getElem?_eq_some_iff.mp hi).1
      have hlt' := (List.getElem?_eq_some_iff.mp hj).1
      have heq := makeIndexKey_inj (hlt.trans hrep.kernels) (hlt'.trans hrep.kernels) hij
      rw [heq, hj] at hi
      rw [Option.some.inj hi]
    have hread := reads_vector 33 excess [] trivial
    rw [append_nil] at hread
    rw [loadKernel, hval, Option.bind_some, hread, Option.map_some]
  simp only [loadKernels, hkey, hcount, Option.bind_some]
  rw [mapM_range last.vKernelExcesses hkernel, Option.map_some]

/-- **The sections before the scan** load the last saved state, unless its MMR
has more nodes than can be read back. -/
theorem loadFromDB_saveToDB (hrep : last.Representable) :
    loadFromDB (saveToDB db last) state = if MAX_SIZE < last.mmr.vNodes.length then none
      else (saveToDB db last).toList.foldlM loadEntry
        { state.clearForLoad with
          mmr := last.mmr
          vKernelExcesses := last.vKernelExcesses
          hashLatestMWBlock := last.hashLatestMWBlock
          nHeight := last.nHeight
          nMWEBSupply := last.nMWEBSupply } := by
  rw [loadFromDB, loadVersion_saveToDB, Option.bind_some, loadMeta_saveToDB, Option.bind_some,
    loadMMR_saveToDB db _ hrep]
  split
  · rfl
  · rw [Option.bind_some, loadKernels_saveToDB db _ hrep, Option.bind_some]

end Sections

/-- Equality in everything that is saved; indexes are compared for the
commitments of the output map and the spent set. -/
structure SameSaved (loaded last : CMWState uint256) : Prop where
  mapOutputs : loaded.mapOutputs = last.mapOutputs
  setSpent : loaded.setSpent = last.setSpent
  mmr : loaded.mmr = last.mmr
  mapMMRIndex : ∀ c, c ∈ last.mapOutputs ∨ c ∈ last.setSpent →
    loaded.mapMMRIndex[c]? = last.mapMMRIndex[c]?
  vKernelExcesses : loaded.vKernelExcesses = last.vKernelExcesses
  hashLatestMWBlock : loaded.hashLatestMWBlock = last.hashLatestMWBlock
  nHeight : loaded.nHeight = last.nHeight
  nMWEBSupply : loaded.nMWEBSupply = last.nMWEBSupply

/-- The last state can be read back and every key of the earlier ones is among
its own. -/
structure Covers (older : List (CMWState uint256)) (last : CMWState uint256) : Prop where
  nodes : last.mmr.vNodes.length ≤ MAX_SIZE
  proofs : ∀ (c : Commitment) (out : CMWOutput), last.mapOutputs[c]? = some out →
    out.rangeProof.length ≤ MAX_SIZE
  outputs : ∀ state ∈ older, ∀ c ∈ state.mapOutputs, c ∈ last.mapOutputs
  spent : ∀ state ∈ older, ∀ c ∈ state.setSpent, c ∈ last.setSpent
  index : ∀ state ∈ older, ∀ c ∈ state.mapMMRIndex,
    c ∈ state.mapOutputs ∨ c ∈ state.setSpent → c ∈ last.mapMMRIndex

section Last

variable {db : MWStateDB} {last : CMWState uint256} {c : Commitment}

theorem getElem?_saveToDB_output {out : CMWOutput} (hout : last.mapOutputs[c]? = some out) :
    (saveToDB db last)[makeKey DB_PREFIX_OUTPUT c]? = some (putCMWOutput out) := by
  refine getElem?_saveToDB_of_mem db (mem_batch_output.mpr ⟨out, hout, rfl⟩) ?_
  intro v hv
  obtain ⟨other, hother, rfl⟩ := mem_batch_output.mp hv
  rw [hout] at hother
  rw [Option.some.inj hother]

theorem getElem?_saveToDB_index {nIdx : UInt64} (hidx : last.mapMMRIndex[c]? = some nIdx)
    (hc : c ∈ last.mapOutputs ∨ c ∈ last.setSpent) :
    (saveToDB db last)[makeKey DB_PREFIX_MMRINDEX c]? = some (putUInt64 nIdx) := by
  refine getElem?_saveToDB_of_mem db (mem_batch_index.mpr ⟨hc, nIdx, hidx, rfl⟩) ?_
  intro v hv
  obtain ⟨_, other, hother, rfl⟩ := mem_batch_index.mp hv
  rw [hidx] at hother
  rw [Option.some.inj hother]

theorem loadEntry_isSome {k v : Bytes} (state : CMWState uint256)
    (hout : ∀ c, k = makeKey DB_PREFIX_OUTPUT c → ∃ read, getCMWOutput v = some read)
    (hidx : ∀ c, k = makeKey DB_PREFIX_MMRINDEX c → ∃ read, getUInt64 v = some read) :
    ∃ state', loadEntry state (k, v) = some state' := by
  cases k with
  | nil => exact ⟨state, rfl⟩
  | cons cPrefix strKey =>
    simp only [loadEntry]
    split
    · rename_i hlen
      split
      · rename_i hletter
        obtain ⟨read, hread⟩ := hout ⟨strKey.toArray, by simp [hlen]⟩ (by rw [hletter]; rfl)
        rw [hread]
        exact ⟨_, rfl⟩
      · split
        · rename_i hletter
          obtain ⟨read, hread⟩ := hidx ⟨strKey.toArray, by simp [hlen]⟩ (by rw [hletter]; rfl)
          rw [hread]
          exact ⟨_, rfl⟩
        · split
          · exact ⟨_, rfl⟩
          · exact ⟨_, rfl⟩
    · exact ⟨_, rfl⟩

end Last

variable {older : List (CMWState uint256)}

theorem mem_saveAll_of_older {last state : CMWState uint256}
    (hstate : state ∈ older) (hkey : (k, v) ∈ state.batch) : k ∈ saveAll (older ++ [last]) :=
  mem_saveAll.mpr ⟨state, mem_append_left _ hstate, v, hkey⟩

theorem saveAll_concat (older : List (CMWState uint256)) (last : CMWState uint256) :
    saveAll (older ++ [last]) = saveToDB (saveAll older) last := by
  simp [saveAll]

theorem Covers.keys {last : CMWState uint256} (hcovers : Covers older last) :
    (makeKey DB_PREFIX_OUTPUT c ∈ saveAll (older ++ [last]) → c ∈ last.mapOutputs) ∧
    (makeKey DB_PREFIX_SPENT c ∈ saveAll (older ++ [last]) → c ∈ last.setSpent) ∧
    (makeKey DB_PREFIX_MMRINDEX c ∈ saveAll (older ++ [last]) →
      c ∈ last.mapMMRIndex ∧ (c ∈ last.mapOutputs ∨ c ∈ last.setSpent)) := by
  refine ⟨?_, ?_, ?_⟩
  · intro hkey
    obtain ⟨state, hstate, v, hv⟩ := mem_saveAll.mp hkey
    obtain ⟨out, hout, _⟩ := mem_batch_output.mp hv
    have hc : c ∈ state.mapOutputs := (mem_iff_exists _ _).mpr ⟨out, hout⟩
    rcases mem_append.mp hstate with hold | hlast
    · exact hcovers.outputs state hold c hc
    · exact mem_singleton.mp hlast ▸ hc
  · intro hkey
    obtain ⟨state, hstate, v, hv⟩ := mem_saveAll.mp hkey
    have hc := (mem_batch_spent.mp hv).1
    rcases mem_append.mp hstate with hold | hlast
    · exact hcovers.spent state hold c hc
    · exact mem_singleton.mp hlast ▸ hc
  · intro hkey
    obtain ⟨state, hstate, v, hv⟩ := mem_saveAll.mp hkey
    obtain ⟨hc, nIdx, hidx, _⟩ := mem_batch_index.mp hv
    have hmem : c ∈ state.mapMMRIndex := (mem_iff_exists _ _).mpr ⟨nIdx, hidx⟩
    rcases mem_append.mp hstate with hold | hlast
    · exact ⟨hcovers.index state hold c hmem hc,
        hc.imp (hcovers.outputs state hold c) (hcovers.spent state hold c)⟩
    · rw [mem_singleton] at hlast
      subst hlast
      exact ⟨hmem, hc⟩

theorem Covers.load {last : CMWState uint256}
    (hcovers : Covers older last) (hrep : last.Representable) (state : CMWState uint256) :
    ∃ loaded, loadFromDB (saveAll (older ++ [last])) state = some loaded ∧
      SameSaved loaded last ∧ loaded.mapBlockUndo = state.mapBlockUndo := by
  have hkeys := fun c => hcovers.keys (c := c)
  rw [saveAll_concat] at hkeys ⊢
  rw [loadFromDB_saveToDB _ _ hrep, if_neg (Nat.not_lt.mpr hcovers.nodes)]
  generalize saveAll older = db at hkeys ⊢
  have hentry : ∀ entry ∈ (saveToDB db last).toList, ∀ s,
      ∃ s', loadEntry s entry = some s' := by
    rintro ⟨k, v⟩ hmem s
    rw [mem_toList_iff_getElem?_eq_some] at hmem
    refine loadEntry_isSome s ?_ ?_
    · rintro c rfl
      have hc := (hkeys c).1 ((mem_iff_exists _ _).mpr ⟨v, hmem⟩)
      obtain ⟨out, hout⟩ := (mem_iff_exists _ _).mp hc
      rw [getElem?_saveToDB_output hout] at hmem
      cases hmem
      have hread := reads_output out [] (hcovers.proofs c out hout)
      rw [append_nil] at hread
      exact ⟨_, hread⟩
    · rintro c rfl
      obtain ⟨hc, hin⟩ := (hkeys c).2.2 ((mem_iff_exists _ _).mpr ⟨v, hmem⟩)
      obtain ⟨nIdx, hidx⟩ := (mem_iff_exists _ _).mp hc
      rw [getElem?_saveToDB_index hidx hin] at hmem
      cases hmem
      have hread := reads_uint64 nIdx [] trivial
      rw [append_nil] at hread
      exact ⟨_, hread⟩
  obtain ⟨loaded, hscan⟩ := foldlM_isSome hentry
    { state.clearForLoad with
      mmr := last.mmr
      vKernelExcesses := last.vKernelExcesses
      hashLatestMWBlock := last.hashLatestMWBlock
      nHeight := last.nHeight
      nMWEBSupply := last.nMWEBSupply }
  have hrest := scan_unscanned hscan
  simp only [unscanned, Prod.mk.injEq] at hrest
  obtain ⟨hmmr, hkernels, hhash, hheight, hsupply, hundo⟩ := hrest
  refine ⟨loaded, hscan, ⟨?_, ?_, hmmr, ?_, hkernels, hhash, hheight, hsupply⟩, hundo⟩
  · apply ExtTreeMap.ext_getElem?
    intro c
    obtain ⟨habsent, hpresent⟩ := scan_output hscan c
    cases hout : last.mapOutputs[c]? with
    | none =>
      have hnot : makeKey DB_PREFIX_OUTPUT c ∉ saveToDB db last := by
        intro hkey
        have := (mem_iff_exists _ _).mp ((hkeys c).1 hkey)
        simp [hout] at this
      rw [habsent (ExtTreeMap.getElem?_eq_none hnot)]
      simp [clearForLoad]
    | some out =>
      obtain ⟨out', rest, hget, hlook⟩ := hpresent _ (getElem?_saveToDB_output hout)
      have hread := reads_output out [] (hcovers.proofs c out hout)
      rw [append_nil, hget] at hread
      rw [hlook, (Prod.mk.inj (Option.some.inj hread)).1]
  · apply ExtTreeSet.ext_mem
    intro c
    rw [scan_spent hscan c]
    constructor
    · rintro (hold | hkey)
      · simp [clearForLoad] at hold
      · exact (hkeys c).2.1 hkey
    · intro hc
      refine inr ((mem_iff_exists _ _).mpr ⟨[], ?_⟩)
      exact getElem?_saveToDB_of_mem db (mem_batch_spent.mpr ⟨hc, rfl⟩)
        (fun v hv => (mem_batch_spent.mp hv).2)
  · intro c hc
    obtain ⟨habsent, hpresent⟩ := scan_index hscan c
    cases hidx : last.mapMMRIndex[c]? with
    | none =>
      have hnot : makeKey DB_PREFIX_MMRINDEX c ∉ saveToDB db last := by
        intro hkey
        have := (mem_iff_exists _ _).mp ((hkeys c).2.2 hkey).1
        simp [hidx] at this
      rw [habsent (ExtTreeMap.getElem?_eq_none hnot)]
      simp [clearForLoad]
    | some nIdx =>
      obtain ⟨nIdx', rest, hget, hlook⟩ := hpresent _ (getElem?_saveToDB_index hidx hc)
      have hread := reads_uint64 nIdx [] trivial
      rw [append_nil, hget] at hread
      rw [hlook, (Prod.mk.inj (Option.some.inj hread)).1]

/-- An output that a finished scan has read is within the size that can be read. -/
theorem scanned_rangeProof {db : MWStateDB} {last state loaded : CMWState uint256} (hrep : last.Representable)
    (hscan : (saveToDB db last).toList.foldlM loadEntry state = some loaded) {out : CMWOutput}
    (hout : last.mapOutputs[c]? = some out) : out.rangeProof.length ≤ MAX_SIZE := by
  obtain ⟨out', rest, hget, _⟩ := (scan_output hscan c).2 _ (getElem?_saveToDB_output hout)
  by_contra hlong
  have hread := getCMWOutput_too_long out [] (Nat.lt_of_not_le hlong) (hrep.proofs c out hout)
  rw [append_nil, hget] at hread
  cases hread

/-- **When a loaded state is the last saved one.**  Exactly when the last state
covers the earlier ones: its MMR and range proofs are within the size that can
be read back, and no earlier state left an output, spent mark or index behind
that the last one does not have. -/
theorem loadFromDB_saveAll (older : List (CMWState uint256)) (last : CMWState uint256)
    (hrep : last.Representable) (state : CMWState uint256) :
    (∃ loaded, loadFromDB (saveAll (older ++ [last])) state = some loaded ∧
      SameSaved loaded last) ↔ Covers older last := by
  constructor
  · rintro ⟨loaded, hload, hsame⟩
    have hkept : ∀ s ∈ older, ∀ k v, (k, v) ∈ s.batch → k ∈ saveAll (older ++ [last]) :=
      fun s hs k v hkey => mem_saveAll_of_older hs hkey
    rw [saveAll_concat] at hload hkept
    rw [loadFromDB_saveToDB _ _ hrep] at hload
    split at hload
    · cases hload
    · rename_i hnodes
      have hspent : ∀ s ∈ older, ∀ c ∈ s.setSpent, c ∈ last.setSpent := by
        intro s hs c hc
        rw [← hsame.setSpent, scan_spent hload c]
        exact inr (hkept s hs _ _ (mem_batch_spent.mpr ⟨hc, rfl⟩))
      have houtputs : ∀ s ∈ older, ∀ c ∈ s.mapOutputs, c ∈ last.mapOutputs := by
        intro s hs c hc
        obtain ⟨out, hout⟩ := (mem_iff_exists _ _).mp hc
        obtain ⟨v, hv⟩ := (mem_iff_exists _ _).mp
          (hkept s hs _ _ (mem_batch_output.mpr ⟨out, hout, rfl⟩))
        obtain ⟨out', _, _, hlook⟩ := (scan_output hload c).2 v hv
        rw [← hsame.mapOutputs, mem_iff_exists]
        exact ⟨out', hlook⟩
      refine ⟨Nat.le_of_not_lt hnodes, fun c out hout => scanned_rangeProof hrep hload hout,
        houtputs, hspent, ?_⟩
      · intro s hs c hidx hc
        obtain ⟨nIdx, hn⟩ := (mem_iff_exists _ _).mp hidx
        obtain ⟨v, hv⟩ := (mem_iff_exists _ _).mp
          (hkept s hs _ _ (mem_batch_index.mpr ⟨hc, nIdx, hn, rfl⟩))
        obtain ⟨nIdx', _, _, hlook⟩ := (scan_index hload c).2 v hv
        rw [hsame.mapMMRIndex c (hc.imp (houtputs s hs c) (hspent s hs c))] at hlook
        exact (mem_iff_exists _ _).mpr ⟨nIdx', hlook⟩
  · intro hcovers
    obtain ⟨loaded, hload, hsame, _⟩ := hcovers.load hrep state
    exact ⟨loaded, hload, hsame⟩

/-- A hash for concrete runs over `uint256`: it counts. -/
def countingSha : Sha256 uint256 := ⟨fun data => BitVec.ofNat 256 (data.length + 1), 0⟩

/-- A state with one output, and the state after that output is spent. -/
def unspentSample : CMWState uint256 :=
  ((empty countingSha).addOutput countingSha (sampleOutput 5)).getD (empty countingSha)

def spentSample : CMWState uint256 :=
  (unspentSample.spendOutput (sampleCommitment 5)).getD unspentSample

theorem unspentSample_mapOutputs {out : CMWOutput}
    (hout : unspentSample.mapOutputs[c]? = some out) : out = sampleOutput 5 := by
  have hmap : unspentSample.mapOutputs =
      (∅ : ExtTreeMap Commitment CMWOutput).insert (sampleCommitment 5) (sampleOutput 5) := rfl
  by_cases hc : sampleCommitment 5 = c
  · rw [hmap, ← hc, getElem?_insert_self] at hout
    exact (Option.some.inj hout).symm
  · rw [hmap, getElem?_insert_ne _ _ hc] at hout
    simp at hout

/-- The theorem at a single save of the state with one output. -/
theorem loadFromDB_saveAll_unspentSample :
    ∃ loaded, loadFromDB (saveAll ([] ++ [unspentSample])) (empty countingSha) = some loaded ∧
      SameSaved loaded unspentSample := by
  have hproof : ∀ (c : Commitment) (out : CMWOutput),
      unspentSample.mapOutputs[c]? = some out → out.rangeProof.length = 1 := by
    intro c out hout
    rw [unspentSample_mapOutputs hout]
    rfl
  have hrep : unspentSample.Representable :=
    ⟨by decide +kernel, by decide +kernel, by decide +kernel,
      fun c out hout => by rw [hproof c out hout]; decide⟩
  refine (loadFromDB_saveAll [] unspentSample hrep (empty countingSha)).mpr ?_
  exact ⟨by decide +kernel, fun c out hout => by rw [hproof c out hout]; decide, by simp, by simp, by simp⟩

/-- Saved before and after the spend, the state comes back with the spent
output unspent again. -/
theorem load_revives_spent_output :
    ∃ loaded, loadFromDB (saveAll [unspentSample, spentSample]) (empty countingSha) = some loaded ∧
      sampleCommitment 5 ∈ loaded.mapOutputs ∧ sampleCommitment 5 ∉ spentSample.mapOutputs ∧
      ¬ SameSaved loaded spentSample := by
  have hload : (loadFromDB (saveAll [unspentSample, spentSample]) (empty countingSha)).any
      (hasOutput · (sampleCommitment 5)) = true := by decide +kernel
  have hgone : sampleCommitment 5 ∉ spentSample.mapOutputs := by decide +kernel
  obtain ⟨loaded, hsome, hmem⟩ := (Option.any_eq_true _ _).mp hload
  have hback : sampleCommitment 5 ∈ loaded.mapOutputs := of_decide_eq_true hmem
  exact ⟨loaded, hsome, hback, hgone, fun hsame => hgone (hsame.mapOutputs ▸ hback)⟩

end CMWState

/-!
## Undo records do not survive a restart

`SaveToDB` writes everything but the undo records and their order, although
`CMWBlockUndo` has a serialization, and `LoadFromDB` does not touch them.  A
fresh state that loads a saved one therefore has no undo record at all, and
the first `DisconnectBlock` of a Mimblewimble block on it fails.
-/

open Option

namespace CMWState

theorem loadFromDB_mapBlockUndo {db : MWStateDB} {state loaded : CMWState uint256}
    (hload : loadFromDB db state = some loaded) : loaded.mapBlockUndo = state.mapBlockUndo := by
  obtain ⟨_, _, hload⟩ := bind_eq_some_iff.mp hload
  obtain ⟨afterMeta, hmeta, hload⟩ := bind_eq_some_iff.mp hload
  obtain ⟨afterMMR, hmmr, hload⟩ := bind_eq_some_iff.mp hload
  obtain ⟨afterKernels, hkernels, hscan⟩ := bind_eq_some_iff.mp hload
  have hscan' : loaded.mapBlockUndo = afterKernels.mapBlockUndo := by
    have hrest := scan_unscanned hscan
    simp only [unscanned, Prod.mk.injEq] at hrest
    exact hrest.2.2.2.2.2
  have hkernels' : afterKernels.mapBlockUndo = afterMMR.mapBlockUndo := by
    simp only [loadKernels] at hkernels
    split at hkernels
    · cases hkernels
      rfl
    · obtain ⟨_, _, hsome⟩ := bind_eq_some_iff.mp hkernels
      obtain ⟨_, _, rfl⟩ := map_eq_some_iff.mp hsome
      rfl
  have hmmr' : afterMMR.mapBlockUndo = afterMeta.mapBlockUndo := by
    simp only [loadMMR] at hmmr
    split at hmmr
    · cases hmmr
      rfl
    · obtain ⟨_, _, rfl⟩ := map_eq_some_iff.mp hmmr
      rfl
  have hmeta' : afterMeta.mapBlockUndo = state.mapBlockUndo := by
    simp only [loadMeta] at hmeta
    split at hmeta
    · cases hmeta
      rfl
    · obtain ⟨_, _, hsome⟩ := bind_eq_some_iff.mp hmeta
      obtain ⟨_, _, hsome⟩ := bind_eq_some_iff.mp hsome
      obtain ⟨_, _, rfl⟩ := map_eq_some_iff.mp hsome
      rfl
  rw [hscan', hkernels', hmmr', hmeta']

/-- After a save into `db` and a load by a fresh state, block `hashBlock` can
still be disconnected, with the same result as before the restart. -/
def RestartKeepsUndo (sha : Sha256 uint256) (db : MWStateDB) (state : CMWState uint256)
    (hashBlock : uint256) : Prop :=
  ∃ loaded, loadFromDB (saveToDB db state) (empty sha) = some loaded ∧
    (loaded.disconnectBlock hashBlock false).1 = true ∧
    (loaded.disconnectBlock hashBlock false).2.view = (state.disconnectBlock hashBlock false).2.view

/-- **A restart loses the ability to reorganise**, for every state and every
block: whatever was saved, the loaded state refuses to disconnect. -/
theorem restart_loses_undo (sha : Sha256 uint256) (db : MWStateDB) (state : CMWState uint256)
    (hashBlock : uint256) : ¬ RestartKeepsUndo sha db state hashBlock ∧
      ∀ loaded, loadFromDB (saveToDB db state) (empty sha) = some loaded →
        loaded.disconnectBlock hashBlock false = (false, loaded) := by
  have hrefuse : ∀ loaded, loadFromDB (saveToDB db state) (empty sha) = some loaded →
      loaded.disconnectBlock hashBlock false = (false, loaded) := by
    intro loaded hload
    have hnone : loaded.mapBlockUndo[hashBlock]? = none := by
      rw [loadFromDB_mapBlockUndo hload]
      simp [empty]
    simp only [disconnectBlock, hnone]
  refine ⟨?_, hrefuse⟩
  rintro ⟨loaded, hload, htrue, _⟩
  rw [hrefuse loaded hload] at htrue
  cases htrue

/-- The state after one Mimblewimble block with hash 7. -/
def oneBlockSample : CMWState uint256 :=
  ((empty countingSha).applyBlock countingSha
    ⟨0, ⟨[], [sampleOutput 5], []⟩, [], 1, Vector.replicate 32 0⟩ 1 7 10).getD (empty countingSha)

/-- Its block can be disconnected before the restart; the load succeeds, and
then it cannot. -/
theorem oneBlockSample_restart :
    oneBlockSample.hasUndo 7 = true ∧ (oneBlockSample.disconnectBlock 7 false).1 = true ∧
      ∃ loaded, loadFromDB (saveToDB ∅ oneBlockSample) (empty countingSha) = some loaded ∧
        (loaded.disconnectBlock 7 false).1 = false := by
  have hload : (loadFromDB (saveToDB ∅ oneBlockSample) (empty countingSha)).any
      (fun loaded => !(loaded.disconnectBlock 7 false).1) = true := by decide +kernel
  obtain ⟨loaded, hsome, hfalse⟩ := (Option.any_eq_true _ _).mp hload
  exact ⟨by decide +kernel, by decide +kernel, loaded, hsome, by simpa using hfalse⟩

end CMWState

end MaryJaneCoin
