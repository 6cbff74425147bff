import MaryJaneCoin.Mw.StatePersist

/-!
# What a load leaves

`LoadFromDB` clears the object before it reads, so a load that returns false leaves
what it had read by then.  After any number of saves that is a part of the last
saved state, as long as the last save wrote every output and every spent mark that
the earlier ones did.
-/

namespace MaryJaneCoin

open Std Codec FinMap ExtTreeMap List OptionLoop

namespace CMWState

/-- `LoadFromDB` with the object it leaves, also when it returns false.  A section
that fails leaves the object as it was before the section: of what `SaveToDB`
writes, only the length of the MMR and the output of an entry can fail. -/
def reload (db : MWStateDB) (state : CMWState uint256) : Bool × CMWState uint256 :=
  match (loadVersion db).bind fun _ => loadMeta db state.clearForLoad with
  | none => (false, state.clearForLoad)
  | some withMeta =>
    match loadMMR db withMeta with
    | none => (false, withMeta)
    | some withMMR =>
      match loadKernels db withMMR with
      | none => (false, withMMR)
      | some withKernels => reach loadEntry db.toList withKernels

theorem loadFromDB_eq_reload (db : MWStateDB) (state : CMWState uint256) :
    loadFromDB db state = if (reload db state).1 then some (reload db state).2 else none := by
  rw [loadFromDB, reload]
  cases hversion : loadVersion db with
  | none => rfl
  | some u =>
    cases hmeta : loadMeta db state.clearForLoad with
    | none => simp
    | some withMeta =>
      cases hmmr : loadMMR db withMeta with
      | none => simp [hmmr]
      | some withMMR =>
        cases hkernels : loadKernels db withMMR with
        | none => simp [hmmr, hkernels]
        | some withKernels =>
          simp only [hmmr, hkernels, Option.bind_some]
          exact foldlM_eq_reach _ _

/-- The object once the sections before the scan are read. -/
def scanStart (last state : CMWState uint256) : CMWState uint256 :=
  { state.clearForLoad with
    mmr := last.mmr
    vKernelExcesses := last.vKernelExcesses
    hashLatestMWBlock := last.hashLatestMWBlock
    nHeight := last.nHeight
    nMWEBSupply := last.nMWEBSupply }

theorem reload_saveToDB (db : MWStateDB) {last : CMWState uint256} (hrep : last.Representable)
    (state : CMWState uint256) : reload (saveToDB db last) state =
      if MAX_SIZE < last.mmr.vNodes.length then
        (false, { state.clearForLoad with
          hashLatestMWBlock := last.hashLatestMWBlock
          nHeight := last.nHeight
          nMWEBSupply := last.nMWEBSupply })
      else reach loadEntry (saveToDB db last).toList (last.scanStart state) := by
  rw [reload, loadVersion_saveToDB, Option.bind_some, loadMeta_saveToDB]
  simp only [loadMMR_saveToDB db _ hrep]
  by_cases hlong : MAX_SIZE < last.mmr.vNodes.length
  · simp only [if_pos hlong]
  · simp only [if_neg hlong, loadKernels_saveToDB db _ hrep]
    rfl

section Prefix

variable {entries pre post : List (Bytes × Bytes)} {state left : CMWState uint256}

theorem scanned_output (hscan : entries.foldlM loadEntry state = some left)
    (hempty : state.mapOutputs = ∅) (c : Commitment) (out : CMWOutput)
    (hlook : left.mapOutputs[c]? = some out) :
    ∃ v rest, (makeKey DB_PREFIX_OUTPUT c, v) ∈ entries ∧ getCMWOutput v = some (out, rest) := by
  refine foldlM_invariant (fun s => ∀ (c : Commitment) (out : CMWOutput),
    s.mapOutputs[c]? = some out → ∃ v rest, (makeKey DB_PREFIX_OUTPUT c, v) ∈ entries ∧
      getCMWOutput v = some (out, rest)) ?_ hscan ?_ c out hlook
  · rintro ⟨k, v⟩ hmem s s' hinv hstep c out hlook
    rcases loadEntry_cases hstep with ⟨c', out', rest, rfl, hget, rfl⟩ | ⟨_, _, _, _, _, rfl⟩ |
      ⟨_, _, rfl⟩ | ⟨_, rfl⟩
    · by_cases hc : c' = c
      · subst hc
        rw [getElem?_insert_self] at hlook
        cases hlook
        exact ⟨v, rest, hmem, hget⟩
      · rw [getElem?_insert_ne _ _ hc] at hlook
        exact hinv c out hlook
    · exact hinv c out hlook
    · exact hinv c out hlook
    · exact hinv c out hlook
  · intro c out hnone
    simp [hempty] at hnone

theorem scanned_spent (hscan : entries.foldlM loadEntry state = some left)
    (hempty : state.setSpent = ∅) (c : Commitment) (hspent : c ∈ left.setSpent) :
    ∃ v, (makeKey DB_PREFIX_SPENT c, v) ∈ entries := by
  refine foldlM_invariant (fun s => ∀ c ∈ s.setSpent,
    ∃ v, (makeKey DB_PREFIX_SPENT c, v) ∈ entries) ?_ hscan ?_ c hspent
  · rintro ⟨k, v⟩ hmem s s' hinv hstep c hspent
    rcases loadEntry_cases hstep with ⟨_, _, _, _, _, rfl⟩ | ⟨_, _, _, _, _, rfl⟩ |
      ⟨c', rfl, rfl⟩ | ⟨_, rfl⟩
    · exact hinv c hspent
    · exact hinv c hspent
    · rw [ExtTreeSet.mem_insert, LawfulEqCmp.compare_eq_iff_eq] at hspent
      rcases hspent with rfl | hold
      · exact ⟨v, hmem⟩
      · exact hinv c hold
    · exact hinv c hspent
  · intro c hmem
    simp [hempty] at hmem

theorem scanned_index (hdistinct : entries.Pairwise fun a b => ¬ compare a.1 b.1 = .eq)
    (hscan : entries.foldlM loadEntry state = some left) {c : Commitment} {nIdx : UInt64}
    (hmem : (makeKey DB_PREFIX_MMRINDEX c, putUInt64 nIdx) ∈ entries) : left.mapMMRIndex[c]? = some nIdx := by
  obtain ⟨s, s', hstep, hlook⟩ := foldlM_loadEntry_at (fun s => s.mapMMRIndex[c]?) hdistinct
    (loadEntry_index_frame c) hmem hscan
  rw [hlook]
  rcases loadEntry_cases hstep with ⟨_, _, _, hk, _, _⟩ | ⟨c', n, rest, hk, hget, rfl⟩ |
    ⟨_, hk, _⟩ | ⟨hk, _⟩
  · exact absurd (makeKey_inj.mp hk).1 (by decide)
  · obtain ⟨_, rfl⟩ := makeKey_inj.mp hk
    have hread := reads_uint64 nIdx [] trivial
    rw [append_nil, hget] at hread
    rw [getElem?_insert_self, (Prod.mk.inj (Option.some.inj hread)).1]
  · exact absurd (makeKey_inj.mp hk).1 (by decide)
  · exact absurd rfl (hk c).2.1

/-- The entries come in the order of their keys, so whatever stands under a higher
letter comes after the indexes. -/
theorem index_before {letter : UInt8} (hletter : compare letter DB_PREFIX_MMRINDEX = .gt)
    (hsorted : (pre ++ post).Pairwise fun a b => compare a.1 b.1 = .lt) {c c' : Commitment}
    {v v' : Bytes} (hmem : (makeKey letter c', v') ∈ pre)
    (hindex : (makeKey DB_PREFIX_MMRINDEX c, v) ∈ pre ++ post) : (makeKey DB_PREFIX_MMRINDEX c, v) ∈ pre := by
  rcases mem_append.mp hindex with hpre | hpost
  · exact hpre
  · exfalso
    have hlt : compare (makeKey letter c') (makeKey DB_PREFIX_MMRINDEX c) = .lt :=
      (pairwise_append.mp hsorted).2.2 _ hmem _ hpost
    simp [makeKey, List.compare_cons_cons, hletter] at hlt

end Prefix

/-- The last save wrote every output and every spent mark that the earlier ones did. -/
structure Keeps (older : List (CMWState uint256)) (last : CMWState uint256) : Prop where
  outputs : ∀ state ∈ older, ∀ c ∈ state.mapOutputs, c ∈ last.mapOutputs
  spent : ∀ state ∈ older, ∀ c ∈ state.setSpent, c ∈ last.setSpent

/-- Part of a saved state: outputs and spent marks of it, with their indexes. -/
structure Remnant (last left : CMWState uint256) : Prop where
  outputs : ∀ (c : Commitment) (out : CMWOutput),
    left.mapOutputs[c]? = some out → last.mapOutputs[c]? = some out
  spent : ∀ c ∈ left.setSpent, c ∈ last.setSpent
  index : ∀ (c : Commitment) (nIdx : UInt64), c ∈ left.mapOutputs ∨ c ∈ left.setSpent →
    last.mapMMRIndex[c]? = some nIdx → left.mapMMRIndex[c]? = some nIdx
  mmr : left.mmr = last.mmr ∨
    left.mmr = CMMR.empty ∧ left.mapOutputs = ∅ ∧ left.setSpent = ∅
  kernels : left.vKernelExcesses = last.vKernelExcesses ∨ left.vKernelExcesses = []

variable {older : List (CMWState uint256)} {last : CMWState uint256}

theorem Keeps.output_value (hkeeps : Keeps older last) (hrep : last.Representable)
    {c : Commitment} {v : Bytes} {out : CMWOutput} {rest : Bytes}
    (hentry : (saveAll (older ++ [last]))[makeKey DB_PREFIX_OUTPUT c]? = some v)
    (hget : getCMWOutput v = some (out, rest)) : last.mapOutputs[c]? = some out := by
  have hmem : c ∈ last.mapOutputs := by
    obtain ⟨state, hstate, v', hv⟩ := mem_saveAll.mp ((mem_iff_exists _ _).mpr ⟨v, hentry⟩)
    obtain ⟨old, hold, _⟩ := mem_batch_output.mp hv
    have hc : c ∈ state.mapOutputs := (mem_iff_exists _ _).mpr ⟨old, hold⟩
    rcases mem_append.mp hstate with hin | hin
    · exact hkeeps.outputs state hin c hc
    · exact mem_singleton.mp hin ▸ hc
  obtain ⟨own, hown⟩ := (mem_iff_exists _ _).mp hmem
  rw [saveAll_concat, getElem?_saveToDB_output hown] at hentry
  rw [← Option.some.inj hentry] at hget
  by_cases hlong : MAX_SIZE < own.rangeProof.length
  · have hread := getCMWOutput_too_long own [] hlong (hrep.proofs c own hown)
    rw [append_nil, hget] at hread
    cases hread
  · have hread := reads_output own [] (Nat.le_of_not_lt hlong)
    rw [append_nil, hget] at hread
    rw [hown, (Prod.mk.inj (Option.some.inj hread)).1]

theorem Keeps.spent_mark (hkeeps : Keeps older last) {c : Commitment}
    (hkey : makeKey DB_PREFIX_SPENT c ∈ saveAll (older ++ [last])) : c ∈ last.setSpent := by
  obtain ⟨state, hstate, v, hv⟩ := mem_saveAll.mp hkey
  have hc := (mem_batch_spent.mp hv).1
  rcases mem_append.mp hstate with hin | hin
  · exact hkeeps.spent state hin c hc
  · exact mem_singleton.mp hin ▸ hc

/-- What the scan has made of the database at any point. -/
theorem Keeps.scan_remnant (hkeeps : Keeps older last) (hrep : last.Representable)
    {state left : CMWState uint256} {pre post : List (Bytes × Bytes)}
    (hsplit : (saveAll (older ++ [last])).toList = pre ++ post)
    (hscan : pre.foldlM loadEntry (last.scanStart state) = some left) : Remnant last left := by
  have hentry : ∀ k v, (k, v) ∈ pre → (saveAll (older ++ [last]))[k]? = some v := by
    intro k v hmem
    rw [← mem_toList_iff_getElem?_eq_some, hsplit]
    exact mem_append_left _ hmem
  have hsorted := (saveAll (older ++ [last])).ordered_keys_toList
  have hdistinct := (saveAll (older ++ [last])).distinct_keys_toList
  rw [hsplit] at hsorted hdistinct
  have hrest := foldlM_frame unscanned (fun entry _ s s' hstep => by
    rcases loadEntry_cases hstep with ⟨_, _, _, _, _, rfl⟩ | ⟨_, _, _, _, _, rfl⟩ | ⟨_, _, rfl⟩ |
      ⟨_, rfl⟩ <;> rfl) hscan
  simp only [unscanned, Prod.mk.injEq] at hrest
  refine ⟨?_, ?_, ?_, Or.inl hrest.1, Or.inl hrest.2.1⟩
  · intro c out hlook
    obtain ⟨v, rest, hmem, hget⟩ := scanned_output hscan rfl c out hlook
    exact hkeeps.output_value hrep (hentry _ _ hmem) hget
  · intro c hspent
    obtain ⟨v, hmem⟩ := scanned_spent hscan rfl c hspent
    exact hkeeps.spent_mark ((mem_iff_exists _ _).mpr ⟨v, hentry _ _ hmem⟩)
  · intro c nIdx hused hidx
    refine scanned_index (pairwise_append.mp hdistinct).1 hscan ?_
    have hindex : (c ∈ last.mapOutputs ∨ c ∈ last.setSpent) →
        (makeKey DB_PREFIX_MMRINDEX c, putUInt64 nIdx) ∈ pre ++ post := by
      intro hin
      rw [← hsplit, mem_toList_iff_getElem?_eq_some, saveAll_concat]
      exact getElem?_saveToDB_index hidx hin
    rcases hused with hmem | hmem
    · obtain ⟨out, hlook⟩ := (mem_iff_exists _ _).mp hmem
      obtain ⟨v, rest, hpre, hget⟩ := scanned_output hscan rfl c out hlook
      have hown := hkeeps.output_value hrep (hentry _ _ hpre) hget
      exact index_before rfl hsorted hpre (hindex (Or.inl ((mem_iff_exists _ _).mpr ⟨out, hown⟩)))
    · obtain ⟨v, hpre⟩ := scanned_spent hscan rfl c hmem
      have hown := hkeeps.spent_mark ((mem_iff_exists _ _).mpr ⟨v, hentry _ _ hpre⟩)
      exact index_before rfl hsorted hpre (hindex (Or.inr hown))

/-- **What a load leaves is part of the last saved state.** -/
theorem Keeps.reload_remnant (hkeeps : Keeps older last) (hrep : last.Representable)
    (state : CMWState uint256) : Remnant last (reload (saveAll (older ++ [last])) state).2 := by
  rw [saveAll_concat, reload_saveToDB _ hrep]
  by_cases hlong : MAX_SIZE < last.mmr.vNodes.length
  · rw [if_pos hlong]
    refine ⟨?_, ?_, ?_, Or.inr ⟨rfl, rfl, rfl⟩, Or.inr rfl⟩
    · intro c out hlook
      simp [clearForLoad] at hlook
    · intro c hmem
      simp [clearForLoad] at hmem
    · intro c nIdx hmem
      simp [clearForLoad] at hmem
  · rw [if_neg hlong, ← saveAll_concat]
    obtain ⟨pre, post, hsplit, hscan⟩ := @OptionLoop.exists_prefix_of_reach _ _ loadEntry
      (saveAll (older ++ [last])).toList (last.scanStart state)
    exact hkeeps.scan_remnant hrep hsplit hscan

/-- **A load that succeeds restores the last saved state**, if the commitments of
that state are indexed. -/
theorem Keeps.reload_same (hkeeps : Keeps older last) (hrep : last.Representable)
    (hindexed : ∀ c, c ∈ last.mapOutputs ∨ c ∈ last.setSpent → c ∈ last.mapMMRIndex)
    {state : CMWState uint256} (hok : (reload (saveAll (older ++ [last])) state).1 = true) :
    SameSaved (reload (saveAll (older ++ [last])) state).2 last := by
  have hload := loadFromDB_eq_reload (saveAll (older ++ [last])) state
  rw [if_pos hok] at hload
  have hscan := hload
  rw [saveAll_concat, loadFromDB_saveToDB _ _ hrep] at hscan
  split at hscan
  · cases hscan
  · rename_i hnodes
    have hcovers : Covers older last :=
      { nodes := Nat.le_of_not_lt hnodes
        proofs := fun c out hout => scanned_rangeProof hrep hscan hout
        outputs := hkeeps.outputs
        spent := hkeeps.spent
        index := fun s hs c _ hc =>
          hindexed c (hc.imp (hkeeps.outputs s hs c) (hkeeps.spent s hs c)) }
    obtain ⟨loaded, hloaded, hsame, _⟩ := hcovers.load hrep state
    rw [hload] at hloaded
    cases hloaded
    exact hsame

theorem reload_undo (db : MWStateDB) (hrep : last.Representable) (state : CMWState uint256) :
    (reload (saveToDB db last) state).2.mapBlockUndo = state.mapBlockUndo ∧
      (reload (saveToDB db last) state).2.dqUndoOrder = state.dqUndoOrder := by
  rw [reload_saveToDB _ hrep]
  by_cases hlong : MAX_SIZE < last.mmr.vNodes.length
  · rw [if_pos hlong]
    exact ⟨rfl, rfl⟩
  · rw [if_neg hlong]
    obtain ⟨pre, post, _, hscan⟩ := @OptionLoop.exists_prefix_of_reach _ _ loadEntry
      (saveToDB db last).toList (last.scanStart state)
    have hframe := foldlM_frame
      (fun s : CMWState uint256 => (s.mapBlockUndo, s.dqUndoOrder)) (fun entry _ s s' hstep => by
        rcases loadEntry_cases hstep with ⟨_, _, _, _, _, rfl⟩ | ⟨_, _, _, _, _, rfl⟩ |
          ⟨_, _, rfl⟩ | ⟨_, rfl⟩ <;> rfl) hscan
    exact Prod.mk.inj hframe

end CMWState

end MaryJaneCoin
