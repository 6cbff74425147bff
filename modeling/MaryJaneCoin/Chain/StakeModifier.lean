import MaryJaneCoin.Chain.StakeKernel

/-!
# The next stake modifier

`ComputeNextStakeModifier` draws one bit from each of up to 64 earlier blocks.  A round
chooses, among the candidates that no earlier round has chosen, the one with the smallest
selection hash up to a time that moves on from round to round.
-/

namespace MaryJaneCoin

open Std List Int StakeNode CBlockIndex

/-- A node with what the selection reads of its index entries besides. -/
structure ModifierNode (H : Type) [Ord H] extends StakeNode H where
  /-- `GetStakeEntropyBit` of the entry with a hash. -/
  fStakeEntropyBit : H → Bool
  /-- `hashProofOfStake` of the entry with a hash. -/
  hashProofOfStake : H → H

/-- `pair<int64_t, uint256>` of a candidate. -/
def CBlockIndex.candidate {H : Type} (pindex : CBlockIndex H) : Int × H :=
  (pindex.nTime.toNat, pindex.hash)

/-- The order of such pairs. -/
def candidateLe {H : Type} [Ord H] (a b : Int × H) : Bool :=
  a.1 < b.1 || (a.1 == b.1 && (compare a.2 b.2).isLE)

/-- The number of rounds, `min(64, (int)size)`. -/
def selectionRoundsOf (size : Nat) : Nat := (min 64 ((size : Int).bmod (2 ^ 32))).toNat

namespace ModifierNode

section

variable {H : Type} [Ord H] [TransOrd H] (w : StakeWorld H)

def getLastStakeModifier (s : ModifierNode H) : PIndex H → Option (UInt64 × Int)
  | [] => none
  | pindex :: pprev =>
    if s.generatedStakeModifier pindex then some (s.stakeModifier pindex, pindex.nTime.toNat)
    else s.getLastStakeModifier pprev

/-- `hashSelection` of a candidate. -/
def hashSelection (s : ModifierNode H) (nStakeModifierPrev : UInt64) (pindex : CBlockIndex H) : Int :=
  let hashProof := if pindex.fProofOfStake then s.hashProofOfStake pindex.hash else pindex.hash
  let hashSelection := w.bigNum (w.sha256d (.digest hashProof :: feedLE 8 nStakeModifierPrev.toNat))
  if pindex.fProofOfStake then hashSelection / 2 ^ 32 else hashSelection

/-- The loop of `SelectBlockFromCandidates`, with `hashBest` and `*pindexSelected` once
`fSelected` is set.  It is `none` when a candidate is not indexed. -/
def selectLoop (s : ModifierNode H) (mapSelectedBlocks : ExtTreeMap H (CBlockIndex H))
    (nSelectionIntervalStop : Int) (nStakeModifierPrev : UInt64) :
    List (Int × H) → Option (Int × CBlockIndex H) → Option (Option (Int × CBlockIndex H))
  | [], best => some best
  | item :: items, best =>
    match s.mapBlockIndex[item.2]? with
    | some (pindex :: _) =>
      if best.isSome && decide ((pindex.nTime.toNat : Int) > nSelectionIntervalStop) then some best
      else if mapSelectedBlocks.contains pindex.hash then
        selectLoop s mapSelectedBlocks nSelectionIntervalStop nStakeModifierPrev items best
      else
        let hash := s.hashSelection w nStakeModifierPrev pindex
        selectLoop s mapSelectedBlocks nSelectionIntervalStop nStakeModifierPrev items
          (if best.all fun chosen => hash < chosen.1 then some (hash, pindex) else best)
    | _ => none

/-- `SelectBlockFromCandidates`; `none` when it returns false. -/
def selectBlockFromCandidates (s : ModifierNode H) (vSortedByTimestamp : List (Int × H))
    (mapSelectedBlocks : ExtTreeMap H (CBlockIndex H)) (nSelectionIntervalStop : Int)
    (nStakeModifierPrev : UInt64) : Option (CBlockIndex H) :=
  ((s.selectLoop w mapSelectedBlocks nSelectionIntervalStop nStakeModifierPrev vSortedByTimestamp
    none).bind id).map Prod.snd

/-- The rounds of `ComputeNextStakeModifier` from one on; `none` when no block is selected. -/
def selectionRounds (s : ModifierNode H) (vSortedByTimestamp : List (Int × H))
    (nStakeModifier : UInt64) :
    Nat → Nat → Int → UInt64 → ExtTreeMap H (CBlockIndex H) → Option UInt64
  | 0, _, _, nStakeModifierNew, _ => some nStakeModifierNew
  | rounds + 1, nRound, nSelectionIntervalStop, nStakeModifierNew, mapSelectedBlocks => do
      let nSelectionIntervalStop :=
        nSelectionIntervalStop + getStakeModifierSelectionIntervalSection nRound
      let pindex ← s.selectBlockFromCandidates w vSortedByTimestamp mapSelectedBlocks
        nSelectionIntervalStop nStakeModifier
      s.selectionRounds vSortedByTimestamp nStakeModifier rounds (nRound + 1) nSelectionIntervalStop
        (nStakeModifierNew ||| ((s.fStakeEntropyBit pindex.hash).toNat.toUInt64 <<< nRound.toUInt64))
        (mapSelectedBlocks.insertIfNew pindex.hash pindex)

/-- `nSelectionIntervalStart`. -/
def selectionIntervalStart (pindexPrev : CBlockIndex H) : Int :=
  (pindexPrev.nTime.toNat / nModifierInterval * nModifierInterval : Nat) -
    (getStakeModifierSelectionInterval : Int)

/-- The entries that the loop back from `pindexPrev` collects. -/
def candidates (nSelectionIntervalStart : Int) (path : PIndex H) : List (CBlockIndex H) :=
  path.takeWhile fun pindex => decide (nSelectionIntervalStart ≤ (pindex.nTime.toNat : Int))

/-- `vSortedByTimestamp`. -/
def sortedByTimestamp (nSelectionIntervalStart : Int) (path : PIndex H) : List (Int × H) :=
  ((candidates nSelectionIntervalStart path).map CBlockIndex.candidate).reverse.mergeSort candidateLe

/-- `ComputeNextStakeModifier`: the modifier and whether it is generated; `none` for an error. -/
def computeNextStakeModifier (s : ModifierNode H) (path : PIndex H) : Option (UInt64 × Bool) :=
  match path with
  | [] => some (0, true)
  | pindexPrev :: _ => do
      let (nStakeModifier, nModifierTime) ← s.getLastStakeModifier path
      if nModifierTime / nModifierInterval ≥ pindexPrev.nTime.toNat / nModifierInterval then
        some (nStakeModifier, false)
      else
        let nSelectionIntervalStart := selectionIntervalStart pindexPrev
        let vSortedByTimestamp := sortedByTimestamp nSelectionIntervalStart path
        let nStakeModifierNew ← s.selectionRounds w vSortedByTimestamp nStakeModifier
          (selectionRoundsOf vSortedByTimestamp.length) 0 nSelectionIntervalStart 0 ∅
        some (nStakeModifierNew, true)

end

variable {H : Type} [Ord H] [TransOrd H] {w : StakeWorld H} {s : ModifierNode H}
  {m : UInt64} {nStop : Int} {selected : ExtTreeMap H (CBlockIndex H)}

/-- **The choice of a round** among the candidates that are left: the smallest selection hash up
to the stop, and when they all lie behind it the earliest one. -/
structure Picks (w : StakeWorld H) (s : ModifierNode H) (nStakeModifierPrev : UInt64)
    (fresh : List (CBlockIndex H)) (nStop : Int) (pindex : CBlockIndex H) : Prop where
  mem : pindex ∈ fresh
  within : ∀ entry ∈ fresh, (entry.nTime.toNat : Int) ≤ nStop →
    (pindex.nTime.toNat : Int) ≤ nStop ∧
      s.hashSelection w nStakeModifierPrev pindex ≤ s.hashSelection w nStakeModifierPrev entry
  earliest : (∀ entry ∈ fresh, nStop < (entry.nTime.toNat : Int)) →
    ∀ entry ∈ fresh, pindex.nTime ≤ entry.nTime

/-- The candidates that are not selected yet. -/
def freshOf (selected : ExtTreeMap H (CBlockIndex H)) (entries : List (CBlockIndex H)) :
    List (CBlockIndex H) :=
  entries.filter fun pindex => !selected.contains pindex.hash

variable {pindex : CBlockIndex H}

theorem freshOf_cons_selected (entries : List (CBlockIndex H))
    (hselected : selected.contains pindex.hash = true) :
    freshOf selected (pindex :: entries) = freshOf selected entries :=
  filter_cons_of_neg (by rw [hselected]; exact Bool.false_ne_true)

theorem freshOf_cons_new (entries : List (CBlockIndex H))
    (hselected : ¬selected.contains pindex.hash = true) :
    freshOf selected (pindex :: entries) = pindex :: freshOf selected entries :=
  filter_cons_of_pos (by rw [Bool.not_eq_true _ |>.mp hselected]; rfl)

/-- Each entry is found in the block index under its hash. -/
def Found (s : ModifierNode H) (entries : List (CBlockIndex H)) : Prop :=
  ∀ pindex ∈ entries, ∃ below, s.mapBlockIndex[pindex.hash]? = some (pindex :: below)

/-- The entries stand in the order of their times. -/
abbrev InTime (entries : List (CBlockIndex H)) : Prop :=
  entries.Pairwise fun pindex later => pindex.nTime ≤ later.nTime

theorem selectLoop_cons {below : PIndex H} (entries : List (CBlockIndex H)) (best : Option
    (Int × CBlockIndex H)) (hlook : s.mapBlockIndex[pindex.hash]? = some (pindex :: below)) :
    s.selectLoop w selected nStop m ((pindex :: entries).map candidate) best =
      if best.isSome && decide ((pindex.nTime.toNat : Int) > nStop) then some best
      else if selected.contains pindex.hash then
        s.selectLoop w selected nStop m (entries.map candidate) best
      else s.selectLoop w selected nStop m (entries.map candidate)
          (if best.all fun chosen => s.hashSelection w m pindex < chosen.1 then
            some (s.hashSelection w m pindex, pindex) else best) := by
  rw [map_cons, selectLoop]
  simp only [candidate, hlook]

variable {entries : List (CBlockIndex H)}

/-- **Once a block is selected** the loop goes on to the smallest hash up to the stop. -/
theorem selectLoop_some (selected : ExtTreeMap H (CBlockIndex H)) (nStop : Int)
    (m : UInt64) (hfound : Found s entries) (htime : InTime entries) (best : Int × CBlockIndex H) :
    ∃ chosen, s.selectLoop w selected nStop m (entries.map candidate) (some best) =
        some (some chosen) ∧ chosen.1 ≤ best.1 ∧
      (chosen = best ∨ ∃ pindex ∈ freshOf selected entries, (pindex.nTime.toNat : Int) ≤ nStop ∧
        chosen = (s.hashSelection w m pindex, pindex)) ∧
      ∀ entry ∈ freshOf selected entries, (entry.nTime.toNat : Int) ≤ nStop →
        chosen.1 ≤ s.hashSelection w m entry := by
  induction entries generalizing best with
  | nil => exact ⟨best, rfl, le_rfl, .inl rfl, by simp [freshOf]⟩
  | cons pindex entries ih =>
    obtain ⟨below, hlook⟩ := hfound pindex mem_cons_self
    have hrest : Found s entries := fun entry hentry => hfound entry (mem_cons_of_mem _ hentry)
    obtain ⟨hearlier, htail⟩ := pairwise_cons.mp htime
    rw [selectLoop_cons entries _ hlook, Option.isSome_some, Bool.true_and]
    by_cases hlate : (pindex.nTime.toNat : Int) > nStop
    · -- what follows lies behind the stop as well
      rw [if_pos (decide_eq_true hlate)]
      refine ⟨best, rfl, le_rfl, .inl rfl, fun entry hentry hwithin => absurd hlate ?_⟩
      rcases List.mem_cons.mp (mem_of_mem_filter hentry) with rfl | hafter
      · exact Int.not_lt.mpr hwithin
      · have hle := UInt32.le_iff_toNat_le.mp (hearlier entry hafter)
        omega
    · rw [if_neg (by simpa using hlate)]
      by_cases hselected : selected.contains pindex.hash = true
      · rw [if_pos hselected]
        rw [freshOf_cons_selected entries hselected]
        exact ih hrest htail best
      · rw [if_neg hselected]
        rw [freshOf_cons_new entries hselected, Option.all_some]
        by_cases hsmaller : s.hashSelection w m pindex < best.1
        · obtain ⟨chosen, hloop, hle, hfrom, hmin⟩ := ih hrest htail (s.hashSelection w m pindex, pindex)
          rw [if_pos (decide_eq_true hsmaller)]
          refine ⟨chosen, hloop, hle.trans hsmaller.le, .inr ?_, ?_⟩
          · rcases hfrom with heq | ⟨entry, hentry, hwithin, heq⟩
            · exact ⟨pindex, mem_cons_self, Int.not_lt.mp hlate, heq⟩
            · exact ⟨entry, mem_cons_of_mem _ hentry, hwithin, heq⟩
          · intro entry hentry hwithin
            rcases List.mem_cons.mp hentry with rfl | hafter
            · exact hle
            · exact hmin entry hafter hwithin
        · obtain ⟨chosen, hloop, hle, hfrom, hmin⟩ := ih hrest htail best
          rw [if_neg (by simpa using hsmaller)]
          refine ⟨chosen, hloop, hle, ?_, ?_⟩
          · refine hfrom.imp_right fun hentry => ?_
            obtain ⟨entry, hentry, hwithin, heq⟩ := hentry
            exact ⟨entry, mem_cons_of_mem _ hentry, hwithin, heq⟩
          · intro entry hentry hwithin
            rcases List.mem_cons.mp hentry with rfl | hafter
            · exact hle.trans (Int.not_lt.mp hsmaller)
            · exact hmin entry hafter hwithin

/-- **A round selects** as long as a candidate is left. -/
theorem selectBlockFromCandidates_some (nStop : Int) (m : UInt64)
    (hfound : Found s entries) (htime : InTime entries) (hleft : freshOf selected entries ≠ []) :
    ∃ pindex, s.selectBlockFromCandidates w (entries.map candidate) selected nStop m =
        some pindex ∧ Picks w s m (freshOf selected entries) nStop pindex := by
  induction entries with
  | nil => exact absurd rfl hleft
  | cons pindex entries ih =>
    obtain ⟨below, hlook⟩ := hfound pindex mem_cons_self
    have hrest : Found s entries := fun entry hentry => hfound entry (mem_cons_of_mem _ hentry)
    obtain ⟨hearlier, htail⟩ := pairwise_cons.mp htime
    rw [selectBlockFromCandidates, selectLoop_cons entries _ hlook, Option.isSome_none,
      Bool.false_and, if_neg Bool.false_ne_true]
    by_cases hselected : selected.contains pindex.hash = true
    · rw [freshOf_cons_selected entries hselected] at hleft ⊢
      rw [if_pos hselected]
      exact ih hrest htail hleft
    · obtain ⟨chosen, hloop, hle, hfrom, hmin⟩ :=
        selectLoop_some (w := w) selected nStop m hrest htail (s.hashSelection w m pindex, pindex)
      rw [if_neg hselected, Option.all_none, if_pos rfl, hloop, freshOf_cons_new entries hselected]
      refine ⟨chosen.2, rfl, ?_⟩
      rcases hfrom with rfl | ⟨entry, hentry, hwithin, rfl⟩
      · refine ⟨mem_cons_self, fun entry hentry hwithin => ?_, fun _ entry hentry => ?_⟩
        · rcases List.mem_cons.mp hentry with rfl | hafter
          · exact ⟨hwithin, le_rfl⟩
          · have htimes := UInt32.le_iff_toNat_le.mp
              (hearlier entry (mem_of_mem_filter hafter))
            have hfirst : (pindex.nTime.toNat : Int) ≤ nStop := by omega
            exact ⟨hfirst, hmin entry hafter hwithin⟩
        · rcases List.mem_cons.mp hentry with rfl | hafter
          · exact UInt32.le_refl _
          · exact hearlier entry (mem_of_mem_filter hafter)
      · refine ⟨mem_cons_of_mem _ hentry, fun other hother hbefore => ⟨hwithin, ?_⟩, fun hnone => ?_⟩
        · rcases List.mem_cons.mp hother with rfl | hafter
          · exact hle
          · exact hmin other hafter hbefore
        · exact absurd (hnone entry (mem_cons_of_mem _ hentry)) (Int.not_lt.mpr hwithin)

/-- `mapSelectedBlocks` after these choices. -/
def selectedMap (chosen : List (CBlockIndex H)) : ExtTreeMap H (CBlockIndex H) :=
  chosen.foldl (fun selected pindex => selected.insertIfNew pindex.hash pindex) ∅

theorem selectedMap_append (chosen : List (CBlockIndex H)) (pindex : CBlockIndex H) :
    selectedMap (chosen ++ [pindex]) = (selectedMap chosen).insertIfNew pindex.hash pindex := by
  rw [selectedMap, foldl_append]
  rfl

theorem mem_selectedMap [LawfulEqOrd H] (chosen : List (CBlockIndex H)) (hash : H) :
    hash ∈ selectedMap chosen ↔ hash ∈ chosen.map CBlockIndex.hash := by
  induction chosen using List.reverseRecOn with
  | nil => simp [selectedMap]
  | append_singleton chosen pindex ih =>
    have hcompare : compare pindex.hash hash = .eq ↔ pindex.hash = hash := LawfulEqCmp.compare_eq_iff_eq
    rw [selectedMap_append, ExtTreeMap.mem_insertIfNew, ih, hcompare, map_append, mem_append,
      map_singleton, mem_singleton, or_comm, eq_comm]

/-- The stop of a round, behind a start. -/
def stopAt (nStart : Int) (nRound : Nat) : Int :=
  nStart + (((List.range nRound).map getStakeModifierSelectionIntervalSection).sum : Nat)

theorem stopAt_succ (nStart : Int) (nRound : Nat) : stopAt nStart (nRound + 1) =
    stopAt nStart nRound + getStakeModifierSelectionIntervalSection nRound := by
  rw [stopAt, stopAt, range_succ, map_append, sum_append, map_singleton,
    sum_singleton, natCast_add, Int.add_assoc]

theorem testBit_addBit {new : UInt64} {nRound : Nat} (bit : Bool) (hround : nRound < 64)
    (hnew : ∀ r, nRound ≤ r → new.toNat.testBit r = false) (r : Nat) :
    (new ||| (bit.toNat.toUInt64 <<< nRound.toUInt64)).toNat.testBit r =
      if r = nRound then bit else new.toNat.testBit r := by
  have hshift : (bit.toNat.toUInt64 <<< nRound.toUInt64).toNat = bit.toNat * 2 ^ nRound := by
    have hlt : bit.toNat * 2 ^ nRound < 2 ^ 64 := by
      have hbit := bit.toNat_le
      have hpow : 2 ^ nRound < 2 ^ 64 := Nat.pow_lt_pow_right (by decide) hround
      have hle := Nat.mul_le_mul_right (2 ^ nRound) hbit
      omega
    have hbit : bit.toNat.toUInt64.toNat = bit.toNat := by cases bit <;> rfl
    have hround' : nRound.toUInt64.toNat = nRound := by
      simp only [UInt64.toNat_ofNat']
      omega
    rw [UInt64.toNat_shiftLeft, hbit, hround', Nat.mod_eq_of_lt hround, Nat.shiftLeft_eq,
      Nat.mod_eq_of_lt hlt]
  rw [UInt64.toNat_or, hshift, Nat.testBit_or]
  by_cases hr : r = nRound
  · rw [if_pos hr, hr, hnew nRound le_rfl, Bool.false_or]
    cases bit <;> simp
  · rw [if_neg hr]
    cases bit with
    | false => simp
    | true => simp [Ne.symm hr]

variable [LawfulEqOrd H]

/-- **The rounds.**  Each of them selects as long as there are more candidates than earlier
choices, and adds the bit of its choice. -/
theorem selectionRounds_some (hfound : Found s entries)
    (htime : InTime entries) (hdistinct : (entries.map CBlockIndex.hash).Nodup) (nStart : Int)
    (m : UInt64) (rounds : Nat) (earlier : List (CBlockIndex H)) (new : UInt64)
    (hcount : earlier.length + rounds ≤ entries.length) (hrounds : earlier.length + rounds ≤ 64)
    (hnew : ∀ r, earlier.length ≤ r → new.toNat.testBit r = false) :
    ∃ (later : List (CBlockIndex H)) (result : UInt64), later.length = rounds ∧
      s.selectionRounds w (entries.map candidate) m rounds earlier.length
        (stopAt nStart earlier.length) new (selectedMap earlier) = some result ∧
      (∀ r pindex, later[r]? = some pindex → s.selectBlockFromCandidates w (entries.map candidate)
            (selectedMap (earlier ++ later.take r)) (stopAt nStart (earlier.length + r + 1)) m =
        some pindex ∧ Picks w s m (freshOf (selectedMap (earlier ++ later.take r)) entries)
          (stopAt nStart (earlier.length + r + 1)) pindex) ∧
      ∀ r, result.toNat.testBit r = if r < earlier.length then new.toNat.testBit r
        else later[r - earlier.length]?.any fun pindex => s.fStakeEntropyBit pindex.hash := by
  induction rounds generalizing earlier new with
  | zero =>
    refine ⟨[], new, rfl, rfl, by simp, fun r => ?_⟩
    split
    · rfl
    · next hr => rw [hnew r (Nat.le_of_not_lt hr)]; rfl
  | succ rounds ih =>
    have hleft : freshOf (selectedMap earlier) entries ≠ [] := by
      intro hnone
      -- then the hashes of the candidates stand among fewer choices
      have hsubset : entries.map CBlockIndex.hash ⊆ earlier.map CBlockIndex.hash := by
        intro hash hmem
        obtain ⟨pindex, hentry, rfl⟩ := mem_map.mp hmem
        have hselected := filter_eq_nil_iff.mp hnone pindex hentry
        rw [Bool.not_eq_true', Bool.not_eq_false, ExtTreeMap.contains_iff_mem] at hselected
        exact (mem_selectedMap earlier _).mp hselected
      have hle := (hdistinct.subperm hsubset).length_le
      rw [length_map, length_map] at hle
      omega
    obtain ⟨pindex, hselect, hpicks⟩ := selectBlockFromCandidates_some (w := w)
      (stopAt nStart (earlier.length + 1)) m hfound htime hleft
    have hlength : (earlier ++ [pindex]).length = earlier.length + 1 := by simp
    have hbits := testBit_addBit (s.fStakeEntropyBit pindex.hash)
      (show earlier.length < 64 by omega) hnew
    obtain ⟨later, result, hlater, hrun, hpicked, hresult⟩ := ih (earlier ++ [pindex])
      (new ||| ((s.fStakeEntropyBit pindex.hash).toNat.toUInt64 <<< earlier.length.toUInt64))
      (by omega) (by omega) (fun r hr => by
        rw [hlength] at hr
        rw [hbits, if_neg (by omega), hnew r (by omega)])
    rw [hlength, selectedMap_append] at hrun
    rw [hlength] at hpicked hresult
    refine ⟨pindex :: later, result, by rw [length_cons, hlater], ?_, ?_, ?_⟩
    · rw [selectionRounds, ← stopAt_succ, hselect]
      exact hrun
    · intro r chosen hchosen
      cases r with
      | zero =>
        obtain rfl : pindex = chosen := Option.some.inj hchosen
        rw [take_zero, append_nil]
        exact ⟨hselect, hpicks⟩
      | succ r =>
        have hnext := hpicked r chosen hchosen
        rw [append_assoc, singleton_append,
          show earlier.length + 1 + r + 1 = earlier.length + (r + 1) + 1 by omega] at hnext
        exact hnext
    · intro r
      rw [hresult, hbits]
      by_cases hbefore : r < earlier.length
      · rw [if_pos (by omega), if_neg (by omega), if_pos hbefore]
      · rw [if_neg hbefore]
        by_cases hhere : r = earlier.length
        · rw [if_pos (by omega), if_pos hhere, hhere, Nat.sub_self]
          rfl
        · rw [if_neg (by omega), show r - earlier.length = (r - (earlier.length + 1)) + 1 by omega]
          rfl

/-- The candidates in the order of their times. -/
def sortedEntries (nStart : Int) (path : PIndex H) : List (CBlockIndex H) :=
  (candidates nStart path).reverse.mergeSort fun pindex later =>
    candidateLe pindex.candidate later.candidate

section

omit [TransOrd H] [LawfulEqOrd H]

theorem sortedByTimestamp_eq (nStart : Int) (path : PIndex H) :
    sortedByTimestamp nStart path = (sortedEntries nStart path).map candidate := by
  rw [sortedByTimestamp, sortedEntries, ← map_reverse]
  exact (map_mergeSort (f := candidate) (s := candidateLe) fun _ _ _ _ => rfl).symm

theorem perm_sortedEntries (nStart : Int) (path : PIndex H) :
    (sortedEntries nStart path).Perm (candidates nStart path) :=
  (mergeSort_perm _ _).trans (reverse_perm _)

theorem le_of_candidateLe {a b : Int × H} (h : candidateLe a b = true) : a.1 ≤ b.1 := by
  rw [candidateLe, Bool.or_eq_true, decide_eq_true_eq, Bool.and_eq_true, beq_iff_eq] at h
  rcases h with hlt | hsame
  · exact hlt.le
  · exact hsame.1.le

end

section

omit [LawfulEqOrd H]

theorem inTime_sortedEntries (nStart : Int) (path : PIndex H) : InTime (sortedEntries nStart path) := by
  have htrans : ∀ a b c : Int × H, candidateLe a b = true → candidateLe b c = true →
      candidateLe a c = true := by
    intro a b c hab hbc
    simp only [candidateLe, Bool.or_eq_true, decide_eq_true_eq, Bool.and_eq_true, beq_iff_eq] at *
    rcases hab with hlt | ⟨heq, hle⟩
    · rcases hbc with hlt' | ⟨heq', -⟩
      · exact .inl (hlt.trans hlt')
      · exact .inl (heq' ▸ hlt)
    · rcases hbc with hlt' | ⟨heq', hle'⟩
      · exact .inl (heq ▸ hlt')
      · exact .inr ⟨heq.trans heq', TransCmp.isLE_trans hle hle'⟩
  have htotal : ∀ a b : Int × H, (candidateLe a b || candidateLe b a) = true := by
    intro a b
    simp only [candidateLe, Bool.or_eq_true, decide_eq_true_eq, Bool.and_eq_true, beq_iff_eq]
    rcases Int.lt_trichotomy a.1 b.1 with hlt | heq | hgt
    · exact .inl (.inl hlt)
    · cases hcompare : (compare a.2 b.2).isLE with
      | true => exact .inl (.inr ⟨heq, rfl⟩)
      | false =>
        refine .inr (.inr ⟨heq.symm, ?_⟩)
        rw [show compare b.2 a.2 = (compare a.2 b.2).swap from OrientedCmp.eq_swap]
        cases hordering : compare a.2 b.2 with
        | lt => rw [hordering] at hcompare; cases hcompare
        | eq => rfl
        | gt => rfl
    · exact .inr (.inl hgt)
  have hsorted : (sortedEntries nStart path).Pairwise fun pindex later =>
      candidateLe pindex.candidate later.candidate = true :=
    pairwise_mergeSort (fun a b c => htrans a.candidate b.candidate c.candidate)
      (fun a b => htotal a.candidate b.candidate) _
  refine hsorted.imp fun hle => UInt32.le_iff_toNat_le.mpr ?_
  exact ofNat_le.mp (le_of_candidateLe hle)

theorem found_of_indexed {path : PIndex H} (hindexed : Node.Indexed s.mapBlockIndex path) : Found s path := by
  intro pindex hmem
  obtain ⟨above, below, rfl⟩ := append_of_mem hmem
  exact ⟨below, (hindexed pindex below (suffix_append _ _)).1⟩

theorem nodup_of_indexed {path : PIndex H} (hindexed : Node.Indexed s.mapBlockIndex path) :
    (path.map CBlockIndex.hash).Nodup := by
  induction path with
  | nil => exact nodup_nil
  | cons pindex pprev ih =>
    rw [map_cons, nodup_cons]
    refine ⟨fun hmem => ?_, ih (hindexed.suffix (suffix_cons _ _))⟩
    obtain ⟨lower, hlower, hhash⟩ := mem_map.mp hmem
    obtain ⟨above, below, rfl⟩ := append_of_mem hlower
    exact hindexed.hash_ne (suffix_append _ _) hhash

end

theorem bmod_natCast_le (size m : Nat) : (size : Int).bmod m ≤ size := by
  have hmod : (size : Int) % m ≤ size := by
    rw [← natCast_emod]
    exact ofNat_le.mpr (Nat.mod_le _ _)
  rw [bmod_def]
  split
  · exact hmod
  · omega

theorem selectionRoundsOf_le (size : Nat) : selectionRoundsOf size ≤ size ∧ selectionRoundsOf size ≤ 64 := by
  have hmin : ∀ rounds : Int, rounds ≤ size → (min 64 rounds).toNat ≤ size ∧ (min 64 rounds).toNat ≤ 64 := by
    intro rounds hle
    omega
  exact hmin _ (bmod_natCast_le size _)

omit [LawfulEqOrd H] in
theorem getLastStakeModifier_some {path : PIndex H} (hne : path ≠ [])
    (hgenesis : ∀ genesis, path.getLast? = some genesis → s.generatedStakeModifier genesis = true) :
    ∃ last, s.getLastStakeModifier path = some last := by
  induction path with
  | nil => exact absurd rfl hne
  | cons pindex pprev ih =>
    rw [getLastStakeModifier]
    split
    · exact ⟨_, rfl⟩
    · next hnot =>
        cases pprev with
        | nil => exact absurd (hgenesis pindex rfl) hnot
        | cons prev rest =>
          refine ih (cons_ne_nil _ _) fun genesis hlast => hgenesis genesis ?_
          rw [getLast?_cons_cons, hlast]

/-- **What the rounds behind `pindexPrev` come to**, from the modifier `m`: the blocks they
choose, one after the other and each of them once, and their entropy bits. -/
structure Selects (w : StakeWorld H) (s : ModifierNode H) (path : PIndex H) (nStart : Int)
    (m : UInt64) (chosen : List (CBlockIndex H)) (nStakeModifierNew : UInt64) : Prop where
  rounds : chosen.length = selectionRoundsOf (candidates nStart path).length
  distinct : (chosen.map CBlockIndex.hash).Nodup
  picked : ∀ nRound pindex, chosen[nRound]? = some pindex →
    s.selectBlockFromCandidates w (sortedByTimestamp nStart path) (selectedMap (chosen.take nRound))
        (stopAt nStart (nRound + 1)) m = some pindex ∧
      Picks w s m (freshOf (selectedMap (chosen.take nRound)) (candidates nStart path))
        (stopAt nStart (nRound + 1)) pindex
  bits : ∀ nRound, nStakeModifierNew.toNat.testBit nRound =
    chosen[nRound]?.any fun pindex => s.fStakeEntropyBit pindex.hash

omit [TransOrd H] [LawfulEqOrd H] in
theorem Picks.perm {fresh fresh' : List (CBlockIndex H)} (h : Picks w s m fresh nStop pindex)
    (hperm : fresh.Perm fresh') : Picks w s m fresh' nStop pindex where
  mem := hperm.mem_iff.mp h.mem
  within entry hentry := h.within entry (hperm.mem_iff.mpr hentry)
  earliest hlate entry hentry :=
    h.earliest (fun other hother => hlate other (hperm.mem_iff.mp hother)) entry (hperm.mem_iff.mpr hentry)

theorem selectionRounds_selects {path : PIndex H} (hindexed : Node.Indexed s.mapBlockIndex path)
    (nStart : Int) (m : UInt64) : ∃ chosen result, s.selectionRounds w (sortedByTimestamp nStart path) m
        (selectionRoundsOf (sortedByTimestamp nStart path).length) 0 nStart 0 ∅ = some result ∧
      Selects w s path nStart m chosen result := by
  have hperm := perm_sortedEntries nStart path
  have hsublist : List.Sublist (candidates nStart path) path := takeWhile_sublist _
  have hfound : Found s (sortedEntries nStart path) := fun pindex hmem =>
    found_of_indexed hindexed pindex (hsublist.subset (hperm.subset hmem))
  have hdistinct : ((sortedEntries nStart path).map CBlockIndex.hash).Nodup :=
    (hperm.map _).nodup_iff.mpr ((hsublist.map _).nodup (nodup_of_indexed hindexed))
  have hsize : (sortedByTimestamp nStart path).length = (sortedEntries nStart path).length := by
    rw [sortedByTimestamp_eq, length_map]
  obtain ⟨hle, hle64⟩ := selectionRoundsOf_le (sortedEntries nStart path).length
  obtain ⟨chosen, result, hlength, hrun, hpicked, hbits⟩ := selectionRounds_some (w := w)
    hfound (inTime_sortedEntries nStart path) hdistinct nStart m
    (selectionRoundsOf (sortedEntries nStart path).length) [] 0 (by simpa using hle)
    (by simpa using hle64) (fun r _ => Nat.zero_testBit r)
  have hstart : stopAt nStart 0 = nStart := Int.add_zero nStart
  have hpick : ∀ nRound pindex, chosen[nRound]? = some pindex →
      s.selectBlockFromCandidates w (sortedByTimestamp nStart path)
          (selectedMap (chosen.take nRound)) (stopAt nStart (nRound + 1)) m = some pindex ∧
        Picks w s m (freshOf (selectedMap (chosen.take nRound)) (candidates nStart path))
          (stopAt nStart (nRound + 1)) pindex := by
    intro nRound pindex hchosen
    have hround := hpicked nRound pindex hchosen
    rw [nil_append, length_nil, Nat.zero_add, ← sortedByTimestamp_eq] at hround
    exact ⟨hround.1, hround.2.perm (hperm.filter _)⟩
  refine ⟨chosen, result, ?_, ?_, ?_, hpick, fun nRound => ?_⟩
  · rw [hsize, sortedByTimestamp_eq]
    rw [length_nil, hstart] at hrun
    exact hrun
  · rw [hlength, hperm.length_eq]
  · refine nodup_iff_getElem?_ne_getElem?.mpr fun i j hij hj heq => ?_
    rw [length_map] at hj
    rw [getElem?_map, getElem?_map, getElem?_eq_getElem hj, getElem?_eq_getElem (hij.trans hj)] at heq
    have hfresh := (hpick j chosen[j] (getElem?_eq_getElem hj)).2.mem
    have hnew := (mem_filter.mp hfresh).2
    rw [Bool.not_eq_true', ← Bool.not_eq_true, ExtTreeMap.contains_iff_mem, mem_selectedMap,
      ← Option.some.inj heq] at hnew
    refine hnew (mem_map_of_mem (mem_iff_getElem?.mpr ⟨i, ?_⟩))
    rw [getElem?_take_of_lt hij, getElem?_eq_getElem (hij.trans hj)]
  · rw [hbits, length_nil, if_neg (Nat.not_lt_zero _), Nat.sub_zero]

/-- **`ComputeNextStakeModifier` is total.**  Behind a chain whose genesis has a generated
modifier it ends without an error, with the last modifier as it was or with a new one from
the choices of its rounds. -/
theorem computeNextStakeModifier_total (path : PIndex H) (hindexed : Node.Indexed s.mapBlockIndex path)
    (hgenesis : ∀ genesis, path.getLast? = some genesis → s.generatedStakeModifier genesis = true) :
    ∃ nStakeModifier fGenerated, s.computeNextStakeModifier w path =
      some (nStakeModifier, fGenerated) ∧ ∀ pindexPrev pprev, path = pindexPrev :: pprev →
        ∃ m nModifierTime, s.getLastStakeModifier path = some (m, nModifierTime) ∧
          (fGenerated = false → nStakeModifier = m) ∧
          (fGenerated = true → ∃ chosen, Selects w s path
            (selectionIntervalStart pindexPrev) m chosen nStakeModifier) := by
  cases path with
  | nil => exact ⟨0, true, rfl, nofun⟩
  | cons pindexPrev pprev =>
    obtain ⟨⟨m, nModifierTime⟩, hlast⟩ := getLastStakeModifier_some (cons_ne_nil _ _) hgenesis
    by_cases hsame : nModifierTime / nModifierInterval ≥ pindexPrev.nTime.toNat / nModifierInterval
    · refine ⟨m, false, ?_, ?_⟩
      · simp only [computeNextStakeModifier, hlast, Option.bind_eq_bind, Option.bind_some, if_pos hsame]
      · intro _ _ _
        exact ⟨m, nModifierTime, hlast, fun _ => rfl, nofun⟩
    · obtain ⟨chosen, result, hrun, hselects⟩ := selectionRounds_selects (w := w) hindexed
        (selectionIntervalStart pindexPrev) m
      refine ⟨result, true, ?_, ?_⟩
      · simp only [computeNextStakeModifier, hlast, Option.bind_eq_bind, Option.bind_some, if_neg hsame, hrun]
      · intro prev rest hpath
        cases hpath
        exact ⟨m, nModifierTime, hlast, nofun, fun _ => ⟨chosen, hselects⟩⟩

omit [LawfulEqOrd H] in
/-- A new interval has a new modifier. -/
theorem generated_of_later {pindexPrev : CBlockIndex H} {pprev : PIndex H} {nModifierTime : Int}
    {nStakeModifier : UInt64} {fGenerated : Bool}
    (hlast : s.getLastStakeModifier (pindexPrev :: pprev) = some (m, nModifierTime))
    (hlater : ¬nModifierTime / nModifierInterval ≥ pindexPrev.nTime.toNat / nModifierInterval)
    (h : s.computeNextStakeModifier w (pindexPrev :: pprev) = some (nStakeModifier, fGenerated)) :
    fGenerated = true := by
  simp only [computeNextStakeModifier, hlast, Option.bind_eq_bind, Option.bind_some,
    if_neg hlater] at h
  obtain ⟨_, -, heq⟩ := Option.bind_eq_some_iff.mp h
  exact (Prod.mk.inj (Option.some.inj heq)).2.symm

/-- A node whose last block comes twenty minutes behind the others. -/
def lateNode : ModifierNode (List Nat) where
  toStakeNode :=
    { StakeNode.forkNode [0] 1200 1 true with
      nStakeModifier := (∅ : ExtTreeMap (List Nat) (UInt64 × Bool)).insert
        (sampleGenesis.getHash sampleConsensus) (5, true) }
  fStakeEntropyBit hash := hash == [0]
  hashProofOfStake _ := []

theorem computeNextStakeModifier_total_late : ∃ nStakeModifier chosen,
      lateNode.computeNextStakeModifier StakeNode.stakeWorld lateNode.pindexBest =
        some (nStakeModifier, true) ∧ Selects StakeNode.stakeWorld lateNode lateNode.pindexBest
        (selectionIntervalStart (StakeNode.lateIndex [0] 1200)) 5 chosen nStakeModifier := by
  have hbest := (StakeNode.forkNode_sameBranch [0] 1200 1 true (by decide +kernel)).inOrder.best
  have hgenesis : lateNode.pindexBest.getLast?.all lateNode.generatedStakeModifier = true := by
    decide +kernel
  have hfirst : lateNode.getLastStakeModifier lateNode.pindexBest = some (5, 0) := by decide +kernel
  obtain ⟨nStakeModifier, fGenerated, hrun, hlast⟩ := computeNextStakeModifier_total
    (w := StakeNode.stakeWorld) (s := lateNode) lateNode.pindexBest hbest fun genesis hmem => by
      rw [hmem] at hgenesis
      exact hgenesis
  obtain ⟨m, nModifierTime, hm, -, hselects⟩ := hlast _ _ rfl
  obtain rfl : fGenerated = true := generated_of_later hfirst (by decide) hrun
  obtain rfl : m = 5 := congrArg Prod.fst (Option.some.inj (hm.symm.trans hfirst))
  obtain ⟨chosen, hchosen⟩ := hselects rfl
  exact ⟨nStakeModifier, chosen, hrun, hchosen⟩

end ModifierNode

end MaryJaneCoin
