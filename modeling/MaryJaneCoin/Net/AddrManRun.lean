import MaryJaneCoin.Net.AddrManTried

/-!
# Runs of the address manager

`Check_` finds nothing in an address manager that is in order.  Every call finds what it asserts
and leaves the address manager in order, so every sequence of calls does, as long as the
identifiers suffice.
-/

namespace MaryJaneCoin

open Std Buckets OptionLoop ExtTreeMap

namespace CAddrMan

variable {s : CAddrMan} {nId : Int} {info : CAddrInfo}

/-- What `Check_` notes of an entry that is in order. -/
def note (sets : CheckSets) (entry : Int × CAddrInfo) : CheckSets :=
  if entry.2.fInTried then (sets.1.insert entry.1, sets.2)
  else (sets.1, sets.2.insert entry.1 entry.2.nRefCount)

/-- **The tests of `Check_` on an entry** pass. -/
theorem checkInfo_eq (h : s.Sound) (hinfo : s.mapInfo[nId]? = some info) (sets : CheckSets) :
    s.checkInfo sets (nId, info) = .ok (note sets (nId, info)) := by
  obtain ⟨hlt, hpos, hget⟩ := h.indexed.lt_length hinfo
  obtain ⟨hsuccess, htry⟩ := h.filed.times hinfo
  have haddr := h.indexed.address hinfo
  have hclass : checkClass sets nId info = .ok (note sets (nId, info)) := by
    rw [checkClass, note]
    by_cases htried : info.fInTried = true
    · obtain ⟨hrefs, hne, -⟩ := h.filed.tried hinfo htried
      rw [if_pos htried, if_neg hne, if_neg (not_not_intro hrefs), if_pos htried]
    · obtain ⟨-, hone, hle, -⟩ := h.filed.new hinfo (Bool.not_eq_true _ ▸ htried)
      rw [if_neg htried, if_neg (by omega), if_neg (by omega), if_neg htried]
  rw [checkInfo]
  simp only [hclass, Except.bind, haddr, Option.getD_some]
  rw [if_neg (not_not_intro rfl), if_neg, if_neg (Int.not_lt.mpr htry), if_neg (Int.not_lt.mpr hsuccess)]
  rintro (hneg | hlarge | hother)
  · omega
  · omega
  · exact hother hget

theorem mem_note (sets : CheckSets) (entry : Int × CAddrInfo) :
    nId ∈ (note sets entry).1 ↔ nId ∈ sets.1 ∨ entry.1 = nId ∧ entry.2.fInTried = true := by
  rw [note]
  split
  · rename_i htried
    rw [ExtTreeSet.mem_insert, Std.compare_eq_iff_eq, or_comm, and_iff_left htried]
  · rename_i hnew
    rw [or_iff_left fun htried => hnew htried.2]

theorem getElem?_note (sets : CheckSets) (entry : Int × CAddrInfo) : (note sets entry).2[nId]? =
      if entry.1 = nId ∧ entry.2.fInTried = false then some entry.2.nRefCount else sets.2[nId]? := by
  rw [note]
  split
  · rename_i htried
    rw [if_neg fun hnew => Bool.false_ne_true (hnew.2.symm.trans htried)]
  · rename_i hnew
    have hfalse : entry.2.fInTried = false := Bool.not_eq_true _ ▸ hnew
    by_cases heq : entry.1 = nId
    · rw [if_pos ⟨heq, hfalse⟩, getElem?_insert, if_pos (Std.compare_eq_iff_eq.mpr heq)]
    · rw [if_neg fun hboth => heq hboth.1, FinMap.getElem?_insert_ne _ _ heq]

/-- **The loop of `Check_` over the entries** notes the tried and the new ones. -/
theorem checkInfos_spec (h : s.Sound) {items : List (Int × CAddrInfo)}
    (hitems : ∀ entry ∈ items, s.mapInfo[entry.1]? = some entry.2) (sets : CheckSets) :
    ∃ noted, items.foldlM s.checkInfo sets = .ok noted ∧ (∀ nId, nId ∈ noted.1 ↔ nId ∈ sets.1 ∨
      ∃ entry ∈ items, entry.1 = nId ∧ entry.2.fInTried = true) ∧
      (∀ entry ∈ items, entry.2.fInTried = false → noted.2[entry.1]? = some entry.2.nRefCount) ∧
      ∀ nId, (∀ entry ∈ items, entry.1 = nId → entry.2.fInTried = true) → noted.2[nId]? = sets.2[nId]? := by
  induction items generalizing sets with
  | nil => exact ⟨sets, rfl, by simp, by simp, fun _ _ => rfl⟩
  | cons entry items ih =>
    obtain ⟨noted, hnoted, hmem, hnew, hkept⟩ :=
      ih (fun entry hentry => hitems entry (List.mem_cons_of_mem _ hentry)) (note sets entry)
    have hfirst := hitems entry List.mem_cons_self
    refine ⟨noted, by rw [List.foldlM_cons, checkInfo_eq h hfirst]; exact hnoted, ?_, ?_, ?_⟩
    · intro nId
      rw [hmem, mem_note, or_assoc, List.exists_mem_cons_iff]
    · intro found hfound hfalse
      rcases List.mem_cons.mp hfound with rfl | hlater
      · by_cases hagain : ∃ later ∈ items, later.1 = found.1 ∧ later.2.fInTried = false
        · obtain ⟨later, hlater, heq, hlaterNew⟩ := hagain
          have hsame := hitems later (List.mem_cons_of_mem _ hlater)
          rw [heq, hfirst, Option.some.injEq] at hsame
          rw [← heq, hsame]
          exact hnew later hlater hlaterNew
        · rw [hkept, getElem?_note, if_pos ⟨rfl, hfalse⟩]
          intro later hlater heq
          exact Bool.not_eq_false _ ▸ fun hlaterNew => hagain ⟨later, hlater, heq, hlaterNew⟩
      · exact hnew found hlater hfalse
    · intro nId htried
      rw [hkept nId fun later hlater heq => htried later (List.mem_cons_of_mem _ hlater) heq,
        getElem?_note, if_neg]
      rintro ⟨heq, hfalse⟩
      exact Bool.false_ne_true (hfalse.symm.trans (htried entry List.mem_cons_self heq))

/-- How often an identifier lies in the new buckets. -/
theorem newRefs_eq_zero_iff (h : s.Sound) :
    s.newRefs nId = 0 ↔ ∀ info, s.mapInfo[nId]? = some info → info.fInTried = true := by
  constructor
  · intro hnone info hinfo
    by_contra htried
    obtain ⟨hrefs, hpos, -⟩ := h.filed.new hinfo (Bool.not_eq_true _ ▸ htried)
    rw [hnone, nobody] at hrefs
    omega
  · intro htried
    cases hinfo : s.mapInfo[nId]? with
    | none =>
      have hplaced := h.filed.placed nId
      rw [status, hinfo, Option.map_none] at hplaced
      exact hplaced.1
    | some info => exact (h.filed.tried hinfo (htried info hinfo)).2.2.1

theorem mem_entries_tried (h : s.Sound) :
    nId ∈ entries id s.vvTried ↔ ∃ info, s.mapInfo[nId]? = some info ∧ info.fInTried = true := by
  constructor
  · intro hmem
    obtain ⟨b, hb⟩ := mem_entries.mp hmem
    exact h.filed.info_of_mem_tried hb
  · rintro ⟨info, hinfo, htried⟩
    have hone := (h.filed.tried hinfo htried).2.2.2
    exact List.count_pos_iff.mp (Nat.lt_of_lt_of_eq Nat.one_pos hone.symm)

theorem nodup_entries_tried (h : s.Sound) : (entries id s.vvTried).Nodup := by
  rw [List.nodup_iff_count_le_one]
  intro nId
  by_cases hmem : nId ∈ entries id s.vvTried
  · obtain ⟨info, hinfo, htried⟩ := (mem_entries_tried h).mp hmem
    exact Nat.le_of_eq (h.filed.tried hinfo htried).2.2.2
  · rw [List.count_eq_zero.mpr hmem]
    exact Nat.zero_le 1

/-- **The sets of `Check_`**: the tried identifiers, and the references of the new ones. -/
theorem checkSets_spec (h : s.Sound) :
    ∃ setTried mapNew, s.mapInfo.toList.foldlM s.checkInfo (∅, ∅) = .ok (setTried, mapNew) ∧
      (∀ nId, nId ∈ setTried ↔ nId ∈ entries id s.vvTried) ∧
      ∀ nId, mapNew[nId]? = if s.newRefs nId = 0 then none else some (s.newRefs nId : Int) := by
  have hlist : ∀ {entry : Int × CAddrInfo}, entry ∈ s.mapInfo.toList ↔ s.mapInfo[entry.1]? = some entry.2 :=
    mem_toList_iff_getElem?_eq_some
  obtain ⟨⟨setTried, mapNew⟩, hloop, hmem, hnew, hkept⟩ :=
    checkInfos_spec h (fun entry hentry => hlist.mp hentry) (∅, ∅)
  refine ⟨setTried, mapNew, hloop, ?_, ?_⟩
  · intro nId
    rw [hmem nId, or_iff_right ExtTreeSet.not_mem_empty, mem_entries_tried h]
    constructor
    · rintro ⟨entry, hentry, rfl, hin⟩
      exact ⟨entry.2, hlist.mp hentry, hin⟩
    · rintro ⟨info, hinfo, hin⟩
      exact ⟨(nId, info), hlist.mpr hinfo, rfl, hin⟩
  · intro nId
    by_cases hnone : s.newRefs nId = 0
    · rw [if_pos hnone]
      refine (hkept nId ?_).trans getElem?_empty
      rintro entry hentry rfl
      exact (newRefs_eq_zero_iff h).mp hnone entry.2 (hlist.mp hentry)
    · rw [if_neg hnone]
      rw [newRefs_eq_zero_iff h] at hnone
      push Not at hnone
      obtain ⟨info, hinfo, htried⟩ := hnone
      have hfalse : info.fInTried = false := Bool.not_eq_true _ ▸ htried
      rw [hnew (nId, info) (hlist.mpr hinfo) hfalse]
      exact congrArg some ((h.filed.new hinfo hfalse).1.trans (Int.add_zero _))

theorem length_vRandom (h : s.Sound) {mapNew : ExtTreeMap Int Int}
    (hget : ∀ nId, mapNew[nId]? = if s.newRefs nId = 0 then none else some (s.newRefs nId : Int)) :
    mapNew.size + (entries id s.vvTried).length = s.vRandom.length := by
  have hkeys : ∀ nId, nId ∈ mapNew.keys ↔ ∃ info, s.mapInfo[nId]? = some info ∧ info.fInTried = false := by
    intro nId
    rw [mem_keys, FinMap.mem_iff_exists, hget]
    constructor
    · rintro ⟨n, hn⟩
      have hne : ¬s.newRefs nId = 0 := by
        intro hzero
        rw [if_pos hzero] at hn
        cases hn
      rw [newRefs_eq_zero_iff h] at hne
      push Not at hne
      obtain ⟨info, hinfo, htried⟩ := hne
      exact ⟨info, hinfo, Bool.not_eq_true _ ▸ htried⟩
    · rintro ⟨info, hinfo, hnew⟩
      rw [if_neg]
      · exact ⟨_, rfl⟩
      · intro hzero
        exact Bool.false_ne_true (hnew.symm.trans ((newRefs_eq_zero_iff h).mp hzero info hinfo))
  have hnodup : (mapNew.keys ++ entries id s.vvTried).Nodup := by
    refine nodup_keys.append (nodup_entries_tried h) ?_
    intro nId hnew htried
    obtain ⟨info, hinfo, hfalse⟩ := (hkeys nId).mp hnew
    obtain ⟨info', hinfo', htrue⟩ := (mem_entries_tried h).mp htried
    rw [hinfo, Option.some.injEq] at hinfo'
    rw [← hinfo', hfalse] at htrue
    cases htrue
  have hperm : (mapNew.keys ++ entries id s.vvTried).Perm s.vRandom := by
    rw [List.perm_ext_iff_of_nodup hnodup h.indexed.nodup]
    intro nId
    rw [List.mem_append, hkeys, mem_entries_tried h, h.indexed.mem_vRandom]
    constructor
    · rintro (⟨info, hinfo, -⟩ | ⟨info, hinfo, -⟩)
      · exact ⟨info, hinfo⟩
      · exact ⟨info, hinfo⟩
    · rintro ⟨info, hinfo⟩
      cases htried : info.fInTried with
      | false => exact .inl ⟨info, hinfo, htried⟩
      | true => exact .inr ⟨info, hinfo, htried⟩
  have hlength := hperm.length_eq
  rw [List.length_append, length_keys] at hlength
  exact hlength

/-- **`Check_` returns zero.** -/
theorem check_eq_zero (h : s.Sound) : s.check = 0 := by
  obtain ⟨setTried, mapNew, hloop, hmem, hget⟩ := checkSets_spec h
  have hlength := length_vRandom h hget
  have hsize : setTried.size = (entries id s.vvTried).length := by
    rw [← ExtTreeSet.length_toList]
    refine List.Perm.length_eq ?_
    rw [List.perm_ext_iff_of_nodup (nodup_toList setTried) (nodup_entries_tried h)]
    exact fun nId => ExtTreeSet.mem_toList.trans (hmem nId)
  have hnTried := h.filed.nTried
  have hnNew := h.filed.nNew
  have hcross := foldlM_crossOff (-11 : Int) (nodup_entries_tried h) hmem
  have hcount := foldlM_countDown (-12 : Int) (entries ExtTreeSet.toList s.vvNew) hget
  have hall : s.checkAll = .ok () := by
    rw [checkAll, if_neg (by omega), hloop]
    simp only [Except.bind]
    rw [if_neg (by omega), if_neg (by omega), hcross]
    simp only [hcount]
    rfl
  rw [check, hall]

end CAddrMan

open Option

namespace CAddrMan

variable (world : AddrWorld) {s s' : CAddrMan} {nId : Int} {info : CAddrInfo}

/-- **`Attempt_`** at a positive time. -/
theorem attempt_spec (h : s.Sound) (addr : CService) {nTime : Int} (htime : 0 < nTime) :
    (s.attempt addr nTime).Sound ∧ (s.attempt addr nTime).nIdCount = s.nIdCount := by
  rw [attempt]
  cases hfind : s.find addr.ip with
  | none => exact ⟨h, rfl⟩
  | some entry =>
    obtain ⟨nId, info⟩ := entry
    obtain ⟨hinfo, -⟩ := h.indexed.info_of_find hfind
    dsimp only
    split
    · exact ⟨h, rfl⟩
    · refine ⟨⟨h.indexed.setInfo hinfo rfl rfl, h.filed.setInfo (fun _ _ => rfl) ?_, h.sized.vNew,
        h.sized.vTried⟩, rfl⟩
      have hsuccess := (h.filed.times hinfo).1
      by_cases htried : info.fInTried = true
      · obtain ⟨hrefs, hne, hnone, hone⟩ := h.filed.tried hinfo htried
        have hpositive : 0 < info.nLastSuccess := by omega
        exact placed_tried htried hpositive (Int.le_of_lt htime) hrefs hnone hone
      · have hnew := Bool.not_eq_true _ ▸ htried
        obtain ⟨hrefs, hpos, hle, hnone⟩ := h.filed.new hinfo hnew
        exact placed_new hnew hsuccess (Int.le_of_lt htime) hrefs hpos hle hnone

/-- **`Connected_`.** -/
theorem connected_spec (h : s.Sound) (addr : CService) (nTime : Int) :
    (s.connected addr nTime).Sound ∧ (s.connected addr nTime).nIdCount = s.nIdCount := by
  rw [connected]
  cases hfind : s.find addr.ip with
  | none => exact ⟨h, rfl⟩
  | some entry =>
    obtain ⟨nId, info⟩ := entry
    obtain ⟨hinfo, -⟩ := h.indexed.info_of_find hfind
    dsimp only
    split
    · exact ⟨h, rfl⟩
    · split
      · exact ⟨h.setInfo hinfo rfl rfl rfl, rfl⟩
      · exact ⟨h, rfl⟩

/-- What only reorders leaves the address manager in order. -/
theorem Sound.reordered (h : s.Sound) (hindexed : s'.Indexed) (hsame : Reordered s s') : s'.Sound := by
  refine ⟨hindexed, ⟨?_, ?_, ?_⟩, ⟨hsame.vvNew ▸ h.sized.vNew, hsame.vvTried ▸ h.sized.vTried⟩⟩
  · intro nId
    rw [newRefs, triedRefs, hsame.vvNew, hsame.vvTried, hsame.status]
    exact h.filed.placed nId
  · rw [hsame.nTried, hsame.vvTried]
    exact h.filed.nTried
  · rw [hsame.nNew, hsame.nTried, hsame.length]
    exact h.filed.nNew

theorem getAddrLoop_spec (hindexed : s.Indexed) (rnd : Nat → Nat) {turns : List Nat}
    (hturns : ∀ n ∈ turns, n < s.vRandom.length) (vAddr : List CAddress) :
    ∃ s' vAddr', turns.foldlM (getAddrTurn rnd) (s, vAddr) = some (s', vAddr') ∧
      s'.Indexed ∧ Reordered s s' := by
  induction turns generalizing s vAddr with
  | nil => exact ⟨s, vAddr, rfl, hindexed, Reordered.refl⟩
  | cons n turns ih =>
    have hn := hturns n List.mem_cons_self
    have hdraw : getRandInt (rnd n) (s.vRandom.length - n) + n < s.vRandom.length := by
      have hleft : 0 < s.vRandom.length - n := by omega
      have hlt := getRandInt_lt (rnd n) hleft
      omega
    obtain ⟨mid, hswap, hmid, hsame, -⟩ := hindexed.swapRandom hn hdraw
    have hplace := List.getElem?_eq_getElem (Nat.lt_of_lt_of_eq hn hsame.length.symm)
    obtain ⟨info, hinfo, -⟩ := hmid.random hplace
    obtain ⟨s', vAddr', hloop, hindexed', hsame'⟩ := ih hmid
      (fun i hi => hsame.length ▸ hturns i (List.mem_cons_of_mem _ hi)) (vAddr ++ [info.toCAddress])
    refine ⟨s', vAddr', ?_, hindexed', hsame.trans hsame'⟩
    rw [List.foldlM_cons, getAddrTurn, hswap, bind_some, hplace, bind_some, hinfo]
    exact hloop

/-- **`GetAddr_`** only reorders. -/
theorem getAddr_spec (h : s.Sound) (rnd : Nat → Nat) :
    ∃ s' vAddr, s.getAddr rnd = some (s', vAddr) ∧ s'.Sound ∧ s'.nIdCount = s.nIdCount := by
  have hturns : ∀ n ∈ List.range (min (ADDRMAN_GETADDR_MAX_PCT * s.vRandom.length / 100) ADDRMAN_GETADDR_MAX),
      n < s.vRandom.length := by
    intro n hn
    have hlt := List.mem_range.mp hn
    have hle := Nat.min_le_left (ADDRMAN_GETADDR_MAX_PCT * s.vRandom.length / 100) ADDRMAN_GETADDR_MAX
    rw [ADDRMAN_GETADDR_MAX_PCT] at hlt hle
    omega
  obtain ⟨s', vAddr, hloop, hindexed, hsame⟩ := getAddrLoop_spec h.indexed rnd hturns []
  exact ⟨s', vAddr, hloop, h.reordered hindexed hsame, hsame.nIdCount⟩

/-- The loops of `Select_` find what they assert, however long they go on. -/
theorem selectLoop_spec {n : Nat} (hpos : 0 < n) {buckets : Vector (List Int) n}
    (hknown : ∀ b : Fin n, ∀ nId ∈ buckets.get b, ∃ info, s.mapInfo[nId]? = some info)
    (nNow : Int) (fuel : Nat)
    (rnd : Nat → Nat) (nRefused : Nat) :
        ∃ found, s.selectLoop world nNow buckets fuel rnd nRefused = some found := by
  induction fuel generalizing rnd nRefused with
  | zero => exact ⟨none, rfl⟩
  | succ fuel ih =>
    have hlt := getRandInt_lt (rnd 0) hpos
    have hin := hknown ⟨getRandInt (rnd 0) n, hlt⟩
    have hbucket : buckets[getRandInt (rnd 0) n]? = some buckets[getRandInt (rnd 0) n] :=
      Vector.getElem?_eq_getElem hlt
    rw [selectLoop, hbucket, bind_some]
    by_cases hempty : buckets[getRandInt (rnd 0) n].length = 0
    · rw [if_pos hempty]
      exact ih _ _
    · have hplace := List.getElem?_eq_getElem (getRandInt_lt (rnd 1) (Nat.pos_of_ne_zero hempty))
      obtain ⟨info, hinfo⟩ := hin _ (List.mem_of_getElem? hplace)
      rw [if_neg hempty, hplace, bind_some, hinfo, bind_some]
      split
      · exact ⟨_, rfl⟩
      · exact ih _ _

/-- **`Select_`** finds what it asserts. -/
theorem select_spec (h : s.Sound) (nNow : Int) (fuel : Nat) (rnd : Nat → Nat) (nUnkBias : Int) :
    ∃ found, s.select world nNow fuel rnd nUnkBias = some found := by
  rw [select]
  split
  · exact ⟨_, rfl⟩
  · split
    · apply selectLoop_spec world (by decide)
      intro b nId hmem
      obtain ⟨info, hinfo, -⟩ := h.filed.info_of_mem_tried hmem
      exact ⟨info, hinfo⟩
    · apply selectLoop_spec world (by decide)
      intro b nId hmem
      have hbucket : (s.vvNew.map (·.toList)).get b = (s.vvNew.get b).toList := Vector.getElem_map _ _
      rw [hbucket] at hmem
      obtain ⟨info, hinfo, -⟩ := h.filed.info_of_mem (ExtTreeSet.mem_toList.mp hmem)
      exact ⟨info, hinfo⟩

/-- **Step lemma.**  A call on an address manager in order. -/
theorem call_spec (h : s.Sound) {c : AddrManCall} (htime : c.Positive)
    (hbound : s.creates c = true → s.nIdCount + 1 < 2 ^ 31) :
    ∃ s' fNew, s.call world c = some (s', fNew) ∧ s'.Sound ∧
      s'.nIdCount = s.nIdCount + (s.creates c).toNat := by
  have hnothing : (s.nIdCount : Int) + (false.toNat : Nat) = s.nIdCount := Int.add_zero _
  cases c with
  | add nNow rnd addr source nTimePenalty => exact add_spec world h hbound
  | good rnd addr nTime =>
    obtain ⟨s', hs', hsound, hcount⟩ := good_spec world h rnd addr htime
    exact ⟨s', false, by rw [call, hs']; rfl, hsound, hcount.trans hnothing.symm⟩
  | attempt addr nTime =>
    obtain ⟨hsound, hcount⟩ := attempt_spec h addr htime
    exact ⟨_, false, rfl, hsound, hcount.trans hnothing.symm⟩
  | connected addr nTime =>
    obtain ⟨hsound, hcount⟩ := connected_spec h addr nTime
    exact ⟨_, false, rfl, hsound, hcount.trans hnothing.symm⟩
  | getAddr rnd =>
    obtain ⟨s', vAddr, hs', hsound, hcount⟩ := getAddr_spec h rnd
    exact ⟨s', false, by rw [call, hs']; rfl, hsound, hcount.trans hnothing.symm⟩
  | select nNow fuel rnd nUnkBias =>
    obtain ⟨found, hfound⟩ := select_spec world h nNow fuel rnd nUnkBias
    exact ⟨s, false, by rw [call, hfound]; rfl, h, hnothing.symm⟩

/-- **Run lemma.** -/
theorem run_sound (h : s.Sound) {calls : List AddrManCall} (htimes : ∀ c ∈ calls, c.Positive)
    (hbound : s.nIdCount + s.nCreated world calls < 2 ^ 31) :
    ∃ s', s.run world calls = some s' ∧ s'.Sound := by
  induction calls generalizing s with
  | nil => exact ⟨s, rfl, h⟩
  | cons c calls ih =>
    rw [nCreated] at hbound
    obtain ⟨mid, fNew, hcall, hmid, hcount⟩ := call_spec world h
      (htimes c List.mem_cons_self) (by
        intro hcreates
        rw [hcreates, Bool.toNat_true] at hbound
        omega)
    rw [hcall] at hbound
    obtain ⟨s', hrun, hsound⟩ := ih hmid (fun c hc => htimes c (List.mem_cons_of_mem _ hc)) (by
      rw [hcount]
      push_cast at hbound ⊢
      omega)
    refine ⟨s', ?_, hsound⟩
    rw [run, List.foldlM_cons, hcall]
    exact hrun

theorem nCreated_le_append (s : CAddrMan) (before after : List AddrManCall) :
    s.nCreated world before ≤ s.nCreated world (before ++ after) := by
  induction before generalizing s with
  | nil => exact Nat.zero_le _
  | cons c before ih =>
    rw [List.cons_append, nCreated, nCreated]
    apply Nat.add_le_add_left
    split
    · exact Nat.zero_le _
    · exact ih _

theorem nCreated_le_length (s : CAddrMan) (calls : List AddrManCall) :
    s.nCreated world calls ≤ calls.length := by
  induction calls generalizing s with
  | nil => exact Nat.le_refl 0
  | cons c calls ih =>
    rw [nCreated, List.length_cons, Nat.add_comm]
    apply Nat.add_le_add
    · split
      · exact Nat.zero_le _
      · exact ih _
    · exact Bool.toNat_le _

theorem sound_fresh (nKey : Codec.Bytes) : (fresh nKey).Sound := by
  have hnew : ∀ b : Fin ADDRMAN_NEW_BUCKET_COUNT, (fresh nKey).vvNew.get b = ∅ :=
    fun b => Vector.getElem_replicate _
  have htried : ∀ b : Fin ADDRMAN_TRIED_BUCKET_COUNT, (fresh nKey).vvTried.get b = [] :=
    fun b => Vector.getElem_replicate _
  have hnone : entries id (fresh nKey).vvTried = [] := by
    apply List.eq_nil_iff_forall_not_mem.mpr
    intro nId hmem
    obtain ⟨b, hb⟩ := mem_entries.mp hmem
    rw [htried] at hb
    cases hb
  have hnoInfo : ∀ nId : Int, (fresh nKey).mapInfo[nId]? = none := fun nId => ExtTreeMap.getElem?_empty
  refine ⟨⟨?_, ?_, ?_, ?_, ?_, ?_, ?_⟩, ⟨?_, ?_, ?_⟩, ⟨?_, ?_⟩⟩
  · intro nId info hinfo
    rw [hnoInfo] at hinfo
    cases hinfo
  · intro i nId hget
    cases hget
  · intro nId info hinfo
    rw [hnoInfo] at hinfo
    cases hinfo
  · intro addr nId hget
    have hempty : (fresh nKey).mapAddr[addr]? = none := ExtTreeMap.getElem?_empty
    rw [hempty] at hget
    cases hget
  · intro nId info hinfo
    rw [hnoInfo] at hinfo
    cases hinfo
  · exact Int.le_refl 0
  · show (0 : Int) < 2 ^ 31
    decide
  · intro nId
    rw [status, hnoInfo]
    refine ⟨(count_entries_eq_zero nId).mpr fun b => ?_, ?_⟩
    · rw [hnew]
      exact ExtTreeSet.not_mem_empty
    · rw [triedRefs, hnone]
      rfl
  · rw [hnone]
    rfl
  · rfl
  · intro b
    rw [hnew]
    exact Nat.zero_le _
  · intro b
    rw [htried]
    exact Nat.zero_le _

/-- **The address manager stays consistent.**  After every call of a sequence of calls, at
positive times and with fewer than `2^31` addresses created: no assertion has failed, `Check_`
returns zero, and no bucket is larger than it may be. -/
theorem run_consistent (nKey : Codec.Bytes) (calls : List AddrManCall)
    (htimes : ∀ c ∈ calls, c.Positive) (hcreated : (fresh nKey).nCreated world calls < 2 ^ 31) :
    ∀ before, before <+: calls → ∃ s, (fresh nKey).run world before = some s ∧ s.check = 0 ∧
      (∀ b : Fin ADDRMAN_NEW_BUCKET_COUNT, s.vvNew[b].size ≤ ADDRMAN_NEW_BUCKET_SIZE) ∧
      ∀ b : Fin ADDRMAN_TRIED_BUCKET_COUNT, s.vvTried[b].length ≤ ADDRMAN_TRIED_BUCKET_SIZE := by
  rintro before ⟨after, rfl⟩
  have hle := nCreated_le_append world (fresh nKey) before after
  have hstart : (fresh nKey).nIdCount = 0 := rfl
  obtain ⟨s, hrun, hsound⟩ := run_sound world (sound_fresh nKey)
    (fun c hc => htimes c (List.mem_append_left _ hc)) (by rw [hstart]; omega)
  exact ⟨s, hrun, check_eq_zero hsound, hsound.sized.vNew, hsound.sized.vTried⟩

/-- A world that hashes to the length, and takes the first entry that it comes to. -/
def sampleAddrWorld : AddrWorld where
  get64 bytes := UInt64.ofNat bytes.length
  prefersTried nTried _ _ _ := 0 < nTried
  accepts _ _ _ _ := true

/-- `1.2.3.4:7777`. -/
def sampleService : CService := ⟨⟨#[0, 0, 0, 0, 0, 0, 0, 0, 0, 0, 0xff, 0xff, 1, 2, 3, 4], rfl⟩, 7777⟩

/-- The address is heard of, tried, found good, asked for and told on. -/
def sampleAddrCalls : List AddrManCall :=
  [.add 1000000 id { sampleService with nServices := 1, nTime := 999000, nLastTry := 0 } sampleService.ip 0,
    .attempt sampleService 1000001, .good id sampleService 1000002, .select 1000003 9 id 50,
    .connected sampleService 1000004, .getAddr id]

theorem run_consistent_sample :
    ∃ s, (fresh []).run sampleAddrWorld sampleAddrCalls = some s ∧ s.check = 0 ∧
      (∀ b : Fin ADDRMAN_NEW_BUCKET_COUNT, (s.vvNew.get b).size ≤ ADDRMAN_NEW_BUCKET_SIZE) ∧
      ∀ b : Fin ADDRMAN_TRIED_BUCKET_COUNT, (s.vvTried.get b).length ≤ ADDRMAN_TRIED_BUCKET_SIZE := by
  apply run_consistent sampleAddrWorld [] sampleAddrCalls
  · intro c hc
    simp only [sampleAddrCalls, List.mem_cons, List.not_mem_nil, or_false] at hc
    rcases hc with rfl | rfl | rfl | rfl | rfl | rfl <;> simp [AddrManCall.Positive]
  · exact Nat.lt_of_le_of_lt (nCreated_le_length _ _ _) (by decide)
  · exact List.prefix_refl _

example : ((fresh []).run sampleAddrWorld sampleAddrCalls).map (fun s => (s.nTried, s.nNew)) =
    some (1, 0) := by
  decide +kernel

end CAddrMan

end MaryJaneCoin
