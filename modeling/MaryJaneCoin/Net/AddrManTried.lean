import MaryJaneCoin.Net.AddrManBuckets

/-!
# Addresses become tried

`Good_` moves an address out of all of its new buckets and into a tried one.  If that is full,
an entry of it goes back: to the new bucket that it came from, or to the place that has just
become free.
-/

namespace MaryJaneCoin

open List hiding Vector
open Std Buckets OptionLoop

namespace CAddrMan

variable (world : AddrWorld) {s s' : CAddrMan} {nId : Int} {info : CAddrInfo}

/-- A turn of the loop finds what it reads. -/
theorem selectTriedTurn_spec (rnd : Nat → Nat) {vTried vTried₀ : List Int}
    {nOldest : Int} (nOldestPos : Int) {i : Nat} (hknown : ∀ nId ∈ vTried₀, ∃ info,
    s.mapInfo[nId]? = some info) (hperm : vTried.Perm vTried₀) (hi : i < vTried₀.length)
    (hold : nOldest = -1 ∨ nOldest ∈ vTried₀ ∧ ∃ n : Nat, nOldestPos = n ∧ n < vTried₀.length) :
    ∃ vTried' nOldest', ∃ n : Nat,
      s.selectTriedTurn rnd (vTried, nOldest, nOldestPos) i = some (vTried', nOldest', (n : Int)) ∧
        vTried'.Perm vTried₀ ∧ nOldest' ∈ vTried₀ ∧ n < vTried₀.length := by
  have hlength := hperm.length_eq
  have hpos : getRandInt (rnd i) (vTried.length - i) + i < vTried.length := by
    have hleft : 0 < vTried.length - i := by omega
    have hlt := getRandInt_lt (rnd i) hleft
    omega
  generalize hnPos : getRandInt (rnd i) (vTried.length - i) + i = nPos at hpos
  have hiLt : i < vTried.length := hlength ▸ hi
  have hmem : vTried[nPos] ∈ vTried₀ := hperm.mem_iff.mp (getElem_mem hpos)
  have hswap : ((vTried.set nPos vTried[i]).set i vTried[nPos]).Perm vTried₀ :=
    (set_set_perm hpos hiLt).trans hperm
  rw [selectTriedTurn]
  simp only [hnPos, getElem?_eq_getElem hpos, getElem?_eq_getElem hiLt, Option.bind_some]
  by_cases hfirst : nOldest = -1
  · rw [if_pos hfirst]
    exact ⟨_, _, nPos, rfl, hswap, hmem, hlength ▸ hpos⟩
  · obtain ⟨hin, n, hn, hlt⟩ := hold.resolve_left hfirst
    obtain ⟨infoTemp, hinfoTemp⟩ := hknown _ hmem
    obtain ⟨infoOldest, hinfoOldest⟩ := hknown _ hin
    rw [if_neg hfirst, hinfoTemp, Option.bind_some, hinfoOldest, Option.map_some]
    split
    · exact ⟨_, _, nPos, rfl, hswap, hmem, hlength ▸ hpos⟩
    · exact ⟨_, _, n, by rw [hn], hswap, hin, hlt⟩

variable {vTried : List Int}

theorem selectTriedLoop_spec (rnd : Nat → Nat) {vTried₀ : List Int}
    (hknown : ∀ nId ∈ vTried₀, ∃ info, s.mapInfo[nId]? = some info) {turns : List Nat}
    (hturns : ∀ i ∈ turns, i < vTried₀.length) (hperm : vTried.Perm vTried₀) {nOldest : Int}
    (hin : nOldest ∈ vTried₀) {n : Nat} (hn : n < vTried₀.length) : ∃ vTried' nOldest', ∃ n' : Nat,
      turns.foldlM (s.selectTriedTurn rnd) (vTried, nOldest, (n : Int)) =
        some (vTried', nOldest', (n' : Int)) ∧ vTried'.Perm vTried₀ ∧ n' < vTried₀.length := by
  induction turns generalizing vTried nOldest n with
  | nil => exact ⟨vTried, nOldest, n, rfl, hperm, hn⟩
  | cons i turns ih =>
    obtain ⟨mid, midOldest, midPos, hturn, hmid, hmidIn, hmidPos⟩ := selectTriedTurn_spec rnd n
      hknown hperm (hturns i mem_cons_self) (.inr ⟨hin, n, rfl, hn⟩)
    rw [List.foldlM_cons, hturn]
    exact ih (fun i hi => hturns i (mem_cons_of_mem _ hi)) hmid hmidIn hmidPos

/-- **`SelectTried`** gives a place of the bucket, which it reorders. -/
theorem selectTried_spec (rnd : Nat → Nat)
    (hknown : ∀ nId ∈ vTried, ∃ info, s.mapInfo[nId]? = some info) (hpos : 0 < vTried.length) :
    ∃ vTried', ∃ n : Nat, s.selectTried rnd vTried = some (vTried', (n : Int)) ∧
      vTried'.Perm vTried ∧ n < vTried.length := by
  obtain ⟨turns, hturns⟩ : ∃ turns, min ADDRMAN_TRIED_ENTRIES_INSPECT_ON_EVICT vTried.length = turns + 1 :=
    Nat.exists_eq_succ_of_ne_zero (Nat.ne_of_gt (Nat.lt_min.mpr ⟨by decide, hpos⟩))
  obtain ⟨mid, nOldest, n, hfirst, hmid, hin, hn⟩ := selectTriedTurn_spec rnd (-1) hknown
    (List.Perm.refl vTried) hpos (.inl rfl)
  have hlater : ∀ i ∈ (List.range turns).map Nat.succ, i < vTried.length := by
    intro i hi
    obtain ⟨j, hj, rfl⟩ := mem_map.mp hi
    have hjlt := mem_range.mp hj
    omega
  obtain ⟨last, nOldest', n', hloop, hlast, hn'⟩ := selectTriedLoop_spec rnd hknown hlater hmid hin hn
  refine ⟨last, n', ?_, hlast, hn'⟩
  rw [selectTried, hturns, range_succ_eq_map, List.foldlM_cons, hfirst]
  exact congrArg (Option.map _) hloop

/-- An address has left the new buckets, and is in no tried one. -/
structure Freed (nId : Int) (info : CAddrInfo) (s : CAddrMan) : Prop where
  lookup : s.mapInfo[nId]? = some info
  nRefCount : info.nRefCount = 0
  nLastSuccess : 0 < info.nLastSuccess
  nLastTry : 0 ≤ info.nLastTry
  newRefs : s.newRefs nId = 0
  triedRefs : s.triedRefs nId = 0
  placed : ∀ other, nId ≠ other → Placed 0 (s.newRefs other) (s.triedRefs other) (s.status other)
  nTried : s.nTried = (entries id s.vvTried).length
  nNew : s.nNew + 1 = s.vRandom.length - s.nTried

theorem freed_leaveNew (h : s.Sound) (hinfo : s.mapInfo[nId]? = some info) (hnew : info.fInTried = false)
    (hsuccess : 0 < info.nLastSuccess) : Freed nId (s.leaveNew nId info).2 (s.leaveNew nId info).1 := by
  obtain ⟨hrefs, -, -, hnone⟩ := h.filed.new hinfo hnew
  have hcount : s.vvNew.countP (·.contains nId) = s.newRefs nId :=
    countP_eq_count_entries (fun vNew => count_toList vNew nId) s.vvNew
  have hnewRefs : ∀ other, (s.leaveNew nId info).1.newRefs other = if nId = other then 0
  else s.newRefs other :=
    fun other => count_entries_eraseAll nId other s.vvNew
  refine ⟨info_setInfo_self, ?_, hsuccess, (h.filed.times hinfo).2, (hnewRefs nId).trans
    (if_pos rfl), hnone, ?_, h.filed.nTried, ?_⟩
  · show info.nRefCount - (s.vvNew.countP (·.contains nId) : Nat) = 0
    rw [hcount, hrefs, nobody]
    omega
  · intro other hne
    have hstatus : (s.leaveNew nId info).1.status other = s.status other :=
      (status_setInfo (s := s) other).trans (if_neg hne)
    rw [hnewRefs, if_neg hne, hstatus]
    exact h.filed.placed other
  · have hcounted := h.filed.nNew
    show s.nNew - 1 + 1 = s.vRandom.length - s.nTried
    omega

theorem Freed.pushTried (h : Freed nId info s) (nKBucket : Fin ADDRMAN_TRIED_BUCKET_COUNT) :
    (s.pushTried nId info nKBucket).Filed nobody := by
  have htriedRefs : ∀ other, (s.pushTried nId info nKBucket).triedRefs other =
      s.triedRefs other + if nId = other then 1 else 0 := by
    intro other
    have hset := count_entries_set id s.vvTried nKBucket (s.vvTried.get nKBucket ++ [nId]) other
    simp only [id, count_append, count_singleton, beq_iff_eq] at hset
    show (entries id (s.vvTried.set nKBucket (s.vvTried.get nKBucket ++ [nId]))).count other =
      (entries id s.vvTried).count other + _
    omega
  refine ⟨?_, ?_, ?_⟩
  · intro other
    have hstatus : (s.pushTried nId info nKBucket).status other =
        if nId = other then some ({ info with fInTried := true } : CAddrInfo).filing else s.status other :=
      status_setInfo (s := s) other
    show Placed 0 (s.newRefs other) _ _
    rw [htriedRefs, hstatus]
    by_cases hne : nId = other
    · subst hne
      rw [if_pos rfl, if_pos rfl, h.triedRefs]
      exact placed_tried rfl h.nLastSuccess h.nLastTry h.nRefCount h.newRefs rfl
    · rw [if_neg hne, if_neg hne]
      exact h.placed other hne
  · have hset := length_entries_set id s.vvTried nKBucket (s.vvTried.get nKBucket ++ [nId])
    rw [id, id, length_append, length_singleton] at hset
    have hcounted := h.nTried
    show s.nTried + 1 = ((entries id (s.vvTried.set nKBucket (s.vvTried.get nKBucket ++ [nId]))).length : Int)
    omega
  · have hcounted := h.nNew
    show s.nNew = s.vRandom.length - (s.nTried + 1)
    omega

/-- **An entry of the tried bucket makes room.** -/
theorem Freed.replaceTried (h : Freed nId info s) {nKBucket : Fin ADDRMAN_TRIED_BUCKET_COUNT}
    (hperm : vTried.Perm (s.vvTried.get nKBucket)) {nPos : Nat}
    {nIdOld : Int} (hold : vTried[nPos]? = some nIdOld) {infoOld : CAddrInfo}
    (hinfoOld : s.mapInfo[nIdOld]? = some infoOld) (nBucket : Fin ADDRMAN_NEW_BUCKET_COUNT) :
    (s.replaceTried nId info nKBucket vTried nPos nIdOld infoOld nBucket).Filed nobody ∧
      nIdOld ∉ s.vvNew.get nBucket := by
  obtain ⟨hlt, hget⟩ := List.getElem?_eq_some_iff.mp hold
  have hmem : nIdOld ∈ s.vvTried.get nKBucket := hperm.mem_iff.mp (hget ▸ getElem_mem hlt)
  have hpos := triedRefs_pos hmem
  have hne : nId ≠ nIdOld := by
    rintro rfl
    exact Nat.ne_of_gt hpos h.triedRefs
  have hplacedOld := h.placed nIdOld hne
  rw [status_eq hinfoOld] at hplacedOld
  obtain ⟨hsuccessOld, htryOld, hclassOld⟩ := hplacedOld
  have hclass : s.newRefs nIdOld = 0 ∧ s.triedRefs nIdOld = 1 := by
    split at hclassOld
    · exact hclassOld.2.2
    · exact absurd hclassOld.2.2.2 (Nat.ne_of_gt hpos)
  have hnot : nIdOld ∉ s.vvNew.get nBucket := (count_entries_eq_zero nIdOld).mp hclass.1 nBucket
  refine ⟨?_, hnot⟩
  have hnewRefs :
      ∀ other, (s.replaceTried nId info nKBucket vTried nPos nIdOld infoOld nBucket).newRefs other =
      s.newRefs other + if nIdOld = other then 1 else 0 := fun other => count_entries_insert hnot other
  have htriedRefs : ∀ other,
      (s.replaceTried nId info nKBucket vTried nPos nIdOld infoOld nBucket).triedRefs other +
        (if nIdOld = other then 1 else 0) = s.triedRefs other + if nId = other then 1 else 0 := by
    intro other
    have hset := count_entries_set id s.vvTried nKBucket (vTried.set nPos nId) other
    have hwas := hperm.count_eq other
    have hput := count_set (a := nId) (b := other) hlt
    have hthere : nIdOld = other → 0 < vTried.count other := by
      rintro rfl
      exact count_pos_iff.mpr (hget ▸ getElem_mem hlt)
    rw [hget] at hput
    simp only [beq_iff_eq] at hput
    simp only [id] at hset
    show (entries id (s.vvTried.set nKBucket (vTried.set nPos nId))).count other + _ =
      (entries id s.vvTried).count other + _
    split at hput <;> split at hput <;> grind
  refine ⟨?_, ?_, ?_⟩
  · intro other
    have hstatus : (s.replaceTried nId info nKBucket vTried nPos nIdOld infoOld nBucket).status other =
        if nId = other then some ({ info with fInTried := true } : CAddrInfo).filing
        else if nIdOld = other then some ({ infoOld with fInTried := false, nRefCount := 1 } : CAddrInfo).filing
        else s.status other := by
      refine (status_setInfo (s := s.setInfo nIdOld { infoOld with fInTried := false, nRefCount := 1 }) other).trans ?_
      rw [status_setInfo]
    have htried := htriedRefs other
    rw [hnewRefs, hstatus]
    by_cases hself : nId = other
    · subst hself
      rw [if_pos rfl, if_neg hne.symm, h.newRefs]
      rw [if_pos rfl, if_neg hne.symm, h.triedRefs] at htried
      exact placed_tried rfl h.nLastSuccess h.nLastTry h.nRefCount rfl htried
    · rw [if_neg hself] at htried ⊢
      by_cases hother : nIdOld = other
      · subst hother
        rw [if_pos rfl, if_pos rfl, hclass.1]
        rw [if_pos rfl, hclass.2] at htried
        refine placed_new rfl hsuccessOld htryOld rfl ?_ ?_ (Nat.succ.inj htried)
        · exact Int.le_refl 1
        · show (1 : Int) ≤ 4
          decide
      · rw [if_neg hother, Nat.add_zero] at htried
        rw [if_neg hother, if_neg hother, htried]
        exact h.placed other hself
  · have hset := length_entries_set id s.vvTried nKBucket (vTried.set nPos nId)
    have hlength := hperm.length_eq
    simp only [id, length_set] at hset
    have hcounted := h.nTried
    show s.nTried = ((entries id (s.vvTried.set nKBucket (vTried.set nPos nId))).length : Int)
    omega
  · have hcounted := h.nNew
    show s.nNew + 1 = s.vRandom.length - s.nTried
    exact hcounted

theorem length_set_le {vvTried : Vector (List Int) ADDRMAN_TRIED_BUCKET_COUNT}
    (hsized : ∀ b : Fin ADDRMAN_TRIED_BUCKET_COUNT, (vvTried.get b).length ≤ ADDRMAN_TRIED_BUCKET_SIZE)
    {b : Fin ADDRMAN_TRIED_BUCKET_COUNT} (hle : vTried.length ≤ ADDRMAN_TRIED_BUCKET_SIZE)
    (other : Fin ADDRMAN_TRIED_BUCKET_COUNT) :
    ((vvTried.set b vTried).get other).length ≤ ADDRMAN_TRIED_BUCKET_SIZE :=
  forall_set (p := fun vTried : List Int => vTried.length ≤ ADDRMAN_TRIED_BUCKET_SIZE) hsized b hle other

variable {nOrigin : Fin ADDRMAN_NEW_BUCKET_COUNT}

theorem room_of_choice (horigin : (s.vvNew.get nOrigin).size < ADDRMAN_NEW_BUCKET_SIZE)
    (nUBucket : Fin ADDRMAN_NEW_BUCKET_COUNT) :
    (s.vvNew.get (if (s.vvNew.get nUBucket).size < ADDRMAN_NEW_BUCKET_SIZE then nUBucket else nOrigin)).size <
      ADDRMAN_NEW_BUCKET_SIZE := by
  by_cases hroom : (s.vvNew.get nUBucket).size < ADDRMAN_NEW_BUCKET_SIZE
  · simp only [if_pos hroom]
    exact hroom
  · simp only [if_neg hroom]
    exact horigin

/-- **The end of `MakeTried`.** -/
theorem Freed.enterTried (h : Freed nId info s) (hindexed : s.Indexed) (hsized : s.Sized)
    (horigin : (s.vvNew.get nOrigin).size < ADDRMAN_NEW_BUCKET_SIZE) (rnd : Nat → Nat) :
    ∃ s', s.enterTried world rnd nId info nOrigin = some s' ∧ s'.Sound ∧ s'.nIdCount = s.nIdCount := by
  rw [CAddrMan.enterTried]
  set nKBucket := CAddrInfo.getTriedBucket world s.nKey info.toCService
  by_cases hroom : (s.vvTried.get nKBucket).length < ADDRMAN_TRIED_BUCKET_SIZE
  · refine ⟨_, if_pos hroom, ⟨hindexed.setInfo h.lookup rfl rfl, h.pushTried nKBucket, hsized.vNew,
      length_set_le hsized.vTried ?_⟩, rfl⟩
    rw [length_append, length_singleton]
    exact hroom
  · have hknown : ∀ other ∈ s.vvTried.get nKBucket, ∃ info, s.mapInfo[other]? = some info := by
      intro other hmem
      have hpos := triedRefs_pos hmem
      have hne : nId ≠ other := by
        rintro rfl
        exact Nat.ne_of_gt hpos h.triedRefs
      cases hstatus : s.status other with
      | none =>
        have hplaced := h.placed other hne
        rw [hstatus] at hplaced
        exact absurd hplaced.2 (Nat.ne_of_gt hpos)
      | some filing =>
        obtain ⟨found, hfound, -⟩ := exists_info hstatus
        exact ⟨found, hfound⟩
    have hpos : 0 < (s.vvTried.get nKBucket).length := Nat.lt_of_lt_of_le (by decide) (Nat.le_of_not_lt hroom)
    obtain ⟨vTried, n, hselect, hperm, hn⟩ := selectTried_spec rnd hknown hpos
    have hnLt : n < vTried.length := hperm.length_eq ▸ hn
    have hold := getElem?_eq_getElem hnLt
    obtain ⟨infoOld, hinfoOld⟩ := hknown _ (hperm.mem_iff.mp (getElem_mem hnLt))
    generalize vTried[n] = nIdOld at hold hinfoOld
    have hnonneg : ¬(n : Int) < 0 := Int.not_lt.mpr (Int.natCast_nonneg n)
    rw [if_neg hroom, hselect]
    simp only [Option.bind_some, if_neg hnonneg, Int.toNat_natCast, hold, hinfoOld, Option.map_some]
    have hbucketRoom := room_of_choice horigin (CAddrInfo.getNewBucket world s.nKey infoOld.ip infoOld.source)
    set nBucket := if (s.vvNew.get (CAddrInfo.getNewBucket world s.nKey infoOld.ip infoOld.source)).size <
      ADDRMAN_NEW_BUCKET_SIZE then CAddrInfo.getNewBucket world s.nKey infoOld.ip infoOld.source else nOrigin
    obtain ⟨hfiled, hnot⟩ := h.replaceTried hperm hold hinfoOld nBucket
    have hindexedOld : (s.setInfo nIdOld { infoOld with fInTried := false, nRefCount := 1 }).Indexed :=
      hindexed.setInfo hinfoOld rfl rfl
    have hne : nIdOld ≠ nId := by
      rintro rfl
      exact Nat.ne_of_gt (triedRefs_pos (hperm.mem_iff.mp (mem_of_getElem? hold))) h.triedRefs
    refine ⟨_, rfl, ⟨Indexed.setInfo hindexedOld ((info_setInfo_ne hne).trans h.lookup) rfl rfl, hfiled,
      size_set_le hsized.vNew ?_, length_set_le hsized.vTried ?_⟩, rfl⟩
    · rw [size_insert_of_notMem hnot]
      exact hbucketRoom
    · rw [length_set, hperm.length_eq]
      exact hsized.vTried nKBucket

/-- **`MakeTried`** of an address that lies in a new bucket. -/
theorem makeTried_spec (h : s.Sound) (hinfo : s.mapInfo[nId]? = some info)
    (hnew : info.fInTried = false) (hsuccess : 0 < info.nLastSuccess)
    (hmem : nId ∈ s.vvNew.get nOrigin) (rnd : Nat → Nat) :
    ∃ s', s.makeTried world rnd nId nOrigin = some s' ∧ s'.Sound ∧ s'.nIdCount = s.nIdCount := by
  have hfreed := freed_leaveNew h hinfo hnew hsuccess
  have hbucket : ∀ b : Fin ADDRMAN_NEW_BUCKET_COUNT, (s.leaveNew nId info).1.vvNew.get b =
      (s.vvNew.get b).erase nId := fun b => Vector.getElem_map _ _
  have hsized : (s.leaveNew nId info).1.Sized := by
    refine ⟨?_, h.sized.vTried⟩
    intro b
    rw [hbucket]
    exact Nat.le_trans ExtTreeSet.size_erase_le (h.sized.vNew b)
  have horigin : ((s.leaveNew nId info).1.vvNew.get nOrigin).size < ADDRMAN_NEW_BUCKET_SIZE := by
    have hle := h.sized.vNew nOrigin
    rw [← size_erase_of_mem hmem] at hle
    rw [hbucket]
    exact hle
  obtain ⟨s', hs', hrest⟩ := hfreed.enterTried world (h.indexed.setInfo hinfo rfl rfl) hsized horigin rnd
  refine ⟨s', ?_, hrest⟩
  rw [makeTried, hinfo, Option.bind_some, if_neg (not_not_intro hmem)]
  exact (if_neg (not_not_intro hfreed.nRefCount)).trans hs'

/-- **`Good_`** at a positive time. -/
theorem good_spec (h : s.Sound) (rnd : Nat → Nat) (addr : CService) {nTime : Int} (htime : 0 < nTime) :
    ∃ s', s.good world rnd addr nTime = some s' ∧ s'.Sound ∧ s'.nIdCount = s.nIdCount := by
  rw [good]
  cases hfind : s.find addr.ip with
  | none => exact ⟨s, rfl, h, rfl⟩
  | some entry =>
    obtain ⟨nId, info⟩ := entry
    obtain ⟨hinfo, -⟩ := h.indexed.info_of_find hfind
    by_cases hother : info.toCService ≠ addr
    · exact ⟨s, if_pos hother, h, rfl⟩
    · have hset : (s.setInfo nId { info with
          nLastSuccess := nTime, nLastTry := nTime, nTime := UInt32.ofInt nTime, nAttempts := 0 }).Sound := by
        refine ⟨h.indexed.setInfo hinfo rfl rfl, h.filed.setInfo (fun _ _ => rfl) ?_, h.sized.vNew,
          h.sized.vTried⟩
        by_cases htried : info.fInTried = true
        · obtain ⟨hrefs, -, hnone, hone⟩ := h.filed.tried hinfo htried
          exact placed_tried htried htime (Int.le_of_lt htime) hrefs hnone hone
        · have hnew := Bool.not_eq_true _ ▸ htried
          obtain ⟨hrefs, hpos, hle, hnone⟩ := h.filed.new hinfo hnew
          exact placed_new hnew (Int.le_of_lt htime) (Int.le_of_lt htime) hrefs hpos hle hnone
      simp only [if_neg hother]
      by_cases htried : info.fInTried = true
      · exact ⟨_, if_pos htried, hset, rfl⟩
      · rw [if_neg htried]
        split
        · exact ⟨_, rfl, hset, rfl⟩
        · rename_i nUBucket hplace
          have hin := find?_some hplace
          exact makeTried_spec world hset info_setInfo_self (Bool.not_eq_true _ ▸ htried) htime
            (ExtTreeSet.contains_iff_mem.mp hin) rnd

end CAddrMan

end MaryJaneCoin
