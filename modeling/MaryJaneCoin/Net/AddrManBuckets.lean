import MaryJaneCoin.Net.AddrManIndex

/-!
# What lies in the buckets

A new address lies in as many new buckets as it has references, a tried one in a single tried
bucket and nowhere else, and the counters say how many there are of each.  In the midst of
`Add_` an address has a reference to a bucket that it does not lie in yet.
-/

namespace MaryJaneCoin

open List hiding Vector
open Std Buckets OptionLoop ExtTreeSet Option

/-- How often an identifier may lie in the buckets, as it is filed.  `nOwed` places are still
to be given to it. -/
def Placed (nOwed nNewRefs nTriedRefs : Nat) : Option Filing → Prop
  | none => nNewRefs = 0 ∧ nTriedRefs = 0
  | some filing => 0 ≤ filing.nLastSuccess ∧ 0 ≤ filing.nLastTry ∧
      if filing.fInTried then
        filing.nRefCount = 0 ∧ filing.nLastSuccess ≠ 0 ∧ nNewRefs = 0 ∧ nTriedRefs = 1
      else
        filing.nRefCount = nNewRefs + nOwed ∧ 1 ≤ filing.nRefCount ∧
          filing.nRefCount ≤ ADDRMAN_NEW_BUCKETS_PER_ADDRESS ∧ nTriedRefs = 0

namespace CAddrMan

/-- In how many new buckets an identifier lies. -/
def newRefs (s : CAddrMan) (nId : Int) : Nat := (entries ExtTreeSet.toList s.vvNew).count nId

/-- How often an identifier lies in the tried buckets. -/
def triedRefs (s : CAddrMan) (nId : Int) : Nat := (entries id s.vvTried).count nId

/-- Nothing is owed. -/
def nobody : Int → Nat := fun _ => 0

/-- One place is owed, to this identifier. -/
def only (nId : Int) : Int → Nat := fun other => if nId = other then 1 else 0

/-- The buckets and the counters agree with the table. -/
structure Filed (owed : Int → Nat) (s : CAddrMan) : Prop where
  placed : ∀ nId, Placed (owed nId) (s.newRefs nId) (s.triedRefs nId) (s.status nId)
  nTried : s.nTried = (entries id s.vvTried).length
  nNew : s.nNew = s.vRandom.length - s.nTried

/-- No bucket is too large. -/
structure Sized (s : CAddrMan) : Prop where
  vNew : ∀ b : Fin ADDRMAN_NEW_BUCKET_COUNT, (s.vvNew.get b).size ≤ ADDRMAN_NEW_BUCKET_SIZE
  vTried : ∀ b : Fin ADDRMAN_TRIED_BUCKET_COUNT, (s.vvTried.get b).length ≤ ADDRMAN_TRIED_BUCKET_SIZE

variable (world : AddrWorld) {s s' : CAddrMan} {nId : Int} {info : CAddrInfo} {owed : Int → Nat}

variable {b : Fin ADDRMAN_NEW_BUCKET_COUNT}

theorem newRefs_pos (hmem : nId ∈ s.vvNew.get b) : 0 < s.newRefs nId := by
  rw [newRefs, count_pos_iff, mem_entries]
  exact ⟨b, mem_toList.mpr hmem⟩

theorem triedRefs_pos {b : Fin ADDRMAN_TRIED_BUCKET_COUNT} (hmem : nId ∈ s.vvTried.get b) :
    0 < s.triedRefs nId := by
  rw [triedRefs, count_pos_iff, mem_entries]
  exact ⟨b, hmem⟩

namespace Filed

theorem new (h : s.Filed owed) (hinfo : s.mapInfo[nId]? = some info)
    (hnew : info.fInTried = false) : info.nRefCount = s.newRefs nId + owed nId ∧ 1 ≤
      info.nRefCount ∧ info.nRefCount ≤ ADDRMAN_NEW_BUCKETS_PER_ADDRESS ∧ s.triedRefs nId = 0 := by
  have hplaced := h.placed nId
  rw [status_eq hinfo] at hplaced
  have hclass := hplaced.2.2
  rw [if_neg (show ¬info.filing.fInTried = true by rw [show info.filing.fInTried = false from hnew]; simp)]
    at hclass
  exact hclass

theorem tried (h : s.Filed owed) (hinfo : s.mapInfo[nId]? = some info) (htried : info.fInTried = true) :
    info.nRefCount = 0 ∧ info.nLastSuccess ≠ 0 ∧ s.newRefs nId = 0 ∧ s.triedRefs nId = 1 := by
  have hplaced := h.placed nId
  rw [status_eq hinfo] at hplaced
  have hclass := hplaced.2.2
  rw [if_pos (show info.filing.fInTried = true from htried)] at hclass
  exact hclass

theorem info_of_mem (h : s.Filed owed) {b : Fin ADDRMAN_NEW_BUCKET_COUNT} (hmem : nId ∈ s.vvNew.get b) :
    ∃ info, s.mapInfo[nId]? = some info ∧ info.fInTried = false := by
  have hplaced := h.placed nId
  have hpos := newRefs_pos hmem
  cases hstatus : s.status nId with
  | none =>
    rw [hstatus] at hplaced
    exact absurd hplaced.1 (Nat.ne_of_gt hpos)
  | some filing =>
    obtain ⟨info, hinfo, -⟩ := exists_info hstatus
    refine ⟨info, hinfo, ?_⟩
    cases htried : info.fInTried with
    | false => rfl
    | true => exact absurd (h.tried hinfo htried).2.2.1 (Nat.ne_of_gt hpos)

theorem info_of_mem_tried (h : s.Filed owed) {b : Fin ADDRMAN_TRIED_BUCKET_COUNT}
    (hmem : nId ∈ s.vvTried.get b) :
    ∃ info, s.mapInfo[nId]? = some info ∧ info.fInTried = true := by
  have hplaced := h.placed nId
  have hpos := triedRefs_pos hmem
  cases hstatus : s.status nId with
  | none =>
    rw [hstatus] at hplaced
    exact absurd hplaced.2 (Nat.ne_of_gt hpos)
  | some filing =>
    obtain ⟨info, hinfo, -⟩ := exists_info hstatus
    refine ⟨info, hinfo, ?_⟩
    cases htried : info.fInTried with
    | true => rfl
    | false => exact absurd (h.new hinfo htried).2.2.2 (Nat.ne_of_gt hpos)

theorem times (h : s.Filed owed) (hinfo : s.mapInfo[nId]? = some info) :
    0 ≤ info.nLastSuccess ∧ 0 ≤ info.nLastTry := by
  have hplaced := h.placed nId
  rw [status_eq hinfo] at hplaced
  exact ⟨hplaced.1, hplaced.2.1⟩

end Filed

variable {nOwed nNewRefs nTriedRefs : Nat}

theorem placed_new {filing : Filing} (hnew : filing.fInTried = false)
    (hsuccess : 0 ≤ filing.nLastSuccess) (htry : 0 ≤ filing.nLastTry)
    (hrefs : filing.nRefCount = nNewRefs + nOwed) (hpos : 1 ≤ filing.nRefCount)
    (hle : filing.nRefCount ≤ ADDRMAN_NEW_BUCKETS_PER_ADDRESS) (hnone : nTriedRefs = 0) :
    Placed nOwed nNewRefs nTriedRefs (some filing) := by
  refine ⟨hsuccess, htry, ?_⟩
  rw [if_neg (by rw [hnew]; simp)]
  exact ⟨hrefs, hpos, hle, hnone⟩

theorem placed_tried {filing : Filing} (htried : filing.fInTried = true)
    (hsuccess : 0 < filing.nLastSuccess) (htry : 0 ≤ filing.nLastTry) (hrefs : filing.nRefCount = 0)
    (hnone : nNewRefs = 0) (hone : nTriedRefs = 1) : Placed nOwed nNewRefs nTriedRefs (some filing) := by
  refine ⟨Int.le_of_lt hsuccess, htry, ?_⟩
  rw [if_pos htried]
  exact ⟨hrefs, Int.ne_of_gt hsuccess, hnone, hone⟩

/-- **An entry leaves a new bucket**, one to which nothing is owed. -/
theorem evictNew_spec (hindexed : s.Indexed) (h : s.Filed owed)
    (hmem : nId ∈ s.vvNew.get b) (howed : owed nId = 0) :
    ∃ s', s.evictNew b nId = some s' ∧ s'.Indexed ∧ s'.Filed owed ∧
      (∀ other, nId ≠ other → s'.status other = s.status other) ∧
      s'.vvNew = s.vvNew.set b ((s.vvNew.get b).erase nId) ∧
        s'.vvTried = s.vvTried ∧ s'.nIdCount = s.nIdCount := by
  obtain ⟨info, hinfo, hnew⟩ := h.info_of_mem hmem
  obtain ⟨hrefs, hpos, hle, hnone⟩ := h.new hinfo hnew
  obtain ⟨hsuccess, htry⟩ := h.times hinfo
  obtain ⟨mid, hdrop, hmid, hother, hvvNew, hvvTried, hnTried, hnIdCount, hself⟩ := hindexed.dropRef hinfo
  have hset : mid.vvNew.set b ((mid.vvNew.get b).erase nId) = s.vvNew.set b ((s.vvNew.get b).erase nId) := by
    rw [hvvNew]
  refine ⟨{ mid with vvNew := mid.vvNew.set b ((mid.vvNew.get b).erase nId) }, by rw [evictNew, hdrop]; rfl,
    hmid, ⟨?_, ?_, ?_⟩, hother, hset, hvvTried, hnIdCount⟩
  · intro other
    show Placed (owed other)
      ((entries ExtTreeSet.toList (mid.vvNew.set b ((mid.vvNew.get b).erase nId))).count other)
      ((entries id mid.vvTried).count other) (mid.status other)
    have hcount := count_entries_erase hmem other
    rw [hset, hvvTried]
    by_cases hne : nId = other
    · subst hne
      rw [if_pos rfl] at hcount
      by_cases hone : info.nRefCount = 1
      · rw [if_pos hone] at hself
        rw [hself.1]
        refine ⟨?_, hnone⟩
        rw [newRefs] at hrefs
        omega
      · rw [if_neg hone] at hself
        rw [hself.1]
        rw [newRefs] at hrefs
        refine placed_new hnew hsuccess htry ?_ ?_ ?_ hnone
        · show info.nRefCount - 1 = _
          omega
        · show 1 ≤ info.nRefCount - 1
          omega
        · show info.nRefCount - 1 ≤ _
          omega
    · rw [if_neg hne, Nat.add_zero] at hcount
      rw [hcount, hother other hne]
      exact h.placed other
  · show mid.nTried = (entries id mid.vvTried).length
    rw [hnTried, hvvTried]
    exact h.nTried
  · show mid.nNew = mid.vRandom.length - mid.nTried
    have hcounted := h.nNew
    rw [hnTried]
    split at hself
    · obtain ⟨-, hlength, hnNew⟩ := hself
      omega
    · obtain ⟨-, hlength, hnNew⟩ := hself
      rw [hlength, hnNew]
      exact hcounted

theorem findTerrible_spec (nNow : Int) {ids : List Int}
    (hknown : ∀ nId ∈ ids, ∃ info, s.mapInfo[nId]? = some info) :
    ∃ found, s.findTerrible nNow ids = some found ∧ ∀ nId, found = some nId → nId ∈ ids := by
  induction ids with
  | nil => exact ⟨none, rfl, fun _ hnone => (nomatch hnone)⟩
  | cons first rest ih =>
    obtain ⟨info, hinfo⟩ := hknown first mem_cons_self
    rw [findTerrible, hinfo, bind_some]
    by_cases hterrible : info.isTerrible nNow = true
    · rw [if_pos hterrible]
      refine ⟨some first, rfl, ?_⟩
      intro nId heq
      rw [← Option.some.inj heq]
      exact mem_cons_self
    · rw [if_neg hterrible]
      obtain ⟨found, hfound, hmem⟩ := ih fun nId hnId => hknown nId (mem_cons_of_mem _ hnId)
      exact ⟨found, hfound, fun nId heq => mem_cons_of_mem _ (hmem nId heq)⟩

theorem oldestNewTurn_spec (drawn : List Nat) {bucket : List Int} {nOldest : Int}
    {entry : Int × Nat} (hknown : ∀ nId ∈ bucket, ∃ info, s.mapInfo[nId]? = some info)
    (hentry : entry.1 ∈ bucket) (hold : nOldest = -1 ∨ nOldest ∈ bucket) :
    ∃ next, s.oldestNewTurn drawn nOldest entry = some next ∧ (next = nOldest ∨ next ∈ bucket) ∧
      (entry.2 ∈ drawn → next ∈ bucket) := by
  rw [oldestNewTurn]
  by_cases hdrawn : entry.2 ∈ drawn
  · rw [if_pos hdrawn]
    by_cases hfirst : nOldest = -1
    · exact ⟨entry.1, if_pos hfirst, .inr hentry, fun _ => hentry⟩
    · have hin := hold.resolve_left hfirst
      obtain ⟨info, hinfo⟩ := hknown _ hentry
      obtain ⟨infoOldest, hinfoOldest⟩ := hknown _ hin
      rw [if_neg hfirst, hinfo, bind_some, hinfoOldest, map_some]
      refine ⟨_, rfl, ?_, ?_⟩
      · split
        · exact .inr hentry
        · exact .inl rfl
      · intro _
        split
        · exact hentry
        · exact hin
  · rw [if_neg hdrawn]
    exact ⟨nOldest, rfl, .inl rfl, fun hmem => absurd hmem hdrawn⟩

theorem oldestNew_spec (drawn : List Nat) {bucket : List Int}
    (hknown : ∀ nId ∈ bucket, ∃ info, s.mapInfo[nId]? = some info) {items : List (Int × Nat)}
    (hitems : ∀ entry ∈ items, entry.1 ∈ bucket) (nOldest : Int) (hold : nOldest = -1 ∨
    nOldest ∈ bucket) (hdrawn : nOldest ∈ bucket ∨ ∃ entry ∈ items, entry.2 ∈ drawn) :
    ∃ found, items.foldlM (s.oldestNewTurn drawn) nOldest = some found ∧ found ∈ bucket := by
  induction items generalizing nOldest with
  | nil =>
    rcases hdrawn with hin | ⟨entry, hentry, -⟩
    · exact ⟨nOldest, rfl, hin⟩
    · cases hentry
  | cons entry items ih =>
    obtain ⟨next, hnext, hkept, hhit⟩ :=
      oldestNewTurn_spec drawn hknown (hitems entry mem_cons_self) hold
    rw [List.foldlM_cons, hnext]
    apply ih fun entry hentry => hitems entry (mem_cons_of_mem _ hentry)
    · rcases hkept with rfl | hin
      · exact hold
      · exact .inr hin
    · rcases hdrawn with hin | ⟨found, hfound, hplace⟩
      · rcases hkept with rfl | hnextIn
        · exact .inl hin
        · exact .inl hnextIn
      · rcases List.mem_cons.mp hfound with rfl | hlater
        · exact .inl (hhit hplace)
        · exact .inr ⟨found, hlater, hplace⟩

/-- **`ShrinkNew`** takes an entry out of a bucket in which nothing is owed to anyone. -/
theorem shrinkNew_spec (hindexed : s.Indexed) (h : s.Filed owed)
    (hpos : 0 < (s.vvNew.get b).size) (howed : ∀ nId ∈ s.vvNew.get b, owed nId = 0) (nNow : Int)
    (rnd : Nat → Nat) :
    ∃ s' nId, s.shrinkNew nNow rnd b = some s' ∧ nId ∈ s.vvNew.get b ∧ s'.Indexed ∧ s'.Filed owed ∧
      (∀ other, nId ≠ other → s'.status other = s.status other) ∧
      s'.vvNew = s.vvNew.set b ((s.vvNew.get b).erase nId) ∧
        s'.vvTried = s.vvTried ∧ s'.nIdCount = s.nIdCount := by
  have hknown : ∀ nId ∈ (s.vvNew.get b).toList, ∃ info, s.mapInfo[nId]? = some info := by
    intro nId hnId
    obtain ⟨info, hinfo, -⟩ := h.info_of_mem (mem_toList.mp hnId)
    exact ⟨info, hinfo⟩
  obtain ⟨terrible, hterrible, hin⟩ := findTerrible_spec nNow hknown
  rw [shrinkNew]
  simp only [hterrible, bind_some]
  cases terrible with
  | some nId =>
    have hmem := mem_toList.mp (hin nId rfl)
    obtain ⟨s', hevict, hrest⟩ := evictNew_spec hindexed h hmem (howed nId hmem)
    exact ⟨s', nId, hevict, hmem, hrest⟩
  | none =>
    have hlength : (s.vvNew.get b).toList.length = (s.vvNew.get b).size := length_toList
    have hdraw : getRandInt (rnd 0) (s.vvNew.get b).size < (s.vvNew.get b).toList.length :=
      Nat.lt_of_lt_of_eq (getRandInt_lt (rnd 0) hpos) hlength.symm
    obtain ⟨nId, hfound, hmem⟩ := oldestNew_spec
      ((List.range 4).map fun i => getRandInt (rnd i) (s.vvNew.get b).size) hknown
      (fun entry (hentry : entry ∈ (s.vvNew.get b).toList.zipIdx) => fst_mem_of_mem_zipIdx hentry)
      (-1) (.inl rfl)
      (.inr ⟨((s.vvNew.get b).toList[getRandInt (rnd 0) (s.vvNew.get b).size],
        getRandInt (rnd 0) (s.vvNew.get b).size),
        mem_zipIdx_iff_getElem?.mpr (getElem?_eq_getElem hdraw), mem_map.mpr ⟨0, by decide, rfl⟩⟩)
    have hmem := mem_toList.mp hmem
    obtain ⟨s', hevict, hrest⟩ := evictNew_spec hindexed h hmem (howed nId hmem)
    exact ⟨s', nId, by rw [hfound, bind_some, hevict], hmem, hrest⟩

/-- An entry of the table changes. -/
theorem Filed.setInfo (h : s.Filed owed) {owed' : Int → Nat}
    (howed : ∀ other, nId ≠ other → owed' other = owed other)
    (hplaced : Placed (owed' nId) (s.newRefs nId) (s.triedRefs nId) (some info.filing)) :
    (s.setInfo nId info).Filed owed' := by
  refine ⟨?_, h.nTried, h.nNew⟩
  intro other
  rw [status_setInfo]
  by_cases hne : nId = other
  · subst hne
    rw [if_pos rfl]
    exact hplaced
  · rw [if_neg hne, howed other hne]
    exact h.placed other

/-- What is owed is given: the identifier lies in one more bucket. -/
theorem Filed.give (h : s.Filed (only nId)) (hinfo : s.mapInfo[nId]? = some info)
    (hnew : info.fInTried = false) (hnot : nId ∉ s.vvNew.get b) :
    { s with vvNew := s.vvNew.set b ((s.vvNew.get b).insert nId) b.isLt }.Filed nobody := by
  refine ⟨?_, h.nTried, h.nNew⟩
  intro other
  show Placed 0 ((entries ExtTreeSet.toList (s.vvNew.set b ((s.vvNew.get b).insert nId))).count other)
    (s.triedRefs other) (s.status other)
  rw [count_entries_insert hnot]
  by_cases hne : nId = other
  · subst hne
    obtain ⟨hrefs, hpos, hle, hnone⟩ := h.new hinfo hnew
    obtain ⟨hsuccess, htry⟩ := h.times hinfo
    rw [only, if_pos rfl] at hrefs
    rw [if_pos rfl, status_eq hinfo]
    refine placed_new hnew hsuccess htry ?_ hpos hle hnone
    show info.nRefCount = ((s.newRefs nId + 1 : Nat) : Int) + (0 : Nat)
    omega
  · have hplaced := h.placed other
    rw [only, if_neg hne] at hplaced
    rw [if_neg hne]
    exact hplaced

theorem size_set_le {vvNew : Vector (ExtTreeSet Int) ADDRMAN_NEW_BUCKET_COUNT}
    (hsized : ∀ b : Fin ADDRMAN_NEW_BUCKET_COUNT, (vvNew.get b).size ≤ ADDRMAN_NEW_BUCKET_SIZE)
    {vNew : ExtTreeSet Int} (hle : vNew.size ≤ ADDRMAN_NEW_BUCKET_SIZE)
    (other : Fin ADDRMAN_NEW_BUCKET_COUNT) : ((vvNew.set b vNew).get other).size ≤ ADDRMAN_NEW_BUCKET_SIZE :=
  forall_set (p := fun vNew : ExtTreeSet Int => vNew.size ≤ ADDRMAN_NEW_BUCKET_SIZE) hsized b hle other

/-- **The end of `Add_`**: the bucket makes room, if it has to, and takes the entry. -/
theorem enter_spec (hindexed : s.Indexed) (h : s.Filed (only nId)) (hsized : s.Sized)
    (hinfo : s.mapInfo[nId]? = some info) (hnew : info.fInTried = false)
    (hnot : nId ∉ s.vvNew.get b) (nNow : Int) (rnd : Nat → Nat) :
    ∃ s', (if (s.vvNew.get b).size = ADDRMAN_NEW_BUCKET_SIZE then s.shrinkNew nNow rnd b else some s).map
        (fun s => { s with vvNew := s.vvNew.set b ((s.vvNew.get b).insert nId) b.isLt }) = some s' ∧
      s'.Indexed ∧ s'.Filed nobody ∧ s'.Sized ∧ s'.nIdCount = s.nIdCount := by
  by_cases hfull : (s.vvNew.get b).size = ADDRMAN_NEW_BUCKET_SIZE
  · have howed : ∀ other ∈ s.vvNew.get b, only nId other = 0 := by
      intro other hother
      exact if_neg fun heq : nId = other => hnot (heq ▸ hother)
    obtain ⟨mid, evicted, hshrink, hmem, hmid, hfiled, hstatus, hvvNew, hvvTried, hnIdCount⟩ :=
      shrinkNew_spec hindexed h (hfull ▸ by decide) howed nNow rnd
    have hself := hstatus nId fun heq => hnot (heq ▸ hmem)
    rw [status_eq hinfo] at hself
    obtain ⟨midInfo, hmidInfo, hfiling⟩ := exists_info hself
    have hbucket : mid.vvNew.get b = (s.vvNew.get b).erase evicted := by
      have hget : (s.vvNew.set b ((s.vvNew.get b).erase evicted)).get b = (s.vvNew.get b).erase evicted :=
        Vector.getElem_set_self _
      rw [hvvNew, hget]
    have hnotMid : nId ∉ mid.vvNew.get b := by
      rw [hbucket, mem_erase]
      exact fun hin => hnot hin.2
    rw [if_pos hfull, hshrink, map_some]
    refine ⟨_, rfl, hmid, hfiled.give hmidInfo ?_ hnotMid, ⟨?_, hvvTried ▸ hsized.vTried⟩, hnIdCount⟩
    · exact (congrArg Filing.fInTried hfiling).trans hnew
    · have hmidSize : (mid.vvNew.get b).size + 1 = ADDRMAN_NEW_BUCKET_SIZE := by
        rw [hbucket, size_erase_of_mem hmem, hfull]
      have hmidSized : ∀ other : Fin ADDRMAN_NEW_BUCKET_COUNT,
          (mid.vvNew.get other).size ≤ ADDRMAN_NEW_BUCKET_SIZE := by
        rw [hvvNew]
        exact size_set_le hsized.vNew (Nat.le_trans size_erase_le (hsized.vNew b))
      refine size_set_le hmidSized ?_
      rw [size_insert_of_notMem hnotMid]
      exact Nat.le_of_eq hmidSize
  · rw [if_neg hfull, map_some]
    refine ⟨_, rfl, hindexed, h.give hinfo hnew hnot, ⟨size_set_le hsized.vNew ?_, hsized.vTried⟩, rfl⟩
    rw [size_insert_of_notMem hnot]
    exact Nat.lt_of_le_of_ne (hsized.vNew b) hfull

/-- **The address manager is in order.** -/
structure Sound (s : CAddrMan) : Prop where
  indexed : s.Indexed
  filed : s.Filed nobody
  sized : s.Sized

theorem Sound.setInfo (h : s.Sound) {info' : CAddrInfo} (hinfo : s.mapInfo[nId]? = some info)
    (hip : info'.ip = info.ip) (hpos : info'.nRandomPos = info.nRandomPos)
    (hfiling : info'.filing = info.filing) : (s.setInfo nId info').Sound := by
  refine ⟨h.indexed.setInfo hinfo hip hpos, h.filed.setInfo (fun _ _ => rfl) ?_, h.sized.vNew, h.sized.vTried⟩
  rw [hfiling, ← status_eq hinfo]
  exact h.filed.placed nId

theorem enterNew_known (h : s.Sound) (hinfo : s.mapInfo[nId]? = some info)
    (hnew : info.fInTried = false) (hfew : info.nRefCount ≠ ADDRMAN_NEW_BUCKETS_PER_ADDRESS)
    (nNow : Int) (rnd : Nat → Nat) (source : CNetAddr) :
    ∃ s', s.enterNew world nNow rnd nId info source = some s' ∧ s'.Sound ∧ s'.nIdCount = s.nIdCount := by
  rw [enterNew]
  by_cases hmem : nId ∈ s.vvNew.get (CAddrInfo.getNewBucket world s.nKey info.ip source)
  · exact ⟨s, if_pos hmem, h, rfl⟩
  · obtain ⟨hrefs, hpos, hle, hnone⟩ := h.filed.new hinfo hnew
    obtain ⟨hsuccess, htry⟩ := h.filed.times hinfo
    have hfiled : (s.setInfo nId { info with nRefCount := info.nRefCount + 1 }).Filed (only nId) := by
      apply h.filed.setInfo fun other hne => if_neg hne
      refine placed_new hnew hsuccess htry ?_ ?_ ?_ hnone
      · show info.nRefCount + 1 = s.newRefs nId + (only nId nId : Nat)
        rw [only, if_pos rfl, hrefs]
        rfl
      · show 1 ≤ info.nRefCount + 1
        omega
      · show info.nRefCount + 1 ≤ ADDRMAN_NEW_BUCKETS_PER_ADDRESS
        omega
    have hindexed : (s.setInfo nId { info with nRefCount := info.nRefCount + 1 }).Indexed :=
      h.indexed.setInfo hinfo rfl rfl
    obtain ⟨s', hs', hindexed', hfiled', hsized, hnIdCount⟩ := enter_spec
      hindexed hfiled
      ⟨h.sized.vNew, h.sized.vTried⟩ info_setInfo_self hnew hmem nNow rnd
    exact ⟨s', (if_neg hmem).trans hs', ⟨hindexed', hfiled', hsized⟩, hnIdCount⟩

theorem enterNew_created (h : s.Sound) {addr : CAddress} (hnew : s.find addr.ip = none)
    (hbound : s.nIdCount + 1 < 2 ^ 31) (info : CAddrInfo) (source : CNetAddr)
    (hinfo : info = { (s.create addr source).2.2 with nTime := info.nTime }) (nNow : Int) (rnd : Nat → Nat) :
    ∃ s', { (s.create addr source).1.setInfo s.nIdCount info with nNew := s.nNew + 1 }.enterNew world nNow rnd
        s.nIdCount info source = some s' ∧ s'.Sound ∧ s'.nIdCount = s.nIdCount + 1 := by
  obtain ⟨hindexed, hnIdCount⟩ := h.indexed.create hnew hbound source
  have hnone : s.status s.nIdCount = none := by rw [status, h.indexed.info_nIdCount, map_none]
  have hplaced := h.filed.placed s.nIdCount
  rw [hnone] at hplaced
  obtain ⟨hnoNew, hnoTried⟩ := hplaced
  have hcreated : (s.create addr source).1.mapInfo[s.nIdCount]? = some (s.create addr source).2.2 :=
    info_setInfo_self
  have hstart : ((s.create addr source).1.setInfo s.nIdCount info).Indexed :=
    hindexed.setInfo hcreated (by rw [hinfo]) (by rw [hinfo])
  have hfinal : CAddrMan.Indexed
      { ((s.create addr source).1.setInfo s.nIdCount info).setInfo s.nIdCount
          { info with nRefCount := info.nRefCount + 1 } with nNew := s.nNew + 1 } :=
    Indexed.setInfo hstart info_setInfo_self rfl rfl
  have hnot : s.nIdCount ∉ s.vvNew.get (CAddrInfo.getNewBucket world s.nKey info.ip source) :=
    (count_entries_eq_zero _).mp hnoNew _
  have hfiled : CAddrMan.Filed (only s.nIdCount)
      { ((s.create addr source).1.setInfo s.nIdCount info).setInfo s.nIdCount
          { info with nRefCount := info.nRefCount + 1 } with nNew := s.nNew + 1 } := by
    refine ⟨?_, h.filed.nTried, ?_⟩
    · intro other
      have hstatus : ((((s.create addr source).1.setInfo s.nIdCount info).setInfo s.nIdCount
          { info with nRefCount := info.nRefCount + 1 }).status other) =
          if s.nIdCount = other then some { info.filing with nRefCount := info.nRefCount + 1 }
          else s.status other := by
        rw [status_setInfo, status_setInfo]
        split
        · rfl
        · rename_i hne
          exact (status_setInfo (s := s) other).trans (if_neg hne)
      show Placed _ (s.newRefs other) (s.triedRefs other) _
      refine (congrArg _ hstatus).mpr ?_
      by_cases hne : s.nIdCount = other
      · subst hne
        rw [if_pos rfl, only, if_pos rfl, hnoNew, hnoTried]
        have hfields : info.filing = ⟨false, 0, 0, 0⟩ := by rw [hinfo]; rfl
        have hrefs : info.nRefCount = 0 := congrArg Filing.nRefCount hfields
        rw [hfields, hrefs]
        refine placed_new rfl ?_ ?_ ?_ ?_ ?_ rfl <;> decide
      · rw [if_neg hne, only, if_neg hne]
        exact h.filed.placed other
    · have hcounted := h.filed.nNew
      show s.nNew + 1 = ((s.vRandom ++ [s.nIdCount]).length : Int) - s.nTried
      rw [length_append, length_singleton, hcounted]
      omega
  obtain ⟨s', hs', hindexed', hfiled', hsized, hcount⟩ := enter_spec
    (s := { ((s.create addr source).1.setInfo s.nIdCount info).setInfo s.nIdCount
      { info with nRefCount := info.nRefCount + 1 } with nNew := s.nNew + 1 }) hfinal hfiled
    ⟨h.sized.vNew, h.sized.vTried⟩ info_setInfo_self (by rw [hinfo]; rfl) hnot nNow rnd
  exact ⟨s', (if_neg hnot).trans hs', ⟨hindexed', hfiled', hsized⟩, hcount.trans hnIdCount⟩

/-- **`Add_`**, while the identifiers suffice. -/
theorem add_spec (h : s.Sound) {nNow : Int} {rnd : Nat → Nat} {addr : CAddress} {source : CNetAddr}
    {nTimePenalty : Int}
    (hbound : s.creates (.add nNow rnd addr source nTimePenalty) = true → s.nIdCount + 1 < 2 ^ 31) :
    ∃ s' fNew, s.add world nNow rnd addr source nTimePenalty = some (s', fNew) ∧ s'.Sound ∧
      s'.nIdCount = s.nIdCount + (s.creates (.add nNow rnd addr source nTimePenalty)).toNat := by
  rw [add, creates] at *
  cases hroutable : addr.ip.isRoutable with
  | false => exact ⟨s, false, rfl, h, (Int.add_zero _).symm⟩
  | true =>
    rw [hroutable, Bool.true_and] at hbound
    cases hfind : s.find addr.ip with
    | none =>
      rw [hfind] at hbound
      obtain ⟨s', hs', hsound, hnIdCount⟩ := enterNew_created world h hfind (hbound rfl)
        { (s.create addr source).2.2 with
          nTime := UInt32.ofInt (max 0 (((s.create addr source).2.2.nTime.toNat : Int) - nTimePenalty)) }
        source rfl nNow rnd
      exact ⟨s', true, congrArg (Option.map fun s => (s, true)) hs', hsound, hnIdCount⟩
    | some entry =>
      obtain ⟨nId, info⟩ := entry
      obtain ⟨hinfo, -⟩ := h.indexed.info_of_find hfind
      have hheard : (s.setInfo nId (info.heardAgain addr nTimePenalty nNow)).Sound :=
        h.setInfo hinfo rfl rfl rfl
      -- Every refusal keeps what was noted.
      have hrefused : ∃ s' fNew,
          some (s.setInfo nId (info.heardAgain addr nTimePenalty nNow), false) = some (s', fNew) ∧
            s'.Sound ∧ s'.nIdCount = s.nIdCount + (false.toNat : Nat) :=
        ⟨_, false, rfl, hheard, (Int.add_zero _).symm⟩
      simp only [Bool.not_true, Bool.false_eq_true, if_false, isNone_some, Bool.and_false]
      split
      · exact hrefused
      · split
        · exact hrefused
        · rename_i hnew
          split
          · exact hrefused
          · rename_i hfew
            split
            · exact hrefused
            · obtain ⟨s', hs', hsound, hnIdCount⟩ := enterNew_known world hheard info_setInfo_self
                (Bool.not_eq_true _ ▸ hnew) hfew nNow rnd source
              exact ⟨s', false, by rw [hs', map_some], hsound, hnIdCount.trans (Int.add_zero _).symm⟩

end CAddrMan

end MaryJaneCoin
