import MaryJaneCoin.Net.AddrMan

/-!
# The table, its index and the random order

`mapInfo`, `mapAddr` and `vRandom` name the same addresses, and each entry knows its place in
the random order.  What `Create`, `SwapRandom` and `ShrinkNew` do to them.
-/

namespace MaryJaneCoin

open Std FinMap List Option ExtTreeMap Int

/-- The table, its index and the random order describe the same addresses. -/
structure AddrIndex (nIdCount : Int) (mapInfo : ExtTreeMap Int CAddrInfo)
    (mapAddr : ExtTreeMap CNetAddr Int) (vRandom : List Int) : Prop where
  position : ∀ {nId : Int} {info : CAddrInfo}, mapInfo[nId]? = some info →
    ∃ i : Nat, info.nRandomPos = i ∧ vRandom[i]? = some nId
  random : ∀ {i : Nat} {nId : Int}, vRandom[i]? = some nId →
    ∃ info : CAddrInfo, mapInfo[nId]? = some info ∧ info.nRandomPos = i
  address : ∀ {nId : Int} {info : CAddrInfo}, mapInfo[nId]? = some info → mapAddr[info.ip]? = some nId
  known : ∀ {addr : CNetAddr} {nId : Int}, mapAddr[addr]? = some nId →
    ∃ info : CAddrInfo, mapInfo[nId]? = some info ∧ info.ip = addr
  fresh : ∀ {nId : Int} {info : CAddrInfo}, mapInfo[nId]? = some info → 0 ≤ nId ∧ nId < nIdCount
  created : (vRandom.length : Int) ≤ nIdCount
  bounded : nIdCount < 2 ^ 31

/-- The addresses stay what they are, whatever becomes of the random order. -/
theorem AddrIndex.reorder {nIdCount : Int} {mapInfo mapInfo' : ExtTreeMap Int CAddrInfo}
    {mapAddr : ExtTreeMap CNetAddr Int} {vRandom vRandom' : List Int}
    (h : AddrIndex nIdCount mapInfo mapAddr vRandom)
    (hip : ∀ nId : Int, mapInfo'[nId]?.map (fun info : CAddrInfo => info.ip) =
      mapInfo[nId]?.map fun info : CAddrInfo => info.ip) (hlength : vRandom'.length = vRandom.length)
    (position : ∀ {nId : Int} {info : CAddrInfo}, mapInfo'[nId]? = some info →
      ∃ i : Nat, info.nRandomPos = i ∧ vRandom'[i]? = some nId)
    (random : ∀ {i : Nat} {nId : Int}, vRandom'[i]? = some nId →
      ∃ info : CAddrInfo, mapInfo'[nId]? = some info ∧ info.nRandomPos = i) :
    AddrIndex nIdCount mapInfo' mapAddr vRandom' := by
  have hlook : ∀ {nId : Int} {info : CAddrInfo}, mapInfo'[nId]? = some info →
      ∃ old : CAddrInfo, mapInfo[nId]? = some old ∧ old.ip = info.ip := by
    intro nId info hinfo
    have hsame := hip nId
    rw [hinfo, map_some] at hsame
    exact map_eq_some_iff.mp hsame.symm
  refine ⟨position, random, ?_, ?_, ?_, hlength ▸ h.created, h.bounded⟩
  · intro nId info hinfo
    obtain ⟨old, hold, hsame⟩ := hlook hinfo
    rw [← hsame]
    exact h.address hold
  · intro addr nId hget
    obtain ⟨old, hold, haddr⟩ := h.known hget
    have hsame := hip nId
    rw [hold, map_some] at hsame
    obtain ⟨info, hinfo, hinfoIp⟩ := map_eq_some_iff.mp hsame
    exact ⟨info, hinfo, hinfoIp.trans haddr⟩
  · intro nId info hinfo
    obtain ⟨old, hold, -⟩ := hlook hinfo
    exact h.fresh hold

/-- How an entry is filed. -/
structure Filing where
  fInTried : Bool
  nRefCount : Int
  nLastSuccess : Int
  nLastTry : Int

def CAddrInfo.filing (info : CAddrInfo) : Filing :=
  ⟨info.fInTried, info.nRefCount, info.nLastSuccess, info.nLastTry⟩

namespace CAddrMan

abbrev Indexed (s : CAddrMan) : Prop := AddrIndex s.nIdCount s.mapInfo s.mapAddr s.vRandom

/-- How an identifier is filed. -/
def status (s : CAddrMan) (nId : Int) : Option Filing := s.mapInfo[nId]?.map CAddrInfo.filing

variable {s s' : CAddrMan} {nId : Int} {info info' : CAddrInfo}

theorem status_eq (hinfo : s.mapInfo[nId]? = some info) : s.status nId = some info.filing := by
  rw [status, hinfo, map_some]

theorem exists_info {filing : Filing} (hstatus : s.status nId = some filing) :
    ∃ info, s.mapInfo[nId]? = some info ∧ info.filing = filing :=
  map_eq_some_iff.mp hstatus

theorem info_setInfo_self : (s.setInfo nId info).mapInfo[nId]? = some info := getElem?_insert_self

theorem info_setInfo_ne {other : Int} (hne : nId ≠ other) :
    (s.setInfo nId info).mapInfo[other]? = s.mapInfo[other]? :=
  getElem?_insert_ne _ _ hne

theorem info_setInfo (other : Int) : (s.setInfo nId info).mapInfo[other]? = if nId =
    other then some info else s.mapInfo[other]? := by
  split
  · rename_i heq
    rw [← heq, info_setInfo_self]
  · rename_i hne
    rw [info_setInfo_ne hne]

@[simp] theorem status_setInfo (other : Int) : (s.setInfo nId info).status other = if nId =
    other then some info.filing else s.status other := by
  rw [status, info_setInfo]
  split
  · rfl
  · rfl

namespace Indexed

theorem lt_length (h : s.Indexed) (hinfo : s.mapInfo[nId]? = some info) :
    info.nRandomPos.toNat < s.vRandom.length ∧ info.nRandomPos = info.nRandomPos.toNat ∧
      s.vRandom[info.nRandomPos.toNat]? = some nId := by
  obtain ⟨i, hi, hget⟩ := h.position hinfo
  rw [hi, toNat_natCast]
  exact ⟨(List.getElem?_eq_some_iff.mp hget).1, rfl, hget⟩

theorem nodup (h : s.Indexed) : s.vRandom.Nodup := by
  rw [nodup_iff_injective_getElem]
  intro i j hsame
  obtain ⟨info, hinfo, hi⟩ := h.random (getElem?_eq_getElem i.isLt)
  obtain ⟨info', hinfo', hj⟩ := h.random (getElem?_eq_getElem j.isLt)
  have hsame' : s.vRandom[i.val] = s.vRandom[j.val] := hsame
  rw [← hsame', hinfo] at hinfo'
  rw [← Option.some.inj hinfo', hi] at hj
  exact Fin.ext (Int.ofNat.inj hj)

theorem mem_vRandom (h : s.Indexed) : nId ∈ s.vRandom ↔ ∃ info, s.mapInfo[nId]? = some info := by
  constructor
  · intro hmem
    obtain ⟨i, hlt, hget⟩ := getElem_of_mem hmem
    obtain ⟨info, hinfo, -⟩ := h.random (List.getElem?_eq_some_iff.mpr ⟨hlt, hget⟩)
    exact ⟨info, hinfo⟩
  · rintro ⟨info, hinfo⟩
    obtain ⟨i, -, hget⟩ := h.position hinfo
    exact mem_of_getElem? hget

/-- Fields other than the address and the place in the random order are free. -/
theorem setInfo (h : s.Indexed) (hinfo : s.mapInfo[nId]? = some info) (hip : info'.ip = info.ip)
    (hpos : info'.nRandomPos = info.nRandomPos) : (s.setInfo nId info').Indexed := by
  apply AddrIndex.reorder h
  · intro other
    rw [info_setInfo]
    split
    · rename_i heq
      rw [← heq, hinfo, map_some, map_some, hip]
    · rfl
  · rfl
  · intro other found hfound
    rw [info_setInfo] at hfound
    split at hfound
    · rename_i heq
      rw [← Option.some.inj hfound, hpos, ← heq]
      exact h.position hinfo
    · exact h.position hfound
  · intro i other hother
    obtain ⟨old, hold, hi⟩ := h.random hother
    rw [info_setInfo]
    split
    · rename_i heq
      rw [← heq, hinfo] at hold
      exact ⟨info', rfl, hpos.trans (Option.some.inj hold ▸ hi)⟩
    · exact ⟨old, hold, hi⟩

end Indexed

/-- Nothing but the random order differs. -/
structure Reordered (s s' : CAddrMan) : Prop where
  status : ∀ nId, s'.status nId = s.status nId
  length : s'.vRandom.length = s.vRandom.length
  nIdCount : s'.nIdCount = s.nIdCount
  mapAddr : s'.mapAddr = s.mapAddr
  nTried : s'.nTried = s.nTried
  vvTried : s'.vvTried = s.vvTried
  nNew : s'.nNew = s.nNew
  vvNew : s'.vvNew = s.vvNew

theorem Reordered.refl : Reordered s s := ⟨fun _ => rfl, rfl, rfl, rfl, rfl, rfl, rfl, rfl⟩

theorem Reordered.trans {mid : CAddrMan} (h : Reordered s mid) (h' : Reordered mid s') : Reordered s s' where
  status nId := (h'.status nId).trans (h.status nId)
  length := h'.length.trans h.length
  nIdCount := h'.nIdCount.trans h.nIdCount
  mapAddr := h'.mapAddr.trans h.mapAddr
  nTried := h'.nTried.trans h.nTried
  vvTried := h'.vvTried.trans h.vvTried
  nNew := h'.nNew.trans h.nNew
  vvNew := h'.vvNew.trans h.vvNew

/-- `SwapRandom` has led from one state to the other: the entries at two places have changed
places, and each knows its own. -/
structure Swapped (s s' : CAddrMan) (p q : Nat) (nId1 nId2 : Int) (info1 info2 : CAddrInfo) :
    Prop where
  ne : p ≠ q
  front : s.vRandom[p]? = some nId1
  back : s.vRandom[q]? = some nId2
  found1 : s.mapInfo[nId1]? = some info1
  found2 : s.mapInfo[nId2]? = some info2
  pos1 : info1.nRandomPos = p
  pos2 : info2.nRandomPos = q
  other : nId1 ≠ nId2
  look : ∀ nId : Int, s'.mapInfo[nId]? =
    if nId2 = nId then some { info2 with nRandomPos := p }
    else if nId1 = nId then some { info1 with nRandomPos := q } else s.mapInfo[nId]?
  order : ∀ i : Nat, s'.vRandom[i]? =
    if q = i then some nId1 else if p = i then some nId2 else s.vRandom[i]?

namespace Swapped

variable {p q : Nat} {nId1 nId2 : Int} {info1 info2 : CAddrInfo}
  (hswap : Swapped s s' p q nId1 nId2 info1 info2)

include hswap

theorem map_mapInfo {α : Type} (f : CAddrInfo → α)
    (hfree : ∀ (info : CAddrInfo) (i : Int), f { info with nRandomPos := i } = f info) (nId : Int) :
    s'.mapInfo[nId]?.map f = s.mapInfo[nId]?.map f := by
  rw [hswap.look]
  split
  · rename_i heq
    rw [← heq, hswap.found2, map_some, map_some, hfree]
  · split
    · rename_i heq
      rw [← heq, hswap.found1, map_some, map_some, hfree]
    · rfl

/-- Every entry stands where it says. -/
theorem position (h : s.Indexed) {nId : Int} {info : CAddrInfo}
    (hinfo : s'.mapInfo[nId]? = some info) :
    ∃ i : Nat, info.nRandomPos = i ∧ s'.vRandom[i]? = some nId := by
  rw [hswap.look] at hinfo
  split at hinfo
  · rename_i heq
    rw [← Option.some.inj hinfo, ← heq]
    exact ⟨p, rfl, by rw [hswap.order, if_neg (Ne.symm hswap.ne), if_pos rfl]⟩
  · rename_i hne2
    split at hinfo
    · rename_i heq
      rw [← Option.some.inj hinfo, ← heq]
      exact ⟨q, rfl, by rw [hswap.order, if_pos rfl]⟩
    · rename_i hne1
      obtain ⟨i, hi, hget⟩ := h.position hinfo
      refine ⟨i, hi, ?_⟩
      have hqi : q ≠ i := fun heq => hne2 (Option.some.inj (hswap.back.symm.trans (heq ▸ hget)))
      have hpi : p ≠ i := fun heq => hne1 (Option.some.inj (hswap.front.symm.trans (heq ▸ hget)))
      rw [hswap.order, if_neg hqi, if_neg hpi, hget]

/-- Every place of the random order has an entry that says so. -/
theorem random (h : s.Indexed) {i : Nat} {nId : Int} (hget : s'.vRandom[i]? = some nId) :
    ∃ info, s'.mapInfo[nId]? = some info ∧ info.nRandomPos = i := by
  rw [hswap.look]
  rw [hswap.order] at hget
  split at hget
  · rename_i heq
    cases hget
    rw [if_neg hswap.other.symm, if_pos rfl]
    exact ⟨_, rfl, by rw [heq]⟩
  · rename_i hqi
    split at hget
    · rename_i heq
      cases hget
      rw [if_pos rfl]
      exact ⟨_, rfl, by rw [heq]⟩
    · rename_i hpi
      obtain ⟨info, hinfo, hi⟩ := h.random hget
      have hne2 : nId2 ≠ nId := by
        rintro rfl
        rw [hswap.found2, Option.some.injEq] at hinfo
        rw [← hinfo, hswap.pos2] at hi
        exact hqi (Int.ofNat.inj hi)
      have hne1 : nId1 ≠ nId := by
        rintro rfl
        rw [hswap.found1, Option.some.injEq] at hinfo
        rw [← hinfo, hswap.pos1] at hi
        exact hpi (Int.ofNat.inj hi)
      rw [if_neg hne2, if_neg hne1]
      exact ⟨info, hinfo, hi⟩

end Swapped

namespace Indexed

/-- **`SwapRandom`** finds what it asserts, and changes the random order only. -/
theorem swapRandom (h : s.Indexed) {p q : Nat} (hp : p < s.vRandom.length)
    (hq : q < s.vRandom.length) : ∃ s', s.swapRandom p q = some s' ∧ s'.Indexed ∧ Reordered s s' ∧
      s'.vRandom[q]? = s.vRandom[p]? := by
  by_cases hpq : p = q
  · subst hpq
    exact ⟨s, if_pos rfl, h, Reordered.refl, rfl⟩
  have hgetP := getElem?_eq_getElem hp
  have hgetQ := getElem?_eq_getElem hq
  have hne : s.vRandom[p] ≠ s.vRandom[q] := fun heq => hpq ((h.nodup.getElem_inj_iff).mp heq)
  generalize s.vRandom[p] = nId1 at hgetP hne
  generalize s.vRandom[q] = nId2 at hgetQ hne
  obtain ⟨info1, hinfo1, hpos1⟩ := h.random hgetP
  obtain ⟨info2, hinfo2, hpos2⟩ := h.random hgetQ
  let swapped : CAddrMan :=
    { (s.setInfo nId1 { info1 with nRandomPos := q }).setInfo nId2 { info2 with nRandomPos := p } with
      vRandom := (s.vRandom.set p nId2).set q nId1 }
  have hresult : s.swapRandom p q = some swapped := by
    rw [CAddrMan.swapRandom, if_neg hpq, hgetP, bind_some, hgetQ, bind_some, setRandomPos,
      hinfo1, map_some, bind_some, setRandomPos, info_setInfo_ne hne, hinfo2]
    rfl
  have hlook : ∀ nId : Int, swapped.mapInfo[nId]? =
      if nId2 = nId then some { info2 with nRandomPos := p }
      else if nId1 = nId then some { info1 with nRandomPos := q } else s.mapInfo[nId]? := by
    intro nId
    rw [info_setInfo, info_setInfo]
  have horder : ∀ i : Nat, swapped.vRandom[i]? =
      if q = i then some nId1 else if p = i then some nId2 else s.vRandom[i]? := by
    intro i
    rw [getElem?_set, length_set, if_pos hq, getElem?_set, if_pos hp]
  have hswap : Swapped s swapped p q nId1 nId2 info1 info2 :=
    ⟨hpq, hgetP, hgetQ, hinfo1, hinfo2, hpos1, hpos2, hne, hlook, horder⟩
  have hlength : swapped.vRandom.length = s.vRandom.length := by
    simp only [swapped, length_set]
  refine ⟨swapped, hresult, ?_, ⟨?_, hlength, rfl, rfl, rfl, rfl, rfl, rfl⟩, ?_⟩
  · exact AddrIndex.reorder h (hswap.map_mapInfo (fun info => info.ip) fun _ _ => rfl) hlength
      (hswap.position h) (hswap.random h)
  · exact hswap.map_mapInfo CAddrInfo.filing fun _ _ => rfl
  · exact (horder q).trans ((if_pos rfl).trans hgetP.symm)

theorem mapAddr_of_find (h : s.Indexed) {addr : CNetAddr} (hnew : s.find addr = none) :
    s.mapAddr[addr]? = none := by
  cases hget : s.mapAddr[addr]? with
  | none => rfl
  | some nId =>
    obtain ⟨info, hinfo, -⟩ := h.known hget
    rw [find, hget, bind_some, hinfo] at hnew
    cases hnew

theorem info_of_find (h : s.Indexed) {addr : CNetAddr} (hfind : s.find addr = some (nId, info)) :
    s.mapInfo[nId]? = some info ∧ info.ip = addr := by
  rw [find, bind_eq_some_iff] at hfind
  obtain ⟨found, hget, hmap⟩ := hfind
  obtain ⟨old, hold, heq⟩ := map_eq_some_iff.mp hmap
  cases heq
  obtain ⟨known, hknown, haddr⟩ := h.known hget
  rw [hold] at hknown
  exact ⟨hold, Option.some.inj hknown ▸ haddr⟩

theorem info_nIdCount (h : s.Indexed) : s.mapInfo[s.nIdCount]? = none := by
  cases hinfo : s.mapInfo[s.nIdCount]? with
  | none => rfl
  | some info => exact absurd (h.fresh hinfo).2 (Int.lt_irrefl _)

/-- **`Create`** of an address that is not known, while the identifiers suffice. -/
theorem create (h : s.Indexed) {addr : CAddress} (hnew : s.find addr.ip = none)
    (hbound : s.nIdCount + 1 < 2 ^ 31) (source : CNetAddr) :
    (s.create addr source).1.Indexed ∧ (s.create addr source).1.nIdCount = s.nIdCount + 1 := by
  have hnoAddr := h.mapAddr_of_find hnew
  have hnonneg : 0 ≤ s.nIdCount := Int.le_trans (natCast_nonneg _) h.created
  have hcount : (s.nIdCount + 1).bmod (2 ^ 32) = s.nIdCount + 1 := bmod_eq_of_le (by omega) (by omega)
  refine ⟨?_, hcount⟩
  have hlook : ∀ nId : Int, (s.create addr source).1.mapInfo[nId]? =
      if s.nIdCount = nId then some (s.create addr source).2.2 else s.mapInfo[nId]? :=
    fun nId => info_setInfo nId
  have hother : ∀ {nId : Int} {found : CAddrInfo}, s.mapInfo[nId]? = some found → s.nIdCount ≠ nId := by
    intro nId found hfound heq
    exact absurd (h.fresh hfound).2 (heq ▸ Int.lt_irrefl _)
  have hlast : (s.vRandom ++ [s.nIdCount])[s.vRandom.length]? = some s.nIdCount := getElem?_concat_length
  refine ⟨?_, ?_, ?_, ?_, ?_, ?_, ?_⟩
  · intro nId found hfound
    rw [hlook] at hfound
    split at hfound
    · rename_i heq
      rw [← heq, ← Option.some.inj hfound]
      exact ⟨s.vRandom.length, rfl, hlast⟩
    · obtain ⟨i, hi, hget⟩ := h.position hfound
      exact ⟨i, hi, getElem?_append_left (List.getElem?_eq_some_iff.mp hget).1 ▸ hget⟩
  · intro i nId hget
    rw [hlook]
    change (s.vRandom ++ [s.nIdCount])[i]? = some nId at hget
    by_cases hi : i < s.vRandom.length
    · rw [getElem?_append_left hi] at hget
      obtain ⟨found, hfound, hpos⟩ := h.random hget
      rw [if_neg (hother hfound)]
      exact ⟨found, hfound, hpos⟩
    · have hlt := (List.getElem?_eq_some_iff.mp hget).1
      rw [length_append, length_singleton] at hlt
      obtain rfl : i = s.vRandom.length := by omega
      rw [hlast] at hget
      rw [if_pos (Option.some.inj hget)]
      exact ⟨_, rfl, rfl⟩
  · intro nId found hfound
    show (s.mapAddr.insert addr.ip s.nIdCount)[found.ip]? = some nId
    rw [hlook] at hfound
    split at hfound
    · rename_i heq
      rw [← heq, ← Option.some.inj hfound]
      exact getElem?_insert_self
    · have hne : addr.ip ≠ found.ip := by
        intro heq
        rw [heq, h.address hfound] at hnoAddr
        cases hnoAddr
      rw [getElem?_insert_ne _ _ hne]
      exact h.address hfound
  · intro ip nId hget
    rw [hlook]
    change (s.mapAddr.insert addr.ip s.nIdCount)[ip]? = some nId at hget
    by_cases hip : addr.ip = ip
    · subst hip
      rw [getElem?_insert_self] at hget
      rw [if_pos (Option.some.inj hget)]
      exact ⟨_, rfl, rfl⟩
    · rw [getElem?_insert_ne _ _ hip] at hget
      obtain ⟨found, hfound, haddr⟩ := h.known hget
      rw [if_neg (hother hfound)]
      exact ⟨found, hfound, haddr⟩
  · intro nId found hfound
    show 0 ≤ nId ∧ nId < (s.nIdCount + 1).bmod (2 ^ 32)
    rw [hcount]
    rw [hlook] at hfound
    split at hfound
    · omega
    · have hfresh := h.fresh hfound
      omega
  · show ((s.vRandom ++ [s.nIdCount]).length : Int) ≤ (s.nIdCount + 1).bmod (2 ^ 32)
    have hcreated := h.created
    rw [hcount, length_append, length_singleton]
    omega
  · show (s.nIdCount + 1).bmod (2 ^ 32) < 2 ^ 31
    rw [hcount]
    exact hbound

theorem dropLast (h : s.Indexed) (hinfo : s.mapInfo[nId]? = some info)
    (hlast : s.vRandom[s.vRandom.length - 1]? = some nId) :
    AddrIndex s.nIdCount (s.mapInfo.erase nId) (s.mapAddr.erase info.ip) s.vRandom.dropLast := by
  have hpos : info.nRandomPos = ((s.vRandom.length - 1 : Nat) : Int) := by
    obtain ⟨found, hfound, hi⟩ := h.random hlast
    rw [hinfo] at hfound
    exact Option.some.inj hfound ▸ hi
  have hlook : ∀ {other : Int} {found : CAddrInfo}, (s.mapInfo.erase nId)[other]? = some found →
      nId ≠ other ∧ s.mapInfo[other]? = some found := by
    intro other found hfound
    by_cases hne : nId = other
    · subst hne
      rw [getElem?_erase_self] at hfound
      cases hfound
    · rw [getElem?_erase_ne _ hne] at hfound
      exact ⟨hne, hfound⟩
  refine ⟨?_, ?_, ?_, ?_, ?_, ?_, h.bounded⟩
  · intro other found hfound
    obtain ⟨hne, hold⟩ := hlook hfound
    obtain ⟨i, hi, hget⟩ := h.position hold
    refine ⟨i, hi, ?_⟩
    have hlt := (List.getElem?_eq_some_iff.mp hget).1
    have hnot : i ≠ s.vRandom.length - 1 := fun heq =>
      hne (Option.some.inj (hlast.symm.trans (heq ▸ hget)))
    rw [getElem?_dropLast, if_pos (by omega), hget]
  · intro i other hget
    rw [getElem?_dropLast] at hget
    split at hget
    · rename_i hlt
      obtain ⟨found, hfound, hi⟩ := h.random hget
      have hne : nId ≠ other := by
        rintro rfl
        rw [hinfo] at hfound
        rw [← Option.some.inj hfound, hpos] at hi
        omega
      exact ⟨found, (getElem?_erase_ne _ hne).trans hfound, hi⟩
    · cases hget
  · intro other found hfound
    obtain ⟨hne, hold⟩ := hlook hfound
    have haddr := h.address hold
    have hip : info.ip ≠ found.ip := by
      intro heq
      rw [← heq, h.address hinfo] at haddr
      exact hne (Option.some.inj haddr)
    rw [getElem?_erase_ne _ hip, haddr]
  · intro addr other hget
    by_cases hip : info.ip = addr
    · subst hip
      rw [getElem?_erase_self] at hget
      cases hget
    · rw [getElem?_erase_ne _ hip] at hget
      obtain ⟨found, hfound, haddr⟩ := h.known hget
      have hne : nId ≠ other := by
        rintro rfl
        rw [hinfo] at hfound
        exact hip (Option.some.inj hfound ▸ haddr)
      exact ⟨found, (getElem?_erase_ne _ hne).trans hfound, haddr⟩
  · intro other found hfound
    exact h.fresh (hlook hfound).2
  · have hcreated := h.created
    rw [length_dropLast]
    omega

/-- **A reference is dropped**: the entry has one less, or is gone.  The buckets are as
they were. -/
theorem dropRef (h : s.Indexed) (hinfo : s.mapInfo[nId]? = some info) :
    ∃ s', s.dropRef nId = some s' ∧ s'.Indexed ∧ (∀ other, nId ≠ other → s'.status other = s.status other) ∧
      s'.vvNew = s.vvNew ∧ s'.vvTried = s.vvTried ∧ s'.nTried = s.nTried ∧ s'.nIdCount = s.nIdCount ∧
      if info.nRefCount = 1 then
        s'.status nId = none ∧ (s'.vRandom.length : Int) = s.vRandom.length - 1 ∧ s'.nNew = s.nNew - 1
      else
        s'.status nId = some { info.filing with nRefCount := info.nRefCount - 1 } ∧
          s'.vRandom.length = s.vRandom.length ∧ s'.nNew = s.nNew := by
  have hset : (s.setInfo nId { info with nRefCount := info.nRefCount - 1 }).Indexed :=
    h.setInfo hinfo rfl rfl
  rw [CAddrMan.dropRef, hinfo, bind_some]
  by_cases hone : info.nRefCount = 1
  · obtain ⟨hlt, hpos, hget⟩ := h.lt_length hinfo
    have hbounded := Int.lt_of_le_of_lt h.created h.bounded
    have hplace : (info.nRandomPos % 2 ^ 32).toNat = info.nRandomPos.toNat := by
      rw [emod_eq_of_lt (by omega) (by omega)]
    have hend : (((s.vRandom.length : Int) - 1) % 2 ^ 32).toNat = s.vRandom.length - 1 := by
      rw [emod_eq_of_lt (by omega) (by omega)]
      omega
    obtain ⟨mid, hswap, hmid, hsame, hlast⟩ := hset.swapRandom (p := info.nRandomPos.toNat)
      (q := s.vRandom.length - 1) hlt (by show s.vRandom.length - 1 < s.vRandom.length; omega)
    have hmidLast : mid.vRandom[mid.vRandom.length - 1]? = some nId := by
      rw [hsame.length]
      exact hlast.trans hget
    have hstatus := hsame.status nId
    rw [status_setInfo, if_pos rfl] at hstatus
    obtain ⟨found, hfound, -⟩ := exists_info hstatus
    have hip : found.ip = info.ip := by
      have hknown : mid.mapAddr[info.ip]? = some nId := by
        rw [hsame.mapAddr]
        exact h.address hinfo
      obtain ⟨found', hfound', haddr⟩ := hmid.known hknown
      rw [hfound] at hfound'
      exact Option.some.inj hfound' ▸ haddr
    have hgone := hip ▸ hmid.dropLast hfound hmidLast
    rw [if_neg (by rw [hone]; decide), hplace, show (s.setInfo nId _).vRandom = s.vRandom from rfl,
      hend, hswap, map_some]
    refine ⟨_, rfl, hgone, ?_, hsame.vvNew, hsame.vvTried, hsame.nTried, hsame.nIdCount, ?_⟩
    · intro other hne
      rw [← (hsame.status other).trans ((status_setInfo other).trans (if_neg hne))]
      exact congrArg (Option.map CAddrInfo.filing) (getElem?_erase_ne _ hne)
    · rw [if_pos hone]
      refine ⟨?_, ?_, ?_⟩
      · exact congrArg (Option.map CAddrInfo.filing) getElem?_erase_self
      · have hlength : mid.vRandom.length = s.vRandom.length := hsame.length
        show (mid.vRandom.dropLast.length : Int) = s.vRandom.length - 1
        rw [length_dropLast, hlength]
        omega
      · exact congrArg (· - 1) hsame.nNew
  · refine ⟨s.setInfo nId { info with nRefCount := info.nRefCount - 1 },
      if_pos (by omega), hset, ?_, rfl, rfl,
      rfl, rfl, ?_⟩
    · intro other hne
      rw [status_setInfo, if_neg hne]
    · rw [if_neg hone, status_setInfo, if_pos rfl]
      exact ⟨rfl, rfl, rfl⟩

end Indexed

end CAddrMan

end MaryJaneCoin
