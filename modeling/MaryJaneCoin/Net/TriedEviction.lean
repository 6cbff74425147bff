import Mathlib.Data.Int.ConditionallyCompleteOrder
import MaryJaneCoin.Net.AddrManTried

/-!
# Which entry a tried bucket gives up

`SelectTried` draws up to four entries, brings each to the place of its turn, and gives back where
the stalest one was drawn.  There stands, after the turn, what the draw has pushed aside.
-/

namespace MaryJaneCoin

open List

namespace CAddrMan

variable (s : CAddrMan) (rnd : Nat → Nat) (vTried : List Int)

/-- `mapInfo[nId].nLastSuccess`. -/
def nLastSuccess (nId : Int) : Int := (s.mapInfo[nId]?.map (·.nLastSuccess)).getD 0

/-- The draws of the first turns, each with the place where it looks and the entry that it finds,
and what is left to draw from. -/
def draws : Nat → List (Nat × Int) × List Int
  | 0 => ([], vTried)
  | i + 1 =>
    let (drawn, rest) := draws i
    let n := getRandInt (rnd i) rest.length
    (drawn ++ [(n + i, rest.getD n 0)], (rest.set n (rest.getD 0 0)).tail)

/-- The draws of a call. -/
def inspected : List (Nat × Int) :=
  (draws rnd vTried (min ADDRMAN_TRIED_ENTRIES_INSPECT_ON_EVICT vTried.length)).1

/-- The call reorders the bucket and gives the place of an inspected entry, such that none of them
has a smaller `nLastSuccess`. -/
def SelectsStalest : Prop :=
  ∃ vTried', ∃ n : Nat, s.selectTried rnd vTried = some (vTried', (n : Int)) ∧ vTried'.Perm vTried ∧
    ∃ nId ∈ vTried'[n]?, nId ∈ (inspected rnd vTried).map Prod.snd ∧
      ∀ other ∈ (inspected rnd vTried).map Prod.snd, s.nLastSuccess nId ≤ s.nLastSuccess other

/-- The stalest draw, of several the first, looks at the place of a turn that draws an entry as
stale: most simply, at the place of its own turn. -/
def StalestInPlace : Prop :=
  ∃ stalest ∈ (inspected rnd vTried).argmin (s.nLastSuccess ·.2),
    ∃ draw ∈ (inspected rnd vTried)[stalest.1]?, s.nLastSuccess draw.2 ≤ s.nLastSuccess stalest.2

variable {s rnd vTried}

theorem length_draws (rnd : Nat → Nat) {i : Nat} (hi : i ≤ vTried.length) :
    (draws rnd vTried i).1.length = i ∧ (draws rnd vTried i).2.length = vTried.length - i := by
  induction i with
  | zero => exact ⟨rfl, rfl⟩
  | succ i ih =>
    obtain ⟨hdrawn, hrest⟩ := ih (Nat.le_of_succ_le hi)
    rw [draws]
    simp only [length_append, length_singleton, length_tail, length_set]
    omega

/-- What a turn does to the places that are left. -/
theorem set_front (front : List Int) {rest : List Int} {n : Nat} (hn : n < rest.length) :
    ((front ++ rest).set (n + front.length) (rest.getD 0 0)).set front.length (rest.getD n 0) =
      front ++ rest.getD n 0 :: (rest.set n (rest.getD 0 0)).tail := by
  rw [set_append_right _ _ (by omega), set_append_right _ _ le_rfl, Nat.add_sub_cancel,
    Nat.sub_self]
  cases hset : rest.set n (rest.getD 0 0) with
  | nil =>
    have hlength := congrArg List.length hset
    rw [length_set] at hlength
    exact absurd (Nat.lt_of_lt_of_eq hn hlength) (Nat.not_lt_zero n)
  | cons first later => rfl

/-- The bucket after some turns: what they drew, and what is left. -/
def bucketAfter (rnd : Nat → Nat) (vTried : List Int) (i : Nat) : List Int :=
  (draws rnd vTried i).1.map Prod.snd ++ (draws rnd vTried i).2

/-- The oldest draw as the loop remembers it. -/
noncomputable def oldest (s : CAddrMan) (drawn : List (Nat × Int)) : Int × Int :=
  match drawn.argmin (s.nLastSuccess ·.2) with
  | none => (-1, -1)
  | some (nPos, nId) => (nId, nPos)

theorem nLastSuccess_eq {nId : Int} {info : CAddrInfo} (h : s.mapInfo[nId]? = some info) :
    s.nLastSuccess nId = info.nLastSuccess := by
  rw [nLastSuccess, h]
  rfl

theorem oldest_concat (drawn : List (Nat × Int)) (nPos : Nat) {nTemp : Int} {info : CAddrInfo}
    (hdrawn : ∀ draw ∈ drawn, draw.2 ≠ -1 ∧ ∃ info, s.mapInfo[draw.2]? = some info)
    (hinfo : s.mapInfo[nTemp]? = some info) (bucket : List Int) :
    (if (oldest s drawn).1 = -1 then some (bucket, nTemp, (nPos : Int))
      else s.mapInfo[nTemp]?.bind fun info => s.mapInfo[(oldest s drawn).1]?.map fun infoOldest =>
        if info.nLastSuccess < infoOldest.nLastSuccess then (bucket, nTemp, (nPos : Int))
        else (bucket, (oldest s drawn).1, (oldest s drawn).2)) =
      some (bucket, oldest s (drawn ++ [(nPos, nTemp)])) := by
  rw [oldest, oldest, argmin_concat]
  cases hold : drawn.argmin (s.nLastSuccess ·.2) with
  | none => rfl
  | some draw =>
    obtain ⟨nPosOld, nIdOld⟩ := draw
    obtain ⟨hne, infoOld, hinfoOld⟩ := hdrawn _ (argmin_mem hold)
    simp only at hne hinfoOld
    simp only [if_neg hne, hinfo, hinfoOld, Option.bind_some, Option.map_some,
      nLastSuccess_eq hinfo, nLastSuccess_eq hinfoOld]
    split <;> rfl

/-- **What the loop has computed after some turns.** -/
theorem selectTriedLoop_eq (rnd : Nat → Nat)
    (hknown : ∀ nId ∈ vTried, nId ≠ -1 ∧ ∃ info, s.mapInfo[nId]? = some info) {i : Nat}
    (hi : i ≤ vTried.length) : (List.range i).foldlM (s.selectTriedTurn rnd) (vTried, -1, -1) =
        some (bucketAfter rnd vTried i, oldest s (draws rnd vTried i).1) ∧
      (bucketAfter rnd vTried i).Perm vTried := by
  induction i with
  | zero => exact ⟨rfl, List.Perm.refl _⟩
  | succ i ih =>
    obtain ⟨hloop, hperm⟩ := ih (Nat.le_of_succ_le hi)
    obtain ⟨hdrawn, hrest⟩ := length_draws rnd (Nat.le_of_succ_le hi)
    have hleft : 0 < (draws rnd vTried i).2.length := by omega
    have hn := getRandInt_lt (rnd i) hleft
    have hlength : (bucketAfter rnd vTried i).length = vTried.length := hperm.length_eq
    have hnPos : getRandInt (rnd i) ((bucketAfter rnd vTried i).length - i) + i =
        getRandInt (rnd i) (draws rnd vTried i).2.length + i := by rw [hlength, hrest]
    generalize hwhere : getRandInt (rnd i) (draws rnd vTried i).2.length = n at hn hnPos
    have hfound : (bucketAfter rnd vTried i)[n + i]? = some ((draws rnd vTried i).2.getD n 0) := by
      rw [bucketAfter, getElem?_append_right (by simp [hdrawn]), length_map, hdrawn,
        Nat.add_sub_cancel, getElem?_eq_getElem hn, getD_eq_getElem _ _ hn]
    have hfront : (bucketAfter rnd vTried i)[i]? = some ((draws rnd vTried i).2.getD 0 0) := by
      rw [bucketAfter, getElem?_append_right (by simp [hdrawn]), length_map, hdrawn,
        Nat.sub_self, getElem?_eq_getElem hleft, getD_eq_getElem _ _ hleft]
    have hnext : ((bucketAfter rnd vTried i).set (n + i) ((draws rnd vTried i).2.getD 0 0)).set i
        ((draws rnd vTried i).2.getD n 0) = bucketAfter rnd vTried (i + 1) := by
      have hset := set_front ((draws rnd vTried i).1.map Prod.snd) hn
      rw [length_map, hdrawn] at hset
      rw [bucketAfter, hset, bucketAfter, draws]
      simp [hwhere]
    have hmem : ∀ nId ∈ bucketAfter rnd vTried i, nId ≠ -1 ∧ ∃ info, s.mapInfo[nId]? = some info :=
      fun nId h => hknown nId (hperm.mem_iff.mp h)
    obtain ⟨-, info, hinfo⟩ := hmem _ (mem_of_getElem? hfound)
    constructor
    · rw [range_succ, List.foldlM_append, hloop]
      show ([i].foldlM (s.selectTriedTurn rnd) _ : Option _) = _
      have hconcat := oldest_concat (draws rnd vTried i).1 (n + i) (fun draw hdraw =>
        hmem draw.2 (mem_append_left _ (mem_map_of_mem hdraw))) hinfo (bucketAfter rnd vTried (i + 1))
      have hdraws : (draws rnd vTried (i + 1)).1 =
          (draws rnd vTried i).1 ++ [(n + i, (draws rnd vTried i).2.getD n 0)] := by
        rw [← hwhere]
        rfl
      rw [List.foldlM_cons, selectTriedTurn]
      simp only [hnPos, hfound, hfront, Option.bind_some, hnext]
      rw [hdraws]
      exact (bind_pure _).trans hconcat
    · rw [← hnext]
      have hlt : n + i < (bucketAfter rnd vTried i).length := (List.getElem?_eq_some_iff.mp hfound).1
      have hltFront : i < (bucketAfter rnd vTried i).length := (List.getElem?_eq_some_iff.mp hfront).1
      have hswap := set_set_perm hlt hltFront
      rw [(List.getElem?_eq_some_iff.mp hfound).2, (List.getElem?_eq_some_iff.mp hfront).2] at hswap
      exact hswap.trans hperm

/-- **`SelectTried`** picks the stalest of the entries that it inspects exactly when that one was
drawn in its place. -/
theorem selectTried_stalest_iff (hknown : ∀ nId ∈ vTried, nId ≠ -1 ∧ ∃ info, s.mapInfo[nId]? = some info)
    (hnodup : vTried.Nodup) : SelectsStalest s rnd vTried ↔ StalestInPlace s rnd vTried := by
  obtain ⟨hloop, hperm⟩ := selectTriedLoop_eq rnd hknown
    (Nat.min_le_right ADDRMAN_TRIED_ENTRIES_INSPECT_ON_EVICT vTried.length)
  have hselect : s.selectTried rnd vTried = some (bucketAfter rnd vTried
      (min ADDRMAN_TRIED_ENTRIES_INSPECT_ON_EVICT vTried.length), (oldest s (inspected rnd vTried)).2) := by
    rw [selectTried, hloop]
    rfl
  rw [SelectsStalest, StalestInPlace, hselect, oldest]
  rw [bucketAfter, ← inspected] at hselect hperm ⊢
  generalize (draws rnd vTried (min ADDRMAN_TRIED_ENTRIES_INSPECT_ON_EVICT vTried.length)).2 = rest at hperm ⊢
  cases hold : (inspected rnd vTried).argmin (s.nLastSuccess ·.2) with
  | none => simp
  | some stalest =>
    obtain ⟨nPos, nIdStalest⟩ := stalest
    have hleast : ∀ draw ∈ inspected rnd vTried, s.nLastSuccess nIdStalest ≤ s.nLastSuccess draw.2 :=
      fun draw hdraw => le_of_mem_argmin (f := (s.nLastSuccess ·.2)) hdraw hold
    constructor
    · rintro ⟨bucket, n, hresult, -, nId, hplace, hdrawn, hstale⟩
      obtain ⟨rfl, hn⟩ := Prod.mk.inj (Option.some.inj hresult)
      obtain rfl : nPos = n := Int.ofNat_inj.mp hn
      refine ⟨_, rfl, ?_⟩
      by_cases hlt : nPos < (inspected rnd vTried).length
      · rw [getElem?_append_left (by rwa [length_map]), getElem?_map,
          getElem?_eq_getElem hlt] at hplace
        cases hplace
        exact ⟨_, getElem?_eq_getElem hlt, hstale _ (mem_map_of_mem (argmin_mem hold))⟩
      · -- What is left has not been drawn.
        rw [getElem?_append_right (by rw [length_map]; exact Nat.le_of_not_lt hlt)] at hplace
        exact absurd rfl ((nodup_append.mp (hperm.nodup_iff.mpr hnodup)).2.2 nId hdrawn nId
          (mem_of_getElem? hplace))
    · rintro ⟨stalest, hstalest, draw, hdraw, hle⟩
      cases hstalest
      refine ⟨_, nPos, rfl, hperm, draw.2, ?_, mem_map_of_mem (mem_of_getElem? hdraw), ?_⟩
      · have hlt := (List.getElem?_eq_some_iff.mp hdraw).1
        rw [getElem?_append_left (by rwa [length_map]), getElem?_map, hdraw]
        rfl
      · intro other hother
        obtain ⟨drawOther, hmem, rfl⟩ := mem_map.mp hother
        exact Int.le_trans hle (hleast drawOther hmem)

/-- A full bucket, in which the second entry is the stalest. -/
def fullBucket : List Int := (List.range ADDRMAN_TRIED_BUCKET_SIZE).map Int.ofNat

def fullInfo (nId : Int) : CAddrInfo where
  ip := .replicate 16 0
  port := 0
  nServices := 1
  nTime := 0
  nLastTry := 0
  source := .replicate 16 0
  nLastSuccess := if nId = 1 then 1 else 2
  nAttempts := 0
  nRefCount := 0
  fInTried := true
  nRandomPos := nId

def fullState : CAddrMan :=
  { fresh [] with mapInfo := Std.ExtTreeMap.ofList (fullBucket.map fun nId => (nId, fullInfo nId)) }

theorem fullBucket_known : ∀ nId ∈ fullBucket, nId ≠ -1 ∧ ∃ info, fullState.mapInfo[nId]? = some info := by
  simp only [← Option.isSome_iff_exists]
  decide +kernel

/-- Each turn looks at its own place. -/
theorem selectTried_inPlace : SelectsStalest fullState (fun _ => 0) fullBucket :=
  (selectTried_stalest_iff fullBucket_known (by decide +kernel)).mpr
    (by unfold StalestInPlace; decide +kernel)

/-- The first turn draws the second entry, and the second turn the fifth one from that place. -/
theorem selectTried_moved : ¬SelectsStalest fullState (fun i => if i = 0 then 1 else 3) fullBucket := by
  rintro ⟨vTried', n, hselect, -, nId, hplace, -, hstale⟩
  have hfifth : (fullState.selectTried (fun i => if i = 0 then 1 else 3) fullBucket).bind
      (fun result => result.1[result.2.toNat]?) = some 4 := by decide +kernel
  rw [hselect, Option.bind_some, Int.toNat_natCast, hplace] at hfifth
  cases hfifth
  exact absurd (hstale 1 (by decide +kernel)) (by decide +kernel)

end CAddrMan

end MaryJaneCoin
