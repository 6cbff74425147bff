import MaryJaneCoin.Lib.Masked
import MaryJaneCoin.Wallet.SelectedCoins

/-!
# `ApproximateBestSubset`

Coins are included at random, and those that are missing after it one by one.  Whenever the
target is reached with less than before, the coins are kept as the best ones.
-/

namespace MaryJaneCoin

open Masked WrappedSum List

/-- An element of `vValue`: a value, and which coin it is. -/
abbrev CoinValue (C : Type) := Int64 × C

/-- What `ApproximateBestSubset` keeps. -/
structure SubsetSearch where
  vfIncluded : List Bool
  nTotal : Int64
  fReachedTarget : Bool
  vfBest : List Bool
  nBest : Int64

namespace SubsetSearch

/-- One round of the innermost loop, for a coin that the pass takes. -/
def take (nTargetValue nValue : Int64) (i : Nat) (s : SubsetSearch) : SubsetSearch :=
  let nTotal := s.nTotal + nValue
  let vfIncluded := s.vfIncluded.set i true
  if nTotal ≥ nTargetValue then
    { vfIncluded := vfIncluded.set i false
      nTotal := nTotal - nValue
      fReachedTarget := true
      vfBest := if nTotal < s.nBest then vfIncluded else s.vfBest
      nBest := if nTotal < s.nBest then nTotal else s.nBest }
  else { s with vfIncluded, nTotal }

variable {C : Type}

/-- One pass over the coins. -/
def pass (vValue : List (CoinValue C)) (nTargetValue : Int64) (takes : List Bool → Nat → Bool)
    (s : SubsetSearch) : SubsetSearch :=
  vValue.zipIdx.foldl
    (fun s coin => if takes s.vfIncluded coin.2 then s.take nTargetValue coin.1.1 coin.2 else s) s

/-- One repetition: `rand` decides in the first pass, and the second one takes what is not
included. -/
def repetition (vValue : List (CoinValue C)) (nTargetValue : Int64) (flips : Nat → Bool)
    (s : SubsetSearch) : SubsetSearch :=
  let start := { s with
    vfIncluded := List.replicate vValue.length false
    nTotal := 0
    fReachedTarget := false }
  let s := start.pass vValue nTargetValue fun _ i => flips i
  if s.fReachedTarget then s
  else s.pass vValue nTargetValue fun vfIncluded i => vfIncluded[i]? == some false

end SubsetSearch

/-- `ApproximateBestSubset`, with a thousand repetitions. -/
def approximateBestSubset {C : Type} (flips : Nat → Nat → Bool) (vValue : List (CoinValue C))
    (nTotalLower nTargetValue : Int64) : SubsetSearch :=
  (List.range 1000).foldl
    (fun s nRep => if s.nBest ≠ nTargetValue then s.repetition vValue nTargetValue (flips nRep) else s)
    { vfIncluded := [], nTotal := 0, fReachedTarget := false
      vfBest := List.replicate vValue.length true, nBest := nTotalLower }

namespace SubsetSearch

variable {C : Type} {vValue : List (CoinValue C)} {nTargetValue : Int64} {s : SubsetSearch}

/-- The best coins are worth `nBest`, and that reaches the target. -/
structure KeepsBest (vValue : List (CoinValue C)) (nTargetValue : Int64) (s : SubsetSearch) : Prop where
  best : s.nBest.toInt = exact Prod.fst (picked s.vfBest vValue)
  enough : nTargetValue ≤ s.nBest

/-- The sum is that of the included coins. -/
structure Counts (vValue : List (CoinValue C)) (nTargetValue : Int64) (s : SubsetSearch) : Prop
    extends KeepsBest vValue nTargetValue s where
  total : s.nTotal.toInt = exact Prod.fst (picked s.vfIncluded vValue)

/-- Values that are not negative, and whose sum fits. -/
structure ValuesFit (vValue : List (CoinValue C)) : Prop where
  nonneg : ∀ coin ∈ vValue, 0 ≤ coin.1.toInt
  fits : exact Prod.fst vValue < 2 ^ 63

/-- **One round** counts the coin, and keeps the best coins. -/
theorem Counts.take (hvalues : ValuesFit vValue) (h : Counts vValue nTargetValue s) {i : Nat}
    {coin : CoinValue C} (hcoin : vValue[i]? = some coin) (hflag : s.vfIncluded[i]? = some false) :
    Counts vValue nTargetValue (s.take nTargetValue coin.1 i) := by
  have hperm := picked_set hflag hcoin
  have hmore : exact Prod.fst (picked (s.vfIncluded.set i true) vValue) =
      coin.1.toInt + exact Prod.fst (picked s.vfIncluded vValue) := by
    rw [exact_perm hperm, exact_cons]
  have hmost := exact_le_of_sublist (picked_sublist (s.vfIncluded.set i true) vValue) hvalues.nonneg
  have hfits := hvalues.fits
  have hvalue := hvalues.nonneg coin (mem_of_getElem? hcoin)
  have hbefore := exact_nonneg fun other hother =>
    hvalues.nonneg other ((picked_sublist s.vfIncluded vValue).subset hother)
  have htotal := h.total
  have hnext : (s.nTotal + coin.1).toInt = s.nTotal.toInt + coin.1.toInt := by
    rw [Int64.toInt_add]
    exact Int.bmod_eq_of_le (by omega) (by omega)
  unfold SubsetSearch.take
  dsimp only
  split
  · rename_i hreached
    refine ⟨⟨?_, ?_⟩, ?_⟩
    · dsimp only
      split
      · rw [hnext, hmore]
        omega
      · exact h.best
    · dsimp only
      split
      · exact hreached
      · exact h.enough
    · dsimp only
      rw [Int64.add_sub_cancel, set_set, set_false hflag]
      exact htotal
  · refine ⟨⟨h.best, h.enough⟩, ?_⟩
    dsimp only
    rw [hnext, hmore]
    omega

/-- A round changes no other flag. -/
theorem vfIncluded_take (nValue : Int64) {i j : Nat} (hne : j ≠ i) :
    (s.take nTargetValue nValue i).vfIncluded[j]? = s.vfIncluded[j]? := by
  unfold SubsetSearch.take
  dsimp only
  split
  · rw [set_set, getElem?_set_ne hne.symm]
  · exact getElem?_set_ne hne.symm

variable {takes : List Bool → Nat → Bool}

theorem Counts.passFrom (hvalues : ValuesFit vValue)
    (htakes : ∀ flags flags' i, flags[i]? = flags'[i]? → takes flags i = takes flags' i)
    {rest : List (CoinValue C)} {n : Nat} (hrest : vValue.drop n = rest) (h : Counts vValue nTargetValue s)
    (hfree : ∀ i, n ≤ i → i < vValue.length → takes s.vfIncluded i = true →
    s.vfIncluded[i]? = some false) : Counts vValue nTargetValue ((rest.zipIdx n).foldl
      (fun s coin => if takes s.vfIncluded coin.2 then s.take nTargetValue coin.1.1 coin.2 else s) s) := by
  induction rest generalizing n s with
  | nil => exact h
  | cons coin rest ih =>
    have hlt : n < vValue.length := by
      by_contra hle
      rw [drop_of_length_le (Nat.not_lt.mp hle)] at hrest
      cases hrest
    rw [drop_eq_getElem_cons hlt] at hrest
    obtain ⟨hcoin, hrest⟩ := List.cons.inj hrest
    rw [zipIdx_cons, foldl_cons]
    by_cases htake : takes s.vfIncluded n = true
    · rw [if_pos htake]
      have hflag := hfree n (Nat.le_refl n) hlt htake
      have hget : vValue[n]? = some coin := List.getElem?_eq_some_iff.mpr ⟨hlt, hcoin⟩
      refine ih hrest (h.take hvalues hget hflag) fun i hi hlength htaken => ?_
      have hsame : (s.take nTargetValue coin.1 n).vfIncluded[i]? = s.vfIncluded[i]? :=
        vfIncluded_take coin.1 (show i ≠ n by omega)
      rw [hsame]
      rw [htakes _ _ i hsame] at htaken
      exact hfree i (by omega) hlength htaken
    · rw [if_neg htake]
      exact ih hrest h fun i hi => hfree i (by omega)

/-- **One pass.** -/
theorem Counts.pass (hvalues : ValuesFit vValue)
    (htakes : ∀ flags flags' i, flags[i]? = flags'[i]? → takes flags i = takes flags' i)
    (h : Counts vValue nTargetValue s)
    (hfree : ∀ i, i < vValue.length → takes s.vfIncluded i = true → s.vfIncluded[i]? = some false) :
    Counts vValue nTargetValue (s.pass vValue nTargetValue takes) :=
  h.passFrom hvalues htakes drop_zero fun i _ => hfree i

/-- **One repetition.** -/
theorem KeepsBest.repetition (hvalues : ValuesFit vValue) (h : KeepsBest vValue nTargetValue s)
    (flips : Nat → Bool) : KeepsBest vValue nTargetValue (s.repetition vValue nTargetValue flips) := by
  have hstart : Counts vValue nTargetValue { s with
      vfIncluded := List.replicate vValue.length false
      nTotal := 0
      fReachedTarget := false } := by
    refine ⟨⟨h.best, h.enough⟩, ?_⟩
    dsimp only
    rw [picked_false, exact_nil]
    rfl
  have hfirst := hstart.pass hvalues (fun _ _ i _ => Eq.refl (flips i)) fun i hi _ => by
    dsimp only
    rw [getElem?_replicate_of_lt hi]
  unfold SubsetSearch.repetition
  dsimp only
  split
  · exact hfirst.toKeepsBest
  · refine (hfirst.pass hvalues (fun flags flags' i hflag => ?_) fun i _ htake => ?_).toKeepsBest
    · rw [hflag]
    · exact beq_iff_eq.mp htake

end SubsetSearch

open SubsetSearch in
/-- **The best subset** has the value that is reported, and reaches the target. -/
theorem approximateBestSubset_keepsBest {C : Type} {vValue : List (CoinValue C)}
    {nTotalLower nTargetValue : Int64} (hvalues : ValuesFit vValue)
    (htotal : nTotalLower.toInt = exact Prod.fst vValue) (henough : nTargetValue ≤ nTotalLower)
    (flips : Nat → Nat → Bool) :
    KeepsBest vValue nTargetValue (approximateBestSubset flips vValue nTotalLower nTargetValue) := by
  rw [approximateBestSubset]
  refine List.foldlRecOn (motive := KeepsBest vValue nTargetValue) _ _ ⟨?_, henough⟩ fun s hs nRep _ => ?_
  · dsimp only
    rw [picked_true]
    exact htotal
  · split
    · exact hs.repetition hvalues (flips nRep)
    · exact hs

end MaryJaneCoin
