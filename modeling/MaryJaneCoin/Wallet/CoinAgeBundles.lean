import MaryJaneCoin.Wallet.CoinAgeTable

/-!
# Bundles of small coins

The bundles are written over the small coins that were already packed: a bundle takes at least
two of them, so no coin is overwritten before it is read.  After that every item of `vValue`
stands for a group of coins, and the coins behind the last bundle are in none.
-/

namespace MaryJaneCoin

open WrappedSum List Int64 Nat Option

/-- A list whose element is replaced by one with the same image. -/
theorem map_set_same {α β : Type} {f : α → β} {l : List α} {i : Nat} {old new : α}
    (hget : l[i]? = some old) (hsame : f new = f old) : (l.set i new).map f = l.map f := by
  obtain ⟨hlt, rfl⟩ := List.getElem?_eq_some_iff.mp hget
  rw [map_set, hsame]
  exact (congrArg _ (getElem_map f).symm).trans (set_getElem_self (by simpa using hlt))

namespace CoinBundles

variable {C : Type}

/-- Distinct coins whose values fit. -/
abbrev ProperValues (coins : List (ValuedCoin C)) : Prop :=
  ProperCoins ValuedCoin.coin ValuedCoin.nValue coins

/-- The coins behind which the bundles end. -/
def bundleEnds (nLarge : Nat) (bundles : List (List (ValuedCoin C))) : List Nat :=
  (List.range (bundles.length + 1)).map fun j => nLarge + (bundles.take j).flatten.length

theorem bundleEnds_concat (nLarge : Nat) (bundles : List (List (ValuedCoin C)))
    (bundle : List (ValuedCoin C)) : bundleEnds nLarge (bundles ++ [bundle]) =
      bundleEnds nLarge bundles ++ [nLarge + (bundles.flatten.length + bundle.length)] := by
  rw [bundleEnds, length_append, length_singleton, range_succ, map_append]
  refine congr (congrArg _ (map_congr_left fun j hj => ?_)) ?_
  · have hle : j ≤ bundles.length := le_of_lt_succ (mem_range.mp hj)
    rw [take_append_of_le_length hle]
  · rw [map_singleton, take_of_length_le (by simp), flatten_append, length_append, flatten_singleton]

/-- The loop that packs, with the bundles so far, the coins of the next one and the coins that
are still to come. -/
structure PackState (large : List (ValuedCoin C)) (denom : Int64) (s : BundleScan C)
    (bundles : List (List (ValuedCoin C))) (pending todo : List (ValuedCoin C)) : Prop where
  begins : s.nBeginBundles = large.length
  count : s.nTotalCoinValues = large.length + bundles.length
  ends : s.vZeroValueBundles = bundleEnds large.length bundles
  coins : s.vValue.map ValuedCoin.coin =
    (large ++ (bundles.flatten ++ (pending ++ todo))).map ValuedCoin.coin
  front : ∀ i, i < large.length → s.vValue[i]? = large[i]?
  values : ∀ j bundle, bundles[j]? = some bundle → ∃ item, s.vValue[large.length + j]? = some item ∧
    item.nValue.toInt = exact ValuedCoin.nValue bundle
  behind : s.vValue.drop (large.length + bundles.flatten.length) = pending ++ todo
  full : ∀ bundle ∈ bundles, 2 ≤ bundle.length ∧ denom.toInt ≤ exact ValuedCoin.nValue bundle
  sum : s.nValue.toInt = exact ValuedCoin.nValue pending
  small : exact ValuedCoin.nValue pending < denom.toInt

namespace PackState

variable {large pending todo : List (ValuedCoin C)} {denom : Int64} {s : BundleScan C}
  {bundles : List (List (ValuedCoin C))} {v : ValuedCoin C}

theorem length_le_flatten (h : PackState large denom s bundles pending todo) :
    bundles.length ≤ bundles.flatten.length := by
  have hfull : ∀ bundle ∈ bundles, 1 ≤ bundle.length :=
    fun bundle hbundle => le_of_succ_le (h.full bundle hbundle).1
  rw [length_flatten]
  have hsum := card_nsmul_le_sum (bundles.map List.length) 1 (by simpa using hfull)
  simpa using hsum

theorem length_vValue (h : PackState large denom s bundles pending todo) : s.vValue.length =
      large.length + (bundles.flatten.length + (pending.length + todo.length)) := by
  have hlength := congrArg List.length h.coins
  simpa only [length_map, length_append] using hlength

theorem next_coin (h : PackState large denom s bundles pending (v :: todo)) :
    s.vValue[large.length + bundles.flatten.length + pending.length]? = some v := by
  rw [← getElem?_drop, h.behind, getElem?_append_right le_rfl, Nat.sub_self]
  rfl

theorem item_le (h : PackState large denom s bundles pending (v :: todo)) :
    s.nTotalCoinValues ≤ large.length + bundles.flatten.length + pending.length := by
  have hle := h.length_le_flatten
  have hcount := h.count
  omega

theorem fill (h : PackState large denom s bundles pending (v :: todo))
    (hsmall : v.nValue.toInt < denom.toInt) (hfull : denom.toInt ≤ exact ValuedCoin.nValue (pending ++ [v]))
    (hpos : 0 < denom.toInt) {old : ValuedCoin C} (hold : s.vValue[s.nTotalCoinValues]? = some old)
    {nValue : Int64} (hvalue : nValue.toInt = exact ValuedCoin.nValue (pending ++ [v]))
    (nCost : Int64) : PackState large denom
      { vValue := s.vValue.set s.nTotalCoinValues { old with nValue, nCost }
        nBeginBundles := s.nBeginBundles
        nTotalCoinValues := s.nTotalCoinValues + 1
        vZeroValueBundles := s.vZeroValueBundles ++
          [large.length + bundles.flatten.length + pending.length + 1]
        nValue := 0
        nCost := 0 } (bundles ++ [pending ++ [v]]) [] todo := by
  have hitem := h.item_le
  have hflatten : (bundles ++ [pending ++ [v]]).flatten = bundles.flatten ++ (pending ++ [v]) := by
    rw [flatten_append, flatten_singleton]
  have hmany : 1 ≤ pending.length := by
    cases pending with
    | nil =>
      rw [nil_append, exact_cons, exact_nil] at hfull
      omega
    | cons _ _ => exact succ_le_succ (Nat.zero_le _)
  constructor
  · exact h.begins
  · rw [h.count, length_append, length_singleton, Nat.add_assoc]
  · rw [h.ends, bundleEnds_concat, length_append, length_singleton]
    simp only [Nat.add_assoc]
  · rw [hflatten]
    have hsame : ({ old with nValue, nCost } : ValuedCoin C).coin = old.coin := rfl
    refine (map_set_same hold hsame).trans (h.coins.trans ?_)
    simp only [append_assoc, nil_append, singleton_append]
  · intro i hi
    have hcount := h.count
    exact (getElem?_set_ne (by omega)).trans (h.front i hi)
  · intro j bundle hbundle
    by_cases hj : j < bundles.length
    · rw [getElem?_append_left hj] at hbundle
      obtain ⟨item, hget, hexact⟩ := h.values j bundle hbundle
      have hcount := h.count
      exact ⟨item, (getElem?_set_ne (by omega)).trans hget, hexact⟩
    · have hlt := (List.getElem?_eq_some_iff.mp hbundle).1
      rw [length_append, length_singleton] at hlt
      obtain rfl : j = bundles.length := by omega
      rw [getElem?_concat_length] at hbundle
      cases hbundle
      rw [← h.count]
      exact ⟨_, getElem?_set_self (List.getElem?_eq_some_iff.mp hold).1, hvalue⟩
  · rw [hflatten, drop_set, if_pos, nil_append]
    · have hmore : large.length + (bundles.flatten ++ (pending ++ [v])).length =
          large.length + bundles.flatten.length + (pending ++ [v]).length := by
        rw [length_append, Nat.add_assoc]
      have hdrop : pending ++ v :: todo = (pending ++ [v]) ++ todo := by
        rw [append_assoc]
        rfl
      rw [hmore, ← drop_drop, h.behind, hdrop, drop_left]
    · rw [length_append, length_append, length_singleton]
      omega
  · intro bundle hbundle
    cases mem_append.mp hbundle with
    | inl hmem => exact h.full bundle hmem
    | inr hmem =>
      rw [mem_singleton.mp hmem, length_append, length_singleton]
      exact ⟨succ_le_succ hmany, hfull⟩
  · rfl
  · exact hpos

theorem wait (h : PackState large denom s bundles pending (v :: todo))
    (hsmall : exact ValuedCoin.nValue (pending ++ [v]) < denom.toInt) {nValue : Int64}
    (hvalue : nValue.toInt = exact ValuedCoin.nValue (pending ++ [v])) (nCost : Int64) :
    PackState large denom { s with nValue, nCost } bundles (pending ++ [v]) todo := by
  have happend : pending ++ v :: todo = pending ++ [v] ++ todo := by
    rw [append_assoc]
    rfl
  refine ⟨h.begins, h.count, h.ends, ?_, h.front, h.values, ?_, h.full, hvalue, hsmall⟩
  · rw [← happend]
    exact h.coins
  · rw [← happend]
    exact h.behind

/-- **One coin is packed.** -/
theorem packCoin_some (h : PackState large denom s bundles pending (v :: todo))
    (hsmall : v.nValue.toInt < denom.toInt) (hpos : 0 < denom.toInt)
    (hproper : ProperValues (pending ++ [v])) :
    ∃ s', packCoin denom s (large.length + bundles.flatten.length + pending.length) = some s' ∧
      (PackState large denom s' (bundles ++ [pending ++ [v]]) [] todo ∨
        PackState large denom s' bundles (pending ++ [v]) todo) := by
  have hvalue : (s.nValue + v.nValue).toInt = exact ValuedCoin.nValue (pending ++ [v]) := by
    have hlow := hproper.exact_nonneg
    have hhigh := hproper.fits
    rw [exact_append, exact_cons, exact_nil, Int.add_zero] at hlow hhigh ⊢
    rw [toInt_add, h.sum]
    exact Int.bmod_eq_of_le (by omega) (by omega)
  have hlt : s.nTotalCoinValues < s.vValue.length := by
    have hitem := h.item_le
    have hlength := h.length_vValue
    rw [length_cons] at hlength
    omega
  unfold packCoin
  rw [h.next_coin, bind_some]
  dsimp only
  split
  · rename_i hfull
    rw [ge_iff_le, le_iff_toInt_le, hvalue] at hfull
    rw [getElem?_eq_getElem hlt]
    exact ⟨_, rfl, .inl (h.fill hsmall hfull hpos (getElem?_eq_getElem hlt) hvalue _)⟩
  · rename_i hless
    rw [ge_iff_le, le_iff_toInt_le, hvalue, Int.not_le] at hless
    exact ⟨_, rfl, .inr (h.wait hless hvalue _)⟩

/-- **All coins are packed.** -/
theorem packCoins_some (h : PackState large denom s bundles pending todo)
    (hsmall : ∀ v ∈ todo, v.nValue.toInt < denom.toInt) (hpos : 0 < denom.toInt)
    (hproper : ProperValues (pending ++ todo)) : ∃ s' bundles' pending',
      (List.range' (large.length + bundles.flatten.length + pending.length) todo.length).foldlM
        (packCoin denom) s = some s' ∧ PackState large denom s' bundles' pending' [] ∧
      bundles'.flatten ++ pending' = bundles.flatten ++ (pending ++ todo) := by
  induction todo generalizing s bundles pending with
  | nil => exact ⟨s, bundles, pending, rfl, h, by rw [append_nil]⟩
  | cons v todo ih =>
    have happend : pending ++ v :: todo = pending ++ [v] ++ todo := by
      rw [append_assoc]
      rfl
    rw [happend] at hproper
    obtain ⟨s', hs', hnext⟩ := h.packCoin_some (hsmall v mem_cons_self) hpos
      (hproper.sublist (sublist_append_left _ _))
    have hrest := fun w hw => hsmall w (mem_cons_of_mem _ hw)
    rw [length_cons, range'_succ, List.foldlM_cons, hs', happend, bind_eq_bind, bind_some]
    cases hnext with
    | inl hfill =>
      have hskip : (([] : List (ValuedCoin C)) ++ todo).Sublist (pending ++ [v] ++ todo) :=
        (nil_sublist _).append_right _
      obtain ⟨s'', bundles', pending', hloop, hend, hall⟩ := ih hfill hrest (hproper.sublist hskip)
      rw [flatten_append, flatten_singleton] at hall hloop
      refine ⟨s'', bundles', pending', ?_, hend, ?_⟩
      · rw [length_append, length_append, length_singleton, length_nil] at hloop
        simpa only [Nat.add_assoc, Nat.add_zero] using hloop
      · rw [hall]
        simp only [append_assoc, nil_append]
    | inr hwait =>
      obtain ⟨s'', bundles', pending', hloop, hend, hall⟩ := ih hwait hrest hproper
      refine ⟨s'', bundles', pending', ?_, hend, hall⟩
      rw [length_append, length_singleton] at hloop
      simpa only [Nat.add_assoc] using hloop

end PackState

variable [DecidableEq C]

/-- The items of `vValue` stand for these groups, and these coins are behind the last bundle. -/
structure Represents (p : CoinBundles C) (groups : List (List (ValuedCoin C)))
    (leftovers : List (ValuedCoin C)) : Prop where
  count : p.nTotalCoinValues = groups.length
  picks : ∀ i group, groups[i]? = some group → p.Picks i group
  behind : (p.vZeroValueBundles = [] ∧ leftovers = []) ∨
    ∃ last, p.vZeroValueBundles.getLast? = some last ∧ last ≤ p.vValue.length ∧
      p.vValue.drop last = leftovers

theorem picks_single {p : CoinBundles C} {i : Nat} {v : ValuedCoin C} (hget : p.vValue[i]? = some v)
    (hsingle : i < p.nBeginBundles) : p.Picks i [v] := by
  refine ⟨v, hget, ?_, fun ret => ?_⟩
  · rw [exact_cons, exact_nil, Int.add_zero]
  · rw [pickItem, hget, bind_some, if_neg (Nat.not_le.mpr hsingle)]
    rfl

theorem unpacked_represents (vValue : List (ValuedCoin C)) :
    (unpacked vValue).Represents (vValue.map fun v => [v]) [] := by
  refine ⟨(length_map _).symm, fun i group hgroup => ?_, .inl ⟨rfl, rfl⟩⟩
  rw [getElem?_map] at hgroup
  obtain ⟨v, hget, rfl⟩ := map_eq_some_iff.mp hgroup
  exact picks_single hget (List.getElem?_eq_some_iff.mp hget).1

namespace PackState

variable {large pending todo : List (ValuedCoin C)} {denom : Int64} {s : BundleScan C}
  {bundles : List (List (ValuedCoin C))}

omit [DecidableEq C] in
theorem getElem?_ends (h : PackState large denom s bundles pending todo) {j : Nat} (hj : j ≤ bundles.length) :
    s.vZeroValueBundles[j]? = some (large.length + (bundles.take j).flatten.length) := by
  rw [h.ends, bundleEnds, getElem?_map, getElem?_range (lt_succ_of_le hj)]
  rfl

omit [DecidableEq C] in
/-- **The coins of a bundle** are those that were packed into it. -/
theorem bundleCoins_some (h : PackState large denom s bundles pending []) {j : Nat}
    {bundle : List (ValuedCoin C)} (hbundle : bundles[j]? = some bundle) :
    s.toCoinBundles.bundleCoins j = some (bundle.map ValuedCoin.coin) := by
  obtain ⟨hlt, rfl⟩ := List.getElem?_eq_some_iff.mp hbundle
  have hsplit : bundles.take j ++ bundles[j] :: bundles.drop (j + 1) = bundles := by
    rw [getElem_cons_drop, take_append_drop]
  have hnext : (bundles.take (j + 1)).flatten.length =
      (bundles.take j).flatten.length + bundles[j].length := by
    rw [take_succ_eq_append_getElem hlt, flatten_append, length_append, flatten_singleton]
  have hall : bundles.flatten.length = (bundles.take j).flatten.length +
      (bundles[j].length + (bundles.drop (j + 1)).flatten.length) := by
    rw [← congrArg (fun bundles => bundles.flatten.length) hsplit, flatten_append,
      flatten_cons, length_append, length_append]
  have hlength := h.length_vValue
  rw [bundleCoins, h.getElem?_ends hlt.le, h.getElem?_ends hlt]
  simp only [bind_eq_bind, bind_some]
  rw [hnext, if_pos (by omega), map_take, map_drop, h.coins, ← map_drop, ← map_take]
  have hcoins : large ++ (bundles.flatten ++ (pending ++ [])) =
      (large ++ (bundles.take j).flatten) ++
        (bundles[j] ++ ((bundles.drop (j + 1)).flatten ++ pending)) := by
    rw [← congrArg List.flatten hsplit]
    simp only [flatten_append, flatten_cons, append_assoc, append_nil]
  have hcount : large.length + ((bundles.take j).flatten.length + bundles[j].length) -
      (large.length + (bundles.take j).flatten.length) = bundles[j].length := by omega
  have hfirst : large.length + (bundles.take j).flatten.length =
      (large ++ (bundles.take j).flatten).length := length_append.symm
  rw [hcount, hcoins, hfirst, drop_left, take_left]

/-- **What was packed** stands for the large coins and the bundles. -/
theorem represents (h : PackState large denom s bundles pending []) :
    s.toCoinBundles.Represents (large.map (fun v => [v]) ++ bundles) pending := by
  refine ⟨?_, fun i group hgroup => ?_, .inr ⟨large.length + bundles.flatten.length, ?_, ?_, ?_⟩⟩
  · rw [h.count, length_append, length_map]
  · by_cases hi : i < large.length
    · rw [getElem?_append_left (by rwa [length_map]), getElem?_map] at hgroup
      obtain ⟨v, hget, rfl⟩ := map_eq_some_iff.mp hgroup
      refine picks_single ((h.front i hi).trans hget) ?_
      rw [h.begins]
      exact hi
    · rw [getElem?_append_right (by rw [length_map]; omega), length_map] at hgroup
      obtain ⟨item, hget, hvalue⟩ := h.values _ group hgroup
      have hindex : large.length + (i - large.length) = i := by omega
      rw [hindex] at hget
      refine ⟨item, hget, hvalue, fun ret => ?_⟩
      rw [pickItem, hget, bind_some, h.begins, if_pos (by omega), h.bundleCoins_some hgroup]
      rfl
  · rw [h.ends, bundleEnds, range_succ, map_append, map_singleton, getLast?_concat, take_length]
  · have hlength := h.length_vValue
    omega
  · rw [h.behind, append_nil]

end PackState

/-- **Packing** makes groups that are worth at least the denominator, and what is left over is
worth less. -/
theorem packBundles_some {denom : Int64} {vValue : List (ValuedCoin C)} (hpos : 0 < denom.toInt)
    (hproper : ProperValues vValue) :
    ∃ p groups leftovers, packBundles denom vValue = some p ∧ p.Represents groups leftovers ∧
      (groups.flatten ++ leftovers).Perm vValue ∧
      (∀ group ∈ groups, denom.toInt ≤ exact ValuedCoin.nValue group) ∧
      exact ValuedCoin.nValue leftovers < denom.toInt := by
  have hsplit : (vValue.filter (fun v => v.nValue ≥ denom) ++
      vValue.filter fun v => !(v.nValue ≥ denom)).Perm vValue :=
    filter_append_perm _ vValue
  unfold packBundles
  dsimp only
  generalize hlarge : vValue.filter (fun v => v.nValue ≥ denom) = large at hsplit ⊢
  generalize hsmall : (vValue.filter fun v => !(v.nValue ≥ denom)) = small at hsplit ⊢
  have hstart : PackState large denom
      { vValue := large ++ small
        nBeginBundles := large.length
        nTotalCoinValues := large.length
        vZeroValueBundles := [large.length]
        nValue := 0
        nCost := 0 } [] [] small := by
    refine ⟨rfl, rfl, rfl, rfl, fun i hi => getElem?_append_left hi, ?_, ?_, ?_, rfl, hpos⟩
    · intro j bundle hbundle
      cases hbundle
    · exact drop_left
    · intro bundle hbundle
      cases hbundle
  have hless : ∀ v ∈ small, v.nValue.toInt < denom.toInt := by
    intro v hv
    rw [← hsmall, mem_filter] at hv
    simpa [le_iff_toInt_le] using hv.2
  have hmore : ∀ v ∈ large, denom.toInt ≤ v.nValue.toInt := by
    intro v hv
    rw [← hlarge, mem_filter] at hv
    simpa [le_iff_toInt_le] using hv.2
  obtain ⟨s, bundles, pending, hloop, hend, hall⟩ := hstart.packCoins_some hless hpos
    ((hproper.perm hsplit).sublist (sublist_append_right _ _))
  refine ⟨s.toCoinBundles, _, pending, ?_, hend.represents, ?_, ?_, hend.small⟩
  · have hloop' : (List.range' large.length small.length).foldlM (packCoin denom) _ = some s := hloop
    rw [hloop']
    rfl
  · have hflatten : (large.map fun v => [v]).flatten = large := flatMap_singleton' large
    rw [flatten_append, hflatten, append_assoc, hall]
    exact hsplit
  · intro group hgroup
    cases mem_append.mp hgroup with
    | inl hmem =>
      obtain ⟨v, hv, rfl⟩ := mem_map.mp hmem
      rw [exact_cons, exact_nil, Int.add_zero]
      exact hmore v hv
    | inr hmem => exact (hend.full group hmem).2

end CoinBundles

end MaryJaneCoin
