import MaryJaneCoin.Wallet.CombineSignatures
import MaryJaneCoin.Wallet.CommitRollback
import MaryJaneCoin.Wallet.GroupingComponents

/-!
# The groupings of a wallet

Addresses belong together when one transaction of the wallet's own uses them, to spend from or for
its change.  The function finds the components of that, as long as it has the outputs that those
transactions spend: it looks at all inputs of a transaction whose first input is own.
-/

namespace MaryJaneCoin

open Std Components CWalletState Option ExtTreeSet

theorem asSets_insert (groupings : AddressGroups) (set : AddressSet) :
    asSets {group | group ∈ groupings.insert set.toList} =
      insert (elements set) (asSets {group | group ∈ groupings}) := by
  refine Set.ext fun c => ?_
  rw [Set.mem_insert_iff, ← elements_toList set]
  constructor
  · rintro ⟨group, hgroup, rfl⟩
    rcases mem_insert.mp hgroup with hsame | hbefore
    · exact .inl (by rw [Std.compare_eq_iff_eq.mp hsame])
    · exact .inr ⟨group, hbefore, rfl⟩
  · rintro (rfl | ⟨group, hbefore, rfl⟩)
    · exact ⟨set.toList, mem_insert_self, rfl⟩
    · exact ⟨group, mem_insert.mpr (.inr hbefore), rfl⟩

namespace GroupingWorld

variable {H : Type} [Ord H] [TransOrd H] {world : GroupingWorld} {mapWallet : WalletMap H}
  {wtx : StoredTx H} {a b : CTxDestination} {zero : H}

/-- The addresses that a transaction spends from. -/
def SpentFrom (world : GroupingWorld) (mapWallet : WalletMap H) (wtx : StoredTx H) :
    Set CTxDestination :=
  {a | ∃ txin ∈ wtx.vin, ∃ txout, outputAt mapWallet txin.prevout = some txout ∧
    extractDestination world.hashes txout.scriptPubKey = some a}

/-- The addresses of its change. -/
def ChangeOf (world : GroupingWorld) (wtx : StoredTx H) : Set CTxDestination :=
  {a | ∃ txout ∈ wtx.vout, world.isChange txout = true ∧
    extractDestination world.hashes txout.scriptPubKey = some a}

/-- The addresses that a transaction uses together. -/
def UsedBy (world : GroupingWorld) (mapWallet : WalletMap H) (wtx : StoredTx H) : Set CTxDestination :=
  world.SpentFrom mapWallet wtx ∪ world.ChangeOf wtx

/-- The addresses of its own outputs. -/
def PaidTo (world : GroupingWorld) (wtx : StoredTx H) : Set CTxDestination :=
  {a | ∃ txout ∈ wtx.vout, world.isMine txout.scriptPubKey = true ∧
    extractDestination world.hashes txout.scriptPubKey = some a}

/-- A transaction of the wallet's own uses both addresses. -/
def Together (world : GroupingWorld) (mapWallet : WalletMap H) (a b : CTxDestination) : Prop :=
  ∃ (hash : H) (wtx : StoredTx H), mapWallet[hash]? = some wtx ∧ world.isOwnTx mapWallet wtx =
    true ∧ a ∈ world.UsedBy mapWallet wtx ∧ b ∈ world.UsedBy mapWallet wtx

/-- The address is one of an own output. -/
def Listed (world : GroupingWorld) (mapWallet : WalletMap H) (a : CTxDestination) : Prop :=
  ∃ (hash : H) (wtx : StoredTx H), mapWallet[hash]? = some wtx ∧ a ∈ world.PaidTo wtx

/-- **The components of the addresses concerned.** -/
def addressComponents (world : GroupingWorld) (mapWallet : WalletMap H) : Set (Set CTxDestination) :=
  {c | ∃ a, (world.Listed mapWallet a ∨ world.Together mapWallet a a) ∧
    c = component (world.Together mapWallet) a}

/-- The wallet has the outputs that the transaction spends, if it is own. -/
def InRange (world : GroupingWorld) (mapWallet : WalletMap H) (wtx : StoredTx H) : Prop :=
  world.isOwnTx mapWallet wtx = true → ∀ txin ∈ wtx.vin, (outputAt mapWallet txin.prevout).isSome = true

theorem mem_insertDestination {grouping : AddressSet} {txout : CTxOut} :
    a ∈ world.insertDestination grouping txout ↔
      a ∈ grouping ∨ extractDestination world.hashes txout.scriptPubKey = some a := by
  unfold insertDestination
  cases extractDestination world.hashes txout.scriptPubKey with
  | none => simp
  | some address =>
    simp only [mem_insert, Std.compare_eq_iff_eq, Option.some.injEq]
    exact or_comm

/-- The address that an output adds to a grouping. -/
def addressOf (world : GroupingWorld) (txout : CTxOut) : Set CTxDestination :=
  {a | extractDestination world.hashes txout.scriptPubKey = some a}

/-- **The inputs of an own transaction**: the loop ends when the wallet has all outputs. -/
theorem spentAddresses_collects (zero : H) (vin : List (CTxIn H)) : CollectLoop.Collects elements
      (fun txin => {a | ∃ txout, outputAt mapWallet txin.prevout = some txout ∧ a ∈ world.addressOf txout})
      (fun txin => (outputAt mapWallet txin.prevout).isSome = true) ∅ vin
      (world.spentAddresses mapWallet zero vin) := by
  refine CollectLoop.foldlM_collects
    _ _ _ (fun grouping txin hsome => ?_) (fun grouping txin hnone => ?_) vin ∅
  · obtain ⟨txout, htxout⟩ := isSome_iff_exists.mp hsome
    refine ⟨world.insertDestination grouping txout, by rw [htxout], fun a => ?_⟩
    refine mem_insertDestination.trans (or_congr_right ?_)
    rw [Set.mem_ofPred_eq, htxout]
    simp [addressOf]
  · rw [not_isSome_iff_eq_none] at hnone
    rw [hnone]
    exact ⟨_, rfl⟩

theorem mem_changeAddresses {grouping : AddressSet} {vout : List CTxOut} :
    a ∈ world.changeAddresses grouping vout ↔ a ∈ grouping ∨
      ∃ txout ∈ vout, world.isChange txout = true ∧ a ∈ world.addressOf txout := by
  refine CollectLoop.mem_foldl elements
    (fun txout => {a | world.isChange txout = true ∧ a ∈ world.addressOf txout}) ?_ vout grouping a
  intro grouping txout a
  by_cases hchange : world.isChange txout = true
  · rw [if_pos hchange, Set.mem_ofPred_eq, and_iff_right hchange]
    exact mem_insertDestination
  · rw [if_neg hchange, Set.mem_ofPred_eq, or_iff_left (fun h => hchange h.1)]

theorem mem_ownGroupings {groupings : AddressGroups} {vout : List CTxOut} {c : Set CTxDestination} :
    c ∈ asSets {group | group ∈ world.ownGroupings groupings vout} ↔
      c ∈ asSets {group | group ∈ groupings} ∨
      ∃ txout ∈ vout, world.isMine txout.scriptPubKey = true ∧ ∃ a ∈ world.addressOf txout, c = {a} := by
  refine CollectLoop.mem_foldl (fun groupings : AddressGroups => asSets {group | group ∈ groupings})
    (fun txout => {c | world.isMine txout.scriptPubKey = true ∧ ∃ a ∈ world.addressOf txout, c = {a}})
    ?_ vout groupings c
  intro groupings txout c
  by_cases hmine : world.isMine txout.scriptPubKey = true
  · rw [if_pos hmine, Set.mem_ofPred_eq, and_iff_right hmine]
    cases haddress : extractDestination world.hashes txout.scriptPubKey with
    | none => simp [addressOf, haddress]
    | some address =>
      have hsingle : elements ((∅ : AddressSet).insert address) = {address} := by
        refine Set.ext fun a => ?_
        show a ∈ (∅ : AddressSet).insert address ↔ a = address
        rw [mem_insert, Std.compare_eq_iff_eq]
        simp [eq_comm]
      rw [asSets_insert, hsingle, Set.mem_insert_iff, or_comm]
      simp [addressOf, haddress]
  · rw [if_neg hmine, Set.mem_ofPred_eq, or_iff_left (fun h => hmine h.1)]

/-- The sets that one transaction adds. -/
def entrySets (world : GroupingWorld) (mapWallet : WalletMap H) (wtx : StoredTx H) :
    Set (Set CTxDestination) :=
  {c | (world.isOwnTx mapWallet wtx = true ∧ c = world.UsedBy mapWallet wtx) ∨
    ∃ a ∈ world.PaidTo wtx, c = {a}}

omit [Ord H] [TransOrd H] in
theorem mem_ownGroupings_paidTo {groupings : AddressGroups} {c : Set CTxDestination} :
    c ∈ asSets {group | group ∈ world.ownGroupings groupings wtx.vout} ↔
      c ∈ asSets {group | group ∈ groupings} ∨ ∃ a ∈ world.PaidTo wtx, c = {a} := by
  refine mem_ownGroupings.trans (or_congr_right ?_)
  constructor
  · rintro ⟨txout, htxout, hmine, a, ha, rfl⟩
    exact ⟨a, ⟨txout, htxout, hmine, ha⟩, rfl⟩
  · rintro ⟨a, ⟨txout, htxout, hmine, ha⟩, rfl⟩
    exact ⟨txout, htxout, hmine, a, ha, rfl⟩

/-- **One round of the first loop**, with the outputs that it needs. -/
theorem groupEntry_ok (groupings : AddressGroups) (wtx : StoredTx H)
    (h : world.InRange mapWallet wtx) :
    ∃ groupings', world.groupEntry mapWallet zero groupings wtx = .ok groupings' ∧
      ∀ c, c ∈ asSets {group | group ∈ groupings'} ↔
        c ∈ asSets {group | group ∈ groupings} ∨ c ∈ world.entrySets mapWallet wtx := by
  unfold groupEntry
  by_cases hown : world.isOwnTx mapWallet wtx = true
  · rcases spentAddresses_collects zero wtx.vin with ⟨-, spent, hspent, hmem⟩ | ⟨⟨txin, htxin, hout⟩, -⟩
    · rw [if_pos hown, hspent]
      refine ⟨_, rfl, fun c => ?_⟩
      have hused : elements (world.changeAddresses spent wtx.vout) = world.UsedBy mapWallet wtx := by
        refine Set.ext fun a => mem_changeAddresses.trans (or_congr_left ?_)
        refine (hmem a).trans ⟨?_, ?_⟩
        · rintro (hnone | ⟨txin, htxin, txout, htxout, ha⟩)
          · exact (not_mem_empty hnone).elim
          · exact ⟨txin, htxin, txout, htxout, ha⟩
        · rintro ⟨txin, htxin, txout, htxout, ha⟩
          exact .inr ⟨txin, htxin, txout, htxout, ha⟩
      rw [mem_ownGroupings_paidTo, asSets_insert, hused, Set.mem_insert_iff, entrySets,
        Set.mem_ofPred_eq, and_iff_right hown]
      tauto
    · exact absurd (h hown txin htxin) hout
  · rw [if_neg hown]
    refine ⟨_, rfl, fun c => ?_⟩
    rw [mem_ownGroupings_paidTo, entrySets, Set.mem_ofPred_eq]
    exact or_congr_right (or_iff_right fun hused => hown hused.1).symm

/-- Without an output that it needs, the round reads outside of a vector. -/
theorem groupEntry_error (groupings : AddressGroups) (wtx : StoredTx H) (h : ¬world.InRange mapWallet wtx) :
    ∃ left, world.groupEntry mapWallet zero groupings wtx = .error left := by
  obtain ⟨hown, hout⟩ := Classical.not_imp.mp h
  rcases spentAddresses_collects zero wtx.vin with ⟨hall, -⟩ | ⟨-, left, hleft⟩
  · exact absurd hall hout
  · refine ⟨left, ?_⟩
    rw [groupEntry, if_pos hown, hleft]
    rfl

/-- The sets that the first loop collects. -/
def groupingSets (world : GroupingWorld) (mapWallet : WalletMap H) : Set (Set CTxDestination) :=
  {c | ∃ (hash : H) (wtx : StoredTx H), mapWallet[hash]? = some wtx ∧ c ∈ world.entrySets mapWallet wtx}

theorem linked_groupingSets_iff : Linked (world.groupingSets mapWallet) a b ↔
    world.Together mapWallet a b ∨ (a = b ∧ world.Listed mapWallet a) := by
  constructor
  · rintro ⟨c, ⟨hash, wtx, hwtx, ⟨hown, rfl⟩ | ⟨x, hx, rfl⟩⟩, ha, hb⟩
    · exact .inl ⟨hash, wtx, hwtx, hown, ha, hb⟩
    · rw [Set.mem_singleton_iff] at ha hb
      subst ha
      exact .inr ⟨hb.symm, hash, wtx, hwtx, hx⟩
  · rintro (⟨hash, wtx, hwtx, hown, ha, hb⟩ | ⟨rfl, hash, wtx, hwtx, ha⟩)
    · exact ⟨_, ⟨hash, wtx, hwtx, .inl ⟨hown, rfl⟩⟩, ha, hb⟩
    · exact ⟨{a}, ⟨hash, wtx, hwtx, .inr ⟨a, ha, rfl⟩⟩, rfl, rfl⟩

theorem component_groupingSets (a : CTxDestination) : component (Linked
    (world.groupingSets mapWallet)) a = component (world.Together mapWallet) a := by
  refine Set.ext fun b => ⟨fun h => ?_, Relation.EqvGen.mono (fun x y hxy => ?_) a b⟩
  · refine (Relation.EqvGen.is_equivalence _).eqvGen_iff.mp (Relation.EqvGen.mono (fun x y hxy => ?_) a b h)
    rcases linked_groupingSets_iff.mp hxy with htogether | ⟨rfl, -⟩
    · exact .rel x y htogether
    · exact .refl x
  · exact linked_groupingSets_iff.mpr (.inl hxy)

/-- **What the sets of the first loop connect** is what the transactions do. -/
theorem components_groupingSets :
    components (world.groupingSets mapWallet) = world.addressComponents mapWallet := by
  have hconcerned : ∀ a, a ∈ ⋃₀ world.groupingSets mapWallet ↔
      world.Listed mapWallet a ∨ world.Together mapWallet a a := by
    intro a
    have hself : a ∈ ⋃₀ world.groupingSets mapWallet ↔ Linked (world.groupingSets mapWallet) a a :=
      exists_congr fun c => and_congr_right fun _ => and_self_iff.symm
    rw [hself, linked_groupingSets_iff, and_iff_right rfl, or_comm]
  refine Set.ext fun c => exists_congr fun a => and_congr (hconcerned a) ?_
  rw [component_groupingSets]

theorem empty_mem_groupingSets_iff : ∅ ∈ world.groupingSets mapWallet ↔
    ∃ (hash : H) (wtx : StoredTx H), mapWallet[hash]? = some wtx ∧
      world.isOwnTx mapWallet wtx = true ∧ world.UsedBy mapWallet wtx = ∅ := by
  refine exists_congr fun hash => exists_congr fun wtx => and_congr_right fun _ => ?_
  constructor
  · rintro (⟨hown, hnone⟩ | ⟨a, -, hnone⟩)
    · exact ⟨hown, hnone.symm⟩
    · exact absurd hnone.symm (Set.singleton_ne_empty a)
  · exact fun h => .inl ⟨h.1, h.2.symm⟩

theorem mem_entries_iff : wtx ∈ mapWallet.toList.map Prod.snd ↔ ∃ hash : H, mapWallet[hash]? = some wtx := by
  simp only [List.mem_map, ExtTreeMap.getElem?_eq_some_iff_exists_compare_eq_eq_and_mem_toList]
  constructor
  · rintro ⟨⟨hash, wtx'⟩, hmem, rfl⟩
    exact ⟨hash, hash, ReflCmp.compare_self, hmem⟩
  · rintro ⟨hash, k, -, hmem⟩
    exact ⟨(k, wtx), hmem, rfl⟩

/-- **`GetAddressGroupings`** finds the components of the addresses concerned, and leaves the map,
just when the wallet has all the outputs that its own transactions spend and each of these uses an
address. -/
theorem getAddressGroupings_iff (world : GroupingWorld) (sha : Sha256 H) (mapWallet : WalletMap H) :
    (∃ ret, getAddressGroupings world sha mapWallet = .ok (mapWallet, ret) ∧
      asSets {group | group ∈ ret} = world.addressComponents mapWallet) ↔
    ∀ (hash : H) (wtx : StoredTx H), mapWallet[hash]? = some wtx → world.isOwnTx mapWallet wtx =
      true → (∀ txin ∈ wtx.vin, (outputAt mapWallet txin.prevout).isSome = true) ∧
        (world.UsedBy mapWallet wtx).Nonempty := by
  unfold getAddressGroupings
  rcases CollectLoop.foldlM_collects (fun groupings : AddressGroups => asSets {group | group ∈ groupings})
      (world.entrySets mapWallet) (world.InRange mapWallet) groupEntry_ok groupEntry_error
      (mapWallet.toList.map Prod.snd) ∅ with ⟨hall, groupings,
        hgroupings, hmem⟩ | ⟨⟨wtx, hwtx, hout⟩, left, hleft⟩
  · have hsets : asSets {group | group ∈ groupings} = world.groupingSets mapWallet := by
      refine Set.ext fun c => (hmem c).trans ?_
      constructor
      · rintro (⟨group, hgroup, -⟩ | ⟨wtx, hwtx, hc⟩)
        · exact (not_mem_empty hgroup).elim
        · exact (mem_entries_iff.mp hwtx).imp fun hash hhash => ⟨wtx, hhash, hc⟩
      · rintro ⟨hash, wtx, hwtx, hc⟩
        exact .inr ⟨wtx, mem_entries_iff.mpr ⟨hash, hwtx⟩, hc⟩
    obtain ⟨ret, hret, hcomponents⟩ := SetMerging.merge_groupings groupings
    rw [hsets, components_groupingSets] at hcomponents
    rw [hgroupings]
    simp only [Except.bind, hret]
    constructor
    · rintro ⟨ret', hsame, hexact⟩ hash wtx hwtx hown
      cases hsame
      refine ⟨hall wtx (mem_entries_iff.mpr ⟨hash, hwtx⟩) hown, Set.nonempty_iff_ne_empty.mpr fun hnone => ?_⟩
      have hempty : ∅ ∈ asSets {group | group ∈ ret} := by
        rw [hcomponents]
        exact .inr ⟨rfl, empty_mem_groupingSets_iff.mpr ⟨hash, wtx, hwtx, hown, hnone⟩⟩
      rw [hexact, ← components_groupingSets] at hempty
      exact Set.not_nonempty_empty (nonempty_of_mem_components hempty)
    · intro huse
      refine ⟨ret, rfl, hcomponents.trans (Set.ext fun c => or_iff_left ?_)⟩
      rintro ⟨-, hempty⟩
      obtain ⟨hash, wtx, hwtx, hown, hnone⟩ := empty_mem_groupingSets_iff.mp hempty
      exact Set.not_nonempty_empty (hnone ▸ (huse hash wtx hwtx hown).2)
  · rw [hleft]
    refine iff_of_false ?_ fun huse => ?_
    · rintro ⟨ret, hret, -⟩
      cases hret
    · obtain ⟨hash, hhash⟩ := mem_entries_iff.mp hwtx
      exact hout fun hown => (huse hash wtx hhash hown).1

/-- The scripts of the keys 1 and 4 are own, and one multisig script. -/
def twoKeys : GroupingWorld where
  hashes := openCrypto.hashes
  isMine script := script ∈ [payTo 1, payTo 4, oneOfOne]
  isMineAddress address := address ∈ [.keyID (Vector.replicate 20 1), .keyID (Vector.replicate 20 4)]
  inAddressBook _ := false
  adjustedTime := 5

/-- A wallet with these transactions. -/
def walletWith (txs : List (CTransaction (List Nat))) : WalletMap (List Nat) :=
  txs.foldl (fun mapWallet tx => mapWallet.insert (tx.getHash transparent) (CWalletState.ownTx tx)) ∅

/-- The coin of the wallet is spent, with change. -/
def changeTx : CTransaction (List Nat) :=
  samplePayment 2 ⟨CWalletState.coinTx.getHash transparent, 0⟩ [⟨50 * COIN, payTo 2⟩, ⟨49 * COIN, payTo 4⟩]

/-- The coin is spent together with an output that the wallet does not know. -/
def payJoinTx : CTransaction (List Nat) :=
  sampleTx 2 [⟨⟨CWalletState.coinTx.getHash transparent, 0⟩, [], 0⟩,
    ⟨⟨[8], 0⟩, [], 0⟩] [⟨150 * COIN, payTo 2⟩]

/-- A coin under a multisig script, and a transaction that spends all of it. -/
def multisigCoin : CTransaction (List Nat) := samplePayment 1 ⟨[7], 0⟩ [⟨100 * COIN, oneOfOne⟩]

def multisigSpend : CTransaction (List Nat) :=
  samplePayment 2 ⟨multisigCoin.getHash transparent, 0⟩ [⟨100 * COIN, payTo 2⟩]

/-- The spend with change is grouped rightly. -/
theorem getAddressGroupings_iff_change :
    ∃ ret, getAddressGroupings twoKeys transparent (walletWith [coinTx, changeTx]) =
        .ok (walletWith [coinTx, changeTx], ret) ∧
      asSets {group | group ∈ ret} = twoKeys.addressComponents (walletWith [coinTx, changeTx]) := by
  refine (getAddressGroupings_iff twoKeys transparent _).mpr fun hash wtx hwtx hown => ?_
  have hcoin : (outputAt (walletWith [coinTx, changeTx])
      ⟨coinTx.getHash transparent, 0⟩).map CTxOut.scriptPubKey = some (payTo 1) := by
    decide +kernel
  obtain ⟨txout, htxout, hscript⟩ := Option.map_eq_some_iff.mp hcoin
  rw [show walletWith [coinTx, changeTx] =
    ((∅ : WalletMap (List Nat)).insert (coinTx.getHash transparent)
      (ownTx coinTx)).insert (changeTx.getHash transparent)
        (ownTx changeTx) from rfl, ExtTreeMap.getElem?_insert] at hwtx
  split at hwtx
  · cases hwtx
    refine ⟨fun txin htxin => ?_, .keyID (Vector.replicate 20 1),
      .inl ⟨_, List.mem_singleton_self _, txout, htxout, ?_⟩⟩
    · cases List.mem_singleton.mp htxin
      exact Option.isSome_iff_exists.mpr ⟨txout, htxout⟩
    · rw [hscript]
      decide +kernel
  · rw [ExtTreeMap.getElem?_insert] at hwtx
    split at hwtx
    · cases hwtx
      have hforeign : twoKeys.isOwnTx (walletWith [coinTx, changeTx])
          (ownTx coinTx) = false := by decide +kernel
      rw [hforeign] at hown
      cases hown
    · cases hwtx

/-- **The PayJoin makes an entry and reads outside of its outputs**, and the multisig spend leaves
an empty set among the groupings. -/
theorem payJoin_reads_outside : (∃ left, getAddressGroupings twoKeys transparent
    (walletWith [coinTx, payJoinTx]) = .error left ∧
      (walletWith [coinTx, payJoinTx])[([8] : List Nat)]?.isNone = true ∧
      (left[([8] : List Nat)]?.any fun entry => entry.vout.isEmpty) = true) ∧
    ∃ mapWallet ret, getAddressGroupings twoKeys transparent (walletWith [multisigCoin, multisigSpend]) =
      .ok (mapWallet, ret) ∧ [] ∈ ret := by
  constructor
  · have hstops : (match getAddressGroupings twoKeys transparent (walletWith [coinTx, payJoinTx]) with
        | .error left => left[([8] : List Nat)]?.any fun entry => entry.vout.isEmpty
        | .ok _ => false) = true := by decide +kernel
    split at hstops
    · rename_i left hleft
      exact ⟨left, hleft, by decide +kernel, hstops⟩
    · cases hstops
  · have hempty :
        (match getAddressGroupings twoKeys transparent
          (walletWith [multisigCoin, multisigSpend]) with
        | .error _ => false
        | .ok (_, ret) => decide ([] ∈ ret)) = true := by decide +kernel
    split at hempty
    · cases hempty
    · rename_i mapWallet ret hret
      exact ⟨mapWallet, ret, hret, of_decide_eq_true hempty⟩

end GroupingWorld

end MaryJaneCoin
