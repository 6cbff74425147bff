import MaryJaneCoin.Lib.OptionLoop
import MaryJaneCoin.Lib.ShiftedSlots
import MaryJaneCoin.Wallet.WalletRecords

/-!
# Order positions after an upgrade

`CWalletDB::ReorderTransactions`: transactions and accounting entries get a place in
the order of their times.  Positions are `int64_t`; the accounting entries are those
of the account without a name.
-/

namespace MaryJaneCoin

open Codec Std ShiftedSlots List Int64

/-- `DBErrors`, as far as reordering goes. -/
inductive ReorderResult where
  | DB_LOAD_OK
  | DB_LOAD_FAIL
deriving DecidableEq

/-- `CWallet` and the accounting entries of its database, in the order of their keys. -/
structure OrderedWallet where
  mapWallet : ExtTreeMap uint256 WalletTxRecord
  acentries : List CAccountingEntry
  nOrderPosNext : Int64

/-- `TxPair`: what an item of `txByTime` points to. -/
inductive TxPair where
  | wtx (hash : uint256)
  | acentry (i : Nat)
deriving DecidableEq

/-- What the database accepts. -/
structure WalletWrites where
  writeTx : WalletTxRecord → Bool
  writeAccountingEntry : CAccountingEntry → Bool

namespace OrderedWallet

/-- `nOrderPos` of an item. -/
def orderPos (wallet : OrderedWallet) : TxPair → Int64
  | .wtx hash => wallet.mapWallet[hash]?.elim (-1) WalletTxRecord.nOrderPos
  | .acentry i => wallet.acentries[i]?.elim (-1) CAccountingEntry.nOrderPos

/-- Assignment to `nOrderPos` of an item. -/
def setOrderPos (wallet : OrderedWallet) (nOrderPos : Int64) : TxPair → OrderedWallet
  | .wtx hash => { wallet with
      mapWallet := wallet.mapWallet.modify hash fun wtx => { wtx with nOrderPos := nOrderPos } }
  | .acentry i => { wallet with
      acentries := wallet.acentries.modify i fun entry => { entry with nOrderPos := nOrderPos } }

/-- `WriteTx` or `WriteAccountingEntry`. -/
def write (wallet : OrderedWallet) (writes : WalletWrites) : TxPair → Bool
  | .wtx hash => wallet.mapWallet[hash]?.all writes.writeTx
  | .acentry i => wallet.acentries[i]?.all writes.writeAccountingEntry

/-- `ListAccountCreditDebit`: the entries of an account, or of all. -/
def listAccountCreditDebit (wallet : OrderedWallet) (strAccount : Bytes) :
    List (CAccountingEntry × Nat) :=
  wallet.acentries.zipIdx.filter fun entry =>
    strAccount == [0x2a] || entry.1.strAccount == strAccount

/-- `txByTime`.  Items of one time stand in the order of their insertion. -/
def txByTime (wallet : OrderedWallet) : List TxPair :=
  let txs := wallet.mapWallet.toList.map fun item =>
    (Int64.ofNat item.2.nTimeReceived.toNat, TxPair.wtx item.1)
  let acentries := (wallet.listAccountCreditDebit []).map fun item =>
    (item.1.nTime, TxPair.acentry item.2)
  ((txs ++ acentries).mergeSort fun a b => a.1 ≤ b.1).map Prod.snd

/-- `nOrderPosOff`. -/
def orderPosOff (nOrderPosOffsets : List Int64) (nOrderPos : Int64) : Int64 :=
  Int64.ofNat (nOrderPosOffsets.countP (· ≤ nOrderPos))

/-- One round of the loop: the wallet with `nOrderPosOffsets`, or the wallet at a failure. -/
def reorderItem (writes : WalletWrites) (state : OrderedWallet × List Int64) (item : TxPair) :
    Except OrderedWallet (OrderedWallet × List Int64) :=
  let wallet := state.1
  let nOrderPos := wallet.orderPos item
  if nOrderPos = -1 then
    let moved := { wallet.setOrderPos wallet.nOrderPosNext item with
      nOrderPosNext := wallet.nOrderPosNext + 1 }
    match item with
    | .wtx _ => .ok (moved, state.2 ++ [wallet.nOrderPosNext])
    | .acentry _ =>
      if moved.write writes item then .ok (moved, state.2 ++ [wallet.nOrderPosNext])
      else .error { moved with acentries := wallet.acentries }
  else
    let nOrderPosOff := orderPosOff state.2 nOrderPos
    let moved := { wallet.setOrderPos (nOrderPos + nOrderPosOff) item with
      nOrderPosNext := max wallet.nOrderPosNext (nOrderPos + nOrderPosOff + 1) }
    if nOrderPosOff = 0 then .ok (moved, state.2)
    else if moved.write writes item then .ok (moved, state.2)
    else .error { moved with acentries := wallet.acentries }

def reorderTransactions (wallet : OrderedWallet) (writes : WalletWrites) :
    ReorderResult × OrderedWallet :=
  match wallet.txByTime.foldlM (reorderItem writes) ({ wallet with nOrderPosNext := 0 }, []) with
  | .ok state => (.DB_LOAD_OK, state.1)
  | .error wallet => (.DB_LOAD_FAIL, wallet)

/-- The transactions and all accounting entries. -/
def items (wallet : OrderedWallet) : List TxPair :=
  wallet.mapWallet.keys.map .wtx ++ (List.range wallet.acentries.length).map .acentry

variable {wallet : OrderedWallet} {item other : TxPair}

theorem wtx_mem_items {hash : uint256} : .wtx hash ∈ wallet.items ↔ hash ∈ wallet.mapWallet := by
  simp [items]

theorem acentry_mem_items {i : Nat} : .acentry i ∈ wallet.items ↔ i < wallet.acentries.length := by
  simp [items]

theorem nodup_items (wallet : OrderedWallet) : wallet.items.Nodup := by
  refine nodup_append'.mpr ⟨?_, ?_, ?_⟩
  · exact ExtTreeMap.nodup_keys.map fun _ _ heq => TxPair.wtx.inj heq
  · exact nodup_range.map fun _ _ heq => TxPair.acentry.inj heq
  · intro x hx hx'
    obtain ⟨_, -, rfl⟩ := mem_map.mp hx
    obtain ⟨_, -, heq⟩ := mem_map.mp hx'
    cases heq

@[simp] theorem items_setOrderPos (nOrderPos : Int64) :
    item ∈ (wallet.setOrderPos nOrderPos other).items ↔ item ∈ wallet.items := by
  cases item with
  | wtx hash =>
    rw [wtx_mem_items, wtx_mem_items]
    cases other with
    | wtx _ => exact ExtTreeMap.mem_modify
    | acentry _ => exact Iff.rfl
  | acentry i =>
    rw [acentry_mem_items, acentry_mem_items]
    cases other with
    | wtx _ => exact Iff.rfl
    | acentry _ => rw [setOrderPos, length_modify]

theorem orderPos_setOrderPos_self (nOrderPos : Int64) (hmem : item ∈ wallet.items) :
    (wallet.setOrderPos nOrderPos item).orderPos item = nOrderPos := by
  cases item with
  | wtx hash =>
    obtain ⟨wtx, hwtx⟩ := (FinMap.mem_iff_exists _ _).mp (wtx_mem_items.mp hmem)
    simp [setOrderPos, orderPos, hwtx]
  | acentry i =>
    have hentry := getElem?_eq_getElem (acentry_mem_items.mp hmem)
    simp [setOrderPos, orderPos, hentry]

theorem orderPos_setOrderPos_ne (nOrderPos : Int64) (hne : item ≠ other) :
    (wallet.setOrderPos nOrderPos item).orderPos other = wallet.orderPos other := by
  cases item with
  | wtx hash =>
    cases other with
    | wtx hash' =>
      have hne' : ¬compare hash hash' = .eq := fun heq => hne (congrArg _ (LawfulEqCmp.eq_of_compare heq))
      simp only [setOrderPos, orderPos, ExtTreeMap.getElem?_modify, if_neg hne']
    | acentry _ => rfl
  | acentry i =>
    cases other with
    | wtx _ => rfl
    | acentry i' =>
      have hne' : ¬i = i' := fun heq => hne (congrArg _ heq)
      simp [setOrderPos, orderPos, hne']

variable {writes : WalletWrites} {state : OrderedWallet × List Int64}

@[simp] theorem orderPos_next (nOrderPosNext : Int64) :
    { wallet with nOrderPosNext := nOrderPosNext : OrderedWallet }.orderPos item =
      wallet.orderPos item := by
  cases item <;> rfl

/-- What one round does when it fails at nothing. -/
theorem reorderItem_eq_ok {offsets : List Int64}
    (hstep : reorderItem writes (wallet, offsets) item = .ok state) :
    (wallet.orderPos item = -1 ∧
      state = ({ wallet.setOrderPos wallet.nOrderPosNext item with
        nOrderPosNext := wallet.nOrderPosNext + 1 }, offsets ++ [wallet.nOrderPosNext])) ∨
    (wallet.orderPos item ≠ -1 ∧
      state = ({ wallet.setOrderPos
        (wallet.orderPos item + orderPosOff offsets (wallet.orderPos item)) item with
        nOrderPosNext := max wallet.nOrderPosNext
          (wallet.orderPos item + orderPosOff offsets (wallet.orderPos item) + 1) }, offsets)) := by
  unfold reorderItem at hstep
  simp only at hstep
  split at hstep
  · rename_i hunset
    left
    cases item with
    | wtx hash => exact ⟨hunset, (Except.ok.inj hstep).symm⟩
    | acentry i =>
      simp only at hstep
      split at hstep
      · exact ⟨hunset, (Except.ok.inj hstep).symm⟩
      · cases hstep
  · rename_i hset
    right
    split at hstep
    · exact ⟨hset, (Except.ok.inj hstep).symm⟩
    · split at hstep
      · exact ⟨hset, (Except.ok.inj hstep).symm⟩
      · cases hstep

/-- Without a failing write there is no failure. -/
theorem reorderItem_isOk (htx : ∀ wtx, writes.writeTx wtx = true)
    (hentry : ∀ entry, writes.writeAccountingEntry entry = true)
    (state : OrderedWallet × List Int64) (item : TxPair) :
    ∃ state', reorderItem writes state item = .ok state' := by
  have hwrite : ∀ wallet : OrderedWallet, wallet.write writes item = true := by
    intro wallet
    cases item with
    | wtx hash =>
      show wallet.mapWallet[hash]?.all writes.writeTx = true
      cases wallet.mapWallet[hash]? with
      | none => rfl
      | some wtx => exact htx wtx
    | acentry i =>
      show wallet.acentries[i]?.all writes.writeAccountingEntry = true
      cases wallet.acentries[i]? with
      | none => rfl
      | some entry => exact hentry entry
  unfold reorderItem
  simp only [hwrite, if_true]
  split
  · cases item with
    | wtx hash => exact ⟨_, rfl⟩
    | acentry i => exact ⟨_, rfl⟩
  · split
    · exact ⟨_, rfl⟩
    · exact ⟨_, rfl⟩

/-- A position, none where it is not set. -/
def oldPos (nOrderPos : Int64) : Option Nat :=
  if nOrderPos = -1 then none else some nOrderPos.toNatClampNeg

/-- The positions of items before they are reordered. -/
def row (wallet : OrderedWallet) (l : List TxPair) : List (Option Nat) :=
  l.map fun item => oldPos (wallet.orderPos item)

/-- The positions are small enough to make room for all items that have none. -/
def Fits (wallet : OrderedWallet) (l : List TxPair) : Prop :=
  top (wallet.row l) + unset (wallet.row l) < 2 ^ 63

/-- Where the loop stands behind the items of `l`. -/
structure Reordering (before : OrderedWallet) (l : List TxPair) (wallet : OrderedWallet)
    (offsets : List Int64) : Prop where
  next : wallet.nOrderPosNext = Int64.ofNat (layout (before.row l)).next
  offsets : offsets = (layout (before.row l)).taken.map Int64.ofNat
  placed : l.map wallet.orderPos = (layout (before.row l)).placed.map Int64.ofNat
  others : ∀ item ∉ l, wallet.orderPos item = before.orderPos item
  items : ∀ item, item ∈ wallet.items ↔ item ∈ before.items

theorem ofNat_max {m n : Nat} (hm : m < 2 ^ 63) (hn : n < 2 ^ 63) :
    max (Int64.ofNat m) (Int64.ofNat n) = Int64.ofNat (max m n) := by
  show (if Int64.ofNat m ≤ Int64.ofNat n then Int64.ofNat n else Int64.ofNat m) = _
  simp only [ofNat_le_iff_le hm hn]
  split
  · rename_i hle
    rw [Nat.max_eq_right hle]
  · rename_i hle
    rw [Nat.max_eq_left (Nat.le_of_not_le hle)]

theorem orderPosOff_ofNat {taken : List Nat} {p : Nat} (htaken : ∀ o ∈ taken, o < 2 ^ 63) (hp : p < 2 ^ 63) :
    orderPosOff (taken.map Int64.ofNat) (Int64.ofNat p) = Int64.ofNat (taken.countP (· ≤ p)) := by
  rw [orderPosOff, countP_map]
  congr 1
  refine countP_congr fun o ho => ?_
  simp only [Function.comp_apply, decide_eq_true_eq]
  exact ofNat_le_iff_le (htaken o ho) hp

variable {before : OrderedWallet} {l : List TxPair} {offsets : List Int64}

/-- The invariant of the loop after the assignment to one item. -/
theorem Reordering.set (h : Reordering before l wallet offsets) (hnew : item ∉ l)
    (hmem : item ∈ before.items) (nOrderPos nOrderPosNext : Int64) :
    let moved := { wallet.setOrderPos nOrderPos item with nOrderPosNext := nOrderPosNext }
    (l ++ [item]).map moved.orderPos = (layout (before.row l)).placed.map Int64.ofNat ++
      [nOrderPos] ∧ (∀ other ∉ l ++ [item], moved.orderPos other = before.orderPos other) ∧
      ∀ other, other ∈ moved.items ↔ other ∈ before.items := by
  intro moved
  have hmap : l.map moved.orderPos = l.map wallet.orderPos := by
    refine map_congr_left fun other hother => ?_
    rw [orderPos_next]
    exact orderPos_setOrderPos_ne _ fun heq => hnew (heq ▸ hother)
  refine ⟨?_, fun other hother => ?_, fun other => ?_⟩
  · rw [map_append, hmap, h.placed, map_singleton, orderPos_next,
      orderPos_setOrderPos_self _ ((h.items item).mpr hmem)]
  · rw [mem_append, not_or, mem_singleton] at hother
    rw [orderPos_next, orderPos_setOrderPos_ne _ (Ne.symm hother.2), h.others _ hother.1]
  · exact (items_setOrderPos nOrderPos).trans (h.items other)

theorem row_append (before : OrderedWallet) (l l' : List TxPair) :
    before.row (l ++ l') = before.row l ++ before.row l' := map_append

/-- Fewer items need less room. -/
theorem Fits.append_left {l l' : List TxPair} (h : before.Fits (l ++ l')) : before.Fits l := by
  have htop := top_le_append (before.row l) (before.row l')
  have hunset : unset (before.row l) ≤ unset (before.row l ++ before.row l') := by
    rw [unset, unset, count_append]
    exact Nat.le_add_right _ _
  rw [Fits, row_append] at h
  rw [Fits]
  omega

theorem Fits.next_lt (h : before.Fits l) : (layout (before.row l)).next < 2 ^ 63 :=
  Nat.lt_of_le_of_lt next_le h

/-- **One round of the loop.** -/
theorem Reordering.step
    (h : Reordering before l wallet offsets) (hnew : item ∉ l) (hmem : item ∈ before.items)
    (hpos : before.orderPos item = -1 ∨ 0 ≤ before.orderPos item) (hfits : before.Fits
    (l ++ [item])) (hstep : reorderItem writes (wallet, offsets) item = .ok state) :
    Reordering before (l ++ [item]) state.1 state.2 := by
  have hold := h.others item hnew
  have hnext := hfits.next_lt
  rcases reorderItem_eq_ok hstep with ⟨hunset, rfl⟩ | ⟨hset, rfl⟩
  · have hrow : before.row (l ++ [item]) = before.row l ++ [none] := by
      rw [row_append, row, row, map_singleton, oldPos, if_pos (hold ▸ hunset)]
    obtain ⟨hplaced, hothers, hitems⟩ := h.set hnew hmem wallet.nOrderPosNext (wallet.nOrderPosNext + 1)
    refine ⟨?_, ?_, ?_, hothers, hitems⟩
    · rw [hrow, layout_none]
      simp only [h.next, ofNat_add]
      rfl
    · rw [hrow, layout_none, map_append, ← h.offsets, map_singleton, h.next]
    · rw [hplaced, hrow, layout_none, map_append, map_singleton, h.next]
  · have hle : 0 ≤ before.orderPos item := hpos.resolve_left (hold ▸ hset)
    obtain ⟨p, hp⟩ : ∃ p, p = (before.orderPos item).toNatClampNeg := ⟨_, rfl⟩
    have hofNat : Int64.ofNat p = before.orderPos item := hp ▸ ofNat_toNatClampNeg _ hle
    have hrow : before.row (l ++ [item]) = before.row l ++ [some p] := by
      rw [row_append, row, row, map_singleton, oldPos, if_neg (hold ▸ hset), hp]
    rw [hrow, layout_some] at hnext
    simp only at hnext
    have hshift := le_shifted (layout (before.row l)).taken p
    have htaken : ∀ o ∈ (layout (before.row l)).taken, o < 2 ^ 63 := by
      intro o ho
      have hlt := lt_next.1 o ho
      omega
    have hmoved : wallet.orderPos item + orderPosOff offsets (wallet.orderPos item) =
        Int64.ofNat (shifted (layout (before.row l)).taken p) := by
      rw [hold, ← hofNat, h.offsets, orderPosOff_ofNat htaken (by omega), ← ofNat_add, shifted]
    rw [hmoved]
    obtain ⟨hplaced, hothers, hitems⟩ := h.set hnew hmem
      (Int64.ofNat (shifted (layout (before.row l)).taken p))
      (max wallet.nOrderPosNext (Int64.ofNat (shifted (layout (before.row l)).taken p) + 1))
    refine ⟨?_, ?_, ?_, hothers, hitems⟩
    · have hone : (1 : Int64) = Int64.ofNat 1 := rfl
      rw [hrow, layout_some]
      simp only [h.next, hone, ← ofNat_add]
      exact ofNat_max (by omega) (by omega)
    · rw [hrow, layout_some]
      exact h.offsets
    · rw [hplaced, hrow, layout_some, map_append, map_singleton]

/-- **The whole loop.** -/
theorem Reordering.run
    (hnodup : l.Nodup) (hmem : ∀ item ∈ l, item ∈ before.items) (hpos : ∀ item ∈ l,
    before.orderPos item = -1 ∨ 0 ≤ before.orderPos item) (hfits : before.Fits l)
    (hrun : l.foldlM (reorderItem writes) ({ before with nOrderPosNext := 0 }, []) = .ok state) :
    Reordering before l state.1 state.2 := by
  induction l using List.reverseRecOn generalizing state with
  | nil =>
    cases hrun
    exact ⟨rfl, rfl, rfl, fun _ _ => orderPos_next 0, fun _ => Iff.rfl⟩
  | append_singleton l item ih =>
    rw [List.foldlM_append] at hrun
    obtain ⟨⟨wallet, offsets⟩, hinit, hlast⟩ := Fallible.bind_eq_ok.mp hrun
    have hbefore := ih hnodup.of_append_left (fun x hx => hmem x (mem_append_left _ hx))
      (fun x hx => hpos x (mem_append_left _ hx)) hfits.append_left hinit
    have hitem : item ∈ l ++ [item] := mem_append_right _ mem_cons_self
    have hnew : item ∉ l := fun hin => (nodup_append'.mp hnodup).2.2 hin mem_cons_self
    rw [List.foldlM_cons] at hlast
    obtain ⟨state', hstep, hpure⟩ := Fallible.bind_eq_ok.mp hlast
    cases hpure
    exact hbefore.step hnew (hmem item hitem) (hpos item hitem) hfits hstep

/-- An item that is not in the loop keeps its position. -/
theorem foldlM_reorderItem_others {start state : OrderedWallet × List Int64}
    (hrun : l.foldlM (reorderItem writes) start = .ok state) {other : TxPair} (hother : other ∉ l) :
    state.1.orderPos other = start.1.orderPos other := by
  induction l generalizing start with
  | nil =>
    cases hrun
    rfl
  | cons item l ih =>
    rw [List.mem_cons, not_or] at hother
    rw [List.foldlM_cons] at hrun
    obtain ⟨middle, hstep, hrest⟩ := Fallible.bind_eq_ok.mp hrun
    rw [ih hrest hother.2]
    rcases reorderItem_eq_ok hstep with ⟨-, rfl⟩ | ⟨-, rfl⟩
    · rw [orderPos_next, orderPos_setOrderPos_ne _ (Ne.symm hother.1)]
    · rw [orderPos_next, orderPos_setOrderPos_ne _ (Ne.symm hother.1)]

/-- Positions are not set or not negative, and no two items share one. -/
structure Valid (before : OrderedWallet) : Prop where
  nonneg : ∀ item ∈ before.items, before.orderPos item = -1 ∨ 0 ≤ before.orderPos item
  distinct : ∀ item ∈ before.items, ∀ other ∈ before.items, before.orderPos item ≠ -1 →
    before.orderPos item = before.orderPos other → item = other

/-- The accounting entries are of the account without a name. -/
def Listed (before : OrderedWallet) : Prop := ∀ entry ∈ before.acentries, entry.strAccount = []

structure Reordered (before after : OrderedWallet) : Prop where
  distinct : ∀ item ∈ before.items, ∀ other ∈ before.items,
    after.orderPos item = after.orderPos other → item = other
  nonneg : ∀ item ∈ before.items, 0 ≤ after.orderPos item
  below : ∀ item ∈ before.items, after.orderPos item < after.nOrderPosNext
  order : ∀ item ∈ before.items, ∀ other ∈ before.items, before.orderPos item ≠ -1 →
    before.orderPos other ≠ -1 →
      (after.orderPos item < after.orderPos other ↔ before.orderPos item < before.orderPos other)

theorem mem_items_of_mem_txByTime (hmem : item ∈ before.txByTime) : item ∈ before.items := by
  obtain ⟨⟨_, _⟩, hpair, rfl⟩ := mem_map.mp hmem
  rcases mem_append.mp (mem_mergeSort.mp hpair) with htx | hentry
  · obtain ⟨⟨hash, wtx⟩, hmap, heq⟩ := mem_map.mp htx
    cases heq
    rw [wtx_mem_items, FinMap.mem_iff_exists]
    exact ⟨wtx, ExtTreeMap.mem_toList_iff_getElem?_eq_some.mp hmap⟩
  · obtain ⟨⟨entry, i⟩, hlist, heq⟩ := mem_map.mp hentry
    cases heq
    have hzip := (mem_filter.mp hlist).1
    rw [acentry_mem_items]
    exact (List.getElem?_eq_some_iff.mp (mem_zipIdx_iff_getElem?.mp hzip)).1

theorem txByTime_perm (hlisted : before.Listed) : before.txByTime.Perm before.items := by
  have hall : before.listAccountCreditDebit [] = before.acentries.zipIdx := by
    refine filter_eq_self.mpr fun entry hmem => ?_
    have hentry := hlisted entry.1 (fst_mem_of_mem_zipIdx hmem)
    rw [hentry]
    rfl
  refine (List.Perm.map Prod.snd (mergeSort_perm _ _)).trans ?_
  rw [hall, map_append, map_map, map_map]
  refine List.Perm.of_eq (congrArg₂ (· ++ ·) ?_ ?_)
  · rw [← ExtTreeMap.map_fst_toList_eq_keys, map_map]
    rfl
  · rw [range_eq_range', ← zipIdx_map_snd, map_map]
    rfl

theorem oldPos_eq_some {nOrderPos : Int64} (hset : nOrderPos ≠ -1) (hle : 0 ≤ nOrderPos) :
    ∃ p, oldPos nOrderPos = some p ∧ p < 2 ^ 63 ∧ nOrderPos = Int64.ofNat p :=
  ⟨nOrderPos.toNatClampNeg, if_neg hset, nOrderPos.toNatClampNeg_lt, (ofNat_toNatClampNeg _ hle).symm⟩

theorem Valid.distinct_row (h : before.Valid) (hnodup : l.Nodup)
    (hmem : ∀ item ∈ l, item ∈ before.items) : Distinct (before.row l) := by
  refine pairwise_map.mpr (hnodup.imp_of_mem ?_)
  intro item other hitem hother hne heq
  by_contra hsome
  have hset : before.orderPos item ≠ -1 := fun hunset => hsome (if_pos hunset)
  have hset' : before.orderPos other ≠ -1 := fun hunset => hsome (heq ▸ if_pos hunset)
  obtain ⟨p, hp, -, hpos⟩ := oldPos_eq_some hset ((h.nonneg item (hmem _ hitem)).resolve_left hset)
  obtain ⟨q, hq, -, hpos'⟩ := oldPos_eq_some hset' ((h.nonneg other (hmem _ hother)).resolve_left hset')
  rw [hp, hq, Option.some.injEq] at heq
  exact hne (h.distinct item (hmem _ hitem) other (hmem _ hother) hset (by rw [hpos, hpos', heq]))

theorem Reordering.exists_pair (h : Reordering before l wallet offsets) (hmem : item ∈ l) :
    ∃ v, (oldPos (before.orderPos item), v) ∈ pairs (before.row l) ∧
      wallet.orderPos item = Int64.ofNat v := by
  obtain ⟨i, hi, rfl⟩ := getElem_of_mem hmem
  have hlength : (layout (before.row l)).placed.length = l.length := by
    rw [length_placed, row, length_map]
  have hplaced := congrArg (·[i]?) h.placed
  simp only [getElem?_map, getElem?_eq_getElem hi,
    getElem?_eq_getElem (hlength ▸ hi), Option.map_some, Option.some.injEq] at hplaced
  refine ⟨_, ?_, hplaced⟩
  rw [pairs, mem_iff_getElem?]
  refine ⟨i, ?_⟩
  rw [getElem?_zip_eq_some]
  refine ⟨?_, getElem?_eq_getElem (hlength ▸ hi)⟩
  simp only [row, getElem?_map, getElem?_eq_getElem hi, Option.map_some]

/-- **Apart positions are put in order.** -/
theorem Reordering.reordered (h : Reordering before l wallet offsets) (hvalid : before.Valid)
    (hperm : l.Perm before.items) (hapart : Apart (before.row l)) (hfits : before.Fits l) :
    Reordered before wallet := by
  have hnodup : l.Nodup := hperm.nodup_iff.mpr (nodup_items before)
  have hmem : ∀ item, item ∈ l ↔ item ∈ before.items := fun _ => hperm.mem_iff
  have hsmall : ∀ v ∈ (layout (before.row l)).placed, v < (layout (before.row l)).next := lt_next.2
  have hnext := hfits.next_lt
  have hpositions : (l.map wallet.orderPos).Nodup := by
    rw [h.placed]
    refine (hapart.nodup_placed (hvalid.distinct_row hnodup fun x => (hmem x).mp)).map_on ?_
    intro v hv w hw heq
    have hlt := hsmall v hv
    have hlt' := hsmall w hw
    have hto := congrArg Int64.toNatClampNeg heq
    rwa [toNatClampNeg_ofNat_of_lt (by omega), toNatClampNeg_ofNat_of_lt (by omega)] at hto
  have hvalue : ∀ item ∈ before.items, ∃ v, (oldPos (before.orderPos item), v) ∈ pairs (before.row l) ∧
      wallet.orderPos item = Int64.ofNat v ∧ v < (layout (before.row l)).next := by
    intro item hitem
    obtain ⟨v, hpair, hv⟩ := h.exists_pair ((hmem item).mpr hitem)
    exact ⟨v, hpair, hv, hsmall v (of_mem_zip hpair).2⟩
  refine ⟨fun item hitem other hother heq => ?_, fun item hitem => ?_, fun item hitem => ?_,
    fun item hitem other hother hset hset' => ?_⟩
  · exact inj_on_of_nodup_map hpositions ((hmem item).mpr hitem) ((hmem other).mpr hother) heq
  · obtain ⟨v, -, hv, hlt⟩ := hvalue item hitem
    rw [hv]
    exact (ofNat_le_iff_le (by decide) (by omega)).mpr (Nat.zero_le v)
  · obtain ⟨v, -, hv, hlt⟩ := hvalue item hitem
    rw [hv, h.next]
    exact (ofNat_lt_iff_lt (by omega) hnext).mpr hlt
  · obtain ⟨v, hpair, hv, hlt⟩ := hvalue item hitem
    obtain ⟨w, hpair', hw, hlt'⟩ := hvalue other hother
    obtain ⟨p, hp, hp63, hpos⟩ := oldPos_eq_some hset ((hvalid.nonneg item hitem).resolve_left hset)
    obtain ⟨q, hq, hq63, hpos'⟩ := oldPos_eq_some hset' ((hvalid.nonneg other hother).resolve_left hset')
    rw [hp] at hpair
    rw [hq] at hpair'
    have hvp : v = shifted (layout (before.row l)).taken p := of_mem_pairs hpair
    have hwq : w = shifted (layout (before.row l)).taken q := of_mem_pairs hpair'
    rw [hv, hw, hpos, hpos', ofNat_lt_iff_lt (by omega) (by omega),
      ofNat_lt_iff_lt hp63 hq63, hvp, hwq]
    exact (shifted_strictMono _).lt_iff_lt

theorem length_le_of_nodup {numbers : List Nat} {bound : Nat} (hnodup : numbers.Nodup)
    (hlt : ∀ n ∈ numbers, n < bound) : numbers.length ≤ bound := by
  have hsub : numbers ⊆ List.range bound := fun n hn => mem_range.mpr (hlt n hn)
  exact (hnodup.subperm hsub).length_le.trans (Nat.le_of_eq length_range)

/-- There are only so many positions. -/
theorem Reordered.length_lt {after : OrderedWallet} (h : Reordered before after)
    (hperm : l.Perm before.items) : l.length < 2 ^ 63 := by
  have hnodup : l.Nodup := hperm.nodup_iff.mpr (nodup_items before)
  have hmem : ∀ item ∈ l, item ∈ before.items := fun _ => hperm.mem_iff.mp
  have hto : ∀ item ∈ l, ((after.orderPos item).toNatClampNeg : Int) = (after.orderPos item).toInt :=
    fun item hitem => cast_toNatClampNeg _ (h.nonneg item (hmem item hitem))
  have hnumbers : (l.map fun item => (after.orderPos item).toNatClampNeg).Nodup := by
    refine hnodup.map_on fun item hitem other hother heq => ?_
    have hitem' := hto item hitem
    have hother' := hto other hother
    exact h.distinct item (hmem item hitem) other (hmem other hother)
      (toInt_inj.mp (by rw [← hitem', ← hother', heq]))
  have hbound : ∀ n ∈ l.map fun item => (after.orderPos item).toNatClampNeg, n < 2 ^ 63 - 1 := by
    intro n hn
    obtain ⟨item, hitem, rfl⟩ := mem_map.mp hn
    have hlt := lt_iff_toInt_lt.mp (h.below item (hmem item hitem))
    have hnext := after.nOrderPosNext.toInt_lt
    have hitem' := hto item hitem
    omega
  have hle := length_le_of_nodup hnumbers hbound
  rw [length_map] at hle
  omega

/-- **Where no position is missing, only apart positions are put in order.** -/
theorem Reordering.apart_of_reordered (h : Reordering before l wallet offsets)
    (hperm : l.Perm before.items) (hgapless : Gapless (before.row l))
    (hreordered : Reordered before wallet) : Apart (before.row l) := by
  have hnodup : l.Nodup := hperm.nodup_iff.mpr (nodup_items before)
  have hmem : ∀ item ∈ l, item ∈ before.items := fun _ => hperm.mem_iff.mp
  have hpositions : (l.map wallet.orderPos).Nodup :=
    hnodup.map_on fun item hitem other hother heq =>
      hreordered.distinct item (hmem item hitem) other (hmem other hother) heq
  rw [h.placed] at hpositions
  exact apart_of_nodup_placed hgapless hpositions.of_map

/-- A run that does not fail is a run of the loop. -/
theorem reorderTransactions_eq_ok (hok : (before.reorderTransactions writes).1 = .DB_LOAD_OK) :
    ∃ state, before.txByTime.foldlM (reorderItem writes) ({ before with nOrderPosNext := 0 }, []) =
      .ok state ∧ (before.reorderTransactions writes).2 = state.1 := by
  unfold reorderTransactions at hok ⊢
  split at hok
  · rename_i state hrun
    exact ⟨state, hrun, rfl⟩
  · cases hok

theorem foldlM_reorderItem_isOk (htx : ∀ wtx, writes.writeTx wtx = true)
    (hentry : ∀ entry, writes.writeAccountingEntry entry = true) (l : List TxPair)
    (start : OrderedWallet × List Int64) : ∃ state, l.foldlM (reorderItem writes) start = .ok state := by
  induction l generalizing start with
  | nil => exact ⟨start, rfl⟩
  | cons item l ih =>
    obtain ⟨middle, hstep⟩ := reorderItem_isOk htx hentry start item
    obtain ⟨state, hrest⟩ := ih middle
    exact ⟨state, Fallible.bind_eq_ok.mpr ⟨middle, hstep, hrest⟩⟩

/-- **When reordering puts all in order.**  It does where positions stand apart and
leave room; without gaps in the positions it does only there.  Entries of other accounts
are left as they are. -/
theorem reorderTransactions_apart (before : OrderedWallet) (writes : WalletWrites) (hvalid : before.Valid) :
    ((∀ wtx, writes.writeTx wtx = true) → (∀ entry, writes.writeAccountingEntry entry = true) →
      (before.reorderTransactions writes).1 = .DB_LOAD_OK) ∧
    ((before.reorderTransactions writes).1 = .DB_LOAD_OK →
      (before.Listed → Apart (before.row before.txByTime) → before.Fits before.txByTime →
        Reordered before (before.reorderTransactions writes).2) ∧
      (before.Listed → Gapless (before.row before.txByTime) →
        Reordered before (before.reorderTransactions writes).2 →
          Apart (before.row before.txByTime) ∧ before.Fits before.txByTime) ∧
      ((∃ entry ∈ before.acentries, entry.strAccount ≠ [] ∧ entry.nOrderPos = -1) →
        ¬Reordered before (before.reorderTransactions writes).2)) := by
  refine ⟨fun htx hentry => ?_, fun hok => ?_⟩
  · obtain ⟨state, hrun⟩ := foldlM_reorderItem_isOk htx hentry before.txByTime
      ({ before with nOrderPosNext := 0 }, [])
    rw [reorderTransactions, hrun]
  obtain ⟨state, hrun, hstate⟩ := reorderTransactions_eq_ok hok
  rw [hstate]
  have hinvariant : before.Listed → before.Fits before.txByTime →
      Reordering before before.txByTime state.1 state.2 := by
    intro hlisted hfits
    have hnodup := (txByTime_perm hlisted).nodup_iff.mpr (nodup_items before)
    exact Reordering.run hnodup (fun _ => mem_items_of_mem_txByTime)
      (fun item hitem => hvalid.nonneg item (mem_items_of_mem_txByTime hitem)) hfits hrun
  refine ⟨fun hlisted hapart hfits => ?_, fun hlisted hgapless hreordered => ?_, ?_⟩
  · exact (hinvariant hlisted hfits).reordered hvalid (txByTime_perm hlisted) hapart hfits
  · have hfits : before.Fits before.txByTime := by
      have hroom := top_add_unset_le hgapless
      rw [row, length_map] at hroom
      exact Nat.lt_of_le_of_lt hroom (hreordered.length_lt (txByTime_perm hlisted))
    exact ⟨(hinvariant hlisted hfits).apart_of_reordered (txByTime_perm hlisted) hgapless hreordered, hfits⟩
  · rintro ⟨entry, hentry, haccount, hunset⟩ hreordered
    obtain ⟨i, hi, rfl⟩ := getElem_of_mem hentry
    have hget := getElem?_eq_getElem hi
    have hpos : before.orderPos (.acentry i) = -1 := by
      rw [← hunset]
      show before.acentries[i]?.elim (-1) CAccountingEntry.nOrderPos = _
      rw [hget]
      rfl
    -- An entry of another account is not in the loop.
    have hother : .acentry i ∉ before.txByTime := by
      intro hmem
      obtain ⟨⟨_, _⟩, hpair, heq⟩ := mem_map.mp hmem
      cases heq
      rcases mem_append.mp (mem_mergeSort.mp hpair) with htx | hlist
      · obtain ⟨_, -, heq⟩ := mem_map.mp htx
        cases heq
      · obtain ⟨⟨entry, _⟩, hfilter, heq⟩ := mem_map.mp hlist
        cases heq
        obtain ⟨hzip, haccount'⟩ := mem_filter.mp hfilter
        have heq := mem_zipIdx_iff_getElem?.mp hzip
        rw [hget] at heq
        have hempty : entry.strAccount = [] := by simpa using haccount'
        exact haccount ((congrArg CAccountingEntry.strAccount (Option.some.inj heq)).trans hempty)
    have hkept := foldlM_reorderItem_others hrun hother
    have hnonneg := hreordered.nonneg (.acentry i) (acentry_mem_items.mpr hi)
    rw [hkept, orderPos_next, hpos] at hnonneg
    exact absurd hnonneg (by decide)

/-- An accounting entry with a time and a position. -/
def timedEntry (nTime nOrderPos : Int64) : CAccountingEntry where
  strAccount := []
  nCreditDebit := 1
  nTime := nTime
  strOtherAccount := []
  strComment := []
  mapValue := ∅
  nOrderPos := nOrderPos
  nEntryNo := 0
  ssExtra := []

/-- A wallet of accounting entries. -/
def entriesWallet (acentries : List CAccountingEntry) : OrderedWallet := ⟨∅, acentries, 0⟩

/-- A database that accepts everything. -/
def allWrites : WalletWrites := ⟨fun _ => true, fun _ => true⟩

variable {acentries : List CAccountingEntry}

theorem txByTime_entriesWallet (hlisted : (entriesWallet acentries).Listed)
    (hsorted : acentries.Pairwise fun a b => a.nTime ≤ b.nTime) :
    (entriesWallet acentries).txByTime = (List.range acentries.length).map .acentry := by
  have hall : (entriesWallet acentries).listAccountCreditDebit [] = acentries.zipIdx := by
    refine filter_eq_self.mpr fun entry hmem => ?_
    have hentry := hlisted entry.1 (fst_mem_of_mem_zipIdx hmem)
    rw [hentry]
    rfl
  have hempty : (entriesWallet acentries).mapWallet.toList = [] := rfl
  have hpairs : (acentries.zipIdx.map fun item => (item.1.nTime, TxPair.acentry item.2)).Pairwise
      fun a b => decide (a.1 ≤ b.1) = true := by
    rw [pairwise_map]
    have hfst := zipIdx_map_fst 0 acentries
    rw [← hfst, pairwise_map] at hsorted
    exact hsorted.imp fun hle => decide_eq_true hle
  unfold txByTime
  simp only [hempty, hall, map_nil, nil_append]
  rw [mergeSort_of_pairwise hpairs, map_map, range_eq_range', ← zipIdx_map_snd, map_map]
  rfl

theorem valid_entriesWallet
    (hnonneg : ∀ entry ∈ acentries, entry.nOrderPos = -1 ∨ 0 ≤ entry.nOrderPos)
    (hdistinct : acentries.Pairwise fun a b => a.nOrderPos = b.nOrderPos → a.nOrderPos = -1) :
    (entriesWallet acentries).Valid := by
  have hitems : ∀ item ∈ (entriesWallet acentries).items, ∃ i, ∃ hi : i < acentries.length, item =
      .acentry i ∧ (entriesWallet acentries).orderPos item = (acentries.get ⟨i, hi⟩).nOrderPos := by
    intro item hitem
    cases item with
    | wtx hash => exact absurd (wtx_mem_items.mp hitem) ExtTreeMap.not_mem_empty
    | acentry i =>
      have hi : i < acentries.length := acentry_mem_items.mp hitem
      refine ⟨i, hi, rfl, ?_⟩
      show acentries[i]?.elim (-1) CAccountingEntry.nOrderPos = _
      rw [getElem?_eq_getElem hi]
      rfl
  rw [pairwise_iff_get] at hdistinct
  refine ⟨fun item hitem => ?_, fun item hitem other hother hset heq => ?_⟩
  · obtain ⟨i, hi, -, hpos⟩ := hitems item hitem
    rw [hpos]
    exact hnonneg _ (get_mem _ _)
  · obtain ⟨i, hi, rfl, hpos⟩ := hitems item hitem
    obtain ⟨j, hj, rfl, hpos'⟩ := hitems other hother
    rw [hpos, hpos'] at heq
    rw [hpos] at hset
    rcases Nat.lt_trichotomy i j with hlt | rfl | hlt
    · exact absurd (hdistinct ⟨i, hi⟩ ⟨j, hj⟩ hlt heq) hset
    · rfl
    · exact absurd (heq.trans (hdistinct ⟨j, hj⟩ ⟨i, hi⟩ hlt heq.symm)) (heq ▸ hset)

theorem reorderTransactions_apart_twoEntries : Reordered (entriesWallet [timedEntry 1 (-1), timedEntry 2 0])
      ((entriesWallet [timedEntry 1 (-1), timedEntry 2 0]).reorderTransactions allWrites).2 := by
  have hlisted : (entriesWallet [timedEntry 1 (-1), timedEntry 2 0]).Listed := by
    intro entry hentry
    simp only [entriesWallet, List.mem_cons, not_mem_nil, or_false] at hentry
    rcases hentry with rfl | rfl <;> rfl
  have hvalid : (entriesWallet [timedEntry 1 (-1), timedEntry 2 0]).Valid := by
    refine valid_entriesWallet (fun entry hentry => ?_) (by decide)
    simp only [List.mem_cons, not_mem_nil, or_false] at hentry
    rcases hentry with rfl | rfl <;> decide
  have hrow : (entriesWallet [timedEntry 1 (-1), timedEntry 2 0]).row
      (entriesWallet [timedEntry 1 (-1), timedEntry 2 0]).txByTime = [none, some 0] := by
    rw [txByTime_entriesWallet hlisted (by decide)]
    rfl
  obtain ⟨hok, hrun⟩ := reorderTransactions_apart _ allWrites hvalid
  refine (hrun (hok (fun _ => rfl) fun _ => rfl)).1 hlisted ?_ ?_
  · rw [hrow]
    exact apart_of_unset_le (by decide)
  · rw [Fits, hrow]
    decide

/-- **Two items without a position before the first one that has one**: it hits the
position given to the second. -/
theorem reorderTransactions_collision :
    (entriesWallet [timedEntry 1 (-1), timedEntry 2 (-1), timedEntry 3 0]).Valid ∧
      ((entriesWallet [timedEntry 1 (-1), timedEntry 2 (-1), timedEntry 3 0]).reorderTransactions
        allWrites).1 = .DB_LOAD_OK ∧
      ¬Reordered (entriesWallet [timedEntry 1 (-1), timedEntry 2 (-1), timedEntry 3 0])
        ((entriesWallet [timedEntry 1 (-1), timedEntry 2 (-1), timedEntry 3 0]).reorderTransactions
          allWrites).2 := by
  have hlisted : (entriesWallet [timedEntry 1 (-1), timedEntry 2 (-1), timedEntry 3 0]).Listed := by
    intro entry hentry
    simp only [entriesWallet, List.mem_cons, not_mem_nil, or_false] at hentry
    rcases hentry with rfl | rfl | rfl <;> rfl
  have htimes : (entriesWallet [timedEntry 1 (-1), timedEntry 2 (-1), timedEntry 3 0]).txByTime =
      [.acentry 0, .acentry 1, .acentry 2] := txByTime_entriesWallet hlisted (by decide)
  refine ⟨?_, ?_, fun hreordered => ?_⟩
  · refine valid_entriesWallet (fun entry hentry => ?_) (by decide)
    simp only [List.mem_cons, not_mem_nil, or_false] at hentry
    rcases hentry with rfl | rfl | rfl <;> decide
  · rw [reorderTransactions, htimes]
    rfl
  · have hsame := hreordered.distinct (.acentry 1) (acentry_mem_items.mpr (by decide)) (.acentry 2)
      (acentry_mem_items.mpr (by decide)) (by rw [reorderTransactions, htimes]; rfl)
    cases hsame

end OrderedWallet

end MaryJaneCoin
