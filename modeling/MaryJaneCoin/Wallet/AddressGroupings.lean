import MaryJaneCoin.Wallet.CreateTransaction
import MaryJaneCoin.Wallet.FixSpentCoins
import MaryJaneCoin.Wallet.Solver

/-!
# `CWallet::GetAddressGroupings`

The addresses that transactions of the wallet use together are put in sets first, and then the
sets that share an address are merged, through a map from addresses to pointers to sets.
-/

namespace MaryJaneCoin

open Std

/-- What the operator `<` of `CTxDestination` compares: the kind, and the number with its last
byte first. -/
def CTxDestination.sortKey : CTxDestination → List Nat
  | .CNoDestination => [0]
  | .keyID number => 1 :: number.toList.reverse.map UInt8.toNat
  | .scriptID number => 2 :: number.toList.reverse.map UInt8.toNat

instance : Ord CTxDestination := ⟨fun a b => compare a.sortKey b.sortKey⟩

/-- `set<CTxDestination>`. -/
abbrev AddressSet := ExtTreeSet CTxDestination

/-- `set< set<CTxDestination> >`: each set is the list of its elements in their order, which is
what the sets are compared by. -/
abbrev AddressGroups := ExtTreeSet (List CTxDestination)

/-- What the wallet knows of scripts and addresses. -/
structure GroupingWorld where
  hashes : ScriptHashes
  isMine : CScript → Bool
  /-- `::IsMine(*this, address)`. -/
  isMineAddress : CTxDestination → Bool
  /-- `mapAddressBook.count(address)`. -/
  inAddressBook : CTxDestination → Bool
  /-- The clock, which a new entry reads. -/
  adjustedTime : UInt32

instance : TransOrd CTxDestination where
  eq_swap {a b} := by
    show compare a.sortKey b.sortKey = (compare b.sortKey a.sortKey).swap
    exact OrientedCmp.eq_swap
  isLE_trans {a b c} hab hbc := by
    have hab : (compare a.sortKey b.sortKey).isLE = true := hab
    have hbc : (compare b.sortKey c.sortKey).isLE = true := hbc
    show (compare a.sortKey c.sortKey).isLE = true
    exact TransCmp.isLE_trans hab hbc

theorem CTxDestination.sortKey_injective : Function.Injective CTxDestination.sortKey := by
  have hbytes : ∀ v w : Vector UInt8 20, v.toList.reverse.map UInt8.toNat =
      w.toList.reverse.map UInt8.toNat → v = w := by
    intro v w h
    have hreverse := List.map_injective_iff.mpr (fun _ _ => UInt8.toNat_inj.mp) h
    exact Vector.toList_inj.mp (List.reverse_injective hreverse)
  intro a b h
  cases a with
  | CNoDestination =>
    cases b with
    | CNoDestination => rfl
    | keyID w => simp [sortKey] at h
    | scriptID w => simp [sortKey] at h
  | keyID v =>
    cases b with
    | CNoDestination => simp [sortKey] at h
    | keyID w => exact congrArg keyID (hbytes v w (List.cons.inj h).2)
    | scriptID w => simp [sortKey] at h
  | scriptID v =>
    cases b with
    | CNoDestination => simp [sortKey] at h
    | keyID w => simp [sortKey] at h
    | scriptID w => exact congrArg scriptID (hbytes v w (List.cons.inj h).2)

instance : LawfulEqOrd CTxDestination where
  compare_self {a} := by
    show compare a.sortKey a.sortKey = .eq
    exact ReflCmp.compare_self
  eq_of_compare {a b} h := by
    have h : compare a.sortKey b.sortKey = .eq := h
    exact CTxDestination.sortKey_injective (LawfulEqCmp.eq_of_compare h)

namespace GroupingWorld

variable {H : Type} [Ord H] [TransOrd H] (world : GroupingWorld) (mapWallet : WalletMap H)

def isChange (txout : CTxOut) : Bool :=
  (extractDestination world.hashes txout.scriptPubKey).any fun address =>
    world.isMineAddress address && !world.inAddressBook address

/-- The address of an output goes into the grouping, if it has one. -/
def insertDestination (grouping : AddressSet) (txout : CTxOut) : AddressSet :=
  match extractDestination world.hashes txout.scriptPubKey with
  | none => grouping
  | some address => grouping.insert address

/-- A `CWalletTx` that is made by `mapWallet[hash]`. -/
def newWalletTx (zero : H) : StoredTx H where
  toCTransaction := .new world.adjustedTime
  hashBlock := zero
  vMerkleBranch := []
  nIndex := -1
  nTimeReceived := 0
  nTimeSmart := 0
  fFromMe := false
  vfSpent := []
  nOrderPos := -1

/-- The output that an input spends. -/
def outputAt (prevout : COutPoint H) : Option CTxOut :=
  (mapWallet[prevout.hash]?).bind fun prev => prev.vout[prevout.n.toNat]?

/-- The addresses of `mapWallet[txin.prevout.hash].vout[txin.prevout.n]`.  It makes an entry where
there is none; an error with the map where the place is outside of the vector. -/
def spentAddresses (zero : H) (vin : List (CTxIn H)) : Except (WalletMap H) AddressSet :=
  vin.foldlM (fun grouping txin =>
    match outputAt mapWallet txin.prevout with
    | none => .error (mapWallet.insertIfNew txin.prevout.hash (world.newWalletTx zero))
    | some txout => .ok (world.insertDestination grouping txout)) ∅

def changeAddresses (grouping : AddressSet) (vout : List CTxOut) : AddressSet :=
  vout.foldl (fun grouping txout =>
    if world.isChange txout then world.insertDestination grouping txout else grouping) grouping

/-- Each own output is a grouping. -/
def ownGroupings (groupings : AddressGroups) (vout : List CTxOut) : AddressGroups :=
  vout.foldl (fun groupings txout =>
    if world.isMine txout.scriptPubKey then
      match extractDestination world.hashes txout.scriptPubKey with
      | none => groupings
      | some address => groupings.insert ((∅ : AddressSet).insert address).toList
    else groupings) groupings

/-- `pcoin->vin.size() > 0 && IsMine(pcoin->vin[0])`. -/
def isOwnTx (pcoin : StoredTx H) : Bool :=
  pcoin.vin.head?.any fun txin => (mapWallet.ownPrevOut world.isMine txin.prevout).isSome

/-- One round of the first loop. -/
def groupEntry (zero : H) (groupings : AddressGroups) (pcoin : StoredTx H) :
    Except (WalletMap H) AddressGroups :=
  (if world.isOwnTx mapWallet pcoin then
    (world.spentAddresses mapWallet zero pcoin.vin).map fun grouping =>
      groupings.insert (world.changeAddresses grouping pcoin.vout).toList
  else .ok groupings).map fun groupings => world.ownGroupings groupings pcoin.vout

end GroupingWorld

/-- `uniqueGroupings` and `setmap` with the sets that their pointers lead to. -/
structure SetMerging where
  heap : ExtTreeMap Nat AddressSet
  next : Nat
  uniqueGroupings : ExtTreeSet Nat
  setmap : ExtTreeMap CTxDestination Nat

namespace SetMerging

def empty : SetMerging := ⟨∅, 0, ∅, ∅⟩

/-- The pointers under which addresses of the grouping are known. -/
def hits (m : SetMerging) (grouping : List CTxDestination) : ExtTreeSet Nat :=
  grouping.foldl (fun hits address =>
    match m.setmap[address]? with
    | none => hits
    | some p => hits.insert p) ∅

/-- A set that was hit is merged and deleted; none where the pointer leads nowhere. -/
def absorb (acc : SetMerging × AddressSet) (hit : Nat) : Option (SetMerging × AddressSet) :=
  (acc.1.heap[hit]?).map fun set =>
    ({ acc.1 with
        heap := acc.1.heap.erase hit
        uniqueGroupings := acc.1.uniqueGroupings.erase hit },
      acc.2.insertMany set.toList)

/-- The merged set is known under all of its elements. -/
def register (m : SetMerging) (merged : AddressSet) : SetMerging where
  heap := m.heap.insert m.next merged
  next := m.next + 1
  uniqueGroupings := m.uniqueGroupings.insert m.next
  setmap := merged.toList.foldl (fun setmap element => setmap.insert element m.next) m.setmap

/-- One round of the second loop. -/
def mergeGrouping (m : SetMerging) (grouping : List CTxDestination) : Option SetMerging :=
  ((m.hits grouping).toList.foldlM absorb (m, (∅ : AddressSet).insertMany grouping)).map fun acc =>
    acc.1.register acc.2

/-- The sets that are left. -/
def result (m : SetMerging) : Option AddressGroups :=
  m.uniqueGroupings.toList.foldlM (fun ret p => (m.heap[p]?).map fun set => ret.insert set.toList) ∅

end SetMerging

/-- `CWallet::GetAddressGroupings`: the map and the groupings; an error where it reads what is not
there, with the map that is left. -/
def getAddressGroupings {H : Type} [Ord H] [TransOrd H] (world : GroupingWorld) (sha : Sha256 H)
    (mapWallet : WalletMap H) : Except (WalletMap H) (WalletMap H × AddressGroups) :=
  ((mapWallet.toList.map Prod.snd).foldlM (world.groupEntry mapWallet sha.zero) ∅).bind fun groupings =>
    match (groupings.toList.foldlM SetMerging.mergeGrouping .empty).bind SetMerging.result with
    | none => .error mapWallet
    | some ret => .ok (mapWallet, ret)

end MaryJaneCoin
