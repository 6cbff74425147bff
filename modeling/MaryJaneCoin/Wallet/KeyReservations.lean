import MaryJaneCoin.Wallet.KeyPool

/-!
# Reservations from the key pool

Any number of `CReserveKey` holders draw from one pool.  A reserved number is
outside of the set in memory, and the number of a new key is taken above what is
in the set only.  So a top-up may give a number out again while it is reserved,
and it writes over the record of the reserved key.
-/

namespace MaryJaneCoin

open Std Codec NumberedQueue Finset

namespace WalletKeys

variable (source : KeySource)

/-- `CWallet::TopUpKeyPool`, called with a size or with 0. -/
def topUpKeyPoolTo (keys : WalletKeys) (nSize : UInt32) : WalletKeys :=
  keys.topUpKeyPool { source with nTargetSize := if nSize > 0 then nSize else source.nTargetSize }

/-- `CReserveKey::GetReservedKey`: none when it throws or when the key is not
valid, which it asserts. -/
def getReservedKey (keys : WalletKeys) (reservekey : CReserveKey) :
    Option (CReserveKey × WalletKeys) :=
  (match reservekey.nIndex with
    | some _ => some (reservekey, keys)
    | none =>
      (keys.reserveKeyFromKeyPool source).map fun
        | (some (nIndex, vchPubKey), keys) => (⟨some nIndex, vchPubKey⟩, keys)
        | (none, keys) => (⟨none, keys.vchDefaultKey⟩, keys)).filter
    fun (reservekey, _) => reservekey.vchPubKey.isValid

def returnKey (keys : WalletKeys) (nIndex : Nat) : WalletKeys :=
  { keys with setKeyPool := insert nIndex keys.setKeyPool }

/-- `CReserveKey::ReturnKey`. -/
def returnReserved (keys : WalletKeys) (reservekey : CReserveKey) : WalletKeys × CReserveKey :=
  (match reservekey.nIndex with
    | none => keys
    | some nIndex => keys.returnKey nIndex, ⟨none, []⟩)

end WalletKeys

namespace KeySource

/-- The keys that are drawn are valid. -/
def Valid (source : KeySource) : Prop := ∀ n, (source.newKey n).isValid = true

/-- The first keys drawn are all different. -/
def Apart (source : KeySource) (nGenerated : Nat) : Prop :=
  Set.InjOn source.newKey (Set.Iio nGenerated)

theorem Apart.mono {source : KeySource} {n m : Nat} (h : source.Apart m) (hle : n ≤ m) : source.Apart n :=
  Set.InjOn.mono (Set.Iio_subset_Iio hle) h

end KeySource

namespace WalletKeys

/-- **A pool in order**: every number in memory has a record, and every record has a
valid key that the wallet has drawn.  As long as no key was drawn twice, a record has
its key for itself, and the key was not kept. -/
structure Stocked (source : KeySource) (kept : CPubKey → Prop) (keys : WalletKeys) : Prop where
  recorded : ∀ nIndex ∈ keys.setKeyPool, nIndex ∈ keys.pool
  usable : ∀ (nIndex : Nat) (vchPubKey : CPubKey), keys.pool[nIndex]? = some vchPubKey →
    source.getID vchPubKey ∈ keys.keyStore ∧ vchPubKey.isValid = true
  drawn : ∀ (nIndex : Nat) (vchPubKey : CPubKey), keys.pool[nIndex]? = some vchPubKey →
    ∃ n < keys.nGenerated, source.newKey n = vchPubKey
  keptDrawn : ∀ vchPubKey, kept vchPubKey → ∃ n < keys.nGenerated, source.newKey n = vchPubKey
  unshared : source.Apart keys.nGenerated → ∀ (nIndex nIndex' : Nat) (vchPubKey : CPubKey),
    keys.pool[nIndex]? = some vchPubKey → keys.pool[nIndex']? = some vchPubKey → nIndex = nIndex'
  unkept : source.Apart keys.nGenerated → ∀ (nIndex : Nat) (vchPubKey : CPubKey),
    keys.pool[nIndex]? = some vchPubKey → ¬kept vchPubKey

variable {source : KeySource} {kept : CPubKey → Prop} {keys after : WalletKeys} {nIndex i : Nat}
  {vchPubKey : CPubKey}

theorem getElem?_addPoolKey (hne : i ≠ next keys.setKeyPool) :
    (addPoolKey source keys).pool[i]? = keys.pool[i]? :=
  FinMap.getElem?_insert_ne keys.pool _ (Ne.symm hne)

theorem getElem?_addPoolKey_cases (h : (addPoolKey source keys).pool[i]? = some vchPubKey) :
    (i = next keys.setKeyPool ∧ vchPubKey = source.newKey keys.nGenerated) ∨
      (i ≠ next keys.setKeyPool ∧ keys.pool[i]? = some vchPubKey) := by
  by_cases hi : i = next keys.setKeyPool
  · subst hi
    refine .inl ⟨rfl, ?_⟩
    rw [show (addPoolKey source keys).pool = keys.pool.insert (next keys.setKeyPool)
      (source.newKey keys.nGenerated) from rfl, ExtTreeMap.getElem?_insert_self] at h
    exact (Option.some.inj h).symm
  · rw [getElem?_addPoolKey hi] at h
    exact .inr ⟨hi, h⟩

theorem newKey_ne (hapart : source.Apart (keys.nGenerated + 1))
    (hdrawn : ∃ n < keys.nGenerated, source.newKey n = vchPubKey) :
    source.newKey keys.nGenerated ≠ vchPubKey := by
  obtain ⟨n, hlt, rfl⟩ := hdrawn
  intro heq
  have hsame := hapart (Nat.lt_succ_self keys.nGenerated) (Nat.lt_succ_of_lt hlt) heq
  exact Nat.ne_of_gt hlt hsame

theorem Stocked.newKey_notKept (hstocked : keys.Stocked source kept)
    (hapart : source.Apart (keys.nGenerated + 1)) : ¬kept (source.newKey keys.nGenerated) :=
  fun hkept => newKey_ne hapart (hstocked.keptDrawn _ hkept) rfl

/-- One round of a top-up, which may write over a record, leaves the pool in order. -/
theorem Stocked.addPoolKey (hstocked : keys.Stocked source kept) (hvalid : source.Valid) :
    (addPoolKey source keys).Stocked source kept where
  recorded := by
    intro i hi
    rcases mem_insert.mp hi with rfl | hold
    · exact ExtTreeMap.mem_insert_self
    · exact ExtTreeMap.mem_insert.mpr (.inr (hstocked.recorded i hold))
  usable := by
    intro i vchPubKey hrecord
    rcases getElem?_addPoolKey_cases hrecord with ⟨-, rfl⟩ | ⟨-, hold⟩
    · exact ⟨List.mem_cons_self, hvalid _⟩
    · exact (hstocked.usable i vchPubKey hold).imp_left (List.mem_cons_of_mem _)
  drawn := by
    intro i vchPubKey hrecord
    rcases getElem?_addPoolKey_cases hrecord with ⟨-, rfl⟩ | ⟨-, hold⟩
    · exact ⟨keys.nGenerated, Nat.lt_succ_self _, rfl⟩
    · obtain ⟨n, hlt, heq⟩ := hstocked.drawn i vchPubKey hold
      exact ⟨n, Nat.lt_succ_of_lt hlt, heq⟩
  keptDrawn := by
    intro vchPubKey hkept
    obtain ⟨n, hlt, heq⟩ := hstocked.keptDrawn vchPubKey hkept
    exact ⟨n, Nat.lt_succ_of_lt hlt, heq⟩
  unshared := by
    intro hapart i j vchPubKey hi hj
    rcases getElem?_addPoolKey_cases hi with ⟨rfl, rfl⟩ | ⟨-, hi⟩
    · rcases getElem?_addPoolKey_cases hj with ⟨rfl, -⟩ | ⟨-, hj⟩
      · rfl
      · exact absurd rfl (newKey_ne hapart (hstocked.drawn j _ hj))
    · rcases getElem?_addPoolKey_cases hj with ⟨-, rfl⟩ | ⟨-, hj⟩
      · exact absurd rfl (newKey_ne hapart (hstocked.drawn i _ hi))
      · exact hstocked.unshared (hapart.mono (Nat.le_succ _)) i j vchPubKey hi hj
  unkept := by
    intro hapart i vchPubKey hrecord
    rcases getElem?_addPoolKey_cases hrecord with ⟨-, rfl⟩ | ⟨-, hold⟩
    · exact hstocked.newKey_notKept hapart
    · exact hstocked.unkept (hapart.mono (Nat.le_succ _)) i vchPubKey hold

theorem Stocked.iterate_addPoolKey (hstocked : keys.Stocked source kept) (hvalid : source.Valid) (n : Nat) :
    ((WalletKeys.addPoolKey source)^[n] keys).Stocked source kept ∧ ∀ i ∉ push^[n] keys.setKeyPool,
        ((WalletKeys.addPoolKey source)^[n] keys).pool[i]? = keys.pool[i]? := by
  induction n generalizing keys with
  | zero => exact ⟨hstocked, fun i _ => rfl⟩
  | succ n ih =>
    obtain ⟨hlater, hframe⟩ := ih (hstocked.addPoolKey hvalid)
    refine ⟨hlater, fun i hi => ?_⟩
    rw [Function.iterate_succ_apply] at hi ⊢
    rw [hframe i hi]
    refine getElem?_addPoolKey fun heq => hi ?_
    rw [heq]
    exact subset_iterate_push n (mem_insert_self _ _)

/-- **What a top-up does to a pool in order**: it stays in order, and a record
outside of the set topped up is as it was. -/
theorem Stocked.topUpKeyPool (hstocked : keys.Stocked source kept) (hvalid : source.Valid) :
    (keys.topUpKeyPool source).Stocked source kept ∧ ∀ i ∉ topUp (keys.topUpSize source) keys.setKeyPool,
        (keys.topUpKeyPool source).pool[i]? = keys.pool[i]? := by
  rw [WalletKeys.topUpKeyPool, topUpSize]
  split
  · exact ⟨hstocked, fun i _ => rfl⟩
  · exact hstocked.iterate_addPoolKey hvalid _

theorem nGenerated_le_topUpKeyPool (keys : WalletKeys) :
    keys.nGenerated ≤ (keys.topUpKeyPool source).nGenerated := by
  have hrounds : ∀ (n : Nat) (keys : WalletKeys),
      keys.nGenerated ≤ ((WalletKeys.addPoolKey source)^[n] keys).nGenerated := by
    intro n
    induction n with
    | zero => exact fun keys => le_rfl
    | succ n ih => exact fun keys => (Nat.le_succ _).trans (ih (WalletKeys.addPoolKey source keys))
  rw [WalletKeys.topUpKeyPool]
  split
  · exact le_rfl
  · exact hrounds _ keys

theorem topUpKeyPool_vchDefaultKey (keys : WalletKeys) :
    (keys.topUpKeyPool source).vchDefaultKey = keys.vchDefaultKey := by
  have hrounds : ∀ (n : Nat) (keys : WalletKeys),
      ((WalletKeys.addPoolKey source)^[n] keys).vchDefaultKey = keys.vchDefaultKey := by
    intro n
    induction n with
    | zero => exact fun keys => rfl
    | succ n ih => exact fun keys => ih (WalletKeys.addPoolKey source keys)
  rw [WalletKeys.topUpKeyPool]
  split
  · rfl
  · exact hrounds _ keys

theorem Stocked.withSize (hstocked : keys.Stocked source kept) (nSize : UInt32) :
    keys.Stocked { source with nTargetSize := nSize } kept :=
  ⟨hstocked.recorded, hstocked.usable, hstocked.drawn, hstocked.keptDrawn, hstocked.unshared, hstocked.unkept⟩

/-- What counts as kept may be less. -/
theorem Stocked.mono {kept' : CPubKey → Prop} (hstocked : keys.Stocked source kept)
    (hkept : ∀ vchPubKey, kept' vchPubKey → kept vchPubKey) : keys.Stocked source kept' :=
  ⟨hstocked.recorded, hstocked.usable, hstocked.drawn,
    fun vchPubKey hk => hstocked.keptDrawn vchPubKey (hkept _ hk), hstocked.unshared,
    fun hapart i vchPubKey hrecord hk => hstocked.unkept hapart i vchPubKey hrecord (hkept _ hk)⟩

theorem Stocked.withSet (hstocked : keys.Stocked source kept) {setKeyPool : Finset Nat}
    (hrecorded : ∀ i ∈ setKeyPool, i ∈ keys.pool) :
    Stocked source kept { keys with setKeyPool := setKeyPool } :=
  ⟨hrecorded, hstocked.usable, hstocked.drawn, hstocked.keptDrawn, hstocked.unshared, hstocked.unkept⟩

theorem Stocked.generateNewKey (hstocked : keys.Stocked source kept) :
    (keys.generateNewKey source).2.Stocked source kept where
  recorded := hstocked.recorded
  usable := fun i key hi => (hstocked.usable i key hi).imp_left (List.mem_cons_of_mem _)
  drawn := fun i key hi =>
    (hstocked.drawn i key hi).imp fun _ => And.imp_left Nat.lt_succ_of_lt
  keptDrawn := fun key hkept => (hstocked.keptDrawn key hkept).imp fun _ => And.imp_left Nat.lt_succ_of_lt
  unshared := fun hapart => hstocked.unshared (hapart.mono (Nat.le_succ _))
  unkept := fun hapart => hstocked.unkept (hapart.mono (Nat.le_succ _))

theorem Stocked.keepKey (hstocked : keys.Stocked source kept) (hout : nIndex ∉ keys.setKeyPool)
    (hrecord : keys.pool[nIndex]? = some vchPubKey) :
    (keys.keepKey nIndex).Stocked source fun key => key = vchPubKey ∨ kept key := by
  have hrest : ∀ (i : Nat) (key : CPubKey), (keys.keepKey nIndex).pool[i]? = some key →
      i ≠ nIndex ∧ keys.pool[i]? = some key := by
    intro i key hi
    rw [WalletKeys.keepKey, ExtTreeMap.getElem?_erase] at hi
    split at hi
    · cases hi
    · rename_i hne
      exact ⟨fun heq => hne (by simp [heq]), hi⟩
  constructor
  case recorded =>
    intro i hi
    rw [WalletKeys.keepKey, ExtTreeMap.mem_erase]
    refine ⟨fun heq => hout ?_, hstocked.recorded i hi⟩
    exact LawfulEqCmp.eq_of_compare heq ▸ hi
  case usable => exact fun i key hi => hstocked.usable i key (hrest i key hi).2
  case drawn => exact fun i key hi => hstocked.drawn i key (hrest i key hi).2
  case keptDrawn =>
    intro key hkept
    rcases hkept with rfl | hkept
    · exact hstocked.drawn nIndex key hrecord
    · exact hstocked.keptDrawn key hkept
  case unshared =>
    intro hapart i j key hi hj
    exact hstocked.unshared hapart i j key (hrest i key hi).2 (hrest j key hj).2
  case unkept =>
    intro hapart i key hi hkept
    obtain ⟨hne, hi⟩ := hrest i key hi
    rcases hkept with rfl | hkept
    · exact hne (hstocked.unshared hapart i nIndex key hi hrecord)
    · exact hstocked.unkept hapart i key hi hkept

/-- **A reservation from a pool in order** does not throw.  It takes a number of the
pool topped up, unless that is empty. -/
theorem Stocked.reserveKeyFromKeyPool (hstocked : keys.Stocked source kept)
    (hvalid : source.Valid) : (∃ nIndex ∈ topUp (keys.topUpSize source) keys.setKeyPool,
      ∃ vchPubKey, (keys.topUpKeyPool source).pool[nIndex]? = some vchPubKey ∧
      keys.reserveKeyFromKeyPool source = some (some (nIndex, vchPubKey),
        { keys.topUpKeyPool source with
          setKeyPool := (keys.topUpKeyPool source).setKeyPool.erase nIndex })) ∨
    (topUp (keys.topUpSize source) keys.setKeyPool = ∅ ∧
      keys.reserveKeyFromKeyPool source = some (none, keys.topUpKeyPool source)) := by
  obtain ⟨htopped, -⟩ := hstocked.topUpKeyPool hvalid
  rw [← topUpKeyPool_setKeyPool]
  rw [WalletKeys.reserveKeyFromKeyPool]
  by_cases hne : (keys.topUpKeyPool source).setKeyPool.Nonempty
  · have hmem := min'_mem _ hne
    obtain ⟨vchPubKey, hrecord⟩ := (FinMap.mem_iff_exists _ _).mp (htopped.recorded _ hmem)
    refine .inl ⟨_, hmem, vchPubKey, hrecord, ?_⟩
    simp only [dif_pos hne, hrecord]
    rw [if_pos (htopped.usable _ _ hrecord)]
  · refine .inr ⟨not_nonempty_iff_eq_empty.mp hne, ?_⟩
    simp only [dif_neg hne]

end WalletKeys

/-- What happens to a key: it is handed out, or kept for good. -/
inductive KeyEvent where
  | handed (vchPubKey : CPubKey)
  | kept (vchPubKey : CPubKey)
deriving DecidableEq

/-- The calls on the pool of a wallet by its holders and others. -/
inductive PoolCall (ρ : Type) where
  | getReservedKey (holder : ρ)
  | keepKey (holder : ρ)
  | returnKey (holder : ρ)
  | topUpKeyPool (nSize : UInt32)
  | getKeyFromPool (fAllowReuse : Bool)
  | lock
  | unlock

/-- The keys of a wallet with the holders, and what happened to keys so far, the
last first. -/
structure PoolState (ρ : Type) where
  keys : WalletKeys
  holders : ρ → CReserveKey
  events : List KeyEvent

namespace PoolState

variable {ρ : Type} [DecidableEq ρ] (source : KeySource)

/-- The events of `CReserveKey::KeepKey`. -/
def keepEvents (reservekey : CReserveKey) : List KeyEvent :=
  match reservekey.nIndex with
  | none => []
  | some _ => [.kept reservekey.vchPubKey]

/-- The events of `GetKeyFromPool`: a key of the pool is kept at once. -/
def poolEvents (fromPool : Bool) (result : Option CPubKey) : List KeyEvent :=
  match result with
  | none => []
  | some vchPubKey => if fromPool then [.kept vchPubKey, .handed vchPubKey] else [.handed vchPubKey]

/-- One call: none when it throws. -/
def call (st : PoolState ρ) : PoolCall ρ → Option (PoolState ρ)
  | .getReservedKey holder =>
    (st.keys.getReservedKey source (st.holders holder)).map fun (reservekey, keys) =>
      { keys := keys
        holders := Function.update st.holders holder reservekey
        events :=
          if (st.holders holder).nIndex = none then .handed reservekey.vchPubKey :: st.events
          else st.events }
  | .keepKey holder =>
    let (keys, reservekey) := st.keys.keepReserved (st.holders holder)
    some { keys := keys
           holders := Function.update st.holders holder reservekey
           events := keepEvents (st.holders holder) ++ st.events }
  | .returnKey holder =>
    let (keys, reservekey) := st.keys.returnReserved (st.holders holder)
    some { st with keys := keys, holders := Function.update st.holders holder reservekey }
  | .topUpKeyPool nSize => some { st with keys := st.keys.topUpKeyPoolTo source nSize }
  | .getKeyFromPool fAllowReuse =>
    (st.keys.getKeyFromPool source fAllowReuse).map fun (result, keys) =>
      { st with
        keys := keys
        events := poolEvents (decide ((st.keys.topUpKeyPool source).setKeyPool ≠ ∅)) result ++
          st.events }
  | .lock => some { st with keys := { st.keys with fLocked := true } }
  | .unlock => some { st with keys := { st.keys with fLocked := false } }

/-- The reservation of a number is outstanding. -/
def Outstanding (st : PoolState ρ) (nIndex : Nat) : Prop :=
  ∃ holder, (st.holders holder).nIndex = some nIndex

/-- A key that is handed out was not kept before. -/
def NotKept (later earlier : KeyEvent) : Prop :=
  ∀ vchPubKey, later = .handed vchPubKey → earlier ≠ .kept vchPubKey

/-- **The integrity of the pool**: no number is reserved twice, every number in
memory has a record, and no kept key was handed out after that. -/
structure Intact (st : PoolState ρ) : Prop where
  reservedOnce : ∀ holder holder' nIndex, (st.holders holder).nIndex = some nIndex →
    (st.holders holder').nIndex = some nIndex → holder = holder'
  recorded : ∀ nIndex ∈ st.keys.setKeyPool, nIndex ∈ st.keys.pool
  notKept : st.events.Pairwise NotKept

/-- A top-up to the size gives no number that is reserved. -/
def GivesFresh (st : PoolState ρ) (size : Nat) : Prop :=
  ∀ nIndex, st.Outstanding nIndex → nIndex ∉ topUp size st.keys.setKeyPool

/-- The pool has nothing to give, not even after a top-up. -/
def Exhausted (st : PoolState ρ) : Prop := topUp (st.keys.topUpSize source) st.keys.setKeyPool = ∅

/-- The condition on a call: a top-up gives no number that is reserved, and where
the default key is used in place of one from the pool, it is not one that was
kept. -/
def Fits (st : PoolState ρ) : PoolCall ρ → Prop
  | .getReservedKey holder =>
    (st.holders holder).nIndex = none →
      st.GivesFresh (st.keys.topUpSize source) ∧
        (st.Exhausted source → st.keys.vchDefaultKey.isValid = true ∧
          .kept st.keys.vchDefaultKey ∉ st.events)
  | .topUpKeyPool nSize =>
    st.GivesFresh
      (st.keys.topUpSize { source with nTargetSize := if nSize > 0 then nSize else source.nTargetSize })
  | .getKeyFromPool fAllowReuse =>
    st.GivesFresh (st.keys.topUpSize source) ∧
      (st.Exhausted source → fAllowReuse = true → .kept st.keys.vchDefaultKey ∉ st.events)
  | _ => True

def Kept (st : PoolState ρ) (vchPubKey : CPubKey) : Prop := .kept vchPubKey ∈ st.events

/-- The pool is in order, and every reserved number is one holder's, is outside of
the set and has its record. -/
structure InOrder (st : PoolState ρ) : Prop where
  stocked : st.keys.Stocked source st.Kept
  reservedOnce : ∀ holder holder' nIndex, (st.holders holder).nIndex = some nIndex →
    (st.holders holder').nIndex = some nIndex → holder = holder'
  notKept : source.Apart st.keys.nGenerated → st.events.Pairwise NotKept
  held : ∀ holder nIndex, (st.holders holder).nIndex = some nIndex → nIndex ∉ st.keys.setKeyPool ∧
    st.keys.pool[nIndex]? = some (st.holders holder).vchPubKey

variable {source} {st after : PoolState ρ} {holder : ρ} {nIndex : Nat} {vchPubKey : CPubKey}

section

omit [DecidableEq ρ]

theorem notKept_handed (hevents : st.events.Pairwise NotKept) (hnew : ¬st.Kept vchPubKey) :
    (.handed vchPubKey :: st.events : List KeyEvent).Pairwise NotKept := by
  refine List.pairwise_cons.mpr ⟨fun earlier hearlier key heq hkept => hnew ?_, hevents⟩
  cases heq
  cases hkept
  exact hearlier

theorem notKept_kept {events : List KeyEvent} (hevents : events.Pairwise NotKept) :
    (.kept vchPubKey :: events : List KeyEvent).Pairwise NotKept :=
  List.pairwise_cons.mpr ⟨fun _ _ _ heq => (nomatch heq), hevents⟩

theorem InOrder.topUp (hst : st.InOrder source) (hvalid : source.Valid)
    (hfresh : st.GivesFresh (st.keys.topUpSize source)) :
    InOrder source { st with keys := st.keys.topUpKeyPool source } := by
  obtain ⟨htopped, hframe⟩ := hst.stocked.topUpKeyPool hvalid
  refine ⟨htopped, hst.reservedOnce,
    fun hapart => hst.notKept (hapart.mono (WalletKeys.nGenerated_le_topUpKeyPool _)),
    fun holder nIndex hindex => ?_⟩
  have hout := hfresh nIndex ⟨holder, hindex⟩
  have hpool : (st.keys.topUpKeyPool source).setKeyPool = _ := WalletKeys.topUpKeyPool_setKeyPool st.keys
  exact ⟨hpool ▸ hout, (hframe nIndex hout).trans (hst.held holder nIndex hindex).2⟩

theorem InOrder.hand (hst : st.InOrder source)
    (hnew : source.Apart st.keys.nGenerated → ¬st.Kept vchPubKey) :
    InOrder source { st with events := .handed vchPubKey :: st.events } := by
  refine ⟨?_, hst.reservedOnce, fun hapart => notKept_handed (hst.notKept hapart) (hnew hapart), hst.held⟩
  exact hst.stocked.mono fun key hkept => (List.mem_cons.mp hkept).resolve_left fun heq => nomatch heq

theorem InOrder.takeOut (hst : st.InOrder source) (nIndex : Nat) : InOrder source
      { st with keys := { st.keys with setKeyPool := st.keys.setKeyPool.erase nIndex } } := by
  have hsub : ∀ i ∈ st.keys.setKeyPool.erase nIndex, i ∈ st.keys.pool :=
    fun i hi => hst.stocked.recorded i (mem_of_mem_erase hi)
  refine ⟨hst.stocked.withSet hsub, hst.reservedOnce, hst.notKept, fun holder i hindex => ?_⟩
  exact (hst.held holder i hindex).imp_left fun hout hin => hout (mem_of_mem_erase hin)

theorem InOrder.keep (hst : st.InOrder source) (hfree : ¬st.Outstanding nIndex)
    (hout : nIndex ∉ st.keys.setKeyPool) (hrecord : st.keys.pool[nIndex]? = some vchPubKey) :
    InOrder source
      { st with keys := st.keys.keepKey nIndex, events := .kept vchPubKey :: st.events } := by
  have hkept := hst.stocked.keepKey hout hrecord
  refine ⟨?_, hst.reservedOnce, fun hapart => notKept_kept (hst.notKept hapart), fun holder i hindex => ?_⟩
  · refine hkept.mono fun key hkey => ?_
    exact (List.mem_cons.mp hkey).imp_left fun heq => KeyEvent.kept.inj heq
  · have hne : nIndex ≠ i := fun heq => hfree ⟨holder, heq ▸ hindex⟩
    exact (hst.held holder i hindex).imp_right (FinMap.getElem?_erase_ne st.keys.pool hne).trans

theorem InOrder.putBack (hst : st.InOrder source) (hfree : ¬st.Outstanding nIndex)
    (hrecord : nIndex ∈ st.keys.pool) :
    InOrder source { st with keys := st.keys.returnKey nIndex } := by
  have hrecorded : ∀ i ∈ insert nIndex st.keys.setKeyPool, i ∈ st.keys.pool := by
    intro i hi
    rcases mem_insert.mp hi with rfl | hold
    · exact hrecord
    · exact hst.stocked.recorded i hold
  refine ⟨hst.stocked.withSet hrecorded, hst.reservedOnce, hst.notKept, fun holder i hindex => ?_⟩
  refine (hst.held holder i hindex).imp_left fun hout hin => ?_
  rcases mem_insert.mp hin with rfl | hold
  · exact hfree ⟨holder, hindex⟩
  · exact hout hold

end

theorem outstanding_update {reservekey : CReserveKey} {holder' : ρ}
    (h : (Function.update st.holders holder reservekey holder').nIndex = some nIndex) :
    (holder' = holder ∧ reservekey.nIndex = some nIndex) ∨
      (holder' ≠ holder ∧ (st.holders holder').nIndex = some nIndex) := by
  by_cases heq : holder' = holder
  · subst heq
    rw [Function.update_self] at h
    exact .inl ⟨rfl, h⟩
  · rw [Function.update_of_ne heq] at h
    exact .inr ⟨heq, h⟩

/-- A holder is left without a number. -/
theorem InOrder.drop (hst : st.InOrder source) (holder : ρ) (reservekey : CReserveKey)
    (hnone : reservekey.nIndex = none) :
    InOrder source { st with holders := Function.update st.holders holder reservekey } := by
  have hold : ∀ {holder' nIndex},
      (Function.update st.holders holder reservekey holder').nIndex = some nIndex →
      holder' ≠ holder ∧ (st.holders holder').nIndex = some nIndex :=
    fun h => (outstanding_update h).resolve_left fun hnew => by rw [hnone] at hnew; cases hnew.2
  refine ⟨hst.stocked, fun a b i ha hb => hst.reservedOnce a b i (hold ha).2 (hold hb).2,
    hst.notKept, fun holder' i hindex => ?_⟩
  simp only [Function.update_of_ne (hold hindex).1]
  exact hst.held holder' i (hold hindex).2

theorem InOrder.free_of_drop (hst : st.InOrder source) {reservekey : CReserveKey}
    (hnone : reservekey.nIndex = none) (hindex : (st.holders holder).nIndex = some nIndex) :
    ¬Outstanding { st with holders := Function.update st.holders holder reservekey } nIndex := by
  rintro ⟨holder', hholder'⟩
  rcases outstanding_update hholder' with ⟨-, hnew⟩ | ⟨hne, hold⟩
  · rw [hnone] at hnew
    cases hnew
  · exact hne (hst.reservedOnce holder' holder nIndex hold hindex)

/-- A free number with its record is given to a holder. -/
theorem InOrder.assign (hst : st.InOrder source) (holder : ρ) (hfree : ¬st.Outstanding nIndex)
    (hout : nIndex ∉ st.keys.setKeyPool) (hrecord : st.keys.pool[nIndex]? = some vchPubKey) :
    InOrder source
      { st with holders := Function.update st.holders holder ⟨some nIndex, vchPubKey⟩ } := by
  have hcases : ∀ {holder' i},
      (Function.update st.holders holder ⟨some nIndex, vchPubKey⟩ holder').nIndex = some i →
      (holder' = holder ∧ nIndex = i) ∨
        (holder' ≠ holder ∧ nIndex ≠ i ∧ (st.holders holder').nIndex = some i) :=
    fun h => (outstanding_update h).imp (And.imp_right Option.some.inj)
      fun ⟨hne, hold⟩ => ⟨hne, fun heq => hfree ⟨_, heq ▸ hold⟩, hold⟩
  refine ⟨hst.stocked, fun a b i ha hb => ?_, hst.notKept, fun holder' i hindex => ?_⟩
  · rcases hcases ha with ⟨rfl, rfl⟩ | ⟨-, hne, ha⟩
    · rcases hcases hb with ⟨rfl, -⟩ | ⟨-, hne, -⟩
      · rfl
      · exact absurd rfl hne
    · rcases hcases hb with ⟨-, rfl⟩ | ⟨-, -, hb⟩
      · exact absurd rfl hne
      · exact hst.reservedOnce a b i ha hb
  · rcases hcases hindex with ⟨rfl, rfl⟩ | ⟨hne, -, hold⟩
    · simp only [Function.update_self]
      exact ⟨hout, hrecord⟩
    · simp only [Function.update_of_ne hne]
      exact hst.held holder' i hold

theorem InOrder.call_getReservedKey (hst : st.InOrder source) (hvalid : source.Valid)
    (hfits : st.Fits source (.getReservedKey holder)) :
    ∃ after, st.call source (.getReservedKey holder) = some after ∧ after.InOrder source := by
  cases hindex : (st.holders holder).nIndex with
  | some nIndex =>
    have hvalid := (hst.stocked.usable nIndex _ (hst.held holder nIndex hindex).2).2
    refine ⟨st, ?_, hst⟩
    simp [call, WalletKeys.getReservedKey, hindex, hvalid]
  | none =>
    obtain ⟨hfresh, hdefault⟩ := hfits hindex
    have htop := hst.topUp hvalid hfresh
    rcases hst.stocked.reserveKeyFromKeyPool hvalid with
      ⟨nIndex, hmem, vchPubKey, hrecord, hreserve⟩ | ⟨hempty, hreserve⟩
    · have hvalid := (htop.stocked.usable nIndex vchPubKey hrecord).2
      have hfree : ¬st.Outstanding nIndex := fun hheld => hfresh nIndex hheld hmem
      refine ⟨_, ?_, (((htop.takeOut nIndex).hand
        fun hapart => htop.stocked.unkept hapart nIndex vchPubKey hrecord).assign holder hfree
          (notMem_erase _ _) hrecord)⟩
      simp [call, WalletKeys.getReservedKey, hindex, hreserve, hvalid]
    · obtain ⟨hvalid, hnew⟩ := hdefault hempty
      refine ⟨_, ?_, (htop.hand fun _ => hnew).drop holder ⟨none, st.keys.vchDefaultKey⟩ rfl⟩
      simp [call, WalletKeys.getReservedKey, hindex, hreserve, hvalid, WalletKeys.topUpKeyPool_vchDefaultKey]

theorem InOrder.call_keepKey (hst : st.InOrder source) :
    ∃ after, st.call source (.keepKey holder) = some after ∧ after.InOrder source := by
  have hdrop := hst.drop holder ⟨none, []⟩ rfl
  cases hindex : (st.holders holder).nIndex with
  | none => exact ⟨_, by simp [call, WalletKeys.keepReserved, keepEvents, hindex], hdrop⟩
  | some nIndex =>
    obtain ⟨hout, hrecord⟩ := hst.held holder nIndex hindex
    exact ⟨_, by simp [call, WalletKeys.keepReserved, keepEvents, hindex],
      hdrop.keep (hst.free_of_drop rfl hindex) hout hrecord⟩

theorem InOrder.call_returnKey (hst : st.InOrder source) :
    ∃ after, st.call source (.returnKey holder) = some after ∧ after.InOrder source := by
  have hdrop := hst.drop holder ⟨none, []⟩ rfl
  cases hindex : (st.holders holder).nIndex with
  | none => exact ⟨_, by simp [call, WalletKeys.returnReserved, hindex], hdrop⟩
  | some nIndex =>
    have hrecord := (FinMap.mem_iff_exists _ _).mpr ⟨_, (hst.held holder nIndex hindex).2⟩
    exact ⟨_, by simp [call, WalletKeys.returnReserved, hindex],
      hdrop.putBack (hst.free_of_drop rfl hindex) hrecord⟩

omit [DecidableEq ρ] in
theorem InOrder.withSize (hst : st.InOrder source) (nSize : UInt32) :
    st.InOrder { source with nTargetSize := nSize } :=
  ⟨hst.stocked.withSize nSize, hst.reservedOnce, hst.notKept, hst.held⟩

omit [DecidableEq ρ] in
theorem InOrder.withLock (hst : st.InOrder source) (fLocked : Bool) :
    InOrder source { st with keys := { st.keys with fLocked := fLocked } } :=
  ⟨⟨hst.stocked.recorded, hst.stocked.usable, hst.stocked.drawn, hst.stocked.keptDrawn,
      hst.stocked.unshared, hst.stocked.unkept⟩,
    hst.reservedOnce, hst.notKept, hst.held⟩

theorem InOrder.call_topUpKeyPool (hst : st.InOrder source) (hvalid : source.Valid) {nSize : UInt32}
    (hfits : st.Fits source (.topUpKeyPool nSize)) :
    ∃ after, st.call source (.topUpKeyPool nSize) = some after ∧ after.InOrder source :=
  ⟨_, rfl, ((hst.withSize (if nSize > 0 then nSize else source.nTargetSize)).topUp
    hvalid hfits).withSize source.nTargetSize⟩

theorem InOrder.call_getKeyFromPool (hst : st.InOrder source) (hvalid : source.Valid)
    {fAllowReuse : Bool} (hfits : st.Fits source (.getKeyFromPool fAllowReuse)) :
    ∃ after, st.call source (.getKeyFromPool fAllowReuse) = some after ∧ after.InOrder source := by
  obtain ⟨hfresh, hdefault⟩ := hfits
  have htop := hst.topUp hvalid hfresh
  rcases hst.stocked.reserveKeyFromKeyPool hvalid with
    ⟨nIndex, hmem, vchPubKey, hrecord, hreserve⟩ | ⟨hempty, hreserve⟩
  · have hfree : ¬st.Outstanding nIndex := fun hheld => hfresh nIndex hheld hmem
    have hsome : (st.keys.topUpKeyPool source).setKeyPool ≠ ∅ := by
      rw [WalletKeys.topUpKeyPool_setKeyPool]
      exact ne_empty_of_mem hmem
    refine ⟨_, ?_, ((htop.takeOut nIndex).hand
      fun hapart => htop.stocked.unkept hapart nIndex vchPubKey hrecord).keep
      hfree (notMem_erase _ _) hrecord⟩
    simp [call, WalletKeys.getKeyFromPool, hreserve, poolEvents, hsome]
  · have hnone : (st.keys.topUpKeyPool source).setKeyPool = ∅ := by
      rw [WalletKeys.topUpKeyPool_setKeyPool]
      exact hempty
    simp only [call, WalletKeys.getKeyFromPool, hreserve, hnone, WalletKeys.topUpKeyPool_vchDefaultKey]
    by_cases hreuse : (fAllowReuse && st.keys.vchDefaultKey.isValid) = true
    · have hnew := hdefault hempty (Bool.and_eq_true_iff.mp hreuse).1
      rw [if_pos hreuse]
      exact ⟨_, rfl, htop.hand fun _ => hnew⟩
    · rw [if_neg hreuse]
      by_cases hlocked : (st.keys.topUpKeyPool source).fLocked = true
      · rw [if_pos hlocked]
        exact ⟨_, rfl, htop⟩
      · rw [if_neg hlocked]
        have hdrawn : InOrder source
            { st with keys := ((st.keys.topUpKeyPool source).generateNewKey source).2 } :=
          ⟨htop.stocked.generateNewKey, htop.reservedOnce,
            fun hapart => htop.notKept (hapart.mono (Nat.le_succ _)), htop.held⟩
        exact ⟨_, rfl, hdrawn.hand htop.stocked.newKey_notKept⟩

/-- **A call that fits** does not throw and leaves the pool in order. -/
theorem InOrder.call (hst : st.InOrder source) (hvalid : source.Valid) (op : PoolCall ρ)
    (hfits : st.Fits source op) : ∃ after, st.call source op = some after ∧ after.InOrder source := by
  cases op with
  | getReservedKey holder => exact hst.call_getReservedKey hvalid hfits
  | keepKey holder => exact hst.call_keepKey
  | returnKey holder => exact hst.call_returnKey
  | topUpKeyPool nSize => exact hst.call_topUpKeyPool hvalid hfits
  | getKeyFromPool fAllowReuse => exact hst.call_getKeyFromPool hvalid hfits
  | lock => exact ⟨_, rfl, hst.withLock true⟩
  | unlock => exact ⟨_, rfl, hst.withLock false⟩

variable (source) in
/-- The calls one after the other. -/
def run (st : PoolState ρ) (ops : List (PoolCall ρ)) : Option (PoolState ρ) := ops.foldlM (call source) st

variable (source) in
/-- Every call of the run fits where it is made. -/
def AllFit (st : PoolState ρ) (ops : List (PoolCall ρ)) : Prop :=
  ∀ pre op post mid, ops = pre ++ op :: post → st.run source pre = some mid → mid.Fits source op

variable {ops : List (PoolCall ρ)}

theorem AllFit.tail {op : PoolCall ρ} (hfits : st.AllFit source (op :: ops))
    (hcall : st.call source op = some after) : after.AllFit source ops := by
  intro pre op' post mid hsplit hrun
  apply hfits (op :: pre) op' post mid (by rw [hsplit, List.cons_append])
  rw [run, List.foldlM_cons, hcall]
  exact hrun

theorem AllFit.nil : st.AllFit source [] := fun _ _ _ _ hsplit => by simp at hsplit

theorem AllFit.cons {op : PoolCall ρ} (hop : st.Fits source op)
    (hops : ∀ after, st.call source op = some after → after.AllFit source ops) :
    st.AllFit source (op :: ops) := by
  intro pre op' post mid hsplit hrun
  cases pre with
  | nil =>
    cases hrun
    cases hsplit
    exact hop
  | cons op₀ pre =>
    obtain ⟨rfl, hrest'⟩ := List.cons.inj hsplit
    obtain ⟨after, hcall, hrest⟩ := OptionLoop.foldlM_cons hrun
    exact hops after hcall pre op' post mid hrest' hrest

theorem InOrder.run (hst : st.InOrder source) (hvalid : source.Valid)
    (hfits : st.AllFit source ops) : ∃ after, st.run source ops = some after ∧ after.InOrder source := by
  induction ops generalizing st with
  | nil => exact ⟨st, rfl, hst⟩
  | cons op ops ih =>
    obtain ⟨mid, hcall, hmid⟩ := hst.call hvalid op (hfits [] op ops st rfl rfl)
    obtain ⟨after, hrun, hafter⟩ := ih hmid (hfits.tail hcall)
    refine ⟨after, ?_, hafter⟩
    rw [PoolState.run, List.foldlM_cons, hcall]
    exact hrun

/-- A wallet of which no key is reserved. -/
def unreserved (ρ : Type) (keys : WalletKeys) : PoolState ρ := ⟨keys, fun _ => ⟨none, []⟩, []⟩

omit [DecidableEq ρ] in
theorem inOrder_unreserved {keys : WalletKeys} (hstocked : keys.Stocked source fun _ => False) :
    (unreserved ρ keys).InOrder source where
  stocked := hstocked.mono fun _ hkept => nomatch hkept
  reservedOnce := fun _ _ _ hindex => nomatch hindex
  notKept := fun _ => .nil
  held := fun _ _ hindex => nomatch hindex

/-- **A run whose calls fit**, from a wallet of which no key is reserved, when no key
is drawn twice: no call throws, and the pool has its integrity at the end. -/
theorem run_intact (hvalid : source.Valid) {keys : WalletKeys}
    (hstocked : keys.Stocked source fun _ => False) (ops : List (PoolCall ρ))
    (hfits : (unreserved ρ keys).AllFit source ops) (hapart : ∀ after,
    (unreserved ρ keys).run source ops = some after → source.Apart after.keys.nGenerated) :
    ∃ after, (unreserved ρ keys).run source ops = some after ∧ after.Intact := by
  obtain ⟨after, hrun, hafter⟩ := (inOrder_unreserved hstocked).run hvalid hfits
  exact ⟨after, hrun, hafter.reservedOnce, hafter.stocked.recorded, hafter.notKept (hapart after hrun)⟩

/-- A source that draws one key after the other, with `-keypool=0`. -/
def countingSource : KeySource :=
  ⟨fun n => List.replicate 33 (UInt8.ofNat n), fun key => Vector.replicate 20 (key.headD 0), 0⟩

/-- An unlocked wallet without keys. -/
def noKeys : WalletKeys := ⟨[], 0, false, ∅, ∅, []⟩

theorem run_intact_kept : ∃ after,
    (unreserved Bool noKeys).run countingSource [.getReservedKey false, .keepKey false] =
      some after ∧ after.Intact := by
  have hvalid : countingSource.Valid := fun n => by
    rw [CPubKey.isValid, countingSource, List.length_replicate]
    rfl
  have hstocked : noKeys.Stocked countingSource fun _ => False :=
    ⟨fun i hi => absurd hi (notMem_empty i), fun i key hi => by simp [noKeys] at hi,
      fun i key hi => by simp [noKeys] at hi, fun _ hkept => hkept.elim,
      fun _ i j key hi => by simp [noKeys] at hi, fun _ i key hi => by simp [noKeys] at hi⟩
  refine run_intact hvalid hstocked _ ?_ fun after hrun => ?_
  · refine .cons (fun _ => ⟨fun i hheld => ?_, fun hempty => ?_⟩) fun mid _ =>
      .cons trivial fun after _ => .nil
    · obtain ⟨holder, hindex⟩ := hheld
      cases hindex
    · have hone : topUp 1 ∅ ≠ ∅ := by decide
      exact absurd hempty hone
  · have hcount : ((unreserved Bool noKeys).run countingSource
        [.getReservedKey false, .keepKey false]).map (fun st => st.keys.nGenerated) = some 1 := by
      decide +kernel
    rw [hrun, Option.map_some] at hcount
    rw [Option.some.inj hcount]
    intro n hn m hm _
    exact (Nat.lt_one_iff.mp hn).trans (Nat.lt_one_iff.mp hm).symm

/-- Two holders reserve, one after the other: both have the first number, and the
first key has no record any more.  The first one keeps its key, the other returns
the number, and the next reservation throws. -/
theorem reserved_twice :
    ((unreserved Bool noKeys).run countingSource [.getReservedKey false, .getReservedKey true]).map
        (fun st => ((st.holders false).nIndex, (st.holders true).nIndex)) = some (some 1, some 1) ∧
      (((unreserved Bool noKeys).run countingSource
          [.getReservedKey false, .getReservedKey true, .keepKey false,
      .returnKey true]).isSome = true) ∧ ((unreserved Bool noKeys).run countingSource
        [.getReservedKey false, .getReservedKey true, .keepKey false, .returnKey true,
          .getReservedKey false]).isNone = true := by
  decide +kernel

end PoolState

end MaryJaneCoin
