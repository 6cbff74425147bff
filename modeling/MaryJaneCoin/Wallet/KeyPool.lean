import MaryJaneCoin.Lib.NumberedQueue
import MaryJaneCoin.Wallet.CWallet

/-!
# The key pool

`CWallet` keeps keys in reserve: a set of numbers in memory, and under each number
a `pool` record in the wallet database.  A key is taken in two steps, reserved and
then kept, and the pool is topped up before each reservation when the wallet is
unlocked.  The wallet is a node's, which has a file, so `fFileBacked` holds.
-/

namespace MaryJaneCoin

open Std Codec NumberedQueue List Finset

abbrev CPubKey := Bytes

def CPubKey.isValid (vchPubKey : CPubKey) : Bool := vchPubKey.length == 33 || vchPubKey.length == 65

/-- What the key store takes from outside: the keys it draws at random, the hash
of a key, and `nTargetSize` as `-keypool` gives it. -/
structure KeySource where
  newKey : Nat → CPubKey
  getID : CPubKey → CKeyID
  nTargetSize : UInt32

/-- The keys of a wallet: the key store, the pool with its records, and the key
of the default address. -/
structure WalletKeys where
  keyStore : List CKeyID
  nGenerated : Nat
  fLocked : Bool
  setKeyPool : Finset Nat
  pool : ExtTreeMap Nat CPubKey
  vchDefaultKey : CPubKey

/-- `CReserveKey`: `nIndex` is none where the source has -1. -/
structure CReserveKey where
  nIndex : Option Nat
  vchPubKey : CPubKey
deriving DecidableEq

namespace WalletKeys

variable (source : KeySource)

def generateNewKey (keys : WalletKeys) : CPubKey × WalletKeys :=
  let key := source.newKey keys.nGenerated
  (key, { keys with keyStore := source.getID key :: keys.keyStore, nGenerated := keys.nGenerated + 1 })

/-- One round of the loop of `TopUpKeyPool`. -/
def addPoolKey (keys : WalletKeys) : WalletKeys :=
  let nEnd := next keys.setKeyPool
  let (key, keys) := keys.generateNewKey source
  { keys with pool := keys.pool.insert nEnd key, setKeyPool := insert nEnd keys.setKeyPool }

/-- `CWallet::TopUpKeyPool`.  A round adds one key, so the loop ends after as
many rounds as keys are missing. -/
def topUpKeyPool (keys : WalletKeys) : WalletKeys :=
  if keys.fLocked then keys
  else (addPoolKey source)^[(source.nTargetSize + 1).toNat - keys.setKeyPool.card] keys

/-- `CWallet::ReserveKeyFromKeyPool`: none when it throws, and no key when the
pool is empty. -/
def reserveKeyFromKeyPool (keys : WalletKeys) : Option (Option (Nat × CPubKey) × WalletKeys) :=
  let keys := keys.topUpKeyPool source
  if h : keys.setKeyPool.Nonempty then
    let nIndex := keys.setKeyPool.min' h
    match keys.pool[nIndex]? with
    | none => none
    | some vchPubKey =>
      if source.getID vchPubKey ∈ keys.keyStore ∧ vchPubKey.isValid then
        some (some (nIndex, vchPubKey), { keys with setKeyPool := keys.setKeyPool.erase nIndex })
      else none
  else some (none, keys)

def keepKey (keys : WalletKeys) (nIndex : Nat) : WalletKeys := { keys with pool := keys.pool.erase nIndex }

/-- `CReserveKey::KeepKey`. -/
def keepReserved (keys : WalletKeys) (reservekey : CReserveKey) : WalletKeys × CReserveKey :=
  (match reservekey.nIndex with
    | none => keys
    | some nIndex => keys.keepKey nIndex, ⟨none, []⟩)

def getKeyFromPool (fAllowReuse : Bool) (keys : WalletKeys) : Option (Option CPubKey × WalletKeys) :=
  match keys.reserveKeyFromKeyPool source with
  | none => none
  | some (some (nIndex, vchPubKey), keys) => some (some vchPubKey, keys.keepKey nIndex)
  | some (none, keys) =>
    if fAllowReuse && keys.vchDefaultKey.isValid then some (some keys.vchDefaultKey, keys)
    else if keys.fLocked then some (none, keys)
    else
      let (key, keys) := keys.generateNewKey source
      some (some key, keys)

/-- What `AddToWallet` does at an output that pays the default address: another
key becomes the default one. -/
def renewDefaultKey (keys : WalletKeys) : Option WalletKeys :=
  (keys.getKeyFromPool source false).map fun
    | (none, keys) => keys
    | (some newDefaultKey, keys) => { keys with vchDefaultKey := newDefaultKey }

def scriptDefaultKey (keys : WalletKeys) : CScript :=
  CScript.setDestination (.keyID (source.getID keys.vchDefaultKey))

def renewAt (script : CScript) (keys : WalletKeys) (txout : CTxOut) : Option WalletKeys :=
  if txout.scriptPubKey = script then keys.renewDefaultKey source else some keys

/-- The loop of `AddToWallet` over the outputs: it looks for the default address
as it was before the loop. -/
def renewDefaultKeys (keys : WalletKeys) (vout : List CTxOut) : Option WalletKeys :=
  vout.foldlM (renewAt source (keys.scriptDefaultKey source)) keys

/-- The size that the pool is brought to before a key is reserved. -/
def topUpSize (keys : WalletKeys) : Nat := if keys.fLocked then 0 else (source.nTargetSize + 1).toNat

/-- The key store with so many keys drawn. -/
def withDrawn (keys : WalletKeys) : Nat → List CKeyID
  | 0 => keys.keyStore
  | n + 1 => source.getID (source.newKey (keys.nGenerated + n)) :: keys.withDrawn n

/-- How many outputs pay a script. -/
def paying (script : CScript) (vout : List CTxOut) : Nat :=
  vout.countP fun txout => decide (txout.scriptPubKey = script)

/-- The pool is empty, and is empty again after a key was taken from it. -/
def Idle (keys : WalletKeys) : Prop :=
  keys.setKeyPool = ∅ ∧
    (keys.topUpSize source = 0 ∨ keys.topUpSize source = 1 ∧ 1 ∉ keys.pool)

/-- The pool of two wallets is the same: the numbers in memory and the records. -/
def SamePool (keys after : WalletKeys) : Prop :=
  after.setKeyPool = keys.setKeyPool ∧ after.pool = keys.pool

variable {source} {keys after : WalletKeys} {script : CScript} {vout : List CTxOut}

theorem topUpSize_congr (h : after.fLocked = keys.fLocked) :
    after.topUpSize source = keys.topUpSize source := by
  rw [topUpSize, topUpSize, h]

theorem iterate_addPoolKey (n : Nat) (keys : WalletKeys) :
    ((addPoolKey source)^[n] keys).setKeyPool = push^[n] keys.setKeyPool ∧
      ((addPoolKey source)^[n] keys).fLocked = keys.fLocked := by
  induction n generalizing keys with
  | zero => exact ⟨rfl, rfl⟩
  | succ n ih =>
    rw [Function.iterate_succ_apply, Function.iterate_succ_apply]; exact ih (addPoolKey source keys)

theorem topUpKeyPool_setKeyPool (keys : WalletKeys) :
    (keys.topUpKeyPool source).setKeyPool = topUp (keys.topUpSize source) keys.setKeyPool := by
  rw [topUpKeyPool, topUpSize]
  split
  · rw [topUp, Nat.zero_sub]
    rfl
  · exact (iterate_addPoolKey _ keys).1

theorem topUpKeyPool_fLocked (keys : WalletKeys) : (keys.topUpKeyPool source).fLocked = keys.fLocked := by
  rw [topUpKeyPool]
  split
  · rfl
  · exact (iterate_addPoolKey _ keys).2

/-- Nothing is added to a pool that is not to hold anything. -/
theorem topUpKeyPool_of_size_zero (hsize : keys.topUpSize source = 0) : keys.topUpKeyPool source = keys := by
  rw [topUpSize] at hsize
  rw [topUpKeyPool]
  split
  · rfl
  · rename_i hlocked
    rw [if_neg hlocked] at hsize
    rw [hsize, Nat.zero_sub]
    rfl

theorem topUpKeyPool_of_size_one (hempty : keys.setKeyPool = ∅) (hsize : keys.topUpSize source = 1) :
    keys.fLocked = false ∧ keys.topUpKeyPool source = addPoolKey source keys := by
  rw [topUpSize] at hsize
  rw [topUpKeyPool]
  split at hsize
  · omega
  · rename_i hlocked
    rw [if_neg hlocked, hsize, hempty]
    exact ⟨by simpa using hlocked, rfl⟩

/-- **What a renewal does**: it takes the least number of the pool topped up.  When
that is empty, an unlocked wallet draws a key past the pool. -/
theorem renewDefaultKey_cases (h : keys.renewDefaultKey source = some after) :
    (∃ (hne : (keys.topUpKeyPool source).setKeyPool.Nonempty) (key : CPubKey),
      after = let topped := keys.topUpKeyPool source
        let nIndex := topped.setKeyPool.min' hne
        { topped with
          setKeyPool := topped.setKeyPool.erase nIndex
          pool := topped.pool.erase nIndex
          vchDefaultKey := key }) ∨
    ((keys.topUpKeyPool source).setKeyPool = ∅ ∧ keys.fLocked = true ∧ after = keys.topUpKeyPool source) ∨
    ((keys.topUpKeyPool source).setKeyPool = ∅ ∧ keys.fLocked = false ∧
      ∃ key : CPubKey, after =
        { ((keys.topUpKeyPool source).generateNewKey source).2 with vchDefaultKey := key }) := by
  rw [renewDefaultKey, getKeyFromPool, reserveKeyFromKeyPool] at h
  by_cases hne : (keys.topUpKeyPool source).setKeyPool.Nonempty
  · refine .inl ⟨hne, ?_⟩
    simp only [dif_pos hne] at h
    split at h
    · cases h
    · rename_i nIndex vchPubKey topped hreserved
      split at hreserved
      · cases hreserved
      · split at hreserved
        · cases hreserved
          cases h
          exact ⟨_, rfl⟩
        · cases hreserved
    · rename_i topped hreserved
      split at hreserved
      · cases hreserved
      · split at hreserved <;> cases hreserved
  · have hempty := not_nonempty_iff_eq_empty.mp hne
    rw [dif_neg hne] at h
    simp only [Bool.false_and, Bool.false_eq_true, if_false, topUpKeyPool_fLocked] at h
    cases hlocked : keys.fLocked with
    | true =>
      rw [hlocked, if_pos rfl] at h
      cases h
      exact .inr (.inl ⟨hempty, rfl, rfl⟩)
    | false =>
      rw [hlocked, if_neg Bool.false_ne_true] at h
      cases h
      exact .inr (.inr ⟨hempty, rfl, _, rfl⟩)

theorem renewDefaultKey_spec (h : keys.renewDefaultKey source = some after) : after.fLocked =
      keys.fLocked ∧ after.setKeyPool = drain (keys.topUpSize source) keys.setKeyPool := by
  have htop : (keys.topUpKeyPool source).setKeyPool = _ := topUpKeyPool_setKeyPool keys
  rcases renewDefaultKey_cases h with ⟨hne, key, rfl⟩ | ⟨hempty, -, rfl⟩ | ⟨hempty, -, key, rfl⟩
  · exact ⟨topUpKeyPool_fLocked keys, (drain_of_nonempty htop hne).symm⟩
  · exact ⟨topUpKeyPool_fLocked keys, by rw [hempty, drain_of_empty (htop ▸ hempty)]⟩
  · exact ⟨topUpKeyPool_fLocked keys, hempty.trans (drain_of_empty (htop ▸ hempty)).symm⟩

theorem renewDefaultKey_of_size_one (hempty : keys.setKeyPool = ∅)
    (hsize : keys.topUpSize source = 1) (h : keys.renewDefaultKey source = some after) :
    after.setKeyPool = ∅ ∧ after.fLocked = keys.fLocked ∧ after.pool = keys.pool.erase 1 ∧
      after.keyStore = keys.withDrawn source 1 ∧ after.nGenerated = keys.nGenerated + 1 := by
  obtain ⟨hunlocked, htop⟩ := topUpKeyPool_of_size_one hempty hsize
  have hset : (addPoolKey source keys).setKeyPool = {1} := by
    show insert (next keys.setKeyPool) keys.setKeyPool = {1}
    rw [hempty]
    rfl
  have hspec := renewDefaultKey_spec h
  rw [hsize, hempty, drain_eq_empty.mpr ⟨by rw [card_empty]; omega, Nat.le_refl 1⟩] at hspec
  rcases renewDefaultKey_cases h with ⟨hne, key, rfl⟩ | ⟨hnone, -, -⟩ | ⟨hnone, -, -⟩
  · refine ⟨hspec.2, hspec.1, ?_⟩
    have hmin : (keys.topUpKeyPool source).setKeyPool.min' hne = 1 := by
      have hmem := min'_mem _ hne
      generalize (keys.topUpKeyPool source).setKeyPool.min' hne = least at hmem ⊢
      rwa [htop, hset, Finset.mem_singleton] at hmem
    simp only [hmin]
    simp only [htop]
    refine ⟨?_, rfl, rfl⟩
    show (keys.pool.insert (next keys.setKeyPool) _).erase 1 = keys.pool.erase 1
    rw [hempty]
    exact FinMap.erase_insert_self keys.pool 1 _
  · rw [htop, hset] at hnone
    exact absurd hnone (singleton_ne_empty 1)
  · rw [htop, hset] at hnone
    exact absurd hnone (singleton_ne_empty 1)

theorem renewDefaultKey_of_size_zero (hempty : keys.setKeyPool = ∅)
    (hsize : keys.topUpSize source = 0) (h : keys.renewDefaultKey source = some after) :
    after.setKeyPool = ∅ ∧ after.fLocked = keys.fLocked ∧ after.pool = keys.pool ∧
      after.keyStore = (if keys.fLocked then keys.keyStore else keys.withDrawn source 1) ∧
      (keys.fLocked = false → after.nGenerated = keys.nGenerated + 1) := by
  have htop := topUpKeyPool_of_size_zero hsize
  rcases renewDefaultKey_cases h with ⟨hne, -⟩ | ⟨-, hlocked, rfl⟩ | ⟨-, hlocked, key, rfl⟩
  · rw [htop, hempty] at hne
    exact absurd hne Finset.not_nonempty_empty
  · rw [htop]
    exact ⟨hempty, rfl, rfl, by rw [if_pos hlocked], fun hnot => by simp [hlocked] at hnot⟩
  · simp only [htop]
    exact ⟨hempty, rfl, rfl, by rw [hlocked]; rfl, fun _ => rfl⟩

theorem withDrawn_succ (hstore : after.keyStore = keys.withDrawn source 1)
    (hdrawn : after.nGenerated = keys.nGenerated + 1) (n : Nat) :
    after.withDrawn source n = keys.withDrawn source (n + 1) := by
  induction n with
  | zero => exact hstore
  | succ n ih =>
    rw [withDrawn, ih, hdrawn, Nat.add_assoc, Nat.add_comm 1 n]
    rfl

/-- The key store of an idle wallet after so many renewals. -/
def storeAfter (source : KeySource) (keys : WalletKeys) (n : Nat) : List CKeyID :=
  if keys.fLocked then keys.keyStore else keys.withDrawn source n

/-- **The pool of an idle wallet** is the same after a renewal. -/
theorem Idle.renewDefaultKey (hidle : keys.Idle source)
    (h : keys.renewDefaultKey source = some after) : after.Idle source ∧ SamePool keys after ∧
      ∀ n, storeAfter source after n = storeAfter source keys (n + 1) := by
  obtain ⟨hempty, hsize | ⟨hsize, hrecord⟩⟩ := hidle
  · obtain ⟨hset, hlocked, hpool, hstore, hdrawn⟩ := renewDefaultKey_of_size_zero hempty hsize h
    refine ⟨⟨hset, .inl (by rw [topUpSize_congr hlocked, hsize])⟩, ⟨by rw [hset, hempty], hpool⟩, ?_⟩
    intro n
    rw [storeAfter, storeAfter, hlocked]
    cases hcase : keys.fLocked with
    | true => simpa [hcase] using hstore
    | false =>
      rw [hcase, if_neg Bool.false_ne_true] at hstore
      exact withDrawn_succ hstore (hdrawn hcase) n
  · obtain ⟨hset, hlocked, hpool, hstore, hdrawn⟩ := renewDefaultKey_of_size_one hempty hsize h
    have hpool : after.pool = keys.pool := by
      rw [hpool]
      exact FinMap.erase_of_notMem hrecord
    refine ⟨⟨hset, .inr ⟨by rw [topUpSize_congr hlocked, hsize], hpool ▸ hrecord⟩⟩,
      ⟨by rw [hset, hempty], hpool⟩, ?_⟩
    intro n
    have hunlocked := (topUpKeyPool_of_size_one hempty hsize).1
    rw [storeAfter, storeAfter, hlocked, hunlocked]
    exact withDrawn_succ hstore hdrawn n

theorem renewLoop_setKeyPool (h : vout.foldlM (renewAt source script) keys = some after) :
    after.fLocked = keys.fLocked ∧
      after.setKeyPool = (drain (keys.topUpSize source))^[paying script vout] keys.setKeyPool := by
  induction vout generalizing keys with
  | nil => cases h; exact ⟨rfl, rfl⟩
  | cons txout vout ih =>
    obtain ⟨mid, hstep, hrest⟩ := OptionLoop.foldlM_cons h
    rw [renewAt] at hstep
    split at hstep
    · rename_i hpays
      obtain ⟨hlocked, hset⟩ := renewDefaultKey_spec hstep
      obtain ⟨hlocked', hset'⟩ := ih hrest
      refine ⟨hlocked'.trans hlocked, ?_⟩
      rw [hset', hset, topUpSize_congr hlocked, ← Function.iterate_succ_apply, paying, paying,
        countP_cons_of_pos (by simpa using hpays)]
    · rename_i hpays
      cases hstep
      obtain ⟨hlocked, hset⟩ := ih hrest
      exact ⟨hlocked, by rw [hset, paying, paying, countP_cons_of_neg (by simpa using hpays)]⟩

theorem renewLoop_of_paying_eq_zero (hnone : paying script vout = 0)
    (h : vout.foldlM (renewAt source script) keys = some after) : after = keys := by
  have hnone : ∀ txout ∈ vout, txout.scriptPubKey ≠ script := by simpa [paying] using hnone
  refine OptionLoop.foldlM_frame id (fun txout hmem keys after hstep => ?_) h
  rw [renewAt, if_neg (hnone txout hmem)] at hstep
  cases hstep
  rfl

theorem Idle.renewLoop (hidle : keys.Idle source)
    (h : vout.foldlM (renewAt source script) keys = some after) :
    SamePool keys after ∧ after.keyStore = storeAfter source keys (paying script vout) := by
  induction vout generalizing keys with
  | nil =>
    cases h
    refine ⟨⟨rfl, rfl⟩, ?_⟩
    rw [storeAfter]
    split <;> rfl
  | cons txout vout ih =>
    obtain ⟨mid, hstep, hrest⟩ := OptionLoop.foldlM_cons h
    rw [renewAt] at hstep
    split at hstep
    · rename_i hpays
      obtain ⟨hmid, hsame, hstore⟩ := hidle.renewDefaultKey hstep
      obtain ⟨hsame', hstore'⟩ := ih hmid hrest
      refine ⟨⟨hsame'.1.trans hsame.1, hsame'.2.trans hsame.2⟩, ?_⟩
      rw [hstore', hstore, paying, paying, countP_cons_of_pos (by simpa using hpays)]
    · rename_i hpays
      cases hstep
      rw [paying, countP_cons_of_neg (by simpa using hpays)]
      exact ih hidle hrest

theorem record_notMem_of_renewLoop (hempty : keys.setKeyPool = ∅)
    (hsize : keys.topUpSize source = 1) (hstart : 0 < paying script vout ∨ 1 ∉ keys.pool)
    (h : vout.foldlM (renewAt source script) keys = some after) : 1 ∉ after.pool := by
  induction vout generalizing keys with
  | nil =>
    cases h
    exact hstart.resolve_left (Nat.lt_irrefl 0)
  | cons txout vout ih =>
    obtain ⟨mid, hstep, hrest⟩ := OptionLoop.foldlM_cons h
    rw [renewAt] at hstep
    split at hstep
    · obtain ⟨hset, hlocked, hpool, -⟩ := renewDefaultKey_of_size_one hempty hsize hstep
      refine ih hset (by rw [topUpSize_congr hlocked, hsize]) (.inr ?_) hrest
      rw [hpool, ExtTreeMap.mem_erase]
      simp
    · rename_i hpays
      cases hstep
      rw [paying, countP_cons_of_neg (by simpa using hpays)] at hstart
      exact ih hempty hsize hstart hrest

/-- **The loop keeps the pool exactly when no output pays the default address or
the wallet is idle.** -/
theorem renewDefaultKeys_samePool_iff (h : keys.renewDefaultKeys source vout = some after) :
    SamePool keys after ↔ paying (keys.scriptDefaultKey source) vout = 0 ∨ keys.Idle source := by
  constructor
  · rintro ⟨hset, hpool⟩
    by_cases hnone : paying (keys.scriptDefaultKey source) vout = 0
    · exact .inl hnone
    · have hrun := (renewLoop_setKeyPool h).2
      obtain ⟨n, hn⟩ := Nat.exists_eq_succ_of_ne_zero hnone
      rw [hset, hn] at hrun
      obtain ⟨hempty, hsize⟩ := iterate_drain_eq hrun.symm
      refine .inr ⟨hempty, ?_⟩
      rcases Nat.le_one_iff_eq_zero_or_eq_one.mp hsize with hsize | hsize
      · exact .inl hsize
      · exact .inr ⟨hsize, hpool ▸ record_notMem_of_renewLoop hempty hsize
          (.inl (Nat.pos_of_ne_zero hnone)) h⟩
  · rintro (hnone | hidle)
    · rw [renewLoop_of_paying_eq_zero hnone h]
      exact ⟨rfl, rfl⟩
    · exact (hidle.renewLoop h).1

theorem renewDefaultKeys_keyStore (h : keys.renewDefaultKeys source vout = some after)
    (hcases : paying (keys.scriptDefaultKey source) vout = 0 ∨ keys.Idle source) :
    after.keyStore = storeAfter source keys (paying (keys.scriptDefaultKey source) vout) := by
  rcases hcases with hnone | hidle
  · rw [renewLoop_of_paying_eq_zero hnone h, hnone, storeAfter]
    split <;> rfl
  · exact (hidle.renewLoop h).2

end WalletKeys

end MaryJaneCoin
