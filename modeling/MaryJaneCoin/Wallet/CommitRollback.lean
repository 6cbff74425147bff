import MaryJaneCoin.Chain.BestChain
import MaryJaneCoin.Wallet.SpentFlags

/-!
# A commit that the memory pool refuses

`CommitTransaction` records the transaction, keeps the reserved key and marks the
inputs before it asks the memory pool, and takes nothing back when the pool says
no.  So a refused commit leaves the wallet as it was only where all of it was
recorded before.
-/

namespace MaryJaneCoin

open Std StoredTx WalletMap WalletKeys

namespace CWalletState

variable {H : Type} [Ord H] [TransOrd H]

/-- The wallet as before: the entries, the spent flag of each output, the key pool,
and the number that is reserved from it. -/
def Unchanged (wallet : CWalletState H) (reservekey : CReserveKey) (after : CWalletState H)
    (reservekey' : CReserveKey) : Prop :=
  info after.mapWallet = info wallet.mapWallet ∧
    (∀ hash i, SpentAt after.mapWallet hash i ↔ SpentAt wallet.mapWallet hash i) ∧
    SamePool wallet.keys after.keys ∧ reservekey'.nIndex = reservekey.nIndex

/-- The key store once the default key is renewed for the outputs that pay it. -/
def storeFor (world : WalletWorld H) (wallet : CWalletState H) (vout : List CTxOut) : List CKeyID :=
  if world.qtGui then wallet.keys.keyStore
  else storeAfter world.toKeySource wallet.keys
    (paying (wallet.keys.scriptDefaultKey world.toKeySource) vout)

variable [DecidableEq H] (world : WalletWorld H)

/-- The merge changes nothing, or the changed entry can be written. -/
def Saved (sha : Sha256 H) (wtxNew wtx : StoredTx H) : Prop :=
  (merge sha wtxNew wtx).1 = true → world.writeTx (merge sha wtxNew wtx).2 = true

/-- `WalletUpdateSpent` takes the mark from the output: the transaction comes in a
block and the output is the wallet's own. -/
def Resets (sha : Sha256 H) (wallet : CWalletState H) (wtxNew wtx : StoredTx H) (i : Nat) : Prop :=
  Saved world sha wtxNew wtx ∧ wtxNew.hashBlock ≠ sha.zero ∧
    OwnOutput (world.isMine (wallet.storeFor world wtx.vout)) wtx.vout i

/-- **All that a commit records is recorded already**, in the entry `wtx`: no key
is reserved, the entry is there with the same block and origin, what the
transaction spends is marked, the other flags of the entry are those that the
merge gives, and the default key is renewed from an idle pool, if at all. -/
structure RecordedAs (sha : Sha256 H) (wallet : CWalletState H) (reservekey : CReserveKey)
    (wtxNew wtx : StoredTx H) : Prop where
  unreserved : reservekey.nIndex = none
  found : wallet.mapWallet[wtxNew.getHash sha]? = some wtx
  sameOrigin : SameOrigin sha wtxNew wtx
  spent : ∀ hash i, Spends wtxNew.vin hash i → SpentAt wallet.mapWallet hash i
  learned : ∀ i < wtx.vout.length, ¬Spends wtxNew.vin (wtxNew.getHash sha) i →
    Learns wtxNew wtx i → Resets world sha wallet wtxNew wtx i
  reset : ∀ i < wtx.vout.length, ¬Spends wtxNew.vin (wtxNew.getHash sha) i →
    Resets world sha wallet wtxNew wtx i → wtx.isSpent i = false
  pool : Saved world sha wtxNew wtx → world.qtGui = true ∨
    paying (wallet.keys.scriptDefaultKey world.toKeySource) wtx.vout = 0 ∨
    wallet.keys.Idle world.toKeySource

/-- All that a commit records is recorded already. -/
def Recorded (sha : Sha256 H) (wallet : CWalletState H) (reservekey : CReserveKey)
    (wtxNew : StoredTx H) : Prop :=
  ∃ wtx, RecordedAs world sha wallet reservekey wtxNew wtx

/-- Nothing but the transaction itself is stored under its hash. -/
def NamedByHash (sha : Sha256 H) (wallet : CWalletState H) (wtxNew : StoredTx H) : Prop :=
  ∀ wtx, wallet.mapWallet[wtxNew.getHash sha]? = some wtx →
    wtx.toCTransaction = wtxNew.toCTransaction

/-- The keys after the loop for the default key. -/
def renewed (keys : WalletKeys) (vout : List CTxOut) : Option WalletKeys :=
  if world.qtGui then some keys else keys.renewDefaultKeys world.toKeySource vout

variable {world} {wallet after : CWalletState H} {sha : Sha256 H} {hash : H} {wtx wtxNew : StoredTx H}
  {fChanged fBlock fResult : Bool} {keys keys' : WalletKeys} {vout : List CTxOut}

omit [Ord H] [TransOrd H] [DecidableEq H] in
theorem renewed_samePool_iff (h : renewed world keys vout = some keys') :
    SamePool keys keys' ↔ world.qtGui = true ∨
      paying (keys.scriptDefaultKey world.toKeySource) vout = 0 ∨ keys.Idle world.toKeySource := by
  rw [renewed] at h
  split at h
  · rename_i hqt
    cases h
    exact ⟨fun _ => .inl hqt, fun _ => ⟨rfl, rfl⟩⟩
  · rename_i hqt
    rw [renewDefaultKeys_samePool_iff h]
    exact ⟨.inr, fun hor => hor.resolve_left hqt⟩

omit [TransOrd H] [DecidableEq H] in
theorem renewed_keyStore (h : renewed world wallet.keys vout = some keys')
    (hsame : SamePool wallet.keys keys') : keys'.keyStore = wallet.storeFor world vout := by
  have hcases := (renewed_samePool_iff h).mp hsame
  rw [renewed] at h
  rw [storeFor]
  split at h
  · rename_i hqt
    cases h
    rw [if_pos hqt]
  · rename_i hqt
    rw [if_neg hqt]
    exact renewDefaultKeys_keyStore h (hcases.resolve_left hqt)

variable [LawfulEqOrd H]

omit [DecidableEq H] in
/-- **What `AddToWallet` leaves** after the entry is in the map. -/
theorem entryAdded_spec (h : entryAdded world sha wallet hash wtx fChanged fBlock = some (fResult, after)) :
    info after.mapWallet = info (wallet.mapWallet.insert hash wtx) ∧
    (((fChanged = true → world.writeTx wtx = true) ∧ renewed world wallet.keys wtx.vout = some after.keys ∧
      ∀ hash' i, Spends wtx.vin hash' i ∨ (SpentAt after.mapWallet hash' i ↔
        SpentAt (wallet.mapWallet.insert hash wtx) hash' i ∧ ¬(fBlock = true ∧
            wtx.getHash sha = hash' ∧ OwnOutput (world.isMine after.keys.keyStore) wtx.vout i))) ∨
    ((fChanged = true ∧ world.writeTx wtx = false) ∧ after.keys = wallet.keys ∧
      after.mapWallet = wallet.mapWallet.insert hash wtx)) := by
  rw [entryAdded] at h
  split at h
  · rename_i hfailed
    cases h
    exact ⟨rfl, .inr ⟨by simpa using hfailed, rfl, rfl⟩⟩
  · rename_i hwritten
    obtain ⟨keys, hkeys, hupdate⟩ := Option.bind_eq_some_iff.mp h
    obtain ⟨mapWallet, hmap, hafter⟩ := Option.map_eq_some_iff.mp hupdate
    cases hafter
    obtain ⟨hinfo, hspent⟩ := walletUpdateSpent_spec hmap
    exact ⟨hinfo, .inl ⟨by simpa using hwritten, hkeys, hspent⟩⟩

theorem addToWallet_new (hnew : wallet.mapWallet[wtxNew.getHash sha]? = none)
    (h : addToWallet world sha wallet wtxNew = some (fResult, after)) :
    info after.mapWallet (wtxNew.getHash sha) ≠ none := by
  rw [addToWallet, hnew] at h
  rw [(entryAdded_spec h).1, info, ExtTreeMap.getElem?_insert_self]
  exact Option.some_ne_none _

/-- **What `AddToWallet` leaves of an entry that is there**, up to the marks of
what the transaction spends. -/
theorem addToWallet_found (hwtx : wallet.mapWallet[wtxNew.getHash sha]? = some wtx)
    (hsame : wtx.toCTransaction = wtxNew.toCTransaction)
    (h : addToWallet world sha wallet wtxNew = some (fResult, after)) : info after.mapWallet =
    info (wallet.mapWallet.insert (wtxNew.getHash sha) (merge sha wtxNew wtx).2) ∧
    (Saved world sha wtxNew wtx → renewed world wallet.keys wtx.vout = some after.keys) ∧
    (¬Saved world sha wtxNew wtx → after.keys = wallet.keys) ∧
    ∀ hash' i, Spends wtxNew.vin hash' i ∨ (SpentAt after.mapWallet hash' i ↔
      SpentAt (wallet.mapWallet.insert (wtxNew.getHash sha) (merge sha wtxNew wtx).2) hash' i ∧
        ¬(Saved world sha wtxNew wtx ∧ wtxNew.hashBlock ≠ sha.zero ∧ wtxNew.getHash sha = hash' ∧
          OwnOutput (world.isMine after.keys.keyStore) wtx.vout i)) := by
  rw [addToWallet, hwtx] at h
  obtain ⟨hinfo, hcases⟩ := entryAdded_spec h
  refine ⟨hinfo, ?_⟩
  rcases hcases with ⟨hsaved, hkeys, hspent⟩ | ⟨hfailed, hkeys, hmap⟩
  · refine ⟨fun _ => hkeys, fun hnot => absurd hsaved hnot, fun hash' i => ?_⟩
    have hvin : wtx.vin = wtxNew.vin := congrArg CTransaction.vin hsame
    have hname : wtx.getHash sha = wtxNew.getHash sha := congrArg (CTransaction.getHash sha) hsame
    have hat := hspent hash' i
    simp only [merge_toCTransaction, hvin, hname, bne_iff_ne] at hat
    refine hat.imp id fun heq => heq.trans ?_
    have hsaved : Saved world sha wtxNew wtx := hsaved
    tauto
  · have hnot : ¬Saved world sha wtxNew wtx := fun hsaved => by
      have hwrite := hsaved hfailed.1
      rw [hfailed.2] at hwrite
      cases hwrite
    refine ⟨fun hsaved => absurd hsaved hnot, fun _ => hkeys, fun hash' i => .inr ?_⟩
    rw [hmap]
    tauto

theorem addToWallet_flags (hwtx : wallet.mapWallet[wtxNew.getHash sha]? = some wtx)
    (hsame : wtx.toCTransaction = wtxNew.toCTransaction)
    (h : addToWallet world sha wallet wtxNew = some (fResult, after))
    (hpool : Saved world sha wtxNew wtx → SamePool wallet.keys after.keys) {i : Nat}
    (hlt : i < wtx.vout.length) (hfree : ¬Spends wtxNew.vin (wtxNew.getHash sha) i) :
    SpentAt after.mapWallet (wtxNew.getHash sha) i ↔
      (wtx.isSpent i = true ∨ Learns wtxNew wtx i) ∧ ¬Resets world sha wallet wtxNew wtx i := by
  obtain ⟨-, hkeys, -, hspent⟩ := addToWallet_found hwtx hsame h
  rw [(hspent _ i).resolve_left hfree, spentAt_insert_self, isSpent_merge, merge_toCTransaction]
  by_cases hsaved : Saved world sha wtxNew wtx
  · rw [renewed_keyStore (hkeys hsaved) (hpool hsaved), Resets]
    simp [hlt]
  · simp [Resets, hsaved, hlt]

/-- A commit without its question to the memory pool. -/
theorem record_unchanged_iff {mid : CWalletState H} {mapWallet : WalletMap H}
    {reservekey reservekey' : CReserveKey} (hnamed : NamedByHash sha wallet wtxNew)
    (hreserve : wallet.keys.keepReserved reservekey = (keys, reservekey'))
    (hadd : addToWallet world sha { wallet with keys := keys } wtxNew = some (fResult, mid))
    (hmark : wtxNew.vin.foldlM markInput mid.mapWallet = some mapWallet) :
    Unchanged wallet reservekey { mid with mapWallet := mapWallet } reservekey' ↔
      Recorded world sha wallet reservekey wtxNew := by
  obtain ⟨hinfo, hspent⟩ := markInputs_spec hmark
  have hkept : reservekey'.nIndex = none := by
    rw [keepReserved] at hreserve
    cases hreserve
    rfl
  constructor
  · rintro ⟨hinfo', hspent', hpool, hindex⟩
    -- With no key reserved, the keys that `AddToWallet` finds are those of the wallet.
    have hunreserved : reservekey.nIndex = none := hindex ▸ hkept
    obtain rfl : keys = wallet.keys := by
      rw [keepReserved, hunreserved] at hreserve
      cases hreserve
      rfl
    cases hwtx : wallet.mapWallet[wtxNew.getHash sha]? with
    | none =>
      have hsome := addToWallet_new hwtx hadd
      rw [← hinfo, hinfo', info, hwtx] at hsome
      exact absurd rfl hsome
    | some wtx =>
      have hsame := hnamed wtx hwtx
      obtain ⟨hmerged, hkeys, -, -⟩ := addToWallet_found hwtx hsame hadd
      have hpool' : Saved world sha wtxNew wtx → SamePool wallet.keys mid.keys := fun _ => hpool
      have hflags : ∀ i < wtx.vout.length, ¬Spends wtxNew.vin (wtxNew.getHash sha) i →
          (wtx.isSpent i = true ↔ (wtx.isSpent i = true ∨ Learns wtxNew wtx i) ∧
            ¬Resets world sha wallet wtxNew wtx i) := by
        intro i hlt hfree
        have hmarked := hspent (wtxNew.getHash sha) i
        rw [or_iff_right hfree] at hmarked
        rw [← addToWallet_flags hwtx hsame hadd hpool' hlt hfree, ← hmarked, hspent',
          spentAt_of_getElem? hwtx]
        exact ⟨fun hflag => ⟨hlt, hflag⟩, And.right⟩
      refine ⟨wtx, hunreserved, hwtx, ?_, ?_, ?_, ?_, ?_⟩
      · refine (forgetFlags_merge_iff).mp ?_
        have hat := congrFun ((hinfo.symm.trans hinfo').symm.trans hmerged) (wtxNew.getHash sha)
        rw [info, info, hwtx, ExtTreeMap.getElem?_insert_self] at hat
        exact (Option.some.inj hat).symm
      · exact fun hash i hspends => (hspent' hash i).mp ((hspent hash i).mpr (.inl hspends))
      · intro i hlt hfree hlearns
        have hold : wtx.isSpent i = false := by rw [isSpent, hlearns.2]; rfl
        by_contra hkeep
        have hflag := (hflags i hlt hfree).mpr ⟨.inr hlearns, hkeep⟩
        rw [hold] at hflag
        cases hflag
      · intro i hlt hfree hreset
        by_contra hflag
        exact ((hflags i hlt hfree).mp (by simpa using hflag)).2 hreset
      · exact fun hsaved => (renewed_samePool_iff (hkeys hsaved)).mp hpool
  · rintro ⟨wtx, hrec⟩
    obtain rfl : keys = wallet.keys := by
      rw [keepReserved, hrec.unreserved] at hreserve
      cases hreserve
      rfl
    have hsame := hnamed wtx hrec.found
    obtain ⟨hmerged, hkeys, hkeep, hflags⟩ := addToWallet_found hrec.found hsame hadd
    have hpool : SamePool wallet.keys mid.keys := by
      by_cases hsaved : Saved world sha wtxNew wtx
      · exact (renewed_samePool_iff (hkeys hsaved)).mpr (hrec.pool hsaved)
      · rw [hkeep hsaved]
        exact ⟨rfl, rfl⟩
    refine ⟨?_, fun hash i => ?_, hpool, by rw [hkept, hrec.unreserved]⟩
    · rw [hinfo, hmerged]
      exact info_insert hrec.found (forgetFlags_merge_iff.mpr hrec.sameOrigin)
    · rw [hspent]
      by_cases hspends : Spends wtxNew.vin hash i
      · exact ⟨fun _ => hrec.spent hash i hspends, fun _ => .inl hspends⟩
      rw [or_iff_right hspends]
      by_cases hhash : wtxNew.getHash sha = hash
      · subst hhash
        by_cases hlt : i < wtx.vout.length
        · rw [addToWallet_flags hrec.found hsame hadd (fun _ => hpool) hlt hspends,
            spentAt_of_getElem? hrec.found]
          have hlearned := hrec.learned i hlt hspends
          have hreset := hrec.reset i hlt hspends
          cases hflag : wtx.isSpent i with
          | true =>
            rw [hflag] at hreset
            simp only [true_or, true_and, and_true, hlt, iff_true]
            exact fun hreset' => Bool.noConfusion (hreset hreset')
          | false => simpa using hlearned
        · rw [(hflags _ i).resolve_left hspends, spentAt_insert_self, merge_toCTransaction,
            spentAt_of_getElem? hrec.found]
          simp [hlt]
      · rw [(hflags hash i).resolve_left hspends, spentAt_insert_ne hhash]
        simp [hhash]

section

variable {c : Consensus H} {pool pool' : CTxMemPool H} {s : Node H} {env : Env H}
  {policy : RelayPolicy H} {reservekey reservekey' : CReserveKey} {fAccepted : Bool}

section

variable (h : commitTransaction world c wallet pool s env policy wtxNew reservekey =
  some (fAccepted, after, reservekey', pool'))
include h

omit [LawfulEqOrd H] in
/-- **The steps of a commit**: the reserved key is kept, the transaction added and
its inputs marked, whatever the memory pool says. -/
theorem commitTransaction_cases :
    ∃ keys fResult mid mapWallet, wallet.keys.keepReserved reservekey = (keys, reservekey') ∧
      addToWallet world c.toSha256 { wallet with keys := keys } wtxNew = some (fResult, mid) ∧
      wtxNew.vin.foldlM markInput mid.mapWallet = some mapWallet ∧
      after = { mid with mapWallet := mapWallet } ∧
      fAccepted = (pool.accept c s env policy wtxNew.toCTransaction true).1 := by
  obtain ⟨⟨fResult, mid⟩, hadd, hrest⟩ := Option.bind_eq_some_iff.mp h
  obtain ⟨mapWallet, hmark, hresult⟩ := Option.map_eq_some_iff.mp hrest
  cases hresult
  exact ⟨_, fResult, mid, mapWallet, rfl, hadd, hmark, rfl, rfl⟩

theorem commitTransaction_spends {hash : H} {i : Nat}
    (hspends : Spends wtxNew.vin hash i) : SpentAt after.mapWallet hash i := by
  obtain ⟨keys, fResult, mid, mapWallet, -, -, hmark, rfl, -⟩ := commitTransaction_cases h
  exact ((markInputs_spec hmark).2 hash i).mpr (.inl hspends)

end

/-- **When a refused commit leaves the wallet as it was.**  The wallet map, the
spent flags and the key pool are as before every commit that returns false exactly
when the memory pool accepts the transaction, so that false is not returned, or
when all that the commit records was recorded before. -/
theorem refused_commit_unchanged_iff (hnamed : NamedByHash c.toSha256 wallet wtxNew)
    (h : commitTransaction world c wallet pool s env policy wtxNew reservekey =
      some (fAccepted, after, reservekey', pool')) :
    (fAccepted = false → Unchanged wallet reservekey after reservekey') ↔
      (pool.accept c s env policy wtxNew.toCTransaction true).1 = true ∨
        Recorded world c.toSha256 wallet reservekey wtxNew := by
  obtain ⟨keys, fResult, mid, mapWallet, hreserve, hadd, hmark, rfl, haccepted⟩ := commitTransaction_cases h
  rw [record_unchanged_iff hnamed hreserve hadd hmark, haccepted]
  cases (pool.accept c s env policy wtxNew.toCTransaction true).1 with
  | true => exact ⟨fun _ => .inl rfl, fun _ hfalse => Bool.noConfusion hfalse⟩
  | false => exact ⟨fun hrec => .inr (hrec rfl), fun hor _ => hor.resolve_left Bool.false_ne_true⟩

end

/-- A transaction as `CreateTransaction` leaves it: in no block, of the wallet's own. -/
def ownTx (tx : CTransaction (List Nat)) : StoredTx (List Nat) where
  toCTransaction := tx
  hashBlock := transparent.zero
  vMerkleBranch := []
  nIndex := -1
  nTimeReceived := 0
  nTimeSmart := 0
  fFromMe := true
  vfSpent := []
  nOrderPos := -1

/-- A coin of the wallet, and two transactions that spend it. -/
def coinTx : CTransaction (List Nat) := samplePayment 1 ⟨[7], 0⟩ [⟨100 * COIN, payTo 1⟩]

def sendTx (nTime : UInt32) : CTransaction (List Nat) :=
  samplePayment nTime ⟨coinTx.getHash transparent, 0⟩ [⟨99 * COIN, payTo 2⟩]

/-- A wallet with that coin and the key 1. -/
def coinWallet : CWalletState (List Nat) where
  mapWallet := (∅ : WalletMap (List Nat)).insert (coinTx.getHash transparent) (ownTx coinTx)
  keys := ⟨[Vector.replicate 20 1], 0, false, ∅, ∅, []⟩
  nOrderPosNext := 1

def coinWorld : WalletWorld (List Nat) where
  newKey _ := List.replicate 33 2
  getID vchPubKey := Vector.replicate 20 (vchPubKey.headD 0)
  nTargetSize := 1
  qtGui := false
  isMine _ script := script == payTo 1
  writeTx _ := true
  adjustedTime := 5
  blockTime _ := none
  acentries := []

/-- A memory pool that holds the first spend. -/
def rivalPool : CTxMemPool (List Nat) :=
  CTxMemPool.empty.addUnchecked ((sendTx 2).getHash transparent) (sendTx 2)

def coinNode : Node (List Nat) := Node.genesis sampleConsensus sampleGenesis

/-- The commit of the second spend. -/
def rivalCommit : Option (Bool × CWalletState (List Nat) × CReserveKey × CTxMemPool (List Nat)) :=
  commitTransaction coinWorld sampleConsensus coinWallet rivalPool coinNode
    (sampleEnv 0) sampleRelay (ownTx (sendTx 3)) ⟨none, []⟩

theorem coinWallet_named : NamedByHash sampleConsensus.toSha256 coinWallet (ownTx (sendTx 3)) := by
  intro wtx hwtx
  have hnone : (coinWallet.mapWallet[(ownTx (sendTx 3)).getHash
      sampleConsensus.toSha256]?).isNone = true := by decide +kernel
  rw [hwtx] at hnone
  cases hnone

/-- The second spend changes the wallet unless it is accepted or recorded. -/
theorem refused_commit_unchanged_iff_rival :
    ∃ fAccepted after reservekey' pool', rivalCommit = some (fAccepted, after, reservekey', pool') ∧
      ((fAccepted = false → Unchanged coinWallet ⟨none, []⟩ after reservekey') ↔
        (rivalPool.accept sampleConsensus coinNode (sampleEnv 0) sampleRelay
          (ownTx (sendTx 3)).toCTransaction true).1 = true ∨
        Recorded coinWorld sampleConsensus.toSha256 coinWallet ⟨none, []⟩ (ownTx (sendTx 3))) := by
  have hreturns : rivalCommit.isSome = true := by decide +kernel
  obtain ⟨⟨fAccepted, after, reservekey', pool'⟩, h⟩ := Option.isSome_iff_exists.mp hreturns
  exact ⟨fAccepted, after, reservekey', pool', h, refused_commit_unchanged_iff coinWallet_named h⟩

/-- **A refused send locks the coin.**  The commit returns false, and the coin that
could be spent before is marked spent. -/
theorem refused_send_spends_coin :
    ∃ after reservekey' pool', rivalCommit = some (false, after, reservekey', pool') ∧
      ¬SpentAt coinWallet.mapWallet (coinTx.getHash transparent) 0 ∧
      SpentAt after.mapWallet (coinTx.getHash transparent) 0 ∧
      ¬Unchanged coinWallet ⟨none, []⟩ after reservekey' := by
  have hrefused : (rivalCommit.map fun result => result.1) = some false := by decide +kernel
  obtain ⟨⟨fAccepted, after, reservekey', pool'⟩, h, hfalse⟩ := Option.map_eq_some_iff.mp hrefused
  cases hfalse
  have hspent : SpentAt after.mapWallet (coinTx.getHash transparent) 0 :=
    commitTransaction_spends h ⟨_, List.mem_singleton_self _, rfl, rfl⟩
  have hfree : ¬SpentAt coinWallet.mapWallet (coinTx.getHash transparent) 0 := by
    rw [SpentAt, coinWallet]
    simp [isSpent, ownTx]
  exact ⟨after, reservekey', pool', h, hfree, hspent, fun hsame => hfree ((hsame.2.1 _ _).mp hspent)⟩

end CWalletState

end MaryJaneCoin
