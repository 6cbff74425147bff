import Std.Data.ExtTreeSet.Lemmas

/-!
# The Dandelion router

`CDandelionRouter` decides for a transaction whether it is passed on in secret, to
one stem peer, or announced to everybody.  The clock and the random numbers, of
which `GetRand` takes the remainder, come with each call.
-/

namespace MaryJaneCoin

open Std ExtTreeMap

def DANDELION_EPOCH_SECONDS : Int := 600
def DANDELION_STEM_PEERS : Nat := 2
/-- `(uint64_t)(DANDELION_FLUFF_PROBABILITY * 100.0 + 0.5)`. -/
def DANDELION_FLUFF_PERCENT : Nat := 10
def DANDELION_EMBARGO_SECONDS : Int := 30
def DANDELION_MAX_STEM_HOPS : Int := 10

inductive DandelionPhase where
  | DANDELION_STEM
  | DANDELION_FLUFF
deriving DecidableEq

/-- `CDandelionTx`, which is stored under its hash. -/
structure CDandelionTx where
  phase : DandelionPhase
  nTimeStemStart : Int
  stemHops : Int
  isOurTx : Bool
deriving DecidableEq

/-- `CNode`, as far as the router and the relay read it, with bloom filters `φ`.  Of the
inventory the transactions are looked at. -/
structure CNode (H φ : Type) where
  fInbound : Bool
  fSuccessfullyConnected : Bool
  fDisconnect : Bool
  fRelayTxes : Bool
  pfilter : Option φ
  setInventoryKnown : List H
  vInventoryToSend : List H

/-- `CDandelionRouter`.  A `CNode*` is a name `ν`, and stays one when the peer has gone. -/
structure CDandelionRouter (H ν : Type) [Ord H] where
  nEpochStart : Int
  vStemPeers : List ν
  mapStemTxs : ExtTreeMap H CDandelionTx
  setFluffedTxs : ExtTreeSet H

/-- What a call finds outside: the clock, the peers in the order of `vNodes`, the
random numbers and how a hash selects a peer. -/
structure RouterEnv (H ν φ : Type) where
  nNow : Int
  vNodes : List (ν × CNode H φ)
  rand : Nat → Nat
  /-- The first eight bytes of the hash. -/
  selector : H → Nat

namespace CDandelionRouter

variable {H ν φ : Type} [Ord H] [TransOrd H]

def getRand (nRand nMax : Nat) : Nat := nRand % nMax

/-- The peers that may become stem peers. -/
def candidates (vNodes : List (ν × CNode H φ)) : List ν :=
  (vNodes.filter fun (_, pnode) =>
    !pnode.fInbound && pnode.fSuccessfullyConnected && !pnode.fDisconnect).map Prod.fst

/-- The picks that are left, with the random number of each.  A pick changes places
with the first candidate that is left. -/
def pickPeers (rand : Nat → Nat) : Nat → Nat → List ν → List ν
  | 0, _, _ => []
  | _ + 1, _, [] => []
  | nPick + 1, i, first :: rest =>
    let vCandidates := first :: rest
    let j := getRand (rand i) vCandidates.length
    vCandidates[j]?.getD first :: pickPeers rand nPick (i + 1) (vCandidates.set j first).tail

def selectStemPeers (env : RouterEnv H ν φ) (router : CDandelionRouter H ν) : CDandelionRouter H ν :=
  let vCandidates := candidates env.vNodes
  { router with
    vStemPeers := pickPeers env.rand (min vCandidates.length DANDELION_STEM_PEERS) 0 vCandidates }

def maybeRotateEpoch (env : RouterEnv H ν φ) (router : CDandelionRouter H ν) : CDandelionRouter H ν :=
  if router.nEpochStart = 0 ∨ env.nNow - router.nEpochStart ≥ DANDELION_EPOCH_SECONDS then
    selectStemPeers env { router with nEpochStart := env.nNow }
  else router

def addLocalTx (env : RouterEnv H ν φ) (router : CDandelionRouter H ν) (txHash : H) :
    CDandelionRouter H ν :=
  let router := router.maybeRotateEpoch env
  if router.setFluffedTxs.contains txHash || router.mapStemTxs.contains txHash then router
  else { router with
         mapStemTxs := router.mapStemTxs.insert txHash ⟨.DANDELION_STEM, env.nNow, 0, true⟩ }

def addStemTx (env : RouterEnv H ν φ) (router : CDandelionRouter H ν) (txHash : H) (hops : Int) :
    CDandelionRouter H ν :=
  let router := router.maybeRotateEpoch env
  if router.setFluffedTxs.contains txHash then router
  else
    match router.mapStemTxs[txHash]? with
    | some dtx =>
      if hops > dtx.stemHops then
        { router with mapStemTxs := router.mapStemTxs.insert txHash { dtx with stemHops := hops } }
      else router
    | none =>
      { router with
        mapStemTxs := router.mapStemTxs.insert txHash ⟨.DANDELION_STEM, env.nNow, hops, false⟩ }

def markFluffed (router : CDandelionRouter H ν) (txHash : H) : CDandelionRouter H ν :=
  { router with
    mapStemTxs := router.mapStemTxs.erase txHash
    setFluffedTxs := router.setFluffedTxs.insert txHash }

def isStemPhase (router : CDandelionRouter H ν) (txHash : H) : Bool :=
  !router.setFluffedTxs.contains txHash &&
    router.mapStemTxs[txHash]?.any fun dtx => dtx.phase == .DANDELION_STEM

/-- `GetStemPeer`: none for `NULL`. -/
def getStemPeer (env : RouterEnv H ν φ) (router : CDandelionRouter H ν) (txHash : H) :
    Option ν × CDandelionRouter H ν :=
  let router := router.maybeRotateEpoch env
  (router.vStemPeers[env.selector txHash % router.vStemPeers.length]?, router)

def getEmbargoedTxs (nNow : Int) (router : CDandelionRouter H ν) : List H :=
  (router.mapStemTxs.toList.filter fun (_, dtx) =>
    dtx.nTimeStemStart ≤ nNow - DANDELION_EMBARGO_SECONDS).map Prod.fst

/-- `ShouldFluff`, with the random number that it draws. -/
def shouldFluff (router : CDandelionRouter H ν) (nRand : Nat) (txHash : H) : Bool :=
  router.vStemPeers.isEmpty ||
    (router.mapStemTxs[txHash]?.any fun dtx => dtx.stemHops ≥ DANDELION_MAX_STEM_HOPS) ||
    getRand nRand 100 < DANDELION_FLUFF_PERCENT

variable {env : RouterEnv H ν φ} {router : CDandelionRouter H ν} {txHash : H} {hops : Int}

omit [TransOrd H] in
theorem maybeRotateEpoch_mapStemTxs : (router.maybeRotateEpoch env).mapStemTxs = router.mapStemTxs := by
  rw [maybeRotateEpoch]
  split <;> rfl

omit [TransOrd H] in
theorem maybeRotateEpoch_setFluffedTxs :
    (router.maybeRotateEpoch env).setFluffedTxs = router.setFluffedTxs := by
  rw [maybeRotateEpoch]
  split <;> rfl

/-- The transaction is in `mapStemTxs` and not in `setFluffedTxs`. -/
def InStem (router : CDandelionRouter H ν) (txHash : H) : Prop :=
  txHash ∈ router.mapStemTxs ∧ txHash ∉ router.setFluffedTxs

/-- Whatever is in `mapStemTxs` is in the stem phase. -/
def AllStem (router : CDandelionRouter H ν) : Prop :=
  ∀ (txHash : H) (dtx : CDandelionTx), router.mapStemTxs[txHash]? = some dtx → dtx.phase = .DANDELION_STEM

theorem isStemPhase_iff (hall : router.AllStem) : router.isStemPhase txHash = true ↔
    router.InStem txHash := by
  rw [isStemPhase, Bool.and_eq_true, Bool.not_eq_true', ← Bool.not_eq_true,
    ExtTreeSet.contains_iff_mem, InStem, and_comm]
  refine and_congr_left fun _ => ?_
  rw [mem_iff_isSome_getElem?]
  cases hdtx : router.mapStemTxs[txHash]? with
  | none => simp
  | some dtx => simp [hall txHash dtx hdtx]

variable {router' : CDandelionRouter H ν}

theorem inStem_congr (hmap : router'.mapStemTxs = router.mapStemTxs)
    (hset : router'.setFluffedTxs = router.setFluffedTxs) : router'.InStem txHash ↔ router.InStem txHash := by
  rw [InStem, InStem, hmap, hset]

theorem allStem_congr (hmap : router'.mapStemTxs = router.mapStemTxs)
    (hall : router.AllStem) : router'.AllStem := by
  rw [AllStem, hmap]
  exact hall

variable [LawfulEqOrd H] {hash : H}

theorem inStem_markFluffed :
    (router.markFluffed txHash).InStem hash ↔ hash ≠ txHash ∧ router.InStem hash := by
  rw [InStem, InStem, markFluffed, mem_erase, ExtTreeSet.mem_insert]
  simp only [Std.compare_eq_iff_eq, not_or]
  grind

omit [LawfulEqOrd H] in
theorem allStem_markFluffed (hall : router.AllStem) : (router.markFluffed txHash).AllStem := by
  intro hash dtx hdtx
  rw [markFluffed, getElem?_erase] at hdtx
  split at hdtx
  · cases hdtx
  · exact hall hash dtx hdtx

/-- What is put into `mapStemTxs` is in the stem phase, and only the transaction itself
enters it. -/
theorem insert_stem {dtx : CDandelionTx} (hphase : dtx.phase = .DANDELION_STEM) (hall : router.AllStem) :
    let after := { router with mapStemTxs := router.mapStemTxs.insert txHash dtx }
    after.AllStem ∧ (after.InStem hash → hash = txHash ∨ router.InStem hash) := by
  constructor
  · intro hash dtx' hdtx
    rw [getElem?_insert] at hdtx
    split at hdtx
    · cases hdtx
      exact hphase
    · exact hall hash dtx' hdtx
  · rintro ⟨hmem, hset⟩
    rw [mem_insert] at hmem
    exact hmem.imp (fun heq => (LawfulEqCmp.eq_of_compare heq).symm) fun hold => ⟨hold, hset⟩

omit [LawfulEqOrd H] in
theorem inStem_maybeRotateEpoch : (router.maybeRotateEpoch env).InStem hash ↔ router.InStem hash :=
  inStem_congr maybeRotateEpoch_mapStemTxs maybeRotateEpoch_setFluffedTxs

omit [LawfulEqOrd H] in
theorem allStem_maybeRotateEpoch (hall : router.AllStem) : (router.maybeRotateEpoch env).AllStem :=
  allStem_congr maybeRotateEpoch_mapStemTxs hall

theorem addLocalTx_stem (hall : router.AllStem) : (router.addLocalTx env txHash).AllStem ∧
      ((router.addLocalTx env txHash).InStem hash → hash = txHash ∨ router.InStem hash) := by
  have hrotated : (router.maybeRotateEpoch env).AllStem := allStem_maybeRotateEpoch hall
  rw [← @inStem_maybeRotateEpoch _ _ _ _ _ env router hash, addLocalTx]
  split
  · exact ⟨hrotated, .inr⟩
  · exact insert_stem rfl hrotated

theorem addStemTx_stem (hall : router.AllStem) : (router.addStemTx env txHash hops).AllStem ∧
      ((router.addStemTx env txHash hops).InStem hash → hash = txHash ∨ router.InStem hash) := by
  have hrotated : (router.maybeRotateEpoch env).AllStem := allStem_maybeRotateEpoch hall
  rw [← @inStem_maybeRotateEpoch _ _ _ _ _ env router hash, addStemTx]
  split
  · exact ⟨hrotated, .inr⟩
  · split
    · rename_i dtx hdtx
      split
      · exact insert_stem (hrotated txHash dtx hdtx) hrotated
      · exact ⟨hrotated, .inr⟩
    · exact insert_stem rfl hrotated

theorem mem_markFluffed : hash ∈ (router.markFluffed txHash).setFluffedTxs ↔
    txHash = hash ∨ hash ∈ router.setFluffedTxs := by
  rw [markFluffed, ExtTreeSet.mem_insert, Std.compare_eq_iff_eq]

section

omit [LawfulEqOrd H]

theorem addLocalTx_setFluffedTxs : (router.addLocalTx env txHash).setFluffedTxs = router.setFluffedTxs := by
  rw [addLocalTx]
  split <;> exact maybeRotateEpoch_setFluffedTxs

theorem addStemTx_setFluffedTxs :
    (router.addStemTx env txHash hops).setFluffedTxs = router.setFluffedTxs := by
  rw [addStemTx]
  split
  · exact maybeRotateEpoch_setFluffedTxs
  · split
    · split <;> exact maybeRotateEpoch_setFluffedTxs
    · exact maybeRotateEpoch_setFluffedTxs

theorem inStem_addStemTx (hnot : txHash ∉ router.setFluffedTxs) :
    (router.addStemTx env txHash hops).InStem txHash := by
  refine ⟨?_, by rwa [addStemTx_setFluffedTxs]⟩
  have hcontains : (router.maybeRotateEpoch env).setFluffedTxs.contains txHash = false := by
    rw [maybeRotateEpoch_setFluffedTxs, ← Bool.not_eq_true, ExtTreeSet.contains_iff_mem]
    exact hnot
  rw [addStemTx]
  simp only [hcontains, Bool.false_eq_true, if_false]
  cases hdtx : (router.maybeRotateEpoch env).mapStemTxs[txHash]? with
  | none => exact mem_insert_self
  | some dtx =>
    dsimp only
    split
    · exact mem_insert_self
    · exact mem_iff_isSome_getElem?.mpr (by rw [hdtx]; rfl)

end

section

omit [TransOrd H] [LawfulEqOrd H]

theorem getStemPeer_eq_none_iff :
    (router.getStemPeer env txHash).1 = none ↔ (router.maybeRotateEpoch env).vStemPeers = [] := by
  rw [getStemPeer]
  cases hpeers : (router.maybeRotateEpoch env).vStemPeers with
  | nil => simp
  | cons first rest =>
    have hlt : env.selector txHash % (first :: rest).length < (first :: rest).length :=
      Nat.mod_lt _ (Nat.succ_pos _)
    simpa using hlt

/-- `AddStemTx` leaves the epoch to `MaybeRotateEpoch`. -/
theorem addStemTx_vStemPeers {env' : RouterEnv H ν φ} [TransOrd H] :
    ((router.addStemTx env txHash hops).maybeRotateEpoch env').vStemPeers =
      ((router.maybeRotateEpoch env).maybeRotateEpoch env').vStemPeers := by
  have hmap : ∀ mapStemTxs, ({ router.maybeRotateEpoch env with mapStemTxs := mapStemTxs } :
      CDandelionRouter H ν).maybeRotateEpoch env' =
        { (router.maybeRotateEpoch env).maybeRotateEpoch env' with mapStemTxs := mapStemTxs } := by
    intro mapStemTxs
    rw [maybeRotateEpoch, maybeRotateEpoch.eq_1 env' (router.maybeRotateEpoch env)]
    split <;> rfl
  rw [addStemTx]
  split
  · rfl
  · split
    · split
      · rw [hmap]
      · rfl
    · rw [hmap]

end

/-- No stored transaction counts more than one stem hop. -/
def HopsLow (router : CDandelionRouter H ν) : Prop :=
  ∀ (txHash : H) (dtx : CDandelionTx), router.mapStemTxs[txHash]? = some dtx → dtx.stemHops ≤ 1

section

omit [LawfulEqOrd H]

theorem HopsLow.congr {router' : CDandelionRouter H ν} (h : router.HopsLow)
    (hmap : router'.mapStemTxs = router.mapStemTxs) : router'.HopsLow := by
  rw [HopsLow, hmap]
  exact h

theorem HopsLow.markFluffed (h : router.HopsLow) : (router.markFluffed txHash).HopsLow := by
  intro hash dtx hdtx
  rw [CDandelionRouter.markFluffed, getElem?_erase] at hdtx
  split at hdtx
  · cases hdtx
  · exact h hash dtx hdtx

theorem HopsLow.insert {dtx : CDandelionTx} (h : router.HopsLow) (hdtx : dtx.stemHops ≤ 1) :
    HopsLow { router with mapStemTxs := router.mapStemTxs.insert txHash dtx } := by
  intro hash stored hstored
  rw [getElem?_insert] at hstored
  split at hstored
  · cases hstored
    exact hdtx
  · exact h hash stored hstored

theorem HopsLow.addLocalTx (h : router.HopsLow) : (router.addLocalTx env txHash).HopsLow := by
  have hrotated : (router.maybeRotateEpoch env).HopsLow := h.congr maybeRotateEpoch_mapStemTxs
  rw [CDandelionRouter.addLocalTx]
  split
  · exact hrotated
  · exact hrotated.insert Int.one_nonneg

/-- `AddStemTx` is told of one hop at most. -/
theorem HopsLow.addStemTx (h : router.HopsLow) (hhops : hops ≤ 1) :
    (router.addStemTx env txHash hops).HopsLow := by
  have hrotated : (router.maybeRotateEpoch env).HopsLow := h.congr maybeRotateEpoch_mapStemTxs
  rw [CDandelionRouter.addStemTx]
  split
  · exact hrotated
  · split
    · split
      · exact hrotated.insert hhops
      · exact hrotated
    · exact hrotated.insert hhops

/-- **The hop limit is out of reach**: `ShouldFluff` depends on the peers and the draw
alone. -/
theorem HopsLow.shouldFluff_iff (h : router.HopsLow) {nRand : Nat} : router.shouldFluff nRand txHash = true ↔
      router.vStemPeers = [] ∨ getRand nRand 100 < DANDELION_FLUFF_PERCENT := by
  have hlimit : (router.mapStemTxs[txHash]?.any fun dtx => dtx.stemHops ≥ DANDELION_MAX_STEM_HOPS) =
      false := by
    cases hdtx : router.mapStemTxs[txHash]? with
    | none => rfl
    | some dtx =>
      have hlow := h txHash dtx hdtx
      have hmax : DANDELION_MAX_STEM_HOPS = 10 := rfl
      simp only [Option.any_some, decide_eq_false_iff_not]
      omega
  rw [shouldFluff, hlimit, Bool.or_false, Bool.or_eq_true, List.isEmpty_iff, decide_eq_true_eq]

end

end CDandelionRouter

end MaryJaneCoin
