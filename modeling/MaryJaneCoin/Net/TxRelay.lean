import MaryJaneCoin.Chain.Transaction
import MaryJaneCoin.Net.Dandelion

/-!
# How transactions leave a node

`RelayTransaction`, which queues an announcement for the stem peer or for everybody,
`SendMessages`, which empties the queue of a peer, and the handlers for `inv`,
`getdata`, `mempool` and `tx`.  What the memory pool says to a transaction comes from
outside.
-/

namespace MaryJaneCoin

open Std List

def MAX_INV_SZ : Nat := 50000

/-- What the relay takes from outside: the hash, which peer a hash selects, the bloom
filters, and the size of `setInventoryKnown`. -/
structure RelayWorld (H φ : Type) extends Sha256 H where
  selector : H → Nat
  /-- `IsRelevantAndUpdate`. -/
  isRelevantAndUpdate : φ → CTransaction H → Bool × φ
  nMaxSize : Nat

/-- The clock and the random numbers at a call. -/
structure Moment where
  nNow : Int
  rand : Nat → Nat

/-- A node, as far as transactions are relayed. -/
structure RelayNode (H ν φ : Type) [Ord H] where
  router : CDandelionRouter H ν
  vNodes : List (ν × CNode H φ)
  mapRelay : ExtTreeMap H (CTransaction H)
  vRelayExpiration : List (Int × H)
  mempool : ExtTreeMap H (CTransaction H)

namespace CNode

variable {H φ : Type} [DecidableEq H]

/-- `setInventoryKnown.insert`: whether the hash is new, and the set, which forgets the
oldest when it is full. -/
def insertKnown (nMaxSize : Nat) (pnode : CNode H φ) (hash : H) : Bool × CNode H φ :=
  if hash ∈ pnode.setInventoryKnown then (false, pnode)
  else
    let known :=
      if nMaxSize ≠ 0 ∧ pnode.setInventoryKnown.length = nMaxSize then pnode.setInventoryKnown.tail
      else pnode.setInventoryKnown
    (true, { pnode with setInventoryKnown := known ++ [hash] })

def addInventoryKnown (nMaxSize : Nat) (pnode : CNode H φ) (hash : H) : CNode H φ :=
  (pnode.insertKnown nMaxSize hash).2

def pushInventory (pnode : CNode H φ) (hash : H) : CNode H φ :=
  if hash ∈ pnode.setInventoryKnown then pnode
  else { pnode with vInventoryToSend := pnode.vInventoryToSend ++ [hash] }

/-- What `RelayTransaction` does for a peer that it announces the transaction to. -/
def announce (world : RelayWorld H φ) (tx : CTransaction H) (hash : H) (pnode : CNode H φ) : CNode H φ :=
  if !pnode.fRelayTxes then pnode
  else
    match pnode.pfilter with
    | none => pnode.pushInventory hash
    | some filter =>
      let (fRelevant, filter) := world.isRelevantAndUpdate filter tx
      let pnode := { pnode with pfilter := some filter }
      if fRelevant then pnode.pushInventory hash else pnode

/-- The loop of `SendMessages` over the inventory: what is sent now, and the peer with
what has to wait. -/
def sendInventory (nMaxSize : Nat) (fSendTrickle : Bool) (trickleWait : H → Bool) :
    List H → CNode H φ → List H × List H × CNode H φ
  | [], pnode => ([], [], pnode)
  | hash :: queue, pnode =>
    if hash ∈ pnode.setInventoryKnown then sendInventory nMaxSize fSendTrickle trickleWait queue pnode
    else if !fSendTrickle && trickleWait hash then
      let (vInv, vInvWait, pnode) := sendInventory nMaxSize fSendTrickle trickleWait queue pnode
      (vInv, hash :: vInvWait, pnode)
    else
      let pnode := pnode.addInventoryKnown nMaxSize hash
      let (vInv, vInvWait, pnode) := sendInventory nMaxSize fSendTrickle trickleWait queue pnode
      (hash :: vInv, vInvWait, pnode)

end CNode

/-- A message that reveals transactions. -/
inductive RelayMessage (H : Type) where
  | inv (hashes : List H)
  | tx (hash : H)
deriving DecidableEq

/-- The transactions that a message reveals. -/
def RelayMessage.reveals {H : Type} : RelayMessage H → List H
  | .inv hashes => hashes
  | .tx hash => [hash]

/-- What `getdata` may ask for: a transaction, or a block through the filter of the
peer, which matches these transactions. -/
inductive GetDataItem (H : Type) where
  | tx (hash : H)
  | filteredBlock (vMatchedTxn : List H)

namespace RelayNode

variable {H ν φ : Type} [Ord H] [TransOrd H] [DecidableEq H] [DecidableEq ν] (world : RelayWorld H φ)

/-- What the router finds outside, after the draw of `ShouldFluff`. -/
def routerEnv (node : RelayNode H ν φ) (now : Moment) : RouterEnv H ν φ :=
  ⟨now.nNow, node.vNodes, fun i => now.rand (i + 1), world.selector⟩

/-- The loop that forgets relayed transactions after their time. -/
def expireRelay (nNow : Int) :
    List (Int × H) → ExtTreeMap H (CTransaction H) → List (Int × H) × ExtTreeMap H (CTransaction H)
  | [], mapRelay => ([], mapRelay)
  | (nExpiration, hash) :: rest, mapRelay =>
    if nExpiration < nNow then expireRelay nNow rest (mapRelay.erase hash)
    else ((nExpiration, hash) :: rest, mapRelay)

/-- The first part of `RelayTransaction`: the transaction is kept for those who ask. -/
def keepForRelay (nNow : Int) (tx : CTransaction H) (hash : H) (node : RelayNode H ν φ) :
    RelayNode H ν φ :=
  let (vRelayExpiration, mapRelay) := expireRelay nNow node.vRelayExpiration node.mapRelay
  { node with
    mapRelay := mapRelay.insertIfNew hash tx
    vRelayExpiration := vRelayExpiration ++ [(nNow + 15 * 60, hash)] }

/-- The peer is changed, where it is in `vNodes`. -/
def atPeer (peer : ν) (f : CNode H φ → CNode H φ) : List (ν × CNode H φ) → List (ν × CNode H φ)
  | [] => []
  | (p, pnode) :: rest => if p = peer then (p, f pnode) :: rest else (p, pnode) :: atPeer peer f rest

/-- `RelayTransaction`, with the stem peer that it chose. -/
def relayTransaction (now : Moment) (node : RelayNode H ν φ) (tx : CTransaction H) (hash : H) :
    Option ν × RelayNode H ν φ :=
  let node := node.keepForRelay now.nNow tx hash
  let announce := CNode.announce world tx hash
  let announceAll := node.vNodes.map fun (p, pnode) => (p, announce pnode)
  if node.router.isStemPhase hash then
    match node.router.getStemPeer (node.routerEnv world now) hash with
    | (some pStemPeer, router) =>
      (some pStemPeer, { node with router := router, vNodes := atPeer pStemPeer announce node.vNodes })
    | (none, router) =>
      (none, { node with router := router.markFluffed hash, vNodes := announceAll })
  else (none, { node with vNodes := announceAll })

/-- What the handler for `tx` does with a transaction that the memory pool accepted. -/
def routeAccepted (now now' : Moment) (node : RelayNode H ν φ) (tx : CTransaction H) :
    Option ν × RelayNode H ν φ :=
  let hash := tx.getHash world.toSha256
  let node := { node with mempool := node.mempool.insert hash tx }
  let router :=
    if node.router.shouldFluff (now.rand 0) hash then node.router.markFluffed hash
    else node.router.addStemTx (node.routerEnv world now) hash 1
  ({ node with router := router }).relayTransaction world now' tx hash

/-- Whether the hash is in `setInventoryKnown` of the peer. -/
def knows (node : RelayNode H ν φ) (peer : ν) (hash : H) : Bool :=
  (node.vNodes.find? fun (p, _) => p = peer).any fun (_, pnode) => hash ∈ pnode.setInventoryKnown

/-- The answer to a `getdata` for a transaction. -/
def getData (peer : ν) (node : RelayNode H ν φ) : GetDataItem H → List (ν × RelayMessage H)
  | .tx hash =>
    if node.mapRelay.contains hash || node.mempool.contains hash then [(peer, .tx hash)] else []
  | .filteredBlock vMatchedTxn =>
    (vMatchedTxn.filter fun hash => !node.knows peer hash).map fun hash => (peer, .tx hash)

/-- The answer to `mempool`. -/
def queryMempool (peer : ν) (node : RelayNode H ν φ) : List (ν × RelayMessage H) :=
  let vInv := node.mempool.keys.take MAX_INV_SZ
  if vInv.isEmpty then [] else [(peer, .inv vInv)]

/-- `SendMessages`, of the inventory. -/
def sendMessages (fSendTrickle : Bool) (trickleWait : H → Bool) (peer : ν)
    (node : RelayNode H ν φ) : List (ν × RelayMessage H) × RelayNode H ν φ :=
  match node.vNodes.find? fun (p, _) => p = peer with
  | none => ([], node)
  | some (_, pnode) =>
    let (vInv, vInvWait, sent) :=
      pnode.sendInventory world.nMaxSize fSendTrickle trickleWait pnode.vInventoryToSend
    (if vInv.isEmpty then [] else [(peer, .inv vInv)],
      { node with
        vNodes := atPeer peer (fun _ => { sent with vInventoryToSend := vInvWait }) node.vNodes })

/-- `GetEmbargoedTxs` and the loop over them: each is fluffed, and relayed when it is in
the memory pool. -/
def fluffEmbargoed (now : Moment) (node : RelayNode H ν φ) : RelayNode H ν φ :=
  (node.router.getEmbargoedTxs now.nNow).foldl
    (fun node hash =>
      let node := { node with router := node.router.markFluffed hash }
      match node.mempool[hash]? with
      | none => node
      | some tx => (node.relayTransaction world now tx hash).2)
    node

variable {world} {tx : CTransaction H} {hash queued : H} {peer p : ν} {pnode : CNode H φ}
  {f : CNode H φ → CNode H φ} {vNodes : List (ν × CNode H φ)} {node : RelayNode H ν φ} {now : Moment}

omit [Ord H] [TransOrd H] in
/-- An announcement queues nothing but its transaction. -/
theorem mem_queue_announce (h : queued ∈ (pnode.announce world tx hash).vInventoryToSend) :
    queued = hash ∨ queued ∈ pnode.vInventoryToSend := by
  have hpush : ∀ pnode : CNode H φ, queued ∈ (pnode.pushInventory hash).vInventoryToSend →
      queued = hash ∨ queued ∈ pnode.vInventoryToSend := by
    intro pnode hmem
    rw [CNode.pushInventory] at hmem
    split at hmem
    · exact .inr hmem
    · exact (mem_append.mp hmem).symm.imp_left mem_singleton.mp
  rw [CNode.announce] at h
  split at h
  · exact .inr h
  · cases hfilter : pnode.pfilter with
    | none =>
      rw [hfilter] at h
      exact hpush pnode h
    | some filter =>
      simp only [hfilter] at h
      split at h
      · have hpushed := hpush _ h
        exact hpushed
      · exact .inr h

omit [Ord H] [TransOrd H] [DecidableEq H] in
theorem mem_atPeer (h : (p, pnode) ∈ atPeer peer f vNodes) :
    (p, pnode) ∈ vNodes ∨ p = peer ∧ ∃ before, (p, before) ∈ vNodes ∧ pnode = f before := by
  induction vNodes with
  | nil => cases h
  | cons entry rest ih =>
    obtain ⟨q, qnode⟩ := entry
    rw [atPeer] at h
    split at h
    · rename_i hq
      rcases List.mem_cons.mp h with heq | hrest
      · obtain ⟨rfl, rfl⟩ := Prod.mk.inj heq
        exact .inr ⟨hq, qnode, mem_cons_self, rfl⟩
      · exact .inl (mem_cons_of_mem _ hrest)
    · rcases List.mem_cons.mp h with heq | hrest
      · exact .inl (heq ▸ mem_cons_self)
      · rcases ih hrest with hold | ⟨hpeer, before, hmem, hf⟩
        · exact .inl (mem_cons_of_mem _ hold)
        · exact .inr ⟨hpeer, before, mem_cons_of_mem _ hmem, hf⟩

omit [Ord H] [TransOrd H] in
theorem queue_addInventoryKnown {nMaxSize : Nat} :
    (pnode.addInventoryKnown nMaxSize hash).vInventoryToSend = pnode.vInventoryToSend := by
  rw [CNode.addInventoryKnown, CNode.insertKnown]
  split <;> rfl

omit [Ord H] [TransOrd H] in
theorem mem_sendInventory {nMaxSize : Nat} {fSendTrickle : Bool} {trickleWait : H → Bool}
    {queue : List H} {pnode : CNode H φ} :
    (∀ h ∈ (pnode.sendInventory nMaxSize fSendTrickle trickleWait queue).1, h ∈ queue) ∧
      ∀ h ∈ (pnode.sendInventory nMaxSize fSendTrickle trickleWait queue).2.1, h ∈ queue := by
  induction queue generalizing pnode with
  | nil => exact ⟨fun _ => id, fun _ => id⟩
  | cons hash queue ih =>
    rw [CNode.sendInventory]
    split
    · exact ⟨fun h hmem => mem_cons_of_mem _ (ih.1 h hmem), fun h hmem => mem_cons_of_mem _ (ih.2 h hmem)⟩
    · split
      · refine ⟨fun h hmem => mem_cons_of_mem _ (ih.1 h hmem), fun h hmem => ?_⟩
        rcases List.mem_cons.mp hmem with rfl | hrest
        · exact mem_cons_self
        · exact mem_cons_of_mem _ (ih.2 h hrest)
      · refine ⟨fun h hmem => ?_, fun h hmem => mem_cons_of_mem _ (ih.2 h hmem)⟩
        rcases List.mem_cons.mp hmem with rfl | hrest
        · exact mem_cons_self
        · exact mem_cons_of_mem _ (ih.1 h hrest)

omit [TransOrd H] [DecidableEq H] in
theorem mem_of_find?_peer {entry : ν × CNode H φ}
    (h : (node.vNodes.find? fun (p, _) => p = peer) = some entry) : entry.1 = peer ∧ entry ∈ node.vNodes :=
  ⟨by simpa using find?_some h, mem_of_find?_eq_some h⟩

/-- **The ways of `RelayTransaction`.**  A transaction in its stem phase is queued for
the chosen peer; without one it is fluffed, and then, as any other, queued for all. -/
theorem relayTransaction_cases (hall : node.router.AllStem) : (node.router.InStem hash ∧ ∃ stemPeer,
      (node.router.getStemPeer (node.routerEnv world now) hash).1 = some stemPeer ∧
      (node.relayTransaction world now tx hash).1 = some stemPeer ∧
      (node.relayTransaction world now tx hash).2.router =
        node.router.maybeRotateEpoch (node.routerEnv world now) ∧
      (node.relayTransaction world now tx hash).2.vNodes =
        atPeer stemPeer (CNode.announce world tx hash) node.vNodes) ∨
    ((node.relayTransaction world now tx hash).1 = none ∧ (node.relayTransaction world now tx hash).2.vNodes =
        node.vNodes.map (fun (p, pnode) => (p, pnode.announce world tx hash)) ∧
      ((node.router.InStem hash ∧ (node.router.getStemPeer (node.routerEnv world now) hash).1 = none ∧
          (node.relayTransaction world now tx hash).2.router =
          (node.router.maybeRotateEpoch (node.routerEnv world now)).markFluffed hash) ∨
        (¬node.router.InStem hash ∧ (node.relayTransaction world now tx hash).2.router = node.router))) := by
  have hiff := @CDandelionRouter.isStemPhase_iff _ _ _ _ node.router hash hall
  have hrouter : (node.keepForRelay now.nNow tx hash).router = node.router := rfl
  have hvNodes : (node.keepForRelay now.nNow tx hash).vNodes = node.vNodes := rfl
  have henv : (node.keepForRelay now.nNow tx hash).routerEnv world now = node.routerEnv world now := rfl
  rw [relayTransaction]
  simp only [hrouter, hvNodes, henv]
  by_cases hstem : node.router.isStemPhase hash = true
  · have hin := hiff.mp hstem
    rw [if_pos hstem]
    cases hpeer : node.router.getStemPeer (node.routerEnv world now) hash with
    | mk stemPeer router =>
      have hrouter : router = node.router.maybeRotateEpoch (node.routerEnv world now) :=
        (congrArg Prod.snd hpeer).symm
      subst hrouter
      cases stemPeer with
      | some stemPeer => exact .inl ⟨hin, stemPeer, rfl, rfl, rfl, rfl⟩
      | none => exact .inr ⟨rfl, rfl, .inl ⟨hin, rfl, rfl⟩⟩
  · rw [if_neg hstem]
    exact .inr ⟨rfl, rfl, .inr ⟨fun hin => hstem (hiff.mpr hin), rfl⟩⟩

end RelayNode

end MaryJaneCoin
