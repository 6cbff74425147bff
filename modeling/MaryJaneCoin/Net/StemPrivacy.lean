import MaryJaneCoin.Net.TxRelay

/-!
# Who learns of a transaction in its stem phase

A run of a node, with what it is told and what it sends.  The router controls
`RelayTransaction` only: the handlers for `getdata` and `mempool` answer from the
relay cache and the memory pool, and an announcement may wait in the queue of a peer
from before the stem phase.
-/

namespace MaryJaneCoin

open Std List CDandelionRouter RelayNode

/-- What happens at a node that relays. -/
inductive RelayEvent (H ν φ : Type) where
  | inv (peer : ν) (hashes : List H)
  | getData (peer : ν) (items : List (GetDataItem H))
  | mempool (peer : ν)
  /-- A transaction arrives, and the memory pool takes it or not. -/
  | tx (now now' : Moment) (peer : ν) (tx : CTransaction H) (fAccepted : Bool)
  /-- An orphan is accepted in the loop after another transaction. -/
  | orphan (now now' : Moment) (tx : CTransaction H)
  /-- `RelayTransaction` for a caller that does not tell the router. -/
  | relay (now : Moment) (tx : CTransaction H)
  /-- `RelayWalletTransaction`, of the transaction itself. -/
  | relayWallet (now now' : Moment) (tx : CTransaction H)
  | sendMessages (peer : ν) (fSendTrickle : Bool) (trickleWait : H → Bool)
  | embargo (now : Moment)
  /-- The memory pool takes a transaction of the node's own. -/
  | accept (tx : CTransaction H)
  /-- A transaction leaves the memory pool. -/
  | remove (hash : H)
  | connect (peer : ν) (pnode : CNode H φ)
  | disconnect (peer : ν)
  /-- The state of a connection changes; blocks push hashes out of the inventory. -/
  | update (peer : ν) (fSuccessfullyConnected fDisconnect fRelayTxes : Bool) (pfilter : Option φ)
      (setInventoryKnown : List H)

/-- A node in a run: the peers that `GetStemPeer` chose so far, and which peer announced
or sent what. -/
structure StemRun (H ν φ : Type) [Ord H] where
  node : RelayNode H ν φ
  chosen : List (H × ν)
  told : List (ν × H)

namespace StemRun

variable {H ν φ : Type} [Ord H] [TransOrd H] [DecidableEq H] [DecidableEq ν] (world : RelayWorld H φ)

/-- The node after `RelayTransaction`, with the choice of the stem peer. -/
def relayed (hash : H) (run : StemRun H ν φ) (result : Option ν × RelayNode H ν φ) : StemRun H ν φ :=
  { run with
    node := result.2
    chosen := result.1.elim run.chosen fun peer => (hash, peer) :: run.chosen }

/-- `AddInventoryKnown` for what a peer announced or sent. -/
def hear (peer : ν) (run : StemRun H ν φ) (hash : H) : StemRun H ν φ :=
  { run with
    node := { run.node with
              vNodes := atPeer peer (CNode.addInventoryKnown world.nMaxSize · hash)
                run.node.vNodes }
    told := (peer, hash) :: run.told }

/-- The loop over the embargoed transactions. -/
def embargo (now : Moment) (run : StemRun H ν φ) : StemRun H ν φ :=
  { run with node := run.node.fluffEmbargoed world now }

/-- One event, with the messages that are sent. -/
def step (run : StemRun H ν φ) : RelayEvent H ν φ → List (ν × RelayMessage H) × StemRun H ν φ
  | .inv peer hashes => ([], hashes.foldl (hear world peer) run)
  | .getData peer items => (items.flatMap (run.node.getData peer), run)
  | .mempool peer => (run.node.queryMempool peer, run)
  | .tx now now' peer tx fAccepted =>
    let run := run.hear world peer (tx.getHash world.toSha256)
    ([], if fAccepted then run.relayed (tx.getHash world.toSha256) (run.node.routeAccepted world now now' tx)
      else run)
  | .orphan now now' tx =>
    ([], run.relayed (tx.getHash world.toSha256) (run.node.routeAccepted world now now' tx))
  | .relay now tx =>
    let hash := tx.getHash world.toSha256
    ([], run.relayed hash (run.node.relayTransaction world now tx hash))
  | .relayWallet now now' tx =>
    let hash := tx.getHash world.toSha256
    let node := { run.node with
                  router := run.node.router.addLocalTx (run.node.routerEnv world now) hash }
    ([], run.relayed hash (node.relayTransaction world now' tx hash))
  | .sendMessages peer fSendTrickle trickleWait =>
    let (sent, node) := run.node.sendMessages world fSendTrickle trickleWait peer
    (sent, { run with node := node })
  | .embargo now => ([], run.embargo world now)
  | .accept tx =>
    ([], { run with
           node := { run.node with mempool := run.node.mempool.insert (tx.getHash world.toSha256) tx } })
  | .remove hash => ([], { run with node := { run.node with mempool := run.node.mempool.erase hash } })
  | .connect peer pnode =>
    ([], if run.node.vNodes.any fun (p, _) => p = peer then run
      else { node := { run.node with
                       vNodes := run.node.vNodes ++
                         [(peer, { pnode with setInventoryKnown := [], vInventoryToSend := [] })] }
             chosen := run.chosen.filter fun (_, p) => p ≠ peer
             told := run.told.filter fun (p, _) => p ≠ peer })
  | .disconnect peer =>
    ([], { run with node := { run.node with vNodes := run.node.vNodes.filter fun (p, _) => p ≠ peer } })
  | .update peer fSuccessfullyConnected fDisconnect fRelayTxes pfilter setInventoryKnown =>
    ([], { run with
           node := { run.node with
                     vNodes := atPeer peer
                       (fun pnode => { pnode with
                                       fSuccessfullyConnected := fSuccessfullyConnected
                                       fDisconnect := fDisconnect
                                       fRelayTxes := fRelayTxes
                                       pfilter := pfilter
                                       setInventoryKnown := setInventoryKnown })
                       run.node.vNodes } })

/-- The peer may learn of the transaction: it was chosen for it, or told us of it. -/
def MayLearn (run : StemRun H ν φ) (hash : H) (peer : ν) : Prop :=
  (hash, peer) ∈ run.chosen ∨ (peer, hash) ∈ run.told

/-- **No message tells a peer of a transaction in its stem phase**, unless the peer may
learn of it. -/
def Private (run : StemRun H ν φ) (sent : List (ν × RelayMessage H)) : Prop :=
  ∀ peer message, (peer, message) ∈ sent → ∀ hash ∈ message.reveals,
    run.node.router.InStem hash → run.MayLearn hash peer

/-- No other peer has the transaction in its queue. -/
def QueuedForKnowing (run : StemRun H ν φ) (hash : H) : Prop :=
  ∀ peer pnode, (peer, pnode) ∈ run.node.vNodes → hash ∈ pnode.vInventoryToSend →
    run.MayLearn hash peer

/-- **The condition on an event**: a peer asks for a transaction in its stem phase, or
for the memory pool with such a transaction in it, only when it may learn of the
transaction; and a transaction that enters the stem phase is in the queues of such
peers only. -/
def Fits (run : StemRun H ν φ) : RelayEvent H ν φ → Prop
  | .getData peer items => ∀ item ∈ items,
      match item with
      | .tx hash => run.node.router.InStem hash →
          run.MayLearn hash peer ∨ (hash ∉ run.node.mapRelay ∧ hash ∉ run.node.mempool)
      | .filteredBlock vMatchedTxn => ∀ hash ∈ vMatchedTxn, run.node.router.InStem hash →
          run.MayLearn hash peer ∨ run.node.knows peer hash = true
  | .mempool peer => ∀ hash ∈ run.node.mempool.keys.take MAX_INV_SZ, run.node.router.InStem hash →
      run.MayLearn hash peer
  | .tx now _ peer tx fAccepted => fAccepted = true →
      let hash := tx.getHash world.toSha256
      run.node.router.shouldFluff (now.rand 0) hash = true ∨
        (run.hear world peer hash).QueuedForKnowing hash
  | .orphan now _ tx =>
    let hash := tx.getHash world.toSha256
    run.node.router.shouldFluff (now.rand 0) hash = true ∨ run.QueuedForKnowing hash
  | .relayWallet _ _ tx => run.QueuedForKnowing (tx.getHash world.toSha256)
  | _ => True

/-- **The invariant**: what is in the stem phase is queued for peers only that may
learn of it. -/
structure Guarded (run : StemRun H ν φ) : Prop where
  allStem : run.node.router.AllStem
  queued : ∀ peer pnode, (peer, pnode) ∈ run.node.vNodes → ∀ hash ∈ pnode.vInventoryToSend,
    run.node.router.InStem hash → run.MayLearn hash peer

variable {world} {run : StemRun H ν φ} {hash : H} {now now' : Moment} {tx : CTransaction H} {peer : ν}

omit [Ord H] [TransOrd H] [DecidableEq H] [DecidableEq ν] in
theorem MayLearn.mono [Ord H] {run after : StemRun H ν φ} {hash : H} {peer : ν}
    (h : run.MayLearn hash peer) (hchosen : ∀ entry ∈ run.chosen, entry ∈ after.chosen)
    (htold : ∀ entry ∈ run.told, entry ∈ after.told) : after.MayLearn hash peer :=
  h.imp (hchosen _) (htold _)

variable [LawfulEqOrd H]

/-- **`RelayTransaction` keeps the invariant.** -/
theorem Guarded.relayTransaction (h : run.Guarded) :
    (run.relayed hash (run.node.relayTransaction world now tx hash)).Guarded := by
  have hrotated : (run.node.router.maybeRotateEpoch (run.node.routerEnv world now)).AllStem :=
    allStem_maybeRotateEpoch h.allStem
  have hsame : ∀ queued,
      (run.node.router.maybeRotateEpoch (run.node.routerEnv world now)).InStem queued ↔
        run.node.router.InStem queued := fun queued => inStem_maybeRotateEpoch
  have hmap : ∀ {p pnode queued},
      (p, pnode) ∈ run.node.vNodes.map (fun (p, pnode) => (p, pnode.announce world tx hash)) →
      queued ∈ pnode.vInventoryToSend → queued ≠ hash → run.node.router.InStem queued →
        run.MayLearn queued p := by
    intro p pnode queued hmem hqueue hne hin
    obtain ⟨⟨q, before⟩, hbefore, heq⟩ := mem_map.mp hmem
    obtain ⟨rfl, rfl⟩ := Prod.mk.inj heq
    exact h.queued q before hbefore queued ((mem_queue_announce hqueue).resolve_left hne) hin
  rcases relayTransaction_cases h.allStem with
    ⟨hin, stemPeer, -, hchosen, hrouter, hvNodes⟩ |
      ⟨hchosen, hvNodes, ⟨hin, -, hrouter⟩ | ⟨hout, hrouter⟩⟩
  · constructor
    · rw [relayed, hrouter]
      exact hrotated
    · intro p pnode hmem queued hqueue hqueued
      rw [relayed, hvNodes] at hmem
      rw [relayed, hrouter, hsame] at hqueued
      have hmono : ∀ {peer}, run.MayLearn queued peer →
          (run.relayed hash (run.node.relayTransaction world now tx hash)).MayLearn queued peer :=
        fun hlearn => hlearn.mono (fun entry hentry => by
          rw [relayed, hchosen]
          exact mem_cons_of_mem _ hentry) fun _ => id
      rcases mem_atPeer hmem with hold | ⟨rfl, before, hbefore, rfl⟩
      · exact hmono (h.queued p pnode hold queued hqueue hqueued)
      · rcases mem_queue_announce hqueue with rfl | hold
        · refine .inl ?_
          rw [relayed, hchosen]
          exact mem_cons_self
        · exact hmono (h.queued p before hbefore queued hold hqueued)
  · constructor
    · rw [relayed, hrouter]
      exact allStem_markFluffed hrotated
    · intro p pnode hmem queued hqueue hqueued
      rw [relayed, hvNodes] at hmem
      rw [relayed, hrouter, inStem_markFluffed, hsame] at hqueued
      refine (hmap hmem hqueue hqueued.1 hqueued.2).mono ?_ fun _ => id
      rw [relayed, hchosen]
      exact fun _ => id
  · constructor
    · rw [relayed, hrouter]
      exact h.allStem
    · intro p pnode hmem queued hqueue hqueued
      rw [relayed, hvNodes] at hmem
      rw [relayed, hrouter] at hqueued
      refine (hmap hmem hqueue (fun heq => hout (heq ▸ hqueued)) hqueued).mono ?_ fun _ => id
      rw [relayed, hchosen]
      exact fun _ => id

section

omit [LawfulEqOrd H] [DecidableEq H] [DecidableEq ν]

theorem Guarded.of_queues {after : StemRun H ν φ} (h : run.Guarded)
    (hrouter : after.node.router = run.node.router)
    (hqueues : ∀ p pnode, (p, pnode) ∈ after.node.vNodes → ∀ queued ∈ pnode.vInventoryToSend,
      (∃ before, (p, before) ∈ run.node.vNodes ∧ queued ∈ before.vInventoryToSend) ∧
        (run.MayLearn queued p → after.MayLearn queued p)) : after.Guarded := by
  refine ⟨hrouter ▸ h.allStem, fun p pnode hmem queued hqueue hin => ?_⟩
  obtain ⟨⟨before, hbefore, hqueue⟩, hlearn⟩ := hqueues p pnode hmem queued hqueue
  exact hlearn (h.queued p before hbefore queued hqueue (hrouter ▸ hin))

theorem Guarded.enter (h : run.Guarded) {router : CDandelionRouter H ν}
    {mempool : ExtTreeMap H (CTransaction H)} (hall : router.AllStem)
    (hin : ∀ queued, router.InStem queued → queued = hash ∨ run.node.router.InStem queued)
    (hquiet : router.InStem hash → run.QueuedForKnowing hash) :
    Guarded { run with node := { run.node with mempool := mempool, router := router } } := by
  refine ⟨hall, fun p pnode hmem queued hqueue hqueued => ?_⟩
  rcases hin queued hqueued with rfl | hold
  · exact hquiet hqueued p pnode hmem hqueue
  · exact h.queued p pnode hmem queued hqueue hold

end

theorem Guarded.routeAccepted (h : run.Guarded)
    (hfits : run.node.router.shouldFluff (now.rand 0) (tx.getHash world.toSha256) = true ∨
      run.QueuedForKnowing (tx.getHash world.toSha256)) : (run.relayed (tx.getHash world.toSha256)
    (run.node.routeAccepted world now now' tx)).Guarded := by
  have hrouted : Guarded { run with
      node := { run.node with
                mempool := run.node.mempool.insert (tx.getHash world.toSha256) tx
                router := if run.node.router.shouldFluff (now.rand 0) (tx.getHash world.toSha256) then
                    run.node.router.markFluffed (tx.getHash world.toSha256)
                  else run.node.router.addStemTx (routerEnv world run.node now)
                    (tx.getHash world.toSha256) 1 } } := by
    by_cases hfluff : run.node.router.shouldFluff (now.rand 0) (tx.getHash world.toSha256) = true
    · simp only [if_pos hfluff]
      refine @Guarded.enter _ _ _ _ _ run (tx.getHash world.toSha256) h _ _
        (allStem_markFluffed h.allStem)
        (fun queued hqueued => .inr (inStem_markFluffed.mp hqueued).2) fun hin => ?_
      exact absurd rfl (inStem_markFluffed.mp hin).1
    · simp only [if_neg hfluff]
      have hstem : ∀ queued, _ ∧ _ := fun queued => @addStemTx_stem _ _ _ _ _
        (routerEnv world run.node now) run.node.router (tx.getHash world.toSha256) 1 _ queued
        h.allStem
      exact @Guarded.enter _ _ _ _ _ run (tx.getHash world.toSha256) h _ _
        (hstem (tx.getHash world.toSha256)).1 (fun queued => (hstem queued).2)
        fun _ => hfits.resolve_left hfluff
  exact hrouted.relayTransaction

omit [LawfulEqOrd H] in
theorem Guarded.hear (h : run.Guarded) : (run.hear world peer hash).Guarded := by
  refine h.of_queues rfl fun p pnode hmem queued hqueue => ⟨?_, fun hlearn =>
    hlearn.mono (fun _ => id) fun _ => mem_cons_of_mem _⟩
  rcases mem_atPeer hmem with hold | ⟨-, before, hbefore, rfl⟩
  · exact ⟨pnode, hold, hqueue⟩
  · rw [queue_addInventoryKnown] at hqueue
    exact ⟨before, hbefore, hqueue⟩

omit [LawfulEqOrd H] in
theorem Guarded.inv (h : run.Guarded) (hashes : List H) :
    (hashes.foldl (StemRun.hear world peer) run).Guarded := by
  induction hashes generalizing run with
  | nil => exact h
  | cons hash hashes ih => exact ih h.hear

theorem Guarded.embargo (h : run.Guarded) : (run.embargo world now).Guarded := by
  rw [StemRun.embargo, fluffEmbargoed]
  generalize run.node.router.getEmbargoedTxs now.nNow = hashes
  -- Every turn of the loop keeps the guard.
  refine List.foldlRecOn (motive := fun node => Guarded { run with node := node }) hashes _ h ?_
  intro node hnode hash _
  have hfluffed : Guarded { run with node := { node with router := node.router.markFluffed hash } } :=
    @Guarded.enter _ _ _ _ _ _ hash hnode _ _ (allStem_markFluffed hnode.allStem)
      (fun queued hqueued => .inr (inStem_markFluffed.mp hqueued).2)
      fun hin => absurd rfl (inStem_markFluffed.mp hin).1
  dsimp only
  split
  · exact hfluffed
  · rename_i tx _
    have hrelayed := @Guarded.relayTransaction _ _ _ _ _ _ _ world _ hash now tx _ hfluffed
    rcases @RelayNode.relayTransaction_cases _ _ _ _ _ _ _ world tx hash _ now hfluffed.allStem with
      ⟨hin, -⟩ | ⟨hchosen, -⟩
    · exact absurd rfl (inStem_markFluffed.mp hin).1
    · rw [relayed, hchosen] at hrelayed
      exact hrelayed

omit [LawfulEqOrd H] in
theorem Guarded.sendMessages (h : run.Guarded) {fSendTrickle : Bool} {trickleWait : H → Bool} :
    run.Private (run.node.sendMessages world fSendTrickle trickleWait peer).1 ∧
      Guarded { run with node := (run.node.sendMessages world fSendTrickle trickleWait peer).2 } := by
  rw [RelayNode.sendMessages]
  cases hfind : run.node.vNodes.find? fun (p, _) => p = peer with
  | none => exact ⟨fun _ _ hmem => (nomatch hmem), h⟩
  | some entry =>
    obtain ⟨q, pnode⟩ := entry
    obtain ⟨hq, hnode⟩ := mem_of_find?_peer hfind
    obtain rfl : q = peer := hq
    obtain ⟨hsent, hwait⟩ := @RelayNode.mem_sendInventory _ _ _ world.nMaxSize fSendTrickle
      trickleWait pnode.vInventoryToSend pnode
    constructor
    · intro p message hmem hash hreveals hin
      dsimp only at hmem
      split at hmem
      · cases hmem
      · rw [mem_singleton] at hmem
        obtain ⟨rfl, rfl⟩ := Prod.mk.inj hmem
        exact h.queued p pnode hnode hash (hsent hash hreveals) hin
    · refine h.of_queues rfl fun p pnode' hmem queued hqueue => ⟨?_, id⟩
      rcases mem_atPeer hmem with hold | ⟨rfl, -, -, rfl⟩
      · exact ⟨pnode', hold, hqueue⟩
      · exact ⟨pnode, hnode, hwait queued hqueue⟩

omit [LawfulEqOrd H] [DecidableEq H] [DecidableEq ν] in
theorem private_nil : run.Private [] := fun _ _ hmem => nomatch hmem

omit [LawfulEqOrd H] in
theorem private_getData {items : List (GetDataItem H)} (hfits : run.Fits world (.getData peer items)) :
    run.Private (items.flatMap (run.node.getData peer)) := by
  intro p message hmem hash hreveals hin
  obtain ⟨item, hitem, hsent⟩ := mem_flatMap.mp hmem
  have hitem := hfits item hitem
  cases item with
  | tx asked =>
    rw [RelayNode.getData] at hsent
    split at hsent
    · rename_i hfound
      obtain ⟨rfl, rfl⟩ := Prod.mk.inj (mem_singleton.mp hsent)
      obtain rfl := mem_singleton.mp hreveals
      refine (hitem hin).resolve_right fun hnone => ?_
      rw [Bool.or_eq_true, ExtTreeMap.contains_iff_mem, ExtTreeMap.contains_iff_mem] at hfound
      exact hfound.elim hnone.1 hnone.2
    · cases hsent
  | filteredBlock vMatchedTxn =>
    obtain ⟨matched, hmatched, heq⟩ := mem_map.mp hsent
    obtain ⟨rfl, rfl⟩ := Prod.mk.inj heq
    obtain rfl := mem_singleton.mp hreveals
    obtain ⟨hmem, hunknown⟩ := mem_filter.mp hmatched
    refine (hitem _ hmem hin).resolve_right fun hknown => ?_
    rw [hknown] at hunknown
    cases hunknown

omit [LawfulEqOrd H] in
theorem private_queryMempool (hfits : run.Fits world (.mempool peer)) :
    run.Private (run.node.queryMempool peer) := by
  intro p message hmem hash hreveals hin
  rw [queryMempool] at hmem
  split at hmem
  · cases hmem
  · obtain ⟨rfl, rfl⟩ := Prod.mk.inj (mem_singleton.mp hmem)
    exact hfits hash hreveals hin

omit [DecidableEq H] [LawfulEqOrd H] in
/-- A change of one peer that leaves its queue alone. -/
theorem Guarded.atPeer (h : run.Guarded) {f : CNode H φ → CNode H φ}
    (hqueue : ∀ pnode, (f pnode).vInventoryToSend = pnode.vInventoryToSend) :
    Guarded { run with node := { run.node with vNodes := atPeer peer f run.node.vNodes } } := by
  refine h.of_queues rfl fun p pnode hmem queued hqueued => ⟨?_, id⟩
  rcases mem_atPeer hmem with hold | ⟨-, before, hbefore, rfl⟩
  · exact ⟨pnode, hold, hqueued⟩
  · exact ⟨before, hbefore, hqueue before ▸ hqueued⟩

omit [LawfulEqOrd H] in
/-- A peer that connects starts with an empty queue, and with nothing told. -/
theorem Guarded.connect (h : run.Guarded) (pnode : CNode H φ) :
    (step world run (.connect peer pnode)).2.Guarded := by
  rw [step]
  dsimp only
  split
  · exact h
  · rename_i hnew
    refine h.of_queues rfl fun p pnode' hmem queued hqueued => ?_
    rcases mem_append.mp hmem with hold | hlast
    · have hne : p ≠ peer := fun heq => hnew (any_eq_true.mpr ⟨_, hold, by simp [heq]⟩)
      refine ⟨⟨pnode', hold, hqueued⟩, fun hlearn => hlearn.imp (fun hmem => ?_) fun hmem => ?_⟩
      · exact mem_filter.mpr ⟨hmem, by simpa using hne⟩
      · exact mem_filter.mpr ⟨hmem, by simpa using hne⟩
    · obtain ⟨rfl, rfl⟩ := Prod.mk.inj (mem_singleton.mp hlast)
      cases hqueued

/-- **An event that fits** keeps the invariant, and what it sends is private. -/
theorem Guarded.step (h : run.Guarded) {event : RelayEvent H ν φ} (hfits : run.Fits world event) :
    run.Private (StemRun.step world run event).1 ∧ (StemRun.step world run event).2.Guarded := by
  cases event with
  | inv peer hashes => exact ⟨private_nil, h.inv hashes⟩
  | getData peer items => exact ⟨private_getData hfits, h⟩
  | mempool peer => exact ⟨private_queryMempool hfits, h⟩
  | tx now now' peer tx fAccepted =>
    refine ⟨private_nil, ?_⟩
    cases fAccepted with
    | false => exact h.hear
    | true => exact h.hear.routeAccepted (hfits rfl)
  | orphan now now' tx => exact ⟨private_nil, h.routeAccepted hfits⟩
  | relay now tx => exact ⟨private_nil, h.relayTransaction⟩
  | relayWallet now now' tx =>
    refine ⟨private_nil, ?_⟩
    have hstem := fun queued => @addLocalTx_stem _ _ _ _ _
      (routerEnv world run.node now) run.node.router (tx.getHash world.toSha256) _ queued
      h.allStem
    have hentered := @Guarded.enter _ _ _ _ _ run (tx.getHash world.toSha256) h _ run.node.mempool
      (hstem (tx.getHash world.toSha256)).1 (fun queued => (hstem queued).2) fun _ => hfits
    exact hentered.relayTransaction
  | sendMessages peer fSendTrickle trickleWait => exact h.sendMessages
  | embargo now => exact ⟨private_nil, h.embargo⟩
  | accept tx => exact ⟨private_nil, h.allStem, h.queued⟩
  | remove hash => exact ⟨private_nil, h.allStem, h.queued⟩
  | connect peer pnode => exact ⟨private_nil, h.connect pnode⟩
  | disconnect peer =>
    exact ⟨private_nil, h.of_queues rfl fun p pnode hmem queued hqueued =>
      ⟨⟨pnode, (mem_filter.mp hmem).1, hqueued⟩, id⟩⟩
  | update peer => exact ⟨private_nil, h.atPeer fun _ => rfl⟩

variable (world) in
/-- The state after the events, from a node that has told nobody anything yet. -/
def after (node : RelayNode H ν φ) (events : List (RelayEvent H ν φ)) : StemRun H ν φ :=
  events.foldl (fun run event => (StemRun.step world run event).2) ⟨node, [], []⟩

/-- **Every run whose events fit is private**, from a node with nothing in its stem
phase. -/
theorem run_private {node : RelayNode H ν φ} (hstart : node.router.mapStemTxs = ∅)
    {events : List (RelayEvent H ν φ)}
    (hfits : ∀ pre event post, events = pre ++ event :: post →
    (after world node pre).Fits world event) : ∀ pre event post, events = pre ++ event :: post →
      (after world node pre).Private (StemRun.step world (after world node pre) event).1 := by
  have hguarded : ∀ pre post, events = pre ++ post → (after world node pre).Guarded := by
    intro pre
    induction pre using List.reverseRecOn with
    | nil =>
      intro post _
      refine ⟨fun hash dtx hdtx => ?_, fun p pnode _ queued _ hin => ?_⟩
      · have hnone : node.router.mapStemTxs[hash]? = some dtx := hdtx
        rw [hstart] at hnone
        simp at hnone
      · have hmem : queued ∈ node.router.mapStemTxs := hin.1
        rw [hstart] at hmem
        simp at hmem
    | append_singleton pre event ih =>
      intro post hsplit
      have hsplit : events = pre ++ event :: post := by simpa using hsplit
      rw [after, foldl_append]
      exact ((ih (event :: post) hsplit).step (hfits pre event post hsplit)).2
  intro pre event post hsplit
  exact ((hguarded pre (event :: post) hsplit).step (hfits pre event post hsplit)).1

/-- Every peer is without a filter. -/
def listenedWorld : RelayWorld (List Nat) Unit where
  toSha256 := transparent
  selector := List.length
  isRelevantAndUpdate filter _ := (true, filter)
  nMaxSize := 0

/-- A moment in the first epoch, at which the coin says that the stem goes on. -/
def stemMoment : Moment := ⟨2, fun _ => 99⟩

/-- The stem peer is 1; the peers 2 and 3 have connected from outside. -/
def listenedNode : RelayNode (List Nat) Nat Unit where
  router := ⟨1, [1], ∅, ∅⟩
  vNodes := [(1, ⟨false, true, false, true, none, [], []⟩),
    (2, ⟨true, true, false, true, none, [], []⟩), (3, ⟨true, true, false, true, none, [], []⟩)]
  mapRelay := ∅
  vRelayExpiration := []
  mempool := ∅

def stemTx : CTransaction (List Nat) := samplePayment 1 ⟨[7], 0⟩ [⟨COIN, []⟩]

/-- The peer 3 sends the transaction. -/
def stemArrival : RelayEvent (List Nat) Nat Unit :=
  .tx stemMoment stemMoment 3 stemTx true

/-- The stem peer asks for the transaction. -/
def stemFetch : RelayEvent (List Nat) Nat Unit :=
  .getData 1 [.tx (stemTx.getHash transparent)]

theorem run_private_fetch : (after listenedWorld listenedNode [stemArrival]).Private
    (StemRun.step listenedWorld (after listenedWorld listenedNode [stemArrival]) stemFetch).1 := by
  have hfits : ∀ pre event post, [stemArrival, stemFetch] = pre ++ event :: post →
      (after listenedWorld listenedNode pre).Fits listenedWorld event := by
    intro pre event post hsplit
    cases pre with
    | nil =>
      obtain ⟨rfl, -⟩ := List.cons.inj hsplit
      refine fun _ => .inr fun p pnode hmem hqueue => ?_
      have hempty : ∀ entry ∈ ((after listenedWorld listenedNode []).hear listenedWorld 3
          (stemTx.getHash transparent)).node.vNodes, entry.2.vInventoryToSend = [] := by
        decide +kernel
      rw [hempty (p, pnode) hmem] at hqueue
      cases hqueue
    | cons first pre =>
      obtain ⟨rfl, hrest⟩ := List.cons.inj hsplit
      cases pre with
      | nil =>
        obtain ⟨rfl, -⟩ := List.cons.inj hrest
        intro item hitem
        obtain rfl := mem_singleton.mp hitem
        exact fun _ => .inl (.inl (by decide +kernel))
      | cons second pre =>
        obtain ⟨-, hnil⟩ := List.cons.inj hrest
        simp at hnil
  exact run_private rfl hfits [stemArrival] stemFetch [] rfl

/-- **The listener asks for the memory pool**, and learns of the transaction. -/
theorem mempool_reveals_stem : ¬(after listenedWorld listenedNode [stemArrival]).Private
      (StemRun.step listenedWorld (after listenedWorld listenedNode [stemArrival]) (.mempool 2)).1 := by
  intro hprivate
  have hlearn := hprivate 2 (.inv [stemTx.getHash transparent]) (by decide +kernel)
    (stemTx.getHash transparent) mem_cons_self ⟨by decide +kernel, by decide +kernel⟩
  rw [MayLearn] at hlearn
  revert hlearn
  decide +kernel

end StemRun

end MaryJaneCoin
