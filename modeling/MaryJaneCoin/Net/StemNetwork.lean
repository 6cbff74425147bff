import MaryJaneCoin.Net.StemPrivacy

/-!
# Stem forwards across a network

Nodes that run the relay, with the messages between them on their way.  Each message
carries, for the eyes of the proof only, how often its transaction has been forwarded
in stem phase on the way here.  The nodes do not know that number: `AddStemTx` is told
one hop wherever the transaction comes from.
-/

namespace MaryJaneCoin

open Std List CDandelionRouter StemRun

/-- What a packet holds. -/
inductive PacketBody (H : Type) where
  | inv (hash : H)
  | getdata (hash : H)
  | tx (tx : CTransaction H)

/-- A message on its way, with the stem forward that it is part of. -/
structure Packet (H ν : Type) where
  src : ν
  dst : ν
  body : PacketBody H
  hops : Option Nat

/-- A network: an announcement that waits in a queue counts as on its way.  `accepted`
and `arrived` say after how many stem forwards a node accepted, or was sent, a
transaction, the last first. -/
structure StemNet (H ν φ : Type) [Ord H] where
  nodes : ν → RelayNode H ν φ
  mail : List (Packet H ν)
  accepted : List (ν × H × Nat)
  arrived : List (ν × H × Nat)

/-- What happens in a network. -/
inductive NetEvent (H ν φ : Type) where
  /-- A packet is delivered.  `fTakes` says whether its receiver wants what is announced,
  or whether its memory pool accepts what is sent. -/
  | deliver (i : Nat) (now now' : Moment) (fTakes : Bool)
  | orphan (n : ν) (now now' : Moment) (tx : CTransaction H)
  | relay (n : ν) (now : Moment) (tx : CTransaction H)
  | relayWallet (n : ν) (now now' : Moment) (tx : CTransaction H)
  | embargo (n : ν) (now : Moment)
  | accept (n : ν) (tx : CTransaction H)
  | remove (n : ν) (hash : H)
  /-- The connections of a node change. -/
  | connect (n : ν) (vNodes : List (ν × CNode H φ))

/-- The number of stem forwards that a log has for the transaction at the node. -/
def hopsIn {H ν : Type} [DecidableEq H] [DecidableEq ν] (log : List (ν × H × Nat)) (n : ν)
    (hash : H) : Nat :=
  (log.find? fun (m, h, _) => m = n ∧ h = hash).elim 0 fun (_, _, hops) => hops

namespace RelayNode

variable {H ν φ : Type} [Ord H] [TransOrd H] (world : RelayWorld H φ)

/-- The node fluffs the transaction that it accepts: it has fluffed it before, has no stem
peers, draws a number below the percentage, or has no stem peers when it relays. -/
def FluffsAt (node : RelayNode H ν φ) (now now' : Moment) (hash : H) : Prop :=
  hash ∈ node.router.setFluffedTxs ∨ node.router.vStemPeers = [] ∨
    getRand (now.rand 0) 100 < DANDELION_FLUFF_PERCENT ∨
    ((node.router.maybeRotateEpoch (node.routerEnv world now)).maybeRotateEpoch
      (node.routerEnv world now')).vStemPeers = []

end RelayNode

namespace StemNet

variable {H ν φ : Type} [Ord H] [TransOrd H] [DecidableEq H] [DecidableEq ν] (world : RelayWorld H φ)

/-- What waits in the queues goes on its way. -/
def flush (vNodes : List (ν × CNode H φ)) : List (ν × H) × List (ν × CNode H φ) :=
  (vNodes.flatMap fun (p, pnode) =>
      (pnode.sendInventory world.nMaxSize true (fun _ => false) pnode.vInventoryToSend).1.map (p, ·),
    vNodes.map fun (p, pnode) =>
      (p, { (pnode.sendInventory world.nMaxSize true (fun _ => false) pnode.vInventoryToSend).2.2 with
            vInventoryToSend := [] }))

/-- The node as it is now, with what it announces on its way. -/
def emit (n : ν) (hops : Option Nat) (node : RelayNode H ν φ) (net : StemNet H ν φ) : StemNet H ν φ :=
  let (sent, vNodes) := flush world node.vNodes
  { net with
    nodes := Function.update net.nodes n { node with vNodes := vNodes }
    mail := net.mail ++ sent.map fun (p, hash) => ⟨n, p, .inv hash, hops⟩ }

/-- The node after `RelayTransaction`.  What it announces to a stem peer is one more
stem forward of the transaction. -/
def emitRelayed (n : ν) (hash : H) (net : StemNet H ν φ) (result : Option ν × RelayNode H ν φ) :
    StemNet H ν φ :=
  net.emit world n (result.1.map fun _ => hopsIn net.accepted n hash + 1) result.2

/-- The memory pool of the node accepted the transaction, after so many stem forwards. -/
def acceptTx (n : ν) (now now' : Moment) (tx : CTransaction H) (hops : Nat) (net : StemNet H ν φ) :
    StemNet H ν φ :=
  let hash := tx.getHash world.toSha256
  ({ net with accepted := (n, hash, hops) :: net.accepted }).emitRelayed world n hash
    ((net.nodes n).routeAccepted world now now' tx)

/-- A node with something changed. -/
def setNode (n : ν) (node : RelayNode H ν φ) (net : StemNet H ν φ) : StemNet H ν φ :=
  { net with nodes := Function.update net.nodes n node }

/-- `AddInventoryKnown`, for the peer that a packet comes from. -/
def hear (packet : Packet H ν) (hash : H) (net : StemNet H ν φ) : StemNet H ν φ :=
  net.setNode packet.dst
    { net.nodes packet.dst with
      vNodes := RelayNode.atPeer packet.src (CNode.addInventoryKnown world.nMaxSize · hash)
        (net.nodes packet.dst).vNodes }

/-- A packet arrives. -/
def receive (packet : Packet H ν) (now now' : Moment) (fTakes : Bool) (net : StemNet H ν φ) :
    StemNet H ν φ :=
  match packet.body with
  | .inv hash =>
    let net := net.hear world packet hash
    if fTakes then
      { net with mail := net.mail ++ [⟨packet.dst, packet.src, .getdata hash, packet.hops⟩] }
    else net
  | .getdata hash =>
    let node := net.nodes packet.dst
    match node.mapRelay[hash]?.or node.mempool[hash]? with
    | none => net
    | some tx => { net with mail := net.mail ++ [⟨packet.dst, packet.src, .tx tx, packet.hops⟩] }
  | .tx tx =>
    let hash := tx.getHash world.toSha256
    let net := net.hear world packet hash
    let net := { net with arrived := (packet.dst, hash, packet.hops.getD 0) :: net.arrived }
    if fTakes then net.acceptTx world packet.dst now now' tx (packet.hops.getD 0) else net

def step (net : StemNet H ν φ) : NetEvent H ν φ → StemNet H ν φ
  | .deliver i now now' fTakes =>
    match net.mail[i]? with
    | none => net
    | some packet => ({ net with mail := net.mail.eraseIdx i }).receive world packet now now' fTakes
  | .orphan n now now' tx =>
    net.acceptTx world n now now' tx (hopsIn net.arrived n (tx.getHash world.toSha256))
  | .relay n now tx =>
    let hash := tx.getHash world.toSha256
    net.emitRelayed world n hash ((net.nodes n).relayTransaction world now tx hash)
  | .relayWallet n now now' tx =>
    let hash := tx.getHash world.toSha256
    let node := net.nodes n
    let node := { node with router := node.router.addLocalTx (node.routerEnv world now) hash }
    net.emitRelayed world n hash (node.relayTransaction world now' tx hash)
  | .embargo n now => net.emit world n none ((net.nodes n).fluffEmbargoed world now)
  | .accept n tx =>
    net.setNode n { net.nodes n with
                    mempool := (net.nodes n).mempool.insert (tx.getHash world.toSha256) tx }
  | .remove n hash =>
    net.setNode n { net.nodes n with mempool := (net.nodes n).mempool.erase hash }
  | .connect n vNodes =>
    net.setNode n { net.nodes n with
                    vNodes := vNodes.map fun (p, pnode) => (p, { pnode with vInventoryToSend := [] }) }

/-- The transaction is in fluff phase at the node. -/
def Fluffed (net : StemNet H ν φ) (n : ν) (hash : H) : Prop :=
  hash ∈ (net.nodes n).router.setFluffedTxs

/-- **The stem is bounded**: a node that accepted a transaction after
`DANDELION_MAX_STEM_HOPS` stem forwards has it in fluff phase, and no further stem
forward of it is on its way. -/
structure Bounded (net : StemNet H ν φ) : Prop where
  fluffed : ∀ n hash hops, (n, hash, hops) ∈ net.accepted → DANDELION_MAX_STEM_HOPS ≤ hops →
    net.Fluffed n hash
  forwards : ∀ packet ∈ net.mail, ∀ hops, packet.hops = some hops → (hops : Int) ≤ DANDELION_MAX_STEM_HOPS

/-- **The condition on an event**: a node that accepts a transaction after
`DANDELION_MAX_STEM_HOPS` stem forwards fluffs it. -/
def Fits (net : StemNet H ν φ) : NetEvent H ν φ → Prop
  | .deliver i now now' fTakes => ∀ packet tx, net.mail[i]? = some packet → packet.body = .tx tx →
      fTakes = true → DANDELION_MAX_STEM_HOPS ≤ packet.hops.getD 0 → RelayNode.FluffsAt world
      ((net.hear world packet (tx.getHash world.toSha256)).nodes packet.dst) now now'
        (tx.getHash world.toSha256)
  | .orphan n now now' tx =>
    DANDELION_MAX_STEM_HOPS ≤ hopsIn net.arrived n (tx.getHash world.toSha256) →
    RelayNode.FluffsAt world (net.nodes n) now now' (tx.getHash world.toSha256)
  | _ => True

end StemNet

namespace RelayNode

variable {H ν φ : Type} [Ord H] [TransOrd H] [DecidableEq H] [DecidableEq ν] [LawfulEqOrd H]
  {world : RelayWorld H φ} {node : RelayNode H ν φ} {now now' : Moment} {tx : CTransaction H}
  {hash fluffed : H}

/-- What is stored about the transactions of a node: each is in its stem phase and counts
one hop at most. -/
structure Calm (node : RelayNode H ν φ) : Prop where
  allStem : node.router.AllStem
  hopsLow : node.router.HopsLow

omit [DecidableEq H] [DecidableEq ν] [LawfulEqOrd H] in
theorem Calm.markFluffed (h : node.Calm) {after : RelayNode H ν φ}
    (hrouter : after.router = node.router.markFluffed hash) : after.Calm := by
  constructor <;> rw [hrouter]
  · exact allStem_markFluffed h.allStem
  · exact h.hopsLow.markFluffed

/-- `RelayTransaction` keeps what was fluffed, and the phases. -/
theorem relayTransaction_fluffed (h : node.Calm) :
      (node.relayTransaction world now tx hash).2.Calm ∧ (fluffed ∈ node.router.setFluffedTxs →
        fluffed ∈ (node.relayTransaction world now tx hash).2.router.setFluffedTxs) := by
  have hrotated : (node.router.maybeRotateEpoch (node.routerEnv world now)).AllStem :=
    allStem_maybeRotateEpoch h.allStem
  have hlow : (node.router.maybeRotateEpoch (node.routerEnv world now)).HopsLow :=
    h.hopsLow.congr maybeRotateEpoch_mapStemTxs
  have hset : (node.router.maybeRotateEpoch (node.routerEnv world now)).setFluffedTxs =
      node.router.setFluffedTxs := maybeRotateEpoch_setFluffedTxs
  have hways := @relayTransaction_cases _ _ _ _ _ _ _ world tx hash node now h.allStem
  rcases hways with ⟨-, stemPeer, -, -, hrouter, -⟩ | ⟨-, -, ⟨-, -, hrouter⟩ | ⟨-, hrouter⟩⟩
  · refine ⟨⟨?_, ?_⟩, ?_⟩ <;> rw [hrouter]
    · exact hrotated
    · exact hlow
    · rw [hset]
      exact id
  · refine ⟨⟨?_, ?_⟩, ?_⟩ <;> rw [hrouter]
    · exact allStem_markFluffed hrotated
    · exact hlow.markFluffed
    · rw [mem_markFluffed, hset]
      exact .inr
  · refine ⟨⟨?_, ?_⟩, ?_⟩ <;> rw [hrouter]
    · exact h.allStem
    · exact h.hopsLow
    · exact id

omit [LawfulEqOrd H] in
theorem notMem_of_stemPeer (h : node.Calm) {stemPeer : ν}
    (hpeer : (node.relayTransaction world now tx hash).1 = some stemPeer) :
    hash ∉ (node.relayTransaction world now tx hash).2.router.setFluffedTxs := by
  have hways := @relayTransaction_cases _ _ _ _ _ _ _ world tx hash node now h.allStem
  rcases hways with ⟨hin, -, -, -, hrouter, -⟩ | ⟨hnone, -⟩
  · rw [hrouter, maybeRotateEpoch_setFluffedTxs]
    exact hin.2
  · rw [hnone] at hpeer
    cases hpeer

theorem relayTransaction_fluffed_iff (h : node.Calm) (hin : node.router.InStem hash) :
    hash ∈ (node.relayTransaction world now tx hash).2.router.setFluffedTxs ↔
      (node.router.maybeRotateEpoch (node.routerEnv world now)).vStemPeers = [] := by
  rw [← @getStemPeer_eq_none_iff _ _ _ _ (node.routerEnv world now) node.router hash]
  have hways := @relayTransaction_cases _ _ _ _ _ _ _ world tx hash node now h.allStem
  rcases hways with ⟨-, stemPeer, hpeer, -, hrouter, -⟩ | ⟨-, -, ⟨-, hpeer, hrouter⟩ | ⟨hout, -⟩⟩
  · rw [hrouter, maybeRotateEpoch_setFluffedTxs]
    refine iff_of_false hin.2 fun hnone => ?_
    rw [hnone] at hpeer
    cases hpeer
  · rw [hrouter]
    exact iff_of_true (mem_markFluffed.mpr (.inl rfl)) hpeer
  · exact absurd hin hout

/-- **What the handler for `tx` does to the phase** of a transaction that it accepts. -/
theorem routeAccepted_fluffed (h : node.Calm) : (node.routeAccepted world now now' tx).2.Calm ∧
      (∀ fluffed ∈ node.router.setFluffedTxs,
        fluffed ∈ (node.routeAccepted world now now' tx).2.router.setFluffedTxs) ∧
      (tx.getHash world.toSha256 ∈ (node.routeAccepted world now now' tx).2.router.setFluffedTxs ↔
        FluffsAt world node now now' (tx.getHash world.toSha256)) ∧
      ∀ stemPeer, (node.routeAccepted world now now' tx).1 = some stemPeer →
        tx.getHash world.toSha256 ∉ (node.routeAccepted world now now' tx).2.router.setFluffedTxs := by
  generalize hhash : tx.getHash world.toSha256 = hash
  rw [routeAccepted, hhash]
  by_cases hfluff : node.router.shouldFluff (now.rand 0) hash = true
  · simp only [if_pos hfluff]
    generalize hrouted : (RelayNode.mk _ _ _ _ _ : RelayNode H ν φ) = routed
    have hrouter : routed.router = node.router.markFluffed hash := by rw [← hrouted]
    have hcalm : routed.Calm := h.markFluffed hrouter
    have hmarked : hash ∈ routed.router.setFluffedTxs := by
      rw [hrouter]
      exact mem_markFluffed.mpr (.inl rfl)
    refine ⟨(@relayTransaction_fluffed _ _ _ _ _ _ _ _ world routed now' tx hash hash hcalm).1,
      fun fluffed hmem => ?_, ?_, fun stemPeer => notMem_of_stemPeer hcalm⟩
    · refine (relayTransaction_fluffed hcalm).2 ?_
      rw [hrouter]
      exact mem_markFluffed.mpr (.inr hmem)
    · exact iff_of_true ((relayTransaction_fluffed hcalm).2 hmarked)
        (.inr ((h.hopsLow.shouldFluff_iff.mp hfluff).imp_right .inl))
  · simp only [if_neg hfluff]
    generalize hrouted : (RelayNode.mk _ _ _ _ _ : RelayNode H ν φ) = routed
    have hrouter : routed.router = node.router.addStemTx (node.routerEnv world now) hash 1 := by
      rw [← hrouted]
      rfl
    have henv : routed.routerEnv world now' = node.routerEnv world now' := by
      rw [← hrouted]
      rfl
    have hcalm : routed.Calm := by
      constructor <;> rw [hrouter]
      · exact (@addStemTx_stem _ _ _ _ _ _ _ _ _ _ hash h.allStem).1
      · exact h.hopsLow.addStemTx le_rfl
    have hset : routed.router.setFluffedTxs = node.router.setFluffedTxs := by
      rw [hrouter]
      exact addStemTx_setFluffedTxs
    refine ⟨(@relayTransaction_fluffed _ _ _ _ _ _ _ _ world routed now' tx hash hash hcalm).1,
      fun fluffed hmem => ?_, ?_, fun stemPeer => notMem_of_stemPeer hcalm⟩
    · exact (relayTransaction_fluffed hcalm).2 (hset ▸ hmem)
    · by_cases hbefore : hash ∈ node.router.setFluffedTxs
      · exact iff_of_true ((relayTransaction_fluffed hcalm).2 (hset ▸ hbefore)) (.inl hbefore)
      · -- The transaction is in its stem phase, so it depends on the stem peers alone.
        have hin : routed.router.InStem hash := by
          rw [hrouter]
          exact inStem_addStemTx hbefore
        rw [relayTransaction_fluffed_iff hcalm hin, henv, hrouter, addStemTx_vStemPeers]
        rw [h.hopsLow.shouldFluff_iff, not_or] at hfluff
        rw [FluffsAt, or_iff_right hbefore, or_iff_right hfluff.1, or_iff_right hfluff.2]

theorem fluffEmbargoed_fluffed (h : node.Calm) : (node.fluffEmbargoed world now).Calm ∧
      ∀ fluffed ∈ node.router.setFluffedTxs,
        fluffed ∈ (node.fluffEmbargoed world now).router.setFluffedTxs := by
  rw [fluffEmbargoed]
  generalize node.router.getEmbargoedTxs now.nNow = hashes
  induction hashes generalizing node with
  | nil => exact ⟨h, fun _ => id⟩
  | cons hash hashes ih =>
    rw [foldl_cons]
    dsimp only
    have hmarked : ∀ fluffed ∈ node.router.setFluffedTxs,
        fluffed ∈ (node.router.markFluffed hash).setFluffedTxs := fun fluffed hmem =>
      mem_markFluffed.mpr (.inr hmem)
    have hcalm : Calm { node with router := node.router.markFluffed hash } := h.markFluffed rfl
    cases node.mempool[hash]? with
    | none => exact ⟨(ih hcalm).1, fun fluffed hmem => (ih hcalm).2 fluffed (hmarked fluffed hmem)⟩
    | some tx =>
      have hrelayed := fun fluffed =>
        @relayTransaction_fluffed _ _ _ _ _ _ _ _ world _ now tx hash fluffed hcalm
      have hrest := ih (hrelayed hash).1
      exact ⟨hrest.1, fun fluffed hmem => hrest.2 fluffed ((hrelayed fluffed).2 (hmarked fluffed hmem))⟩

end RelayNode

namespace StemNet

variable {H ν φ : Type} [Ord H] [TransOrd H] [DecidableEq H] [DecidableEq ν]
  {world : RelayWorld H φ} {net after : StemNet H ν φ} {n : ν} {hash : H} {now now' : Moment}
  {tx : CTransaction H} {node : RelayNode H ν φ} {hops : Option Nat}

/-- The network stays calm, and what is fluffed stays fluffed. -/
structure Keeps (net after : StemNet H ν φ) : Prop where
  calm : (∀ n, (net.nodes n).Calm) → ∀ n, (after.nodes n).Calm
  fluffed : ∀ n hash, net.Fluffed n hash → after.Fluffed n hash

section

omit [DecidableEq H] [DecidableEq ν]

theorem Keeps.trans {last : StemNet H ν φ} (h : net.Keeps after) (hlast : after.Keeps last) :
    net.Keeps last :=
  ⟨fun hcalm => hlast.calm (h.calm hcalm), fun n hash hfluffed =>
    hlast.fluffed n hash (h.fluffed n hash hfluffed)⟩

theorem Keeps.of_routers (h : ∀ n, (after.nodes n).router = (net.nodes n).router) : net.Keeps after := by
  constructor
  · intro hcalm n
    constructor <;> rw [h]
    · exact (hcalm n).allStem
    · exact (hcalm n).hopsLow
  · intro n hash hfluffed
    rw [Fluffed, h]
    exact hfluffed

theorem Bounded.of_keeps (h : net.Bounded) (hkeeps : net.Keeps after)
    (haccepted : after.accepted = net.accepted) (hmail : ∀ packet ∈ after.mail, packet ∈ net.mail ∨
      ∀ hops, packet.hops = some hops → (hops : Int) ≤ DANDELION_MAX_STEM_HOPS) : after.Bounded := by
  constructor
  · intro n hash hops hmem hmax
    rw [haccepted] at hmem
    exact hkeeps.fluffed n hash (h.fluffed n hash hops hmem hmax)
  · intro packet hmem
    exact (hmail packet hmem).elim (h.forwards packet) id

end

omit [DecidableEq H] in
theorem setNode_keeps (hrouter : node.router = (net.nodes n).router) : net.Keeps (net.setNode n node) := by
  refine Keeps.of_routers fun m => ?_
  rw [setNode]
  dsimp only
  by_cases hm : m = n
  · subst hm
    rw [Function.update_self, hrouter]
  · rw [Function.update_of_ne hm]

omit [TransOrd H] in
theorem emit_router (m : ν) : ((net.emit world n hops node).nodes m).router = if m =
    n then node.router else (net.nodes m).router := by
  rw [emit]
  by_cases hm : m = n
  · subst hm
    rw [if_pos rfl]
    simp only [Function.update_self]
  · rw [if_neg hm]
    simp only [Function.update_of_ne hm]

theorem emit_keeps (hcalm : (net.nodes n).Calm → node.Calm)
    (hfluffed : ∀ fluffed ∈ (net.nodes n).router.setFluffedTxs,
    fluffed ∈ node.router.setFluffedTxs) : net.Keeps (net.emit world n hops node) := by
  constructor
  · intro hall m
    have hnode : (if m = n then node else net.nodes m).Calm := by
      split
      · exact hcalm (hall n)
      · exact hall m
    constructor <;> rw [emit_router, ← apply_ite RelayNode.router]
    · exact hnode.allStem
    · exact hnode.hopsLow
  · intro m fluffed hmem
    rw [Fluffed, emit_router]
    split
    · rename_i hm
      subst hm
      exact hfluffed fluffed hmem
    · exact hmem

omit [TransOrd H] in
theorem mem_mail_emit {packet : Packet H ν} (h : packet ∈ (net.emit world n hops node).mail) :
    packet ∈ net.mail ∨ packet.hops = hops := by
  rw [emit] at h
  refine (mem_append.mp h).imp_right fun hnew => ?_
  obtain ⟨⟨p, sent⟩, -, rfl⟩ := mem_map.mp hnew
  rfl

omit [Ord H] [TransOrd H] in
theorem hopsIn_lt {log : List (ν × H × Nat)}
    (hlow : ∀ hops, (n, hash, hops) ∈ log → (hops : Int) < DANDELION_MAX_STEM_HOPS) :
    ((hopsIn log n hash + 1 : Nat) : Int) ≤ DANDELION_MAX_STEM_HOPS := by
  have hmax : DANDELION_MAX_STEM_HOPS = 10 := rfl
  rw [hopsIn]
  cases hfind : log.find? fun (m, h, _) => m = n ∧ h = hash with
  | none =>
    dsimp only [Option.elim]
    omega
  | some entry =>
    obtain ⟨m, h, hops⟩ := entry
    have hhere := find?_some hfind
    obtain ⟨rfl, rfl⟩ : m = n ∧ h = hash := by simpa using hhere
    have hlt := hlow hops (mem_of_find?_eq_some hfind)
    dsimp only [Option.elim]
    omega

variable [LawfulEqOrd H]

omit [LawfulEqOrd H] in
/-- **`RelayTransaction` in a network**: what it forwards in stem phase was accepted after
less than the most stem forwards. -/
theorem emitRelayed_forwards {result : Option ν × RelayNode H ν φ}
    (hfluffed : ∀ hops, (n, hash, hops) ∈ net.accepted → DANDELION_MAX_STEM_HOPS ≤ (hops : Int) →
      hash ∈ result.2.router.setFluffedTxs)
    (hpeer : ∀ stemPeer, result.1 = some stemPeer → hash ∉ result.2.router.setFluffedTxs) :
    ∀ packet ∈ (net.emitRelayed world n hash result).mail, packet ∈ net.mail ∨
      ∀ hops, packet.hops = some hops → (hops : Int) ≤ DANDELION_MAX_STEM_HOPS := by
  intro packet hmem
  rw [emitRelayed] at hmem
  refine (mem_mail_emit hmem).imp_right fun hhops hops hsome => ?_
  cases hresult : result.1 with
  | none => rw [hhops, hresult] at hsome; cases hsome
  | some stemPeer =>
    rw [hhops, hresult] at hsome
    cases hsome
    refine hopsIn_lt fun hops hin => ?_
    exact lt_of_not_ge fun hmax => hpeer stemPeer hresult (hfluffed hops hin hmax)

theorem relay_bounded (h : net.Bounded) (hnode : node.Calm)
    (hset : node.router.setFluffedTxs = (net.nodes n).router.setFluffedTxs) :
    net.Keeps (net.emitRelayed world n hash (node.relayTransaction world now tx hash)) ∧
      (net.emitRelayed world n hash (node.relayTransaction world now tx hash)).Bounded := by
  have hrelayed := fun fluffed =>
    @RelayNode.relayTransaction_fluffed _ _ _ _ _ _ _ _ world node now tx hash fluffed hnode
  have hkeeps : net.Keeps (net.emitRelayed world n hash (node.relayTransaction world now tx hash)) :=
    emit_keeps (fun _ => (hrelayed hash).1) fun fluffed hmem => (hrelayed fluffed).2 (hset ▸ hmem)
  refine ⟨hkeeps, h.of_keeps hkeeps rfl (emitRelayed_forwards (fun hops hin hmax => ?_) ?_)⟩
  · exact (hrelayed hash).2 (hset ▸ h.fluffed n hash hops hin hmax)
  · exact fun stemPeer => RelayNode.notMem_of_stemPeer hnode

/-- **Accepting keeps the bound exactly where it fits.** -/
theorem accept_bounded {hops : Nat} (h : net.Bounded) (hcalm : (net.nodes n).Calm) :
    net.Keeps (net.acceptTx world n now now' tx hops) ∧ ((net.acceptTx world n now now' tx hops).Bounded ↔
        (DANDELION_MAX_STEM_HOPS ≤ (hops : Int) →
          RelayNode.FluffsAt world (net.nodes n) now now' (tx.getHash world.toSha256))) := by
  obtain ⟨hnode, hset, hiff, hpeer⟩ :=
    @RelayNode.routeAccepted_fluffed _ _ _ _ _ _ _ _ world _ now now' tx hcalm
  have hlogged : net.Keeps
      { net with accepted := (n, tx.getHash world.toSha256, hops) :: net.accepted } :=
    Keeps.of_routers fun _ => rfl
  have hkeeps : net.Keeps (net.acceptTx world n now now' tx hops) :=
    hlogged.trans (emit_keeps (fun _ => hnode) hset)
  have hhere : (net.acceptTx world n now now' tx hops).Fluffed n (tx.getHash world.toSha256) ↔
      RelayNode.FluffsAt world (net.nodes n) now now' (tx.getHash world.toSha256) := by
    rw [← hiff, Fluffed, acceptTx, emitRelayed, emit_router, if_pos rfl]
  refine ⟨hkeeps, fun hbounded hmax => ?_, fun hfits => ?_⟩
  · exact hhere.mp (hbounded.fluffed n _ hops mem_cons_self hmax)
  · have hold : ∀ hops, (n, tx.getHash world.toSha256, hops) ∈ net.accepted →
        DANDELION_MAX_STEM_HOPS ≤ (hops : Int) → _ := fun hops hin hmax =>
      hset _ (h.fluffed n (tx.getHash world.toSha256) hops hin hmax)
    constructor
    · intro m hash k hmem hmax
      rcases List.mem_cons.mp hmem with heq | hin
      · cases heq
        exact hhere.mpr (hfits hmax)
      · exact hkeeps.fluffed m hash (h.fluffed m hash k hin hmax)
    · intro packet hmem
      refine (emitRelayed_forwards (fun k hin hmax => ?_) hpeer packet hmem).elim (h.forwards packet) id
      rcases List.mem_cons.mp hin with heq | hin
      · cases heq
        exact hiff.mpr (hfits hmax)
      · exact hold k hin hmax

omit [LawfulEqOrd H] in
theorem hear_keeps {packet : Packet H ν} : net.Keeps (net.hear world packet hash) :=
  setNode_keeps rfl

omit [DecidableEq H] [DecidableEq ν] [LawfulEqOrd H] in
theorem answer_bounded {packet reply : Packet H ν} (h : net.Bounded)
    (hold : ∀ hops, packet.hops = some hops → (hops : Int) ≤ DANDELION_MAX_STEM_HOPS)
    (hreply : reply.hops = packet.hops) : Bounded { net with mail := net.mail ++ [reply] } := by
  refine h.of_keeps (Keeps.of_routers fun _ => rfl) rfl fun sent hmem => ?_
  refine (mem_append.mp hmem).imp_right fun hlast => ?_
  rw [mem_singleton.mp hlast, hreply]
  exact hold

/-- **Receiving keeps the bound exactly where it fits.** -/
theorem receive_bounded {packet : Packet H ν} {fTakes : Bool} (h : net.Bounded)
    (hcalm : ∀ n, (net.nodes n).Calm)
    (hpacket : ∀ hops, packet.hops = some hops → (hops : Int) ≤ DANDELION_MAX_STEM_HOPS) :
    net.Keeps (net.receive world packet now now' fTakes) ∧
      ((net.receive world packet now now' fTakes).Bounded ↔ ∀ tx, packet.body = .tx tx →
        fTakes = true → DANDELION_MAX_STEM_HOPS ≤ (packet.hops.getD 0 : Int) →
        RelayNode.FluffsAt world ((net.hear world packet (tx.getHash world.toSha256)).nodes packet.dst)
          now now' (tx.getHash world.toSha256)) := by
  have hquiet : ∀ hash, (net.hear world packet hash).Bounded := fun hash =>
    h.of_keeps hear_keeps rfl fun _ => .inl
  rw [receive]
  cases hbody : packet.body with
  | inv hash =>
    cases fTakes with
    | false => exact ⟨hear_keeps, iff_of_true (hquiet hash) fun tx htx => nomatch htx⟩
    | true =>
      refine ⟨hear_keeps.trans (Keeps.of_routers fun _ => rfl), iff_of_true ?_ fun tx htx => nomatch htx⟩
      exact answer_bounded (hquiet hash) hpacket rfl
  | getdata hash =>
    dsimp only
    split
    · exact ⟨Keeps.of_routers fun _ => rfl, iff_of_true h fun tx htx => nomatch htx⟩
    · refine ⟨Keeps.of_routers fun _ => rfl, iff_of_true ?_ fun tx htx => nomatch htx⟩
      exact answer_bounded h hpacket rfl
  | tx tx =>
    generalize hheard : net.hear world packet (tx.getHash world.toSha256) = heard
    have hkeeps : net.Keeps heard := hheard ▸ hear_keeps
    generalize hlogged : ({ heard with
      arrived := (packet.dst, tx.getHash world.toSha256, packet.hops.getD 0) :: heard.arrived } :
        StemNet H ν φ) = logged
    have hsame : heard.Keeps logged := by
      rw [← hlogged]
      exact Keeps.of_routers fun _ => rfl
    have hbounded : logged.Bounded := by
      rw [← hlogged]
      rw [← hheard]
      exact (hquiet (tx.getHash world.toSha256)).of_keeps (Keeps.of_routers fun _ => rfl) rfl fun _ => .inl
    have hnodes : heard.nodes = logged.nodes := by rw [← hlogged]
    dsimp only
    rw [hheard, hlogged]
    cases fTakes with
    | false => exact ⟨hkeeps.trans hsame, iff_of_true hbounded fun _ _ hfalse => nomatch hfalse⟩
    | true =>
      obtain ⟨haccept, hiff⟩ := accept_bounded hbounded ((hkeeps.trans hsame).calm hcalm packet.dst)
      refine ⟨(hkeeps.trans hsame).trans haccept, hiff.trans ?_⟩
      constructor
      · intro hfits tx' htx' _ hmax
        cases htx'
        rw [hheard, hnodes]
        exact hfits hmax
      · intro hfits hmax
        rw [← hnodes, ← hheard]
        exact hfits tx rfl rfl hmax

/-- **One event** keeps the bound exactly where it fits. -/
theorem step_bounded (h : net.Bounded) (hcalm : ∀ n, (net.nodes n).Calm) (event : NetEvent H ν φ) :
    net.Keeps (net.step world event) ∧ ((net.step world event).Bounded ↔ net.Fits world event) := by
  cases event with
  | deliver i now now' fTakes =>
    rw [step, Fits]
    cases hmail : net.mail[i]? with
    | none =>
      refine ⟨Keeps.of_routers fun _ => rfl, iff_of_true h fun packet tx hnone => ?_⟩
      cases hnone
    | some packet =>
      dsimp only
      generalize htaken : ({ net with mail := net.mail.eraseIdx i } : StemNet H ν φ) = taken
      have hkeeps : net.Keeps taken := by
        rw [← htaken]
        exact Keeps.of_routers fun _ => rfl
      have hbounded : taken.Bounded := by
        refine h.of_keeps hkeeps (by rw [← htaken]) fun sent hmem => .inl ?_
        rw [← htaken] at hmem
        exact mem_of_mem_eraseIdx hmem
      have hnodes : ∀ hash, (taken.hear world packet hash).nodes = (net.hear world packet hash).nodes := by
        rw [← htaken]
        exact fun _ => rfl
      obtain ⟨hreceive, hiff⟩ := @receive_bounded _ _ _ _ _ _ _ world taken now now' _ packet fTakes
        hbounded (hkeeps.calm hcalm) (h.forwards packet (mem_of_getElem? hmail))
      refine ⟨hkeeps.trans hreceive, hiff.trans ?_⟩
      constructor
      · intro hfits packet' tx hpacket
        cases hpacket
        rw [← hnodes]
        exact hfits tx
      · intro hfits tx
        rw [hnodes]
        exact hfits packet tx rfl
  | orphan n now now' tx => exact accept_bounded h (hcalm n)
  | relay n now tx =>
    have hrelay := @relay_bounded _ _ _ _ _ _ _ world net n (tx.getHash world.toSha256) now tx _ _ h
      (hcalm n) rfl
    exact ⟨hrelay.1, iff_of_true hrelay.2 trivial⟩
  | relayWallet n now now' tx =>
    have hlocal : RelayNode.Calm { net.nodes n with
        router := (net.nodes n).router.addLocalTx ((net.nodes n).routerEnv world now)
          (tx.getHash world.toSha256) } :=
      ⟨(@addLocalTx_stem _ _ _ _ _ _ _ _ _ (tx.getHash world.toSha256)
        (hcalm n).allStem).1, (hcalm n).hopsLow.addLocalTx⟩
    have hrelay := @relay_bounded _ _ _ _ _ _ _ world net n
      (tx.getHash world.toSha256) now' tx _ _ h hlocal addLocalTx_setFluffedTxs
    exact ⟨hrelay.1, iff_of_true hrelay.2 trivial⟩
  | embargo n now =>
    have hembargo := @RelayNode.fluffEmbargoed_fluffed _ _ _ _ _ _ _ _ world _ now (hcalm n)
    have hkeeps : net.Keeps (net.step world (.embargo n now)) := emit_keeps (fun _ => hembargo.1) hembargo.2
    refine ⟨hkeeps, iff_of_true (h.of_keeps hkeeps rfl fun packet hmem => ?_) trivial⟩
    refine (mem_mail_emit hmem).imp_right fun hnone hops hsome => ?_
    rw [hnone] at hsome
    cases hsome
  | accept n tx =>
    have hkeeps : net.Keeps (net.step world (.accept n tx)) := setNode_keeps rfl
    exact ⟨hkeeps, iff_of_true (h.of_keeps hkeeps rfl fun _ => .inl) trivial⟩
  | remove n hash =>
    have hkeeps : net.Keeps (net.step world (.remove n hash)) := setNode_keeps rfl
    exact ⟨hkeeps, iff_of_true (h.of_keeps hkeeps rfl fun _ => .inl) trivial⟩
  | connect n vNodes =>
    have hkeeps : net.Keeps (net.step world (.connect n vNodes)) := setNode_keeps rfl
    exact ⟨hkeeps, iff_of_true (h.of_keeps hkeeps rfl fun _ => .inl) trivial⟩

/-- A network in which nothing has happened yet. -/
structure Initial (net : StemNet H ν φ) : Prop where
  mail : net.mail = []
  accepted : net.accepted = []
  arrived : net.arrived = []
  mapStemTxs : ∀ n, (net.nodes n).router.mapStemTxs = ∅
  vInventoryToSend : ∀ n, ∀ entry ∈ (net.nodes n).vNodes, entry.2.vInventoryToSend = []

section

omit [DecidableEq H] [DecidableEq ν] [LawfulEqOrd H]

theorem Initial.calm (h : net.Initial) (n : ν) : (net.nodes n).Calm := by
  constructor <;> intro hash dtx hdtx <;> rw [h.mapStemTxs] at hdtx <;> simp at hdtx

theorem Initial.bounded (h : net.Initial) : net.Bounded := by
  constructor
  · intro n hash hops hmem
    rw [h.accepted] at hmem
    cases hmem
  · intro packet hmem
    rw [h.mail] at hmem
    cases hmem

end

variable (world) in
/-- The network after the events. -/
def run (net : StemNet H ν φ) (events : List (NetEvent H ν φ)) : StemNet H ν φ :=
  events.foldl (step world) net

/-- **In every run the stem is bounded exactly where every event fits.** -/
theorem run_bounded_iff (hinit : net.Initial) (events : List (NetEvent H ν φ)) :
    (∀ pre post, events = pre ++ post → (net.run world pre).Bounded) ↔
      ∀ pre event post, events = pre ++ event :: post → (net.run world pre).Fits world event := by
  have hsnoc : ∀ pre event, net.run world (pre ++ [event]) = (net.run world pre).step world event :=
    fun pre event => foldl_concat _ _ _ _
  constructor
  · intro hbounded pre event post hsplit
    have hcalm : ∀ pre post, events = pre ++ post → ∀ n, ((net.run world pre).nodes n).Calm := by
      intro pre
      induction pre using List.reverseRecOn with
      | nil => exact fun _ _ => hinit.calm
      | append_singleton pre event ih =>
        intro post hsplit
        have hsplit : events = pre ++ event :: post := by simpa using hsplit
        rw [hsnoc]
        exact (step_bounded (hbounded pre _ hsplit) (ih _ hsplit) event).1.calm (ih _ hsplit)
    have hlast := hbounded (pre ++ [event]) post (by simpa using hsplit)
    rw [hsnoc] at hlast
    exact (step_bounded (hbounded pre _ hsplit) (hcalm pre _ hsplit) event).2.mp hlast
  · intro hfits
    have hall : ∀ pre post, events = pre ++ post →
        (∀ n, ((net.run world pre).nodes n).Calm) ∧ (net.run world pre).Bounded := by
      intro pre
      induction pre using List.reverseRecOn with
      | nil => exact fun _ _ => ⟨hinit.calm, hinit.bounded⟩
      | append_singleton pre event ih =>
        intro post hsplit
        have hsplit : events = pre ++ event :: post := by simpa using hsplit
        obtain ⟨hcalm, hbounded⟩ := ih _ hsplit
        obtain ⟨hkeeps, hiff⟩ := @step_bounded _ _ _ _ _ _ _ world _ _ hbounded hcalm event
        rw [hsnoc]
        exact ⟨hkeeps.calm hcalm, hiff.mpr (hfits pre event post hsplit)⟩
    exact fun pre post hsplit => (hall pre post hsplit).2

/-- Each node has the next one as its stem peer. -/
def lineNode (n : Nat) : RelayNode (List Nat) Nat Unit where
  router := ⟨1, [n + 1], ∅, ∅⟩
  vNodes := [(n + 1, ⟨false, true, false, true, none, [], []⟩)]
  mapRelay := ∅
  vRelayExpiration := []
  mempool := ∅

def stemLine : StemNet (List Nat) Nat Unit := ⟨lineNode, [], [], []⟩

/-- The first node relays a transaction of its own, and it goes on so many times: the
announcement, the request and the transaction are delivered. -/
def stemWalk (hops : Nat) : List (NetEvent (List Nat) Nat Unit) :=
  .accept 0 stemTx :: .relayWallet 0 stemMoment stemMoment stemTx ::
    List.replicate (3 * hops) (.deliver 0 stemMoment stemMoment true)

theorem stemLine_initial : stemLine.Initial where
  mail := rfl
  accepted := rfl
  arrived := rfl
  mapStemTxs _ := rfl
  vInventoryToSend n entry hmem := by rw [mem_singleton.mp hmem]

/-- One stem forward. -/
theorem run_bounded_iff_walk : (stemLine.run listenedWorld (stemWalk 4)).Bounded := by
  refine (run_bounded_iff stemLine_initial (stemWalk 4)).mpr (fun pre event post hsplit => ?_)
    (stemWalk 4) [] (append_nil _).symm
  have hfew : ∀ pre ∈ (stemWalk 4).inits, ∀ packet ∈ (stemLine.run listenedWorld pre).mail,
      (packet.hops.getD 0 : Int) < DANDELION_MAX_STEM_HOPS := by decide +kernel
  cases event with
  | deliver i now now' fTakes =>
    intro packet tx hmail _ _ hmax
    have hpre : pre ∈ (stemWalk 4).inits := (mem_inits pre _).mpr ⟨_, hsplit.symm⟩
    exact absurd (hfew pre hpre packet (mem_of_getElem? hmail)) (Int.not_lt.mpr hmax)
  | orphan n now now' tx =>
    have hmem : NetEvent.orphan n now now' tx ∈ stemWalk 4 := by
      rw [hsplit]
      exact mem_append_right _ mem_cons_self
    simp [stemWalk] at hmem
  | _ => trivial

/-- **The tenth forward is not the last**: the node that it reaches forwards the
transaction in stem phase again. -/
theorem stem_goes_on : stemLine.Initial ∧
    ¬(stemLine.run listenedWorld (stemWalk DANDELION_MAX_STEM_HOPS.toNat)).Bounded := by
  refine ⟨stemLine_initial, fun hbounded => ?_⟩
  have hforward : ∃ packet ∈ (stemLine.run listenedWorld (stemWalk 10)).mail,
      packet.hops = some 11 := by decide +kernel
  obtain ⟨packet, hmem, hhops⟩ := hforward
  exact absurd (hbounded.forwards packet hmem 11 hhops) (by decide)

end StemNet

end MaryJaneCoin
