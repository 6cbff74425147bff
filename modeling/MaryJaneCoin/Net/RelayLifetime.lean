import MaryJaneCoin.Net.StemPrivacy

/-!
# How long a transaction is kept for relay

Each call of `RelayTransaction` puts an entry that expires after fifteen minutes into
`vRelayExpiration`, also for a transaction that `mapRelay` has already.  The first of the entries
of a transaction that expires takes it out of the map.
-/

namespace MaryJaneCoin

open Std List StemRun

variable {H ν φ : Type} [Ord H] [TransOrd H]
variable {nNow e : Int} {hash : H} {tx : CTransaction H}

namespace RelayNode

variable {vRelayExpiration : List (Int × H)} {mapRelay : ExtTreeMap H (CTransaction H)}

/-- The entries stand in the order of their expiration. -/
def Ordered (vRelayExpiration : List (Int × H)) : Prop :=
  vRelayExpiration.Pairwise fun entry entry' => entry.1 ≤ entry'.1

theorem mem_expireRelay_queue (h : Ordered vRelayExpiration) : (e, hash) ∈
    (expireRelay nNow vRelayExpiration mapRelay).1 ↔ (e, hash) ∈ vRelayExpiration ∧ nNow ≤ e := by
  induction vRelayExpiration generalizing mapRelay with
  | nil => simp [expireRelay]
  | cons entry rest ih =>
    obtain ⟨nExpiration, first⟩ := entry
    obtain ⟨hfirst, hrest⟩ := pairwise_cons.mp h
    rw [expireRelay]
    split
    · rename_i hexpired
      rw [ih hrest, List.mem_cons]
      grind
    · rename_i hlive
      refine (and_iff_left_of_imp fun hmem => ?_).symm
      rcases List.mem_cons.mp hmem with heq | hlater
      · cases heq
        exact Int.not_lt.mp hlive
      · exact Int.le_trans (Int.not_lt.mp hlive) (hfirst _ hlater)

theorem Ordered.expireRelay (h : Ordered vRelayExpiration) :
    Ordered (RelayNode.expireRelay nNow vRelayExpiration mapRelay).1 := by
  induction vRelayExpiration generalizing mapRelay with
  | nil => exact h
  | cons entry rest ih =>
    rw [RelayNode.expireRelay]
    split
    · exact ih (pairwise_cons.mp h).2
    · exact h

variable [LawfulEqOrd H]

theorem mem_expireRelay_map (h : Ordered vRelayExpiration) :
    hash ∈ (expireRelay nNow vRelayExpiration mapRelay).2 ↔
      hash ∈ mapRelay ∧ ∀ e, (e, hash) ∈ vRelayExpiration → nNow ≤ e := by
  induction vRelayExpiration generalizing mapRelay with
  | nil => simp [expireRelay]
  | cons entry rest ih =>
    obtain ⟨nExpiration, first⟩ := entry
    obtain ⟨hfirst, hrest⟩ := pairwise_cons.mp h
    rw [expireRelay]
    split
    · rename_i hexpired
      rw [ih hrest, ExtTreeMap.mem_erase, ne_eq, LawfulEqOrd.compare_eq_iff_eq]
      grind
    · rename_i hlive
      refine (and_iff_left fun e hmem => ?_).symm
      rcases List.mem_cons.mp hmem with heq | hlater
      · cases heq
        exact Int.not_lt.mp hlive
      · exact Int.le_trans (Int.not_lt.mp hlive) (hfirst _ hlater)

end RelayNode

open RelayNode

/-- What a node keeps for relay: `vRelayExpiration` and `mapRelay`. -/
structure RelayCache (H : Type) [Ord H] where
  vRelayExpiration : List (Int × H)
  mapRelay : ExtTreeMap H (CTransaction H)

/-- A call of `RelayTransaction`, with what else the node holds then. -/
structure RelayCall (H ν φ : Type) [Ord H] where
  now : Moment
  tx : CTransaction H
  hash : H
  found : RelayNode H ν φ

namespace RelayCache

variable [DecidableEq H] [DecidableEq ν] (world : RelayWorld H φ)
    {cache : RelayCache H} {call : RelayCall H ν φ} {calls : List (RelayCall H ν φ)}

/-- What the call leaves for relay. -/
def relay (cache : RelayCache H) (call : RelayCall H ν φ) : RelayCache H :=
  let node := (RelayNode.relayTransaction world call.now
    { call.found with vRelayExpiration := cache.vRelayExpiration, mapRelay := cache.mapRelay } call.tx call.hash).2
  ⟨node.vRelayExpiration, node.mapRelay⟩

/-- What is kept after the first calls from the start of the node. -/
def after (calls : List (RelayCall H ν φ)) (n : Nat) :
    RelayCache H := (calls.take n).foldl (relay world) ⟨[], ∅⟩

theorem relay_eq : cache.relay world call =
    let (vRelayExpiration, mapRelay) := expireRelay call.now.nNow cache.vRelayExpiration cache.mapRelay
    ⟨vRelayExpiration ++ [(call.now.nNow + 15 * 60, call.hash)], mapRelay.insertIfNew call.hash call.tx⟩ := by
  rw [relay, relayTransaction]
  split
  · split <;> rfl
  · rfl

theorem mem_relay_queue (h : Ordered cache.vRelayExpiration) :
    (e, hash) ∈ (cache.relay world call).vRelayExpiration ↔
      (e, hash) ∈ cache.vRelayExpiration ∧ call.now.nNow ≤ e ∨
        e = call.now.nNow + 15 * 60 ∧ hash = call.hash := by
  rw [relay_eq]
  simp only [mem_append, mem_expireRelay_queue h, mem_singleton, Prod.mk.injEq]

theorem after_succ {n : Nat} (hn : n < calls.length) :
    after world calls (n + 1) = (after world calls n).relay world calls[n] := by
  rw [after, take_succ_eq_append_getElem hn, foldl_append]
  rfl

/-- The calls come at times that do not decrease. -/
def Timely (calls : List (RelayCall H ν φ)) : Prop :=
  calls.Pairwise fun call later => call.now.nNow ≤ later.now.nNow

/-- **The queue holds the calls that have not expired**, in their order. -/
theorem after_queue (htimely : Timely calls) {n : Nat} (hn : n ≤ calls.length) :
    Ordered (after world calls n).vRelayExpiration ∧
      ∀ e hash, (e, hash) ∈ (after world calls n).vRelayExpiration ↔
        ∃ call ∈ calls.take n, e = call.now.nNow + 15 * 60 ∧ hash = call.hash ∧
          ∀ later ∈ calls.take n, later.now.nNow ≤ e := by
  induction n with
  | zero => simp [after, Ordered]
  | succ n ih =>
    obtain ⟨hordered, hqueue⟩ := ih (Nat.le_of_succ_le hn)
    have hlt : n < calls.length := hn
    have hsplit := take_succ_eq_append_getElem hlt
    have hlast : ∀ call ∈ calls.take n, call.now.nNow ≤ calls[n].now.nNow := by
      have hpair : Timely (calls.take n ++ [calls[n]]) := by
        rw [← hsplit]
        exact htimely.sublist (take_sublist _ _)
      exact fun call hcall => (pairwise_append.mp hpair).2.2 call hcall _ mem_cons_self
    rw [after_succ world hlt]
    constructor
    · rw [relay_eq]
      refine pairwise_append.mpr ⟨hordered.expireRelay, pairwise_singleton _ _, ?_⟩
      rintro ⟨e, hash⟩ hmem new hnew
      obtain ⟨call, hcall, rfl, -⟩ := (hqueue e hash).mp ((mem_expireRelay_queue hordered).mp hmem).1
      rw [mem_singleton.mp hnew]
      exact Int.add_le_add_right (hlast call hcall) _
    · intro e hash
      rw [mem_relay_queue world hordered, hqueue, hsplit]
      simp only [mem_append, mem_singleton]
      constructor
      · rintro (⟨⟨call, hcall, he, hhash, hall⟩, hlive⟩ | ⟨he, hhash⟩)
        · refine ⟨call, .inl hcall, he, hhash, ?_⟩
          rintro later (hlater | rfl)
          · exact hall later hlater
          · exact hlive
        · refine ⟨_, .inr rfl, he, hhash, ?_⟩
          rintro later (hlater | rfl)
          · have hle := hlast later hlater
            omega
          · omega
      · rintro ⟨call, hcall | rfl, he, hhash, hall⟩
        · exact .inl ⟨⟨call, hcall, he, hhash, fun later hlater => hall later (.inl hlater)⟩,
            hall _ (.inr rfl)⟩
        · exact .inr ⟨he, hhash⟩

/-- After a call, its transaction is kept for fifteen minutes. -/
def Lasting (calls : List (RelayCall H ν φ)) : Prop :=
  ∀ (i j : Nat) (hij : i ≤ j) (hj : j < calls.length), calls[j].now.nNow ≤
    calls[i].now.nNow + 15 * 60 → calls[i].hash ∈ (after world calls (j + 1)).mapRelay

/-- What has not expired is kept. -/
def Held (cache : RelayCache H) : Prop := ∀ e hash, (e, hash) ∈ cache.vRelayExpiration → hash ∈ cache.mapRelay

/-- The lifetime is that of the entries. -/
theorem lasting_iff_held (htimely : Timely calls) :
    Lasting world calls ↔ ∀ n < calls.length, (after world calls (n + 1)).Held := by
  constructor
  · intro hlasting n hn e hash hmem
    obtain ⟨call, hcall, rfl, rfl, hall⟩ := ((after_queue world htimely hn).2 e hash).mp hmem
    obtain ⟨i, hi, rfl⟩ := mem_take_iff_getElem.mp hcall
    have hlast : calls[n] ∈ calls.take (n + 1) := mem_take_iff_getElem.mpr ⟨n, by omega, rfl⟩
    exact hlasting i n (by omega) hn (hall _ hlast)
  · intro hheld i j hij hj htime
    refine hheld j hj _ _ (((after_queue world htimely hj).2 _ _).mpr
      ⟨calls[i], mem_take_iff_getElem.mpr ⟨i, by omega, rfl⟩, rfl, rfl, ?_⟩)
    intro later hlater
    obtain ⟨k, hk, rfl⟩ := mem_take_iff_getElem.mp hlater
    have hle := htimely.rel_get_of_le (a := ⟨k, by omega⟩) (b := ⟨j, hj⟩) (by simp; omega)
    exact Int.le_trans hle htime

variable [LawfulEqOrd H]

theorem mem_relay_map (h : Ordered cache.vRelayExpiration) : hash ∈ (cache.relay world call).mapRelay ↔
      hash = call.hash ∨ hash ∈ cache.mapRelay ∧ ∀ e, (e, hash) ∈ cache.vRelayExpiration →
        call.now.nNow ≤ e := by
  rw [relay_eq]
  simp only [ExtTreeMap.mem_insertIfNew, mem_expireRelay_map h, LawfulEqOrd.compare_eq_iff_eq,
    @eq_comm _ call.hash]

/-- Whatever is kept has an entry that will take it out. -/
def Keyed (cache : RelayCache H) : Prop := ∀ hash ∈ cache.mapRelay, ∃ e, (e, hash) ∈ cache.vRelayExpiration

/-- Where an entry of a transaction has expired and another one has not, it is the transaction that
is relayed. -/
def OnlyOwnExpires (cache : RelayCache H) (call : RelayCall H ν φ) : Prop :=
  ∀ entry ∈ cache.vRelayExpiration, ∀ entry' ∈ cache.vRelayExpiration, entry.2 = entry'.2 →
    entry.1 < call.now.nNow → call.now.nNow ≤ entry'.1 → entry.2 = call.hash

theorem Keyed.relay (h : Ordered cache.vRelayExpiration) (hkeyed : cache.Keyed) :
    (cache.relay world call).Keyed := by
  intro hash hmem
  simp only [mem_relay_queue world h]
  rcases (mem_relay_map world h).mp hmem with hown | ⟨hkept, hlive⟩
  · exact ⟨_, .inr ⟨rfl, hown⟩⟩
  · obtain ⟨e, he⟩ := hkeyed hash hkept
    exact ⟨e, .inl ⟨he, hlive e he⟩⟩

/-- **A call keeps what has not expired**, exactly when no other transaction has an expired entry
beside one that has not. -/
theorem held_relay_iff (h : Ordered cache.vRelayExpiration) (hheld : cache.Held) :
    (cache.relay world call).Held ↔ cache.OnlyOwnExpires call := by
  constructor
  · rintro hafter ⟨e, hash⟩ he ⟨e', -⟩ he' rfl hexpired hlive
    have hmem := hafter e' hash ((mem_relay_queue world h).mpr (.inl ⟨he', hlive⟩))
    rcases (mem_relay_map world h).mp hmem with hown | ⟨-, hall⟩
    · exact hown
    · exact absurd (hall e he) (Int.not_le.mpr hexpired)
  · intro hown e' hash hmem
    refine (mem_relay_map world h).mpr ?_
    rcases (mem_relay_queue world h).mp hmem with ⟨he', hlive⟩ | ⟨-, heq⟩
    · by_cases hexpired : ∃ e, (e, hash) ∈ cache.vRelayExpiration ∧ e < call.now.nNow
      · obtain ⟨e, he, hlt⟩ := hexpired
        exact .inl (hown _ he _ he' rfl hlt hlive)
      · push Not at hexpired
        exact .inr ⟨hheld e' hash he', hexpired⟩
    · exact .inl heq

theorem after_keyed (htimely : Timely calls) {n : Nat} (hn : n ≤ calls.length) :
    (after world calls n).Keyed := by
  induction n with
  | zero => simp [after, Keyed]
  | succ n ih =>
    rw [after_succ world hn]
    exact (ih (Nat.le_of_succ_le hn)).relay world (after_queue world htimely (Nat.le_of_succ_le hn)).1

/-- **The relay cache.**  Whatever it keeps has an entry that takes it out again, and a transaction
is kept for fifteen minutes after each of its calls exactly when, at every call, no other
transaction has an entry that has expired beside one that has not. -/
theorem lasting_keyed_iff (htimely : Timely calls) :
    (Lasting world calls ∧ ∀ n ≤ calls.length, (after world calls n).Keyed) ↔
      ∀ (n : Nat) (hn : n < calls.length), (after world calls n).OnlyOwnExpires calls[n] := by
  rw [and_iff_left fun n hn => after_keyed world htimely hn, lasting_iff_held world htimely]
  have hstep : ∀ (n : Nat) (hn : n < calls.length), (after world calls n).Held →
      ((after world calls (n + 1)).Held ↔ (after world calls n).OnlyOwnExpires calls[n]) := by
    intro n hn hheld
    rw [after_succ world hn]
    exact held_relay_iff world (after_queue world htimely (Nat.le_of_lt hn)).1 hheld
  have hstart : (after world calls 0).Held := by
    intro e hash hmem
    cases hmem
  constructor
  · intro hheld n hn
    refine (hstep n hn ?_).mp (hheld n hn)
    cases n with
    | zero => exact hstart
    | succ n => exact hheld n (Nat.lt_of_succ_lt hn)
  · intro hown n hn
    induction n with
    | zero => exact (hstep 0 hn hstart).mpr (hown 0 hn)
    | succ n ih => exact (hstep (n + 1) hn (ih (Nat.lt_of_succ_lt hn))).mpr (hown (n + 1) hn)

/-- A transaction is relayed twice, and then another one. -/
def twiceRelayed (gap : Int) : List (RelayCall (List Nat) Nat Unit) :=
  [⟨⟨0, fun _ => 0⟩, stemTx, [7], listenedNode⟩, ⟨⟨gap, fun _ => 0⟩, stemTx, [7], listenedNode⟩,
    ⟨⟨901, fun _ => 0⟩, stemTx, [8], listenedNode⟩]

theorem twiceRelayed_lasting : Lasting listenedWorld (twiceRelayed 901) :=
  ((lasting_keyed_iff listenedWorld (by simp [Timely, twiceRelayed])).mpr
    (by unfold OnlyOwnExpires; decide +kernel)).1

/-- The entry of the first call takes the transaction out, five minutes after the second one. -/
theorem twiceRelayed_lost : ¬Lasting listenedWorld (twiceRelayed 600) := by
  intro hlasting
  have hkept := hlasting 1 2 (by decide) (by decide) (by decide)
  revert hkept
  decide +kernel

end RelayCache

end MaryJaneCoin
