import Mathlib.Data.Finset.Basic

/-!
# A set that follows a log

A set is changed by insertions and erasures, and a log lists them, latest event
first.  Whether a key is in the set is decided by the latest event about it.
-/

namespace EventLog

open List

/-- One change of the set. -/
inductive Event (K : Type) where
  | added (key : K)
  | removed (key : K)
deriving DecidableEq

variable {K : Type}

/-- The key an event is about. -/
def Event.key : Event K → K
  | .added key => key
  | .removed key => key

variable [DecidableEq K]

/-- The set after the events of a log, starting from the empty set. -/
def replay : List (Event K) → Finset K
  | [] => ∅
  | .added key :: log => insert key (replay log)
  | .removed key :: log => (replay log).erase key

/-- The latest event about a key. -/
def latest (log : List (Event K)) (key : K) : Option (Event K) :=
  log.find? fun event => event.key = key

variable {log : List (Event K)} {event : Event K} {key : K}

theorem latest_cons_self (h : event.key = key) : latest (event :: log) key = some event := by
  rw [latest, find?_cons, decide_eq_true h]

theorem latest_cons_ne (h : event.key ≠ key) : latest (event :: log) key = latest log key := by
  rw [latest, find?_cons, decide_eq_false h]
  rfl

/-- **The latest event decides.** -/
theorem mem_replay : key ∈ replay log ↔ latest log key = some (.added key) := by
  induction log with
  | nil => simp [replay, latest]
  | cons event log ih =>
    by_cases hkey : event.key = key
    · rw [latest_cons_self hkey]
      cases event with
      | added added =>
        cases hkey
        simp [replay, Event.key]
      | removed removed =>
        cases hkey
        simp [replay, Event.key]
    · rw [latest_cons_ne hkey, ← ih]
      cases event with
      | added added => grind [replay, Event.key]
      | removed removed => grind [replay, Event.key]

theorem mem_replay_removed {keys : List K} :
    key ∈ replay (keys.map .removed ++ log) ↔ key ∈ replay log ∧ key ∉ keys := by
  induction keys with
  | nil => simp
  | cons first keys ih =>
    rw [map_cons, cons_append, replay, Finset.mem_erase, ih, List.mem_cons, not_or]
    grind

theorem mem_replay_added {keys : List K} :
    key ∈ replay (keys.map .added ++ log) ↔ key ∈ replay log ∨ key ∈ keys := by
  induction keys with
  | nil => simp
  | cons first keys ih =>
    rw [map_cons, cons_append, replay, Finset.mem_insert, ih, List.mem_cons]
    grind

theorem exists_latest (h : event ∈ log) (hkey : event.key = key) :
    latest log key = some (.added key) ∨ latest log key = some (.removed key) := by
  cases hlatest : latest log key with
  | none =>
    have hnone := find?_eq_none.mp hlatest event h
    simp [hkey] at hnone
  | some last =>
    have hlast : last.key = key := by simpa using find?_some hlatest
    cases last with
    | added added =>
      cases hlast
      exact Or.inl rfl
    | removed removed =>
      cases hlast
      exact Or.inr rfl

/-- **A key once inserted** is in the set exactly when the latest event about it
is no erasure. -/
theorem mem_replay_of_added (h : .added key ∈ log) :
    key ∈ replay log ↔ latest log key ≠ some (.removed key) := by
  rw [mem_replay]
  have hlatest : latest log key = some (.added key) ∨ latest log key = some (.removed key) :=
    exists_latest h rfl
  rcases hlatest with hlatest | hlatest
  · rw [hlatest]
    simp
  · rw [hlatest]
    simp

end EventLog
