import MaryJaneCoin.Net.DataStream

/-!
# Data streams as queues

What is left to be read is a queue of bytes, and the calls of a stream are those of a queue, as
long as places fit an `unsigned int` and `Serialize` finds nothing in front of what is left.
`Serialize` writes the buffer from its start, while `str` and `operator+=` begin at the read
position.
-/

namespace MaryJaneCoin

open Codec List Option Nat UInt32

namespace CDataStream

variable (s : CDataStream)

/-- `operator+=`. -/
def append (b : CDataStream) : CDataStream := s.write b.unread

def str : Bytes := s.unread

theorem read_le_resized (n : Nat) (c : UInt8) : s.nReadPos.toNat ≤
    ((s.vch ++ List.replicate (n + s.nReadPos.toNat - s.vch.length) c).take
      (n + s.nReadPos.toNat)).length := by
  rw [length_take, length_append, length_replicate]
  omega

/-- `resize(n, c)`. -/
def resizeFill (n : Nat) (c : UInt8) : CDataStream where
  vch := (s.vch ++ List.replicate (n + s.nReadPos.toNat - s.vch.length) c).take (n + s.nReadPos.toNat)
  nReadPos := s.nReadPos
  read_le := s.read_le_resized n c

/-- `insert(begin(), first, last)`; the length is compared as an `unsigned int`, and `none` is a
copy that starts in front of the buffer. -/
def insertRange (first : Bytes) : Option CDataStream :=
  if (UInt32.ofNat first.length).toNat ≤ s.nReadPos.toNat ∧ s.nReadPos.toNat < first.length then none
  else some (s.insert first)

/-- `insert(begin(), n, x)`. -/
def insertFill (n : Nat) (x : UInt8) : CDataStream where
  vch := s.vch.take s.nReadPos.toNat ++ List.replicate n x ++ s.vch.drop s.nReadPos.toNat
  nReadPos := s.nReadPos
  read_le := by
    have hle := s.read_le
    rw [List.length_append, List.length_append, List.length_take]
    omega

/-- `erase(begin())`. -/
def eraseFirst : CDataStream :=
  if hend : s.vch.length ≤ (s.nReadPos + 1).toNat then clear
  else ⟨s.vch, s.nReadPos + 1, Nat.le_of_not_le hend⟩

/-- `Serialize` into another stream, which takes the length as an `int`; `none` is the assertion
of `write`. -/
def serialize (t : CDataStream) : Option CDataStream :=
  if s.vch = [] then some t
  else
    let nSize := Int32.ofNat s.vch.length
    if nSize < 0 then none else some (t.write (s.vch.take nSize.toInt.toNat))

end CDataStream

/-- The calls of a stream.  An `int` that an assertion keeps from being negative is below `2
^ 31`. -/
inductive StreamCall
  | write (pch : Bytes)
  | read (nSize : Fin (2 ^ 31))
  | ignore (nSize : Fin (2 ^ 31))
  | append (b : CDataStream)
  | insert (first : Bytes)
  | insertFill (n : Nat) (x : UInt8)
  | eraseFirst
  | erase (n : Nat)
  | resize (n : Nat) (c : UInt8)
  | compact
  | str
  | serialize (t : CDataStream)

/-- What a call did: it returned bytes, it threw, or the language does not say. -/
inductive StreamResult (σ : Type)
  | done (bytes : Bytes) (s : σ)
  | threw (s : σ)
  | undefined
deriving DecidableEq

namespace StreamResult

variable {σ τ : Type}

def map (f : σ → τ) : StreamResult σ → StreamResult τ
  | done bytes s => done bytes (f s)
  | threw s => threw (f s)
  | undefined => undefined

/-- What the next call finds. -/
def after : StreamResult σ → Option σ
  | done _ s => some s
  | threw s => some s
  | undefined => none

theorem after_map (f : σ → τ) (r : StreamResult σ) : (r.map f).after = r.after.map f := by
  cases r <;> rfl

/-- The results of calls one after the other, with what is in sight of the state after each. -/
def trace (step : StreamCall → σ → StreamResult σ) (view : σ → Bytes) : List StreamCall → σ →
    List (StreamResult Bytes)
  | [], _ => []
  | call :: calls, s =>
    (step call s).map view ::
      match (step call s).after with
      | none => []
      | some next => trace step view calls next

end StreamResult

open StreamResult

def CDataStream.step : StreamCall → CDataStream → StreamResult CDataStream
  | .write pch, s => done [] (s.write pch)
  | .read nSize, s => (s.read nSize).elim (threw s) fun (bytes, next) => done bytes next
  | .ignore nSize, s => (s.ignore nSize).elim (threw s) (done [])
  | .append b, s => done [] (s.append b)
  | .insert first, s => (s.insertRange first).elim undefined (done [])
  | .insertFill n x, s => done [] (s.insertFill n x)
  | .eraseFirst, s => done [] s.eraseFirst
  | .erase n, s =>
    if hn : n ≤ s.size then done [] (s.eraseTo (s.nReadPos.toNat + n) (s.read_add_le hn)) else undefined
  | .resize n c, s => done [] (s.resizeFill n c)
  | .compact, s => done [] s.compact
  | .str, s => done s.str s
  | .serialize t, s => (s.serialize t).elim undefined fun t => done t.unread s

/-- The same call of a queue of bytes. -/
def queueStep : StreamCall → Bytes → StreamResult Bytes
  | .write pch, q => done [] (q ++ pch)
  | .read nSize, q => if nSize ≤ q.length then done (q.take nSize) (q.drop nSize) else threw q
  | .ignore nSize, q => if nSize ≤ q.length then done [] (q.drop nSize) else threw q
  | .append b, q => done [] (q ++ b.unread)
  | .insert first, q => done [] (first ++ q)
  | .insertFill n x, q => done [] (List.replicate n x ++ q)
  | .eraseFirst, q => done [] (q.drop 1)
  | .erase n, q => if n ≤ q.length then done [] (q.drop n) else undefined
  | .resize n c, q => done [] ((q ++ List.replicate (n - q.length) c).take n)
  | .compact, q => done [] q
  | .str, q => done q q
  | .serialize t, q => done (t.unread ++ q) q

namespace CDataStream

variable {s : CDataStream}

/-- Places fit an `unsigned int`, and `Serialize` finds the read position at the start. -/
def Fits (s : CDataStream) : StreamCall → Prop
  | .read nSize => s.nReadPos.toNat + nSize < 2 ^ 32
  | .ignore nSize => s.nReadPos.toNat + nSize < 2 ^ 32
  | .insert first => first.length ≤ s.nReadPos.toNat ∨ s.nReadPos.toNat < first.length % 2 ^ 32
  | .eraseFirst => s.nReadPos.toNat + 1 < 2 ^ 32
  | .erase n => s.size ≤ n ∨ s.nReadPos.toNat + n < 2 ^ 32
  | .serialize _ => s.nReadPos = 0 ∧ s.vch.length < 2 ^ 31
  | _ => True

/-- Each call of the run does. -/
def RunFits : List StreamCall → CDataStream → Prop
  | [], _ => True
  | call :: calls, s => s.Fits call ∧ ∀ next ∈ (step call s).after, RunFits calls next

theorem unread_resizeFill (n : Nat) (c : UInt8) :
    (s.resizeFill n c).unread = (s.unread ++ List.replicate (n - s.unread.length) c).take n := by
  have hread := s.read_le
  have hpad : n + s.nReadPos.toNat - s.vch.length = n - s.unread.length := by
    rw [length_unread, size]
    omega
  show ((s.vch ++ List.replicate (n + s.nReadPos.toNat - s.vch.length) c).take
    (n + s.nReadPos.toNat)).drop s.nReadPos.toNat = _
  rw [drop_take, Nat.add_sub_cancel, drop_append_of_le_length hread, hpad]
  rfl

theorem unread_insertFill (n : Nat) (x : UInt8) :
    (s.insertFill n x).unread = List.replicate n x ++ s.unread := by
  have hlength : (s.vch.take s.nReadPos.toNat).length = s.nReadPos.toNat := by
    rw [length_take]
    exact Nat.min_eq_left s.read_le
  show (s.vch.take s.nReadPos.toNat ++ List.replicate n x ++ s.vch.drop s.nReadPos.toNat).drop
    s.nReadPos.toNat = _
  rw [append_assoc, drop_left' hlength]
  rfl

theorem insertRange_iff (first : Bytes) :
    (s.insertRange first).map unread = some (first ++ s.unread) ↔ s.Fits (.insert first) := by
  have hfits : s.Fits (.insert first) ↔ ¬((UInt32.ofNat first.length).toNat ≤ s.nReadPos.toNat ∧
      s.nReadPos.toNat < first.length) := by
    rw [toNat_ofNat']
    show _ ∨ _ ↔ _
    omega
  rw [insertRange, hfits]
  split
  · next hfront => exact iff_of_false (fun heq => nomatch heq) (not_not_intro hfront)
  · next hinside =>
      rw [map_some, unread_insert]
      exact iff_of_true rfl hinside

variable {n : Nat}

/-- Within an `unsigned int`, `ignore` takes off the front, and throws past the end. -/
theorem ignore_of_lt (h : s.nReadPos.toNat + n < 2 ^ 32) :
    (n ≤ s.unread.length → ∃ next, s.ignore n = some next ∧ next.unread = s.unread.drop n) ∧
      (s.unread.length < n → s.ignore n = none) := by
  have hread := s.read_le
  have hnext : (s.nReadPos + UInt32.ofNat n).toNat = s.nReadPos.toNat + n := by
    rw [UInt32.toNat_add, toNat_ofNat_of_lt' (show n < 2 ^ 32 by omega), mod_eq_of_lt h]
  simp only [ignore, hnext, length_unread, size]
  constructor
  · intro hn
    split
    · next hend =>
        refine ⟨clear, if_neg (by omega), ?_⟩
        show [] = (s.vch.drop s.nReadPos.toNat).drop n
        rw [drop_drop, drop_eq_nil_of_le hend]
    · refine ⟨_, rfl, ?_⟩
      show s.vch.drop (s.nReadPos + UInt32.ofNat n).toNat = _
      rw [hnext, unread, drop_drop]
  · intro hn
    rw [dif_pos (by omega), if_pos (by omega)]

/-- Beyond an `unsigned int`, `ignore` goes back in the buffer. -/
theorem ignore_of_wraps (hn : n < 2 ^ 31) (h : 2 ^ 32 ≤ s.nReadPos.toNat + n) :
    ∃ next, s.ignore n = some next ∧ s.unread.length < next.unread.length + n := by
  have hread := s.read_le
  have hlt := s.nReadPos.toNat_lt
  have hnext : (s.nReadPos + UInt32.ofNat n).toNat = s.nReadPos.toNat + n - 2 ^ 32 := by
    rw [UInt32.toNat_add, toNat_ofNat_of_lt' (show n < 2 ^ 32 by omega),
      mod_eq_sub_mod h, mod_eq_of_lt (by omega)]
  refine ⟨⟨s.vch, s.nReadPos + UInt32.ofNat n, by omega⟩, ?_, ?_⟩
  · rw [ignore]
    exact dif_neg (by omega)
  · show (s.vch.drop _).length < (s.vch.drop (s.nReadPos + UInt32.ofNat n).toNat).length + n
    rw [length_drop, length_drop, hnext]
    omega

theorem eraseFirst_iff : s.eraseFirst.unread = s.unread.drop 1 ↔ s.Fits .eraseFirst := by
  have hread := s.read_le
  have hlt := s.nReadPos.toNat_lt
  by_cases hfits : s.nReadPos.toNat + 1 < 2 ^ 32
  · have hnext : (s.nReadPos + 1).toNat = s.nReadPos.toNat + 1 := by
      rw [UInt32.toNat_add]
      exact mod_eq_of_lt hfits
    refine iff_of_true ?_ hfits
    rw [eraseFirst, show s.unread.drop 1 = s.vch.drop (s.nReadPos.toNat + 1) from drop_drop]
    split
    · next hend => exact (drop_eq_nil_of_le (hnext ▸ hend)).symm
    · show s.vch.drop (s.nReadPos + 1).toNat = _
      rw [hnext]
  · have hnext : (s.nReadPos + 1).toNat = 0 := by
      rw [UInt32.toNat_add, show s.nReadPos.toNat = 2 ^ 32 - 1 by omega]
      rfl
    refine iff_of_false (fun heq => ?_) hfits
    rw [eraseFirst, dif_neg (by omega)] at heq
    have hlength : (s.vch.drop (s.nReadPos + 1).toNat).length =
        ((s.vch.drop s.nReadPos.toNat).drop 1).length :=
      congrArg List.length heq
    rw [length_drop, length_drop, length_drop, hnext] at hlength
    omega

theorem eraseTo_iff (hn : n ≤ s.size) : (s.eraseTo (s.nReadPos.toNat + n)
    (s.read_add_le hn)).unread = s.unread.drop n ↔ s.Fits (.erase n) := by
  have hread := s.read_le
  by_cases hfits : s.nReadPos.toNat + n < 2 ^ 32
  · exact iff_of_true (unread_eraseTo (s.read_add_le hn) hfits) (.inr hfits)
  have hlast := s.read_add_le hn
  by_cases hend : s.nReadPos.toNat + n = s.vch.length
  · refine iff_of_true ?_ (.inl (sub_le_of_le_add (by omega)))
    rw [eraseTo, if_pos hend, show s.unread.drop n = s.vch.drop
      (s.nReadPos.toNat + n) from drop_drop, hend, drop_length]
    rfl
  · refine iff_of_false (fun heq => ?_) ?_
    · rw [eraseTo, if_neg hend] at heq
      have hlength : (s.vch.drop (UInt32.ofNat (s.nReadPos.toNat + n)).toNat).length =
          ((s.vch.drop s.nReadPos.toNat).drop n).length := congrArg List.length heq
      rw [length_drop, length_drop, length_drop, toNat_ofNat'] at hlength
      omega
    · rintro (hle | hlt)
      · rw [size] at hle
        omega
      · exact hfits hlt

/-- `Serialize` writes the buffer from its start, and no more than an `int` says. -/
theorem serialize_iff (t : CDataStream) :
    (s.serialize t).map unread = some (t.unread ++ s.unread) ↔ s.Fits (.serialize t) := by
  have hread := s.read_le
  have hlt := s.nReadPos.toNat_lt
  have hint : (Int32.ofNat s.vch.length).toInt = (s.vch.length : Int).bmod (2 ^ 32) := Int32.toInt_ofNat'
  rw [serialize]
  split
  · next hempty =>
      rw [hempty] at hread
      refine iff_of_true ?_ ⟨UInt32.toNat_inj.mp (le_zero.mp hread), hempty ▸ by decide⟩
      rw [unread, unread, hempty, drop_nil, append_nil]
      rfl
  · next hne =>
      have hpos := length_pos_iff.mpr hne
      show (if Int32.ofNat s.vch.length < 0 then none
        else some (t.write (s.vch.take (Int32.ofNat s.vch.length).toInt.toNat))).map unread = _ ↔ _
      constructor
      · intro heq
        split at heq
        · cases heq
        · next hnonneg =>
            rw [Int32.lt_iff_toInt_lt, hint] at hnonneg
            rw [map_some, unread_write, Option.some.injEq, append_cancel_left_eq, hint] at heq
            have hlength := congrArg List.length heq
            rw [length_take, length_unread, size] at hlength
            have hsmall : s.vch.length < 2 ^ 31 ∧ s.nReadPos.toNat = 0 := by
              rw [Int.bmod_def] at hlength hnonneg
              have hzero : (0 : Int32).toInt = 0 := rfl
              split_ifs at hlength hnonneg <;> omega
            exact ⟨UInt32.toNat_inj.mp hsmall.2, hsmall.1⟩
      · rintro ⟨hstart, hsmall⟩
        have hexact : (s.vch.length : Int).bmod (2 ^ 32) = s.vch.length :=
          Int.bmod_eq_of_le (by omega) (by omega)
        have hnonneg : ¬Int32.ofNat s.vch.length < 0 := by
          rw [Int32.lt_iff_toInt_lt, hint, hexact]
          exact Int.not_lt.mpr (Int.natCast_nonneg _)
        rw [if_neg hnonneg, map_some, unread_write, hint, hexact, Int.toNat_natCast, take_length]
        show some (t.unread ++ s.vch) = some (t.unread ++ s.vch.drop s.nReadPos.toNat)
        rw [hstart]
        rfl

/-- Bytes are passed over as a queue loses them, unless the read position wraps around. -/
theorem ignore_iff (hn : n < 2 ^ 31) (bytes : Bytes) :
    ((s.ignore n).elim (threw s) (done bytes)).map unread =
        (if n ≤ s.unread.length then done bytes (s.unread.drop n) else threw s.unread) ↔
      s.nReadPos.toNat + n < 2 ^ 32 := by
  by_cases hfits : s.nReadPos.toNat + n < 2 ^ 32
  · refine iff_of_true ?_ hfits
    obtain ⟨hinside, hpast⟩ := ignore_of_lt hfits
    split
    · next hle =>
        obtain ⟨next, hnext, hunread⟩ := hinside hle
        rw [hnext]
        exact congrArg (done bytes) hunread
    · next hle =>
        rw [hpast (Nat.lt_of_not_le hle)]
        rfl
  · refine iff_of_false (fun heq => ?_) hfits
    obtain ⟨next, hnext, hlonger⟩ := ignore_of_wraps hn (Nat.le_of_not_lt hfits)
    rw [hnext] at heq
    split at heq
    · rw [(StreamResult.done.inj heq).2, length_drop] at hlonger
      omega
    · cases heq

/-- **A call is that of the queue** exactly if places fit, and `Serialize` finds the read position
at the start. -/
theorem step_eq_iff (call : StreamCall) : (step call s).map unread = queueStep call s.unread ↔
    s.Fits call := by
  have hdone : ∀ (next : CDataStream) (bytes q : Bytes),
      (done bytes next).map unread = done bytes q ↔ next.unread = q := by
    intro next bytes q
    exact ⟨fun heq => (StreamResult.done.inj heq).2, fun heq => congrArg _ heq⟩
  cases call with
  | write pch => exact iff_of_true (congrArg _ (unread_write pch)) trivial
  | append b => exact iff_of_true (congrArg _ (unread_write b.unread)) trivial
  | insertFill n x => exact iff_of_true (congrArg _ (unread_insertFill n x)) trivial
  | resize n c => exact iff_of_true (congrArg _ (unread_resizeFill n c)) trivial
  | compact => exact iff_of_true rfl trivial
  | str => exact iff_of_true rfl trivial
  | eraseFirst => exact (hdone _ _ _).trans eraseFirst_iff
  | erase n =>
    rw [step, queueStep, length_unread]
    split
    · next hn => exact (hdone _ _ _).trans (eraseTo_iff hn)
    · next hn => exact iff_of_true rfl (.inl (Nat.le_of_not_le hn))
  | insert first =>
    rw [← insertRange_iff, step, queueStep]
    cases s.insertRange first with
    | none => exact iff_of_false (fun heq => nomatch heq) (fun heq => nomatch heq)
    | some next => exact (hdone _ _ _).trans some_inj.symm
  | serialize t =>
    rw [← serialize_iff, step, queueStep]
    cases s.serialize t with
    | none => exact iff_of_false (fun heq => nomatch heq) (fun heq => nomatch heq)
    | some next =>
      exact ⟨fun heq => congrArg some (StreamResult.done.inj heq).1,
        fun heq => congrArg (done · s.unread) (Option.some.inj heq)⟩
  | ignore nSize => exact ignore_iff nSize.isLt []
  | read nSize =>
    rw [step, queueStep, read, elim_map]
    exact ignore_iff nSize.isLt _

/-- **A run of a stream** gives what the queue gives, byte by byte and throw by throw, and leaves
what the queue holds after each call, exactly if this holds of each call. -/
theorem trace_eq_iff (calls : List StreamCall) (s : CDataStream) :
    trace step unread calls s = trace queueStep id calls s.unread ↔ RunFits calls s := by
  induction calls generalizing s with
  | nil => exact iff_of_true rfl trivial
  | cons call calls ih =>
    have hid : (queueStep call s.unread).map id = queueStep call s.unread := by
      cases queueStep call s.unread <;> rfl
    rw [trace, trace, List.cons.injEq, hid, step_eq_iff]
    refine and_congr_right fun hfits => ?_
    have hafter : (queueStep call s.unread).after = (step call s).after.map unread := by
      rw [← (step_eq_iff call).mpr hfits, after_map]
    rw [hafter]
    cases (step call s).after with
    | none => exact iff_of_true rfl fun next hnext => nomatch hnext
    | some next =>
      rw [Option.map_some]
      exact (ih next).trans ⟨fun h other hother => Option.some.inj hother ▸ h, fun h => h next rfl⟩

/-- **A byte that has been read** is written again by `Serialize`. -/
theorem trace_serialize : ¬∀ (calls : List StreamCall) (s : CDataStream),
    trace step unread calls s = trace queueStep id calls s.unread := by
  intro h
  have hrun := h [.read 1, .serialize clear] ⟨[1, 2], 0, Nat.zero_le 2⟩
  revert hrun
  decide

end CDataStream

end MaryJaneCoin
