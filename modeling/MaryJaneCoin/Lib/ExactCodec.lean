import MaryJaneCoin.Lib.Codec

/-!
# Exact codecs

A reader is exact for a writer when it accepts a string if and only if the
string starts with what was written of a valid value.  So a value is read back,
and no second string is read as the same value.  Readers of rows of values may
work block by block; the blocks cannot be told from the result.
-/

namespace Codec

open List hiding Vector
open Option

variable {α β : Type}

/-- `get` accepts what `put` writes of valid values, and nothing else. -/
def Exact (put : α → Bytes) (get : Get α) (valid : α → Prop) : Prop :=
  ∀ bytes a rest, get bytes = some (a, rest) ↔ valid a ∧ bytes = put a ++ rest

section

variable {put : α → Bytes} {get : Get α} {valid : α → Prop}

theorem Exact.reads (h : Exact put get valid) : Reads put get valid :=
  fun a rest ha => (h _ a rest).mpr ⟨ha, rfl⟩

/-- Reading goes on behind a valid value. -/
theorem Exact.bind_eq_some (h : Exact put get valid) {next : α × Bytes → Option β}
    {bytes : Bytes} {result : β} : (get bytes).bind next = some result ↔
      ∃ a rest, (valid a ∧ bytes = put a ++ rest) ∧ next (a, rest) = some result := by
  rw [bind_eq_some_iff]
  constructor
  · rintro ⟨⟨a, rest⟩, hread, hnext⟩
    exact ⟨a, rest, (h _ _ _).mp hread, hnext⟩
  · rintro ⟨a, rest, hread, hnext⟩
    exact ⟨(a, rest), (h _ _ _).mpr hread, hnext⟩

/-- The last value of a record. -/
theorem Exact.map_eq_some (h : Exact put get valid) {f : α × Bytes → β} {bytes : Bytes} {result : β} :
    (get bytes).map f = some result ↔ ∃ a rest, (valid a ∧ bytes = put a ++ rest) ∧ f (a, rest) = result := by
  rw [map_eq_some_iff]
  constructor
  · rintro ⟨⟨a, rest⟩, hread, heq⟩
    exact ⟨a, rest, (h _ _ _).mp hread, heq⟩
  · rintro ⟨a, rest, hread, heq⟩
    exact ⟨(a, rest), (h _ _ _).mpr hread, heq⟩

/-- Values that are written as others are. -/
theorem Exact.equiv (h : Exact put get valid) (into : β → α) (back : α → β)
    (hback : ∀ b, back (into b) = b) (hinto : ∀ a, valid a → into (back a) = a)
    (hvalid : ∀ b, valid (into b)) : Exact (put ∘ into)
    (fun bytes => (get bytes).map fun read => (back read.1, read.2)) fun _ => True := by
  intro bytes b rest
  rw [h.map_eq_some]
  constructor
  · rintro ⟨a, rest, ⟨ha, rfl⟩, heq⟩
    cases heq
    exact ⟨trivial, by rw [Function.comp_apply, hinto a ha]⟩
  · rintro ⟨-, rfl⟩
    exact ⟨into b, rest, ⟨hvalid b, rfl⟩, by rw [hback]⟩

/-- **A row of values.** -/
theorem Exact.many (h : Exact put get valid) (n : Nat) (bytes : Bytes) (as : List α)
    (rest : Bytes) : getMany get n bytes = some (as, rest) ↔
      as.length = n ∧ (∀ a ∈ as, valid a) ∧ bytes = as.flatMap put ++ rest := by
  constructor
  · intro hread
    induction n generalizing bytes as with
    | zero =>
      cases hread
      exact ⟨rfl, by simp, rfl⟩
    | succ n ih =>
      obtain ⟨a, behind, ⟨ha, rfl⟩, hmore⟩ := h.bind_eq_some.mp hread
      obtain ⟨⟨more, last⟩, hrow, heq⟩ := map_eq_some_iff.mp hmore
      obtain ⟨hlength, hvalid, rfl⟩ := ih behind more (by cases heq; exact hrow)
      cases heq
      refine ⟨by rw [length_cons, hlength], ?_, ?_⟩
      · exact forall_mem_cons.mpr ⟨ha, hvalid⟩
      · rw [flatMap_cons, append_assoc]
  · rintro ⟨rfl, hvalid, rfl⟩
    exact reads_many h.reads as rest hvalid

end

/-- Read `left` values in blocks of `blk` at most. -/
def getBlocks (get : Get α) (blk : Nat) : Nat → Nat → Get (List α)
  | _, 0, bytes => some ([], bytes)
  | 0, _ + 1, _ => none
  | fuel + 1, left + 1, bytes =>
    (getMany get (min blk (left + 1)) bytes).bind fun first =>
      (getBlocks get blk fuel (left + 1 - min blk (left + 1)) first.2).map fun more =>
        (first.1 ++ more.1, more.2)

/-- One row is read as two. -/
theorem getMany_add (get : Get α) (m n : Nat) (bytes : Bytes) : getMany get (m + n) bytes =
      (getMany get m bytes).bind fun first =>
        (getMany get n first.2).map fun more => (first.1 ++ more.1, more.2) := by
  induction m generalizing bytes with
  | zero =>
    rw [Nat.zero_add, getMany, bind_some]
    simp
  | succ m ih =>
    rw [Nat.succ_add, getMany, getMany]
    cases get bytes with
    | none => rfl
    | some first =>
      simp only [bind_some, ih]
      cases getMany get m first.2 with
      | none => rfl
      | some row => simp [Option.map_map, Function.comp_def]

/-- **The blocks do not matter**, as long as they are not empty. -/
theorem getBlocks_eq_getMany (get : Get α) {blk : Nat} (hblk : 0 < blk) {fuel left : Nat}
    (hfuel : left ≤ fuel) (bytes : Bytes) : getBlocks get blk fuel left bytes = getMany get left bytes := by
  induction fuel generalizing left bytes with
  | zero =>
    obtain rfl := Nat.le_zero.mp hfuel
    rfl
  | succ fuel ih =>
    cases left with
    | zero => rfl
    | succ left =>
      have hsplit : min blk (left + 1) + (left + 1 - min blk (left + 1)) = left + 1 := by omega
      rw [getBlocks]
      conv_rhs => rw [← hsplit, getMany_add]
      have hfuel' : left + 1 - min blk (left + 1) ≤ fuel := by omega
      simp only [ih hfuel']

theorem exact_LE (width : Nat) : Exact (putLE width) (getLE width) (· < 256 ^ width) := by
  intro bytes n rest
  constructor
  · intro hread
    induction width generalizing bytes n with
    | zero =>
      cases hread
      exact ⟨Nat.one_pos, rfl⟩
    | succ width ih =>
      cases bytes with
      | nil => cases hread
      | cons byte bytes =>
        obtain ⟨⟨high, last⟩, hhigh, heq⟩ := map_eq_some_iff.mp hread
        cases heq
        obtain ⟨hlt, rfl⟩ := ih _ _ hhigh
        have hbyte := byte.toNat_lt
        have hlow : UInt8.ofNat (byte.toNat + 256 * high) = byte := by
          apply UInt8.toNat_inj.mp
          rw [UInt8.toNat_ofNat']
          omega
        have hdiv : (byte.toNat + 256 * high) / 256 = high := by omega
        refine ⟨?_, ?_⟩
        · rw [Nat.pow_succ]
          omega
        · rw [putLE, hlow, hdiv, cons_append]
  · rintro ⟨hlt, rfl⟩
    exact reads_LE width n rest hlt

theorem exact_vector (n : Nat) : Exact (fun v : Vector UInt8 n => v.toList) (getVector n) fun _ => True := by
  intro bytes v rest
  constructor
  · intro hread
    unfold getVector at hread
    split at hread
    · cases hread
      exact ⟨trivial, (take_append_drop n bytes).symm⟩
    · cases hread
  · rintro ⟨-, rfl⟩
    exact reads_vector n v rest trivial

end Codec

/-!
## Prefix codes

A writer is prefix-free when the value at the front of a string, and the rest
of the string behind it, are determined by the string.  Writers of composite
values are taken apart field by field with this one law.
-/

namespace PrefixCode

open List hiding Vector

variable {α β γ : Type}

/-- What stands at the front of a string determines the value and the rest. -/
def PrefixFree (put : α → List β) (valid : α → Prop) : Prop :=
  ∀ a b rest rest', valid a → valid b → put a ++ rest = put b ++ rest' → a = b ∧ rest = rest'

theorem prefixFree_of_reads {put : α → Codec.Bytes} {get : Codec.Get α} {valid : α → Prop}
    (hreads : Codec.Reads put get valid) : PrefixFree put valid := by
  intro a b rest rest' ha hb heq
  have hread := hreads a rest ha
  rw [heq, hreads b rest' hb] at hread
  obtain ⟨hab, hrest⟩ := Prod.mk.inj (Option.some.inj hread)
  exact ⟨hab.symm, hrest.symm⟩

variable {put : α → List β} {valid : α → Prop}

/-- Renaming the symbols keeps a code prefix-free, also inside a larger
alphabet. -/
theorem PrefixFree.map {f : β → γ} (hf : Function.Injective f) (h : PrefixFree put valid) :
    PrefixFree (fun a => (put a).map f) valid := by
  -- the shorter of two words at the front is a prefix of the longer one
  have hpre : ∀ a b rest, valid a → valid b →
      (put b).map f = (put a).map f ++ rest → a = b ∧ rest = [] := by
    intro a b rest ha hb heq
    obtain ⟨front, back, hput, hfront, hback⟩ := map_eq_append_iff.mp heq
    have hsame : front = put a := (List.map_inj_right fun _ _ hxy => hf hxy).mp hfront
    have hsplit := h a b back [] ha hb (by rw [append_nil, hput, hsame])
    refine ⟨hsplit.1, ?_⟩
    rw [← hback, hsplit.2, map_nil]
  intro a b rest rest' ha hb heq
  rcases append_eq_append_iff.mp heq with ⟨between, hword, hrest⟩ | ⟨between, hword, hrest⟩
  · obtain ⟨hab, hnil⟩ := hpre a b between ha hb hword
    rw [hnil, nil_append] at hrest
    exact ⟨hab, hrest⟩
  · obtain ⟨hba, hnil⟩ := hpre b a between hb ha hword
    rw [hnil, nil_append] at hrest
    exact ⟨hba.symm, hrest.symm⟩

/-- Equally many values in a row. -/
theorem PrefixFree.many (h : PrefixFree put valid) {as bs : List α} {rest rest' : List β}
    (hlength : as.length = bs.length) (has : ∀ a ∈ as, valid a) (hbs : ∀ b ∈ bs, valid b)
    (heq : as.flatMap put ++ rest = bs.flatMap put ++ rest') : as = bs ∧ rest = rest' := by
  induction as generalizing bs with
  | nil =>
    have hnil : bs = [] := length_eq_zero_iff.mp hlength.symm
    subst hnil
    exact ⟨rfl, heq⟩
  | cons a as ih =>
    cases bs with
    | nil => simp at hlength
    | cons b bs =>
      rw [flatMap_cons, flatMap_cons, append_assoc, append_assoc] at heq
      obtain ⟨hab, hmore⟩ := h a b _ _ (has a mem_cons_self) (hbs b mem_cons_self) heq
      obtain ⟨hrow, hrest⟩ := ih (Nat.succ.inj hlength)
        (fun a' ha' => has a' (mem_cons_of_mem _ ha'))
        (fun b' hb' => hbs b' (mem_cons_of_mem _ hb')) hmore
      exact ⟨by rw [hab, hrow], hrest⟩

/-- Values in a row are determined when no word is empty. -/
theorem PrefixFree.flatMap_injective (h : PrefixFree put fun _ => True) (hne : ∀ a, put a ≠ []) :
    Function.Injective (List.flatMap put) := by
  intro as
  induction as with
  | nil =>
    intro bs heq
    cases bs with
    | nil => rfl
    | cons b bs => exact absurd (append_eq_nil_iff.mp heq.symm).1 (hne b)
  | cons a as ih =>
    intro bs heq
    cases bs with
    | nil => exact absurd (append_eq_nil_iff.mp heq).1 (hne a)
    | cons b bs =>
      obtain ⟨hab, hrest⟩ := h a b _ _ trivial trivial heq
      rw [hab, ih hrest]

end PrefixCode
