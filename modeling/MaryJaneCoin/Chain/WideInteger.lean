import Mathlib.Data.List.GetD
import MaryJaneCoin.Lib.Digits

/-!
# Wide integers

`base_uint` keeps an integer in words of 32 bits, the least significant one first.  Each operator is
a loop over the words, and computes the operation of the integers modulo the width.
-/

namespace MaryJaneCoin

open Codec List Nat

abbrev Word := BitVec 32

/-- `base_uint<32 * WIDTH>`. -/
structure BaseUint (WIDTH : Nat) where
  pn : List Word
  length_pn : pn.length = WIDTH

namespace BaseUint

/-- The integer that words write. -/
def wordsValue : List Word → Nat
  | [] => 0
  | word :: pn => word.toNat + 2 ^ 32 * wordsValue pn

variable {WIDTH : Nat}

/-- The integer that `pn` writes. -/
def value (a : BaseUint WIDTH) : Nat := wordsValue a.pn

/-- The loop of `operator+=`. -/
def addLoop (carry : Nat) : List Word → List Word → List Word
  | p :: pn, q :: qn =>
    let n := carry + p.toNat + q.toNat
    BitVec.ofNat 32 n :: addLoop (n / 2 ^ 32) pn qn
  | _, _ => []

/-- The loop of `operator++`. -/
def incrementLoop : List Word → List Word
  | [] => []
  | p :: pn => (p + 1) :: if p + 1 = 0 then incrementLoop pn else pn

/-- The loop of `operator--`. -/
def decrementLoop : List Word → List Word
  | [] => []
  | p :: pn => (p - 1) :: if p - 1 = BitVec.allOnes 32 then decrementLoop pn else pn

/-- A turn of `operator<<=`. -/
def shiftLeftTurn (a : List Word) (k shift : Nat) (pn : List Word) (i : Nat) : List Word :=
  let pn := if shift ≠ 0 then pn.modify (i + k + 1) (· ||| a.getD i 0 >>> (32 - shift)) else pn
  pn.modify (i + k) (· ||| a.getD i 0 <<< shift)

/-- A turn of `operator>>=`. -/
def shiftRightTurn (a : List Word) (k shift : Nat) (pn : List Word) (i : Nat) : List Word :=
  let pn := if k + 1 ≤ i ∧ shift ≠ 0 then pn.modify (i - k - 1) (· ||| a.getD i 0 <<< (32 - shift)) else pn
  if k ≤ i then pn.modify (i - k) (· ||| a.getD i 0 >>> shift) else pn

variable {pn qn : List Word}

theorem length_addLoop {carry : Nat} (h : pn.length = qn.length) :
    (addLoop carry pn qn).length = pn.length := by
  induction pn generalizing carry qn with
  | nil => rfl
  | cons p pn ih =>
    cases qn with
    | nil => cases h
    | cons q qn => rw [addLoop, length_cons, length_cons, ih (Nat.succ.inj h)]

theorem length_incrementLoop (pn : List Word) : (incrementLoop pn).length = pn.length := by
  fun_induction incrementLoop pn <;> grind

theorem length_decrementLoop (pn : List Word) : (decrementLoop pn).length = pn.length := by
  fun_induction decrementLoop pn <;> grind

variable {turn : List Word → Nat → List Word}

theorem length_foldl (h : ∀ pn i, (turn pn i).length = pn.length)
    (turns : List Nat) (pn : List Word) : (turns.foldl turn pn).length = pn.length := by
  induction turns generalizing pn with
  | nil => rfl
  | cons i turns ih => rw [foldl_cons, ih, h]

variable (a b : BaseUint WIDTH)

/-- `operator~`. -/
def not : BaseUint WIDTH := ⟨a.pn.map (~~~ ·), by simp [a.length_pn]⟩

/-- `operator++`. -/
def increment : BaseUint WIDTH := ⟨incrementLoop a.pn, by rw [length_incrementLoop, a.length_pn]⟩

/-- `operator--`. -/
def decrement : BaseUint WIDTH := ⟨decrementLoop a.pn, by rw [length_decrementLoop, a.length_pn]⟩

/-- `operator-`. -/
def neg : BaseUint WIDTH := a.not.increment

/-- `operator+=`. -/
def add : BaseUint WIDTH :=
  ⟨addLoop 0 a.pn b.pn, by rw [length_addLoop (a.length_pn.trans b.length_pn.symm), a.length_pn]⟩

/-- `operator-=`. -/
def sub : BaseUint WIDTH := a.add b.neg

/-- `operator<<=`. -/
def shiftLeft (shift : Nat) : BaseUint WIDTH where
  pn := (List.range WIDTH).foldl (shiftLeftTurn a.pn (shift / 32) (shift % 32)) (List.replicate WIDTH 0)
  length_pn := by
    rw [length_foldl, List.length_replicate]
    intro pn i
    rw [shiftLeftTurn]
    split <;> simp

/-- `operator>>=`. -/
def shiftRight (shift : Nat) : BaseUint WIDTH where
  pn := (List.range WIDTH).foldl (shiftRightTurn a.pn (shift / 32) (shift % 32)) (List.replicate WIDTH 0)
  length_pn := by
    rw [length_foldl, List.length_replicate]
    intro pn i
    rw [shiftRightTurn]
    split <;> split <;> simp

/-- The loop of a comparison from the most significant word down, with what it gives for equal
words. -/
def lessLoop (onEqual : Bool) : List (Word × Word) → Bool
  | [] => onEqual
  | (p, q) :: words => if p < q then true else if q < p then false else lessLoop onEqual words

/-- `operator<`. -/
def lt : Bool := lessLoop false (a.pn.zip b.pn).reverse

/-- `operator<=`. -/
def le : Bool := lessLoop true (a.pn.zip b.pn).reverse

/-- `operator>`. -/
def gt : Bool := lessLoop false (b.pn.zip a.pn).reverse

/-- `operator>=`. -/
def ge : Bool := lessLoop true (b.pn.zip a.pn).reverse

/-- `operator==`. -/
def eq : Bool := (a.pn.zip b.pn).all fun (p, q) => p == q

/-- `operator!=`. -/
def ne : Bool := !a.eq b

theorem wordsValue_lt (pn : List Word) : wordsValue pn < 2 ^ (32 * pn.length) := by
  induction pn with
  | nil => decide
  | cons p pn ih =>
    have hp := p.isLt
    have hpow : 2 ^ (32 * (pn.length + 1)) = 2 ^ 32 * 2 ^ (32 * pn.length) := by ring
    rw [wordsValue, length_cons, hpow]
    omega

theorem wordsValue_addLoop (carry : Nat) (h : pn.length = qn.length) :
    wordsValue (addLoop carry pn qn) = (carry + wordsValue pn + wordsValue qn) % 2 ^ (32 * pn.length) := by
  induction pn generalizing carry qn with
  | nil => simp [addLoop, wordsValue, mod_one]
  | cons p pn ih =>
    cases qn with
    | nil => cases h
    | cons q qn =>
      have hpow : 2 ^ (32 * (pn.length + 1)) = 2 ^ 32 * 2 ^ (32 * pn.length) := by ring
      have hsum : carry + (p.toNat + 2 ^ 32 * wordsValue pn) + (q.toNat + 2 ^ 32 * wordsValue qn) =
          carry + p.toNat + q.toNat + 2 ^ 32 * (wordsValue pn + wordsValue qn) := by ring
      rw [addLoop, wordsValue, wordsValue, wordsValue, ih _ (Nat.succ.inj h), length_cons, hpow,
        hsum, mod_mul, add_mul_mod_self_left, add_mul_div_left _ _ (by decide), BitVec.toNat_ofNat,
        Nat.add_assoc (_ / _)]

theorem wordsValue_incrementLoop (pn : List Word) :
    wordsValue (incrementLoop pn) = (wordsValue pn + 1) % 2 ^ (32 * pn.length) := by
  induction pn with
  | nil => rfl
  | cons p pn ih =>
    have hpow : 2 ^ (32 * (pn.length + 1)) = 2 ^ 32 * 2 ^ (32 * pn.length) := by ring
    have hp : (p + 1).toNat = (p.toNat + 1) % 2 ^ 32 := by simp
    rw [incrementLoop, wordsValue, wordsValue, length_cons, hpow]
    split
    · rename_i hzero
      rw [hzero] at hp ⊢
      have hlt := p.isLt
      have hlast : p.toNat + 1 = 2 ^ 32 := by simp at hp; omega
      have hsum : p.toNat + 2 ^ 32 * wordsValue pn + 1 = 2 ^ 32 * (wordsValue pn + 1) := by omega
      rw [ih, hsum, mul_mod_mul_left]
      simp
    · rename_i hcarried
      have hlt := p.isLt
      have hne : (p + 1).toNat ≠ 0 := fun h => hcarried (BitVec.eq_of_toNat_eq h)
      have hrest := wordsValue_lt pn
      rw [hp] at hne ⊢
      have hsmall : p.toNat + 1 < 2 ^ 32 := by omega
      rw [mod_eq_of_lt hsmall, mod_eq_of_lt (by omega)]
      omega

/-- `operator--` is `operator++` between the complements. -/
theorem decrementLoop_eq (pn : List Word) :
    decrementLoop pn = (incrementLoop (pn.map (~~~ ·))).map (~~~ ·) := by
  induction pn with
  | nil => rfl
  | cons p pn ih =>
    have hfirst : ~~~(~~~p + 1) = p - 1 := by
      apply BitVec.eq_of_toNat_eq
      simp
      omega
    have hturn : ~~~p + 1 = 0 ↔ p - 1 = BitVec.allOnes 32 := by
      rw [← hfirst]
      constructor
      · intro h
        rw [h]
        rfl
      · intro h
        simpa using congrArg (~~~ ·) h
    rw [decrementLoop, map_cons, incrementLoop, map_cons, hfirst]
    simp only [hturn]
    split
    · rw [ih]
    · simp [Function.comp_def]

theorem wordsValue_not (pn : List Word) :
    wordsValue (pn.map (~~~ ·)) + wordsValue pn + 1 = 2 ^ (32 * pn.length) := by
  induction pn with
  | nil => rfl
  | cons p pn ih =>
    have hpow : 2 ^ (32 * (pn.length + 1)) = 2 ^ 32 * 2 ^ (32 * pn.length) := by ring
    have hp : (~~~p).toNat + p.toNat + 1 = 2 ^ 32 := by
      have hlt := p.isLt
      rw [BitVec.toNat_not]
      omega
    rw [map_cons, wordsValue, wordsValue, length_cons, hpow]
    omega

theorem testBit_wordsValue (pn : List Word) (n : Nat) :
    (wordsValue pn).testBit n = (pn.getD (n / 32) 0).getLsbD (n % 32) := by
  induction pn generalizing n with
  | nil => simp [wordsValue]
  | cons p pn ih =>
    rw [wordsValue, Nat.add_comm, testBit_two_pow_mul_add _ p.isLt]
    split
    · rename_i hlt
      rw [div_eq_of_lt hlt, mod_eq_of_lt hlt]
      rfl
    · rename_i hge
      have hdiv : n / 32 = (n - 32) / 32 + 1 := by omega
      have hmod : n % 32 = (n - 32) % 32 := by omega
      rw [ih, hdiv, hmod]
      rfl

theorem testBit_place (pn : List Word) (m : Nat) {bit : Nat} (h : bit < 32) :
    (wordsValue pn).testBit (32 * m + bit) = (pn.getD m 0).getLsbD bit := by
  rw [testBit_wordsValue, mul_add_div (by decide), mul_add_mod, div_eq_of_lt h, mod_eq_of_lt h,
    Nat.add_zero]

theorem getLsbD_modify {pn : List Word} {m : Nat} (hm : m < pn.length) (place : Nat) (word : Word)
    (n : Nat) : ((pn.modify place (· ||| word)).getD m 0).getLsbD n = true ↔
      (pn.getD m 0).getLsbD n = true ∨ place = m ∧ word.getLsbD n = true := by
  rw [getD_eq_getElem?_getD, getElem?_modify, getD_eq_getElem?_getD, getElem?_eq_getElem hm]
  by_cases hplace : place = m
  · simp [hplace]
  · simp [hplace]

theorem getLsbD_foldl (sets : Nat → Nat → Nat → Prop) {m n : Nat}
    (hlength : ∀ pn i, (turn pn i).length = pn.length) (hturn : ∀ pn i, m < pn.length →
      (((turn pn i).getD m 0).getLsbD n = true ↔ (pn.getD m 0).getLsbD n = true ∨ sets i m n))
    (hm : m < WIDTH) (turns : Nat) :
    (((List.range turns).foldl turn (List.replicate WIDTH 0)).getD m 0).getLsbD n = true ↔
      ∃ i < turns, sets i m n := by
  induction turns with
  | zero => simp [getD_eq_getElem?_getD, hm]
  | succ turns ih =>
    rw [range_succ, foldl_append, foldl_cons, foldl_nil,
      hturn _ _ (by rwa [length_foldl hlength, length_replicate]), ih]
    constructor
    · rintro (⟨i, hi, hset⟩ | hset)
      · exact ⟨i, lt_succ_of_lt hi, hset⟩
      · exact ⟨turns, lt_succ_self turns, hset⟩
    · rintro ⟨i, hi, hset⟩
      rcases Nat.lt_succ_iff_lt_or_eq.mp hi with hlt | rfl
      · exact .inl ⟨i, hlt, hset⟩
      · exact .inr hset

theorem value_eq_of_bits {n : Nat} (hn : n < 2 ^ (32 * WIDTH))
    (h : ∀ m < WIDTH, ∀ bit < 32, (a.pn.getD m 0).getLsbD bit = true ↔ n.testBit
    (32 * m + bit) = true) : a.value = n := by
  apply eq_of_testBit_eq
  intro i
  rw [value, testBit_wordsValue]
  by_cases hi : i / 32 < WIDTH
  · rw [Bool.eq_iff_iff, h _ hi _ (mod_lt i (by decide)), div_add_mod]
  · rw [getD_eq_default _ _ (by rw [a.length_pn]; omega), testBit_lt_two_pow]
    · simp
    · exact Nat.lt_of_lt_of_le hn (Nat.pow_le_pow_right (by decide) (by omega))

theorem value_lt : a.value < 2 ^ (32 * WIDTH) := by
  have hlt := wordsValue_lt a.pn
  rwa [a.length_pn] at hlt

theorem value_shiftLeft (shift : Nat) :
    (a.shiftLeft shift).value = a.value * 2 ^ shift % 2 ^ (32 * WIDTH) := by
  refine value_eq_of_bits _ (mod_lt _ (Nat.two_pow_pos _)) ?_
  intro m hm bit hbit
  have hsplit := div_add_mod shift 32
  have hs := mod_lt shift (show 0 < 32 by decide)
  rw [shiftLeft, getLsbD_foldl (fun i m n =>
    (shift % 32 ≠ 0 ∧ i + shift / 32 + 1 = m ∧ (a.pn.getD i 0 >>> (32 - shift % 32)).getLsbD n = true) ∨
      i + shift / 32 = m ∧ (a.pn.getD i 0 <<< (shift % 32)).getLsbD n = true) ?_ ?_ hm]
  · rw [← shiftLeft_eq, testBit_mod_two_pow, testBit_shiftLeft, value]
    simp only [BitVec.getLsbD_ushiftRight, BitVec.getLsbD_shiftLeft, Bool.and_eq_true,
      decide_eq_true_eq, Bool.not_eq_true', decide_eq_false_iff_not]
    have hinside : 32 * m + bit < 32 * WIDTH := by omega
    rw [and_iff_right hinside]
    constructor
    · rintro ⟨i, hi, ⟨hne, rfl, hset⟩ | ⟨rfl, ⟨-, hle⟩, hset⟩⟩
      · -- The bits that fall out of a word below.
        have hlow : 32 - shift % 32 + bit < 32 := BitVec.lt_of_getLsbD hset
        have hplace : 32 * (i + shift / 32 + 1) + bit - shift = 32 * i + (32 - shift % 32 + bit) := by omega
        refine ⟨by omega, ?_⟩
        rwa [hplace, testBit_place _ _ hlow]
      · have hplace : 32 * (i + shift / 32) + bit - shift = 32 * i + (bit - shift % 32) := by omega
        have hlow : bit - shift % 32 < 32 := by omega
        refine ⟨by omega, ?_⟩
        rwa [hplace, testBit_place _ _ hlow]
    · rintro ⟨hle, hset⟩
      by_cases hbelow : bit < shift % 32
      · have hplace : 32 * m + bit - shift = 32 * (m - shift / 32 - 1) + (32 - shift % 32 + bit) := by omega
        have hlow : 32 - shift % 32 + bit < 32 := by omega
        rw [hplace, testBit_place _ _ hlow] at hset
        exact ⟨m - shift / 32 - 1, by omega, .inl ⟨by omega, by omega, hset⟩⟩
      · have hplace : 32 * m + bit - shift = 32 * (m - shift / 32) + (bit - shift % 32) := by omega
        have hlow : bit - shift % 32 < 32 := by omega
        rw [hplace, testBit_place _ _ hlow] at hset
        exact ⟨m - shift / 32, by omega, .inr ⟨by omega, ⟨hbit, hbelow⟩, hset⟩⟩
  · intro pn i
    rw [shiftLeftTurn]
    split <;> simp
  · intro pn i hlt
    rw [shiftLeftTurn]
    split
    · rename_i hne
      rw [getLsbD_modify (by simpa using hlt), getLsbD_modify hlt, or_assoc]
      simp [hne]
    · rename_i heq
      rw [getLsbD_modify hlt]
      simp [heq]

theorem value_shiftRight (shift : Nat) : (a.shiftRight shift).value = a.value / 2 ^ shift := by
  refine value_eq_of_bits _ (Nat.lt_of_le_of_lt (Nat.div_le_self _ _) a.value_lt) ?_
  intro m hm bit hbit
  have hsplit := div_add_mod shift 32
  have hs := mod_lt shift (show 0 < 32 by decide)
  rw [shiftRight, getLsbD_foldl (fun i m n =>
    ((shift / 32 + 1 ≤ i ∧ shift % 32 ≠ 0) ∧ i - shift / 32 - 1 = m ∧
      (a.pn.getD i 0 <<< (32 - shift % 32)).getLsbD n = true) ∨ shift / 32 ≤ i ∧
      i - shift / 32 = m ∧ (a.pn.getD i 0 >>> (shift % 32)).getLsbD n = true) ?_ ?_ hm]
  · rw [← shiftRight_eq_div_pow, testBit_shiftRight, value]
    simp only [BitVec.getLsbD_ushiftRight, BitVec.getLsbD_shiftLeft, Bool.and_eq_true,
      decide_eq_true_eq, Bool.not_eq_true', decide_eq_false_iff_not]
    constructor
    · rintro ⟨i, hi, ⟨⟨hk, hne⟩, rfl, ⟨-, hle⟩, hset⟩ | ⟨hk, rfl, hset⟩⟩
      · -- The bits that fall out of a word above.
        have hplace : shift + (32 * (i - shift / 32 - 1) + bit) =
            32 * i + (bit - (32 - shift % 32)) := by omega
        have hlow : bit - (32 - shift % 32) < 32 := by omega
        rwa [hplace, testBit_place _ _ hlow]
      · have hlow : shift % 32 + bit < 32 := BitVec.lt_of_getLsbD hset
        have hplace : shift + (32 * (i - shift / 32) + bit) = 32 * i + (shift % 32 + bit) := by omega
        rwa [hplace, testBit_place _ _ hlow]
    · intro hset
      have hinside : shift + (32 * m + bit) < 32 * WIDTH := by
        by_contra hout
        have hclear := testBit_lt_two_pow (Nat.lt_of_lt_of_le a.value_lt
          (Nat.pow_le_pow_right (show 0 < 2 by decide) (Nat.not_lt.mp hout)))
        exact absurd (hset.symm.trans hclear) (by decide)
      by_cases hbelow : shift % 32 + bit < 32
      · have hplace : shift + (32 * m + bit) = 32 * (m + shift / 32) + (shift % 32 + bit) := by omega
        rw [hplace, testBit_place _ _ hbelow] at hset
        exact ⟨m + shift / 32, by omega, .inr ⟨by omega, by omega, hset⟩⟩
      · have hplace : shift + (32 * m + bit) =
            32 * (m + shift / 32 + 1) + (bit - (32 - shift % 32)) := by omega
        have hlow : bit - (32 - shift % 32) < 32 := by omega
        rw [hplace, testBit_place _ _ hlow] at hset
        exact ⟨m + shift / 32 + 1, by omega, .inl ⟨⟨by omega, by omega⟩, by omega, ⟨hbit, by omega⟩, hset⟩⟩
  · intro pn i
    rw [shiftRightTurn]
    split <;> split <;> simp
  · intro pn i hlt
    rw [shiftRightTurn]
    split
    · rename_i hk
      split
      · rename_i hinner
        rw [getLsbD_modify (by simpa using hlt), getLsbD_modify hlt, or_assoc]
        simp only [and_iff_right hinner, hk, true_and]
      · rename_i houter
        rw [getLsbD_modify hlt]
        simp only [houter, hk, false_and, false_or, true_and]
    · rename_i hk
      rw [if_neg fun hinner => hk (le_of_succ_le hinner.1)]
      simp only [hk, mt (fun hinner => le_of_succ_le (And.left hinner)) hk, false_and, or_false]

theorem lessLoop_append (onEqual : Bool) (words : List (Word × Word)) (p q : Word) :
    lessLoop onEqual (words ++ [(p, q)]) =
      lessLoop (if p < q then true else if q < p then false else onEqual) words := by
  induction words with
  | nil => rfl
  | cons word words ih => rw [cons_append, lessLoop, lessLoop, ih]

theorem lessLoop_iff (onEqual : Bool) (h : pn.length = qn.length) :
    lessLoop onEqual (pn.zip qn).reverse = true ↔
      wordsValue pn < wordsValue qn ∨ wordsValue pn = wordsValue qn ∧ onEqual = true := by
  induction pn generalizing onEqual qn with
  | nil =>
    cases qn with
    | nil => simp [lessLoop, wordsValue]
    | cons q qn => cases h
  | cons p pn ih =>
    cases qn with
    | nil => cases h
    | cons q qn =>
      have hp := p.isLt
      have hq := q.isLt
      rw [zip_cons_cons, reverse_cons, lessLoop_append, ih _ (Nat.succ.inj h), wordsValue, wordsValue]
      simp only [BitVec.lt_def]
      split
      · simp
        omega
      · split
        · simp
          omega
        · have heq : p.toNat = q.toNat := by omega
          simp [heq]

theorem wordsValue_inj (h : pn.length = qn.length) (heq : wordsValue pn = wordsValue qn) :
    pn = qn := by
  induction pn generalizing qn with
  | nil => exact (length_eq_zero_iff.mp h.symm).symm
  | cons p pn ih =>
    cases qn with
    | nil => cases h
    | cons q qn =>
      have hp := p.isLt
      have hq := q.isLt
      rw [wordsValue, wordsValue] at heq
      rw [BitVec.eq_of_toNat_eq (show p.toNat = q.toNat by omega), ih (Nat.succ.inj h) (by omega)]

theorem value_inj {a b : BaseUint WIDTH} (h : a.value = b.value) : a = b := by
  obtain ⟨pn, ha⟩ := a
  obtain ⟨qn, hb⟩ := b
  obtain rfl := wordsValue_inj (ha.trans hb.symm) h
  rfl

theorem eq_iff : a.eq b = true ↔ a = b := by
  obtain ⟨pn, ha⟩ := a
  obtain ⟨qn, hb⟩ := b
  have hlength := ha.trans hb.symm
  rw [BaseUint.mk.injEq]
  show ((pn.zip qn).all fun (p, q) => p == q) = true ↔ pn = qn
  clear ha hb
  induction pn generalizing qn with
  | nil => simp [length_eq_zero_iff.mp hlength.symm]
  | cons p pn ih =>
    cases qn with
    | nil => cases hlength
    | cons q qn => simp_all

/-- The bytes of `pn` in memory. -/
def bytes (pn : List Word) : Bytes :=
  pn.flatMap fun word => (List.range 4).map fun i => UInt8.ofNat (word.toNat / 256 ^ i)

/-- The words that stand in memory. -/
def ofBytes : Bytes → List Word
  | b0 :: b1 :: b2 :: b3 :: rest =>
    BitVec.ofNat 32 (b0.toNat + 256 * (b1.toNat + 256 * (b2.toNat + 256 * b3.toNat))) :: ofBytes rest
  | _ => []

/-- A digit of `"%02x"`. -/
def hexChar (n : UInt8) : UInt8 := if n < 10 then 48 + n else 87 + n

def phexdigit (c : UInt8) : UInt8 :=
  if 48 ≤ c ∧ c ≤ 57 then c - 48 else if 65 ≤ c ∧ c ≤ 70 then c - 55
  else if 97 ≤ c ∧ c ≤ 102 then c - 87 else 0

def getHex : Bytes := (bytes a.pn).reverse.flatMap fun byte :
    UInt8 => [hexChar (byte >>> 4), hexChar (byte &&& 15)]

/-- The loop of `SetHex` from the last digit on, into so many bytes. -/
def setHexLoop : Nat → Bytes → Bytes
  | n + 1, low :: high :: digits => (phexdigit low ||| phexdigit high <<< 4) :: setHexLoop n digits
  | n + 1, [low] => phexdigit low :: List.replicate n 0
  | n, _ => List.replicate n 0

def isHexDigit (c : UInt8) : Bool := phexdigit c != 0 || c == 48

/-- What `SetHex` looks at: behind the white space and `0x`, the digits. -/
def hexDigits (psz : Bytes) : Bytes :=
  let psz := psz.dropWhile Decimal.isSpace
  let psz :=
    match psz with
    | 48 :: x :: rest => if x = 120 ∨ x = 88 then rest else psz
    | _ => psz
  psz.takeWhile isHexDigit

theorem length_setHexLoop (n : Nat) (digits : Bytes) : (setHexLoop n digits).length = n := by
  fun_induction setHexLoop n digits <;> simp_all

theorem length_ofBytes {memory : Bytes} {n : Nat} (h : memory.length = 4 * n) :
    (ofBytes memory).length = n := by
  induction n generalizing memory with
  | zero => rw [length_eq_zero_iff.mp h]; rfl
  | succ n ih =>
    rcases memory with _ | ⟨b0, _ | ⟨b1, _ | ⟨b2, _ | ⟨b3, rest⟩⟩⟩⟩
    all_goals simp only [length_nil, length_cons] at h
    all_goals try omega
    rw [ofBytes, length_cons, ih (by omega)]

def setHex (psz : Bytes) : BaseUint WIDTH where
  pn := ofBytes (setHexLoop (4 * WIDTH) (hexDigits psz).reverse)
  length_pn := length_ofBytes (length_setHexLoop _ _)

theorem byte_digits (byte : UInt8) :
    (phexdigit (hexChar (byte &&& 15)) ||| phexdigit (hexChar (byte >>> 4)) <<< 4) = byte ∧
      isHexDigit (hexChar (byte &&& 15)) = true ∧ isHexDigit (hexChar (byte >>> 4)) = true := by
  have hall : ∀ n < 256, (phexdigit (hexChar (UInt8.ofNat n &&& 15)) |||
      phexdigit (hexChar (UInt8.ofNat n >>> 4)) <<< 4) = UInt8.ofNat n ∧
        isHexDigit (hexChar (UInt8.ofNat n &&& 15)) = true ∧
          isHexDigit (hexChar (UInt8.ofNat n >>> 4)) = true := by decide +kernel
  simpa using hall byte.toNat byte.toNat_lt

theorem setHexLoop_digits (memory : Bytes) :
    setHexLoop memory.length (memory.flatMap fun byte =>
      [hexChar (byte &&& 15), hexChar (byte >>> 4)]) = memory := by
  induction memory with
  | nil => rfl
  | cons byte memory ih =>
    rw [flatMap_cons, length_cons]
    exact congrArg₂ List.cons (byte_digits byte).1 ih

theorem ofBytes_bytes (pn : List Word) : ofBytes (bytes pn) = pn := by
  induction pn with
  | nil => rfl
  | cons p pn ih =>
    rw [bytes, flatMap_cons]
    show BitVec.ofNat 32 _ :: ofBytes (bytes pn) = _
    rw [ih]
    congr 1
    apply BitVec.eq_of_toNat_eq
    have hp := p.isLt
    simp
    omega

theorem length_bytes (pn : List Word) : (bytes pn).length = 4 * pn.length := by
  simp [bytes, length_flatMap, Nat.mul_comm]

/-- White space and `0x` do not stand in front of digits. -/
theorem hexDigits_eq {psz : Bytes} (h : ∀ c ∈ psz, isHexDigit c = true) : hexDigits psz = psz := by
  have hspace : ∀ c, isHexDigit c = true → Decimal.isSpace c = false ∧ c ≠ 120 ∧ c ≠ 88 := by
    intro c hc
    have hall : ∀ n < 256, isHexDigit (UInt8.ofNat n) = true → Decimal.isSpace (UInt8.ofNat n) =
        false ∧ UInt8.ofNat n ≠ 120 ∧ UInt8.ofNat n ≠ 88 := by decide +kernel
    simpa using hall c.toNat c.toNat_lt (by simpa using hc)
  have hdrop : psz.dropWhile Decimal.isSpace = psz := by
    cases psz with
    | nil => rfl
    | cons c psz => rw [dropWhile_cons_of_neg (by simp [(hspace c (h c mem_cons_self)).1])]
  rw [hexDigits, hdrop]
  split
  · rename_i x rest
    obtain ⟨-, hx, hX⟩ := hspace x (h x (mem_cons_of_mem _ mem_cons_self))
    rw [if_neg (by simp [hx, hX])]
    exact takeWhile_eq_self_iff.mpr h
  · exact takeWhile_eq_self_iff.mpr h

theorem setHex_getHex : setHex a.getHex = a := by
  have hdigits : ∀ c ∈ a.getHex, isHexDigit c = true := by
    intro c hc
    obtain ⟨byte, -, hmem⟩ := mem_flatMap.mp hc
    simp only [List.mem_cons, not_mem_nil, or_false] at hmem
    rcases hmem with rfl | rfl
    · exact (byte_digits byte).2.2
    · exact (byte_digits byte).2.1
  have hlength : (bytes a.pn).length = 4 * WIDTH := by rw [length_bytes, a.length_pn]
  have hpn : ofBytes (setHexLoop (4 * WIDTH) a.getHex.reverse) = a.pn := by
    rw [getHex, reverse_flatMap, reverse_reverse, ← hlength]
    exact (congrArg ofBytes (setHexLoop_digits (bytes a.pn))).trans (ofBytes_bytes a.pn)
  obtain ⟨pn, hwidth⟩ := a
  rw [setHex, BaseUint.mk.injEq, hexDigits_eq hdigits]
  exact hpn

/-- **The operators compute with integers modulo `2 ^ (32 * WIDTH)`**, the comparisons compare them,
and the text of a value is read as that value. -/
theorem operators_correct (shift : Nat) : (a.add b).value = (a.value + b.value) % 2 ^ (32 * WIDTH) ∧
    ((a.sub b).value : Int) = ((a.value : Int) - b.value) % 2 ^ (32 * WIDTH) ∧
    (a.neg.value : Int) = -(a.value : Int) % 2 ^ (32 * WIDTH) ∧
    a.increment.value = (a.value + 1) % 2 ^ (32 * WIDTH) ∧
    (a.decrement.value : Int) = ((a.value : Int) - 1) % 2 ^ (32 * WIDTH) ∧
    (a.shiftLeft shift).value = a.value * 2 ^ shift % 2 ^ (32 * WIDTH) ∧
    (a.shiftRight shift).value = a.value / 2 ^ shift ∧
    (a.lt b = true ↔ a.value < b.value) ∧ (a.le b = true ↔ a.value ≤ b.value) ∧
    (a.gt b = true ↔ a.value > b.value) ∧ (a.ge b = true ↔ a.value ≥ b.value) ∧
    (a.eq b = true ↔ a.value = b.value) ∧ (a.ne b = true ↔ a.value ≠ b.value) ∧ setHex a.getHex = a := by
  have hadd : ∀ b : BaseUint WIDTH, (a.add b).value = (a.value + b.value) % 2 ^ (32 * WIDTH) := by
    intro b
    have h := wordsValue_addLoop 0 (a.length_pn.trans b.length_pn.symm)
    rwa [Nat.zero_add, a.length_pn] at h
  have hincrement : ∀ a : BaseUint WIDTH, a.increment.value = (a.value + 1) % 2 ^ (32 * WIDTH) := by
    intro a
    have h := wordsValue_incrementLoop a.pn
    rwa [a.length_pn] at h
  have hnot : ∀ a : BaseUint WIDTH, (a.not.value : Int) = 2 ^ (32 * WIDTH) - 1 - a.value := by
    intro a
    have h := wordsValue_not a.pn
    rw [a.length_pn] at h
    have hcast : ((a.not.value + a.value + 1 : Nat) : Int) = ((2 ^ (32 * WIDTH) : Nat) : Int) := congrArg _ h
    push_cast at hcast
    linarith
  have hneg : ∀ a : BaseUint WIDTH, (a.neg.value : Int) = -(a.value : Int) % 2 ^ (32 * WIDTH) := by
    intro a
    rw [neg, hincrement]
    push_cast
    rw [hnot, show (2 ^ (32 * WIDTH) - 1 - (a.value : Int) + 1) = -(a.value : Int) + 2 ^ (32 * WIDTH) by ring,
      Int.add_emod_right]
  have hdecrement : a.decrement = (a.not.increment).not := by
    rw [decrement, BaseUint.not, increment, BaseUint.not, BaseUint.mk.injEq]
    exact decrementLoop_eq a.pn
  have hless : ∀ (onEqual : Bool) (a b : BaseUint WIDTH), lessLoop onEqual (a.pn.zip b.pn).reverse =
      true ↔ a.value < b.value ∨ a.value = b.value ∧ onEqual = true :=
    fun onEqual a b => lessLoop_iff onEqual (a.length_pn.trans b.length_pn.symm)
  have heq : a.eq b = true ↔ a.value = b.value :=
    (eq_iff a b).trans ⟨fun h => congrArg value h, value_inj⟩
  refine ⟨hadd b, ?_, hneg a, hincrement a, ?_, value_shiftLeft a shift, value_shiftRight a shift,
    ?_, ?_, ?_, ?_, heq, ?_, setHex_getHex a⟩
  · rw [sub, hadd]
    push_cast
    rw [hneg, Int.add_emod_emod, ← sub_eq_add_neg]
  · have hpos : (0 : Int) < 2 ^ (32 * WIDTH) := by positivity
    rw [hdecrement, hnot, hincrement]
    push_cast
    rw [hnot, show (2 ^ (32 * WIDTH) - 1 - (a.value : Int) + 1) = -(a.value : Int) + 2 ^ (32 * WIDTH) by ring,
      Int.add_emod_right]
    have hlow := Int.emod_nonneg (-(a.value : Int)) hpos.ne'
    have hhigh := Int.emod_lt_of_pos (-(a.value : Int)) hpos
    have hsame : 2 ^ (32 * WIDTH) - 1 - -(a.value : Int) % 2 ^ (32 * WIDTH) ≡ 0 - 1 - -(a.value : Int)
        [ZMOD 2 ^ (32 * WIDTH)] :=
      .sub (.sub_right _ (Int.modEq_zero_iff_dvd.mpr dvd_rfl)) (Int.mod_modEq _ _)
    refine (Int.emod_eq_of_lt ?_ ?_).symm.trans (hsame.eq.trans (by ring_nf))
    · omega
    · omega
  · simp [lt, hless]
  · simp [le, hless, Nat.le_iff_lt_or_eq]
  · simp [gt, hless]
  · simp [ge, hless, Nat.le_iff_lt_or_eq, eq_comm]
  · rw [ne, Bool.not_eq_true', ← Bool.not_eq_true, heq]

end BaseUint

end MaryJaneCoin
