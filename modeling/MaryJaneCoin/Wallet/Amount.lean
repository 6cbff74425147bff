import MaryJaneCoin.Lib.Numeral
import MaryJaneCoin.Wallet.Base58
import MaryJaneCoin.Wallet.WalletRecords

/-!
# Amounts as text

`FormatMoney` and `ParseMoney` of `util.cpp`.  A string is a list of bytes; a pointer `p` into one
is what is left of the string.  Accepted is a numeral with at most ten digits before and eight
behind the point, and its value is exact.
-/

namespace MaryJaneCoin

open Codec Decimal List Int64 Nat Int

/-- `"%08" PRId64`. -/
def pad08 (n : Int64) : Bytes :=
  let sign : Bytes := if n < 0 then [45] else []
  let digits := Decimal.ofNat n.toInt.natAbs
  sign ++ List.replicate (8 - sign.length - digits.length) 48 ++ digits

/-- The loop of `FormatMoney` that counts `nTrim`, over the string from its end; `none` where it
reads in front of the string. -/
def trimLoop : Bytes → Option Nat
  | [] => none
  | c :: str =>
    if c = 48 then
      match str with
      | _ :: d :: _ => if isDigit d then (trimLoop str).map (· + 1) else some 0
      | _ => none
    else some 0

def formatMoney (n : Int64) (fPlus : Bool) : Option Bytes :=
  let n_abs := if n > 0 then n else -n
  let quotient := n_abs / COIN
  let remainder := n_abs % COIN
  let str := Decimal.ofInt quotient.toInt ++ 46 :: pad08 remainder
  (trimLoop str.reverse).map fun nTrim =>
    let str := str.take (str.length - nTrim)
    if n < 0 then 45 :: str
    else if fPlus && n > 0 then 43 :: str
    else str

/-- The digits behind the point: `nUnits`, and `p` behind them. -/
def parseUnits (nMult nUnits : Int64) : Bytes → Int64 × Bytes
  | [] => (nUnits, [])
  | c :: p =>
    if isDigit c && nMult > 0 then
      parseUnits (nMult / 10) (nUnits + nMult * Int64.ofNat (c.toNat - 48)) p
    else (nUnits, c :: p)

/-- The first loop of `ParseMoney`: `strWhole`, `nUnits` and `p`. -/
def parseWhole (strWhole : Bytes) : Bytes → Option (Bytes × Int64 × Bytes)
  | [] => some (strWhole, 0, [])
  | c :: p =>
    if c = 46 then some (strWhole, parseUnits (CENT * 10) 0 p)
    else if isSpace c then some (strWhole, 0, c :: p)
    else if !isDigit c then none
    else parseWhole (strWhole ++ [c]) p

/-- `ParseMoney(const char*, int64_t&)`: `nRet`, if it is set. -/
def parseMoneyPsz (pszIn : Bytes) : Option Int64 :=
  (parseWhole [] (pszIn.dropWhile isSpace)).bind fun (strWhole, nUnits, p) =>
    if p.any (!isSpace ·) then none
    else if strWhole.length > 10 then none
    else if nUnits < 0 || nUnits > COIN then none
    else
      let nWhole := atoi64 strWhole
      some (nWhole * COIN + nUnits)

/-- `ParseMoney(const string&, int64_t&)`. -/
def parseMoney (str : Bytes) : Option Int64 := parseMoneyPsz (cStr str)

/-- The numeral has at most ten digits in front of the point and eight behind. -/
def AmountNumeral (numeral : Numeral) : Prop := numeral.whole.length ≤ 10 ∧ numeral.places.length ≤ 8

/-- The text is the numeral, with white space around it. -/
def Writes (numeral : Numeral) (text : Bytes) : Prop :=
  ∃ pre post : Bytes, (∀ c ∈ pre, isSpace c = true) ∧ (∀ c ∈ post, isSpace c = true) ∧
    text = pre ++ numeral.text ++ post

theorem point_of_isDigit {c : UInt8} (h : isDigit c = true) : c ≠ 46 := by
  rintro rfl
  cases h

/-- **The digits behind the point**: at most `n` are read, each for a tenth of the one before. -/
theorem parseUnits_eq {n : Nat} (hn : n ≤ 8) (nUnits : Int64) (p : Bytes) :
    parseUnits (Int64.ofNat (10 ^ n / 10)) nUnits p = (nUnits + Int64.ofNat
      (value ((p.take n).takeWhile isDigit) * 10 ^ (n - ((p.take n).takeWhile isDigit).length)),
        p.drop ((p.take n).takeWhile isDigit).length) := by
  induction p generalizing n nUnits with
  | nil => simp [parseUnits, value]
  | cons c p ih =>
    cases n with
    | zero =>
      have hstop : (isDigit c && decide (Int64.ofNat (10 ^ 0 / 10) > 0)) = false := by
        rw [show decide (Int64.ofNat (10 ^ 0 / 10) > 0) = false by decide, Bool.and_false]
      rw [parseUnits, hstop]
      simp [value]
    | succ n =>
      have hpos : ∀ n ≤ 7, Int64.ofNat (10 ^ (n + 1) / 10) > 0 ∧
          Int64.ofNat (10 ^ (n + 1) / 10) / 10 = Int64.ofNat (10 ^ n / 10) := by decide
      obtain ⟨hpos, htenth⟩ := hpos n (by omega)
      rw [take_succ_cons, parseUnits]
      by_cases hc : isDigit c = true
      · rw [hc, decide_eq_true hpos, Bool.and_true, if_pos rfl, htenth, ih (by omega),
          takeWhile_cons_of_pos hc, length_cons, drop_succ_cons, value_cons,
          Nat.add_sub_add_right, Int64.add_assoc, ← ofNat_mul, ← ofNat_add,
          Nat.pow_succ, Nat.mul_div_cancel _ (by decide), Nat.add_mul, Nat.mul_assoc, ← Nat.pow_add,
          add_sub_of_le, Nat.mul_comm (10 ^ n)]
        exact ( takeWhile_prefix _).length_le.trans (length_take_le _ _)
      · rw [takeWhile_cons_of_neg hc, Bool.not_eq_true] at *
        rw [hc]
        simp [value]

variable {digits : Bytes}

theorem parseWhole_append (h : ∀ c ∈ digits, isDigit c = true) (strWhole p : Bytes) :
    parseWhole strWhole (digits ++ p) = parseWhole (strWhole ++ digits) p := by
  induction digits generalizing strWhole with
  | nil => rw [nil_append, append_nil]
  | cons c digits ih =>
    have hc := h c mem_cons_self
    rw [cons_append, parseWhole, if_neg (point_of_isDigit hc),
      isSpace_of_isDigit hc, hc, if_neg Bool.false_ne_true,
      if_neg (by decide), ih fun other hother => h other (mem_cons_of_mem _ hother), append_assoc]
    rfl

/-- What the first loop has read when it ends. -/
theorem parseWhole_some {strWhole p : Bytes} {r : Bytes × Int64 × Bytes}
    (h : parseWhole strWhole p = some r) :
    ∃ digits tail : Bytes, p = digits ++ tail ∧ (∀ c ∈ digits, isDigit c = true) ∧ r.1 = strWhole ++ digits ∧
      (r.2 = (0, tail) ∨ ∃ behind, tail = 46 :: behind ∧ r.2 = parseUnits (CENT * 10) 0 behind) := by
  induction p generalizing strWhole with
  | nil =>
    cases h
    exact ⟨[], [], rfl, by simp, (append_nil _).symm, .inl rfl⟩
  | cons c p ih =>
    rw [parseWhole] at h
    split_ifs at h with hpoint hspace hdigit
    · cases h
      exact ⟨[], c :: p, rfl, by simp, (append_nil _).symm, .inr ⟨p, by rw [hpoint], rfl⟩⟩
    · cases h
      exact ⟨[], c :: p, rfl, by simp, (append_nil _).symm, .inl rfl⟩
    · obtain ⟨digits, tail, rfl, hdigits, hwhole, hcases⟩ := ih h
      rw [Bool.not_eq_true, Bool.not_eq_false'] at hdigit
      refine ⟨c :: digits, tail, rfl, ?_, ?_, hcases⟩
      · exact forall_mem_cons.mpr ⟨hdigit, hdigits⟩
      · rw [hwhole, append_assoc]
        rfl

theorem atoi64_digits (h : ∀ c ∈ digits, isDigit c = true) (hlength : digits.length ≤ 10) :
    atoi64 digits = Int64.ofNat (value digits) := by
  have hread : readInt digits = value digits := by
    cases digits with
    | nil => rfl
    | cons c digits => rw [readInt_digits (h c mem_cons_self), readNat_digits h]
  have hlt : value digits < 10 ^ 10 :=
    Nat.lt_of_lt_of_le (value_lt h) (Nat.pow_le_pow_right (by decide) hlength)
  have hmin : Int64.minValue.toInt ≤ (value digits : Int) := Int.le_trans (by decide) (natCast_nonneg _)
  have hmax : (value digits : Int) ≤ Int64.maxValue.toInt := by
    rw [show Int64.maxValue.toInt = 9223372036854775807 from rfl]
    omega
  rw [atoi64, hread]
  apply toInt_inj.mp
  rw [toInt_ofIntClamp hmin hmax, Int64.toInt_ofNat_of_lt (by omega)]

section Accepted

variable {numeral : Numeral} {text : Bytes}

theorem scaled_lt (h : AmountNumeral numeral) : numeral.scaled 8 < 10 ^ 18 := numeral.scaled_lt h.1 h.2

theorem toInt_ofNat_scaled (h : AmountNumeral numeral) :
    (Int64.ofNat (numeral.scaled 8)).toInt = (numeral.scaled 8 : Int) := by
  have hlt := scaled_lt h
  exact Int64.toInt_ofNat_of_lt (by omega)

theorem takeWhile_places {places post : Bytes} (hplaces : ∀ c ∈ places, isDigit c = true)
    (hlength : places.length ≤ 8) (hpost : ∀ c ∈ post, isSpace c = true) :
    ((places ++ post).take 8).takeWhile isDigit = places := by
  have hnone : (post.take (8 - places.length)).takeWhile isDigit = [] := by
    refine takeWhile_eq_nil_iff.mpr fun hpos hdigit => ?_
    have hspace := hpost _ (mem_of_mem_take (getElem_mem hpos))
    exact Bool.false_ne_true ((isSpace_of_isDigit hdigit).symm.trans hspace)
  rw [take_append, take_of_length_le hlength, takeWhile_append_of_pos hplaces, hnone, append_nil]

/-- The first loop on what is left behind the white space in front. -/
theorem parseWhole_text (h : AmountNumeral numeral) {post : Bytes} (hpost : ∀ c ∈ post, isSpace c = true) :
    ∃ behind : Bytes, (∀ c ∈ behind, isSpace c = true) ∧
      parseWhole [] ((numeral.text ++ post).dropWhile isSpace) = some (numeral.whole,
        Int64.ofNat (value numeral.places * 10 ^ (8 - numeral.places.length)), behind) := by
  obtain ⟨whole, fraction, hwhole, hplaces⟩ := numeral
  have hblank : ∀ p : Bytes, (∀ c ∈ p.head?, isSpace c = true) →
      parseWhole whole p = some (whole, 0, p) := by
    intro p hp
    cases p with
    | nil => rfl
    | cons c p =>
      have hc := hp c rfl
      have hpoint : c ≠ 46 := by
        rintro rfl
        cases hc
      rw [parseWhole, if_neg hpoint, if_pos hc]
  have hstart : ∀ p : Bytes, (∀ c ∈ p.head?, isSpace c = false) →
      parseWhole [] ((whole ++ p).dropWhile isSpace) = parseWhole whole p := by
    intro p hp
    have hkept : (whole ++ p).dropWhile isSpace = whole ++ p := by
      refine dropWhile_eq_self_iff.mpr fun hpos => ?_
      cases whole with
      | nil =>
        cases p with
        | nil => cases hpos
        | cons c p => exact Bool.eq_false_iff.mp (hp c rfl)
      | cons c whole => exact Bool.eq_false_iff.mp (isSpace_of_isDigit (hwhole c mem_cons_self))
    rw [hkept, parseWhole_append hwhole, nil_append]
  cases fraction with
  | none =>
    refine ⟨post.drop (if whole = [] then post.length else 0), fun c hc => hpost c (mem_of_mem_drop hc), ?_⟩
    show parseWhole [] ((whole ++ [] ++ post).dropWhile isSpace) = some (whole, Int64.ofNat (0 * 10 ^ 8), _)
    rw [append_nil]
    split
    · rename_i hempty
      subst hempty
      rw [nil_append, dropWhile_eq_nil_iff.mpr hpost, drop_length]
      rfl
    · rename_i hne
      obtain ⟨c, rest, rfl⟩ := exists_cons_of_ne_nil hne
      rw [cons_append, dropWhile_cons_of_neg
        (Bool.eq_false_iff.mp (isSpace_of_isDigit (hwhole c mem_cons_self))), ← cons_append,
        parseWhole_append hwhole, nil_append, hblank post fun d hd => hpost d (mem_of_mem_head? hd)]
      rfl
  | some places =>
    refine ⟨post, hpost, ?_⟩
    have hunits : CENT * 10 = Int64.ofNat (10 ^ 8 / 10) := by decide
    have hread : ((places ++ post).take 8).takeWhile isDigit = places := takeWhile_places hplaces h.2 hpost
    show parseWhole [] ((whole ++ 46 :: places ++ post).dropWhile isSpace) = _
    rw [append_assoc, cons_append, hstart _ (by simp [isSpace])]
    show some (whole, parseUnits (CENT * 10) 0 (places ++ post)) = _
    rw [hunits, parseUnits_eq (Nat.le_refl 8), hread, drop_left, Int64.zero_add]
    rfl

/-- **A numeral is accepted**, for its exact value. -/
theorem parseMoneyPsz_of_writes (h : AmountNumeral numeral) (hwrites : Writes numeral text) :
    parseMoneyPsz text = some (Int64.ofNat (numeral.scaled 8)) := by
  obtain ⟨pre, post, hpre, hpost, rfl⟩ := hwrites
  obtain ⟨behind, hbehind, hparse⟩ := parseWhole_text h hpost
  have hblank : behind.any (!isSpace ·) = false := by
    rw [any_eq_false]
    intro c hc
    rw [hbehind c hc]
    decide
  have hunits : value numeral.places * 10 ^ (8 - numeral.places.length) < 10 ^ 8 := by
    have hlt := Nat.mul_lt_mul_of_pos_right (value_lt numeral.fraction_digit)
      (Nat.pow_pos (n := 8 - numeral.places.length) (show 0 < 10 by decide))
    rwa [← Nat.pow_add, show (numeral.fraction.getD []).length + (8 - numeral.places.length) = 8 from
      add_sub_of_le h.2] at hlt
  have hrange : ∀ n < 10 ^ 8, (decide (Int64.ofNat n < 0) || decide (Int64.ofNat n > COIN)) = false := by
    intro n hn
    have hint : (Int64.ofNat n).toInt = n := Int64.toInt_ofNat_of_lt (by omega)
    rw [Bool.or_eq_false_iff, decide_eq_false_iff_not, decide_eq_false_iff_not, lt_iff_toInt_lt, gt_iff_lt,
      lt_iff_toInt_lt, hint, show (0 : Int64).toInt = 0 from rfl, show COIN.toInt = 100000000 from rfl]
    omega
  have hcoin : COIN = Int64.ofNat (10 ^ 8) := rfl
  rw [parseMoneyPsz, append_assoc, dropWhile_append_of_pos hpre, hparse, Option.bind_some]
  simp only [hblank, Bool.false_eq_true, if_false]
  rw [if_neg (Nat.not_lt.mpr h.1), hrange _ hunits, if_neg Bool.false_ne_true,
    atoi64_digits numeral.whole_digit h.1, hcoin, ← ofNat_mul, ← ofNat_add]
  rfl

/-- **Only numerals are accepted.** -/
theorem exists_writes {nRet : Int64} (h : parseMoneyPsz text = some nRet) :
    ∃ numeral, AmountNumeral numeral ∧ Writes numeral text := by
  obtain ⟨⟨strWhole, nUnits, p⟩, hparse, hcheck⟩ := Option.bind_eq_some_iff.mp h
  obtain ⟨whole, tail, hdrop, hwhole, hstr, hcases⟩ := parseWhole_some hparse
  simp only at hcheck hstr hcases
  split_ifs at hcheck with hany hlong _
  rw [nil_append] at hstr
  subst hstr
  have hblank : ∀ c ∈ p, isSpace c = true := by
    intro c hc
    by_contra hnot
    exact hany (any_eq_true.mpr ⟨c, hc, by rw [Bool.not_eq_true] at hnot; rw [hnot]; rfl⟩)
  have hpre : ∀ c ∈ text.takeWhile isSpace, isSpace c = true := fun c hc => mem_takeWhile_imp hc
  rcases hcases with hplain | ⟨behind, rfl, hunits⟩
  · cases hplain
    refine ⟨⟨strWhole, none, hwhole, by simp⟩, ⟨Nat.not_lt.mp hlong, Nat.zero_le _⟩, _, p, hpre, hblank, ?_⟩
    show text = _ ++ (strWhole ++ []) ++ p
    rw [append_nil, append_assoc, ← hdrop, takeWhile_append_dropWhile]
  · rw [show CENT * 10 = Int64.ofNat (10 ^ 8 / 10) by decide, parseUnits_eq (Nat.le_refl 8)] at hunits
    set places := (behind.take 8).takeWhile isDigit with hplaces
    have hprefix : places <+: behind := ( takeWhile_prefix _).trans ( take_prefix _ _)
    refine ⟨⟨strWhole, some places, hwhole, fun c hc => mem_takeWhile_imp hc⟩,
      ⟨Nat.not_lt.mp hlong, ?_⟩, _, p, hpre, hblank, ?_⟩
    · exact ( takeWhile_prefix _).length_le.trans (length_take_le _ _)
    · have hbehind : behind = places ++ p := by
        rw [(Prod.mk.inj hunits).2]
        exact (prefix_iff_eq_append.mp hprefix).symm
      show text = _ ++ (strWhole ++ 46 :: places) ++ p
      rw [append_assoc, append_assoc, cons_append, ← hbehind, ← hdrop, takeWhile_append_dropWhile]

theorem parseMoneyPsz_eq_some_iff {nRet : Int64} : parseMoneyPsz text = some nRet ↔
    ∃ numeral, AmountNumeral numeral ∧ Writes numeral text ∧
      (nRet.toInt : ℚ) = numeral.value * COIN.toInt := by
  have hexact : ∀ numeral, AmountNumeral numeral →
      ((Int64.ofNat (numeral.scaled 8)).toInt : ℚ) = numeral.value * COIN.toInt := by
    intro numeral hnumeral
    rw [toInt_ofNat_scaled hnumeral, show COIN.toInt = ((10 ^ 8 : Nat) : Int) from rfl]
    push_cast
    exact (numeral.value_mul_pow hnumeral.2).symm
  constructor
  · intro h
    obtain ⟨numeral, hnumeral, hwrites⟩ := exists_writes h
    rw [parseMoneyPsz_of_writes hnumeral hwrites] at h
    exact ⟨numeral, hnumeral, hwrites, Option.some.inj h ▸ hexact numeral hnumeral⟩
  · rintro ⟨numeral, hnumeral, hwrites, hvalue⟩
    rw [parseMoneyPsz_of_writes hnumeral hwrites, Option.some.injEq]
    apply toInt_inj.mp
    exact_mod_cast (hexact numeral hnumeral).trans hvalue.symm

end Accepted

theorem trimLoop_cons (c d e : UInt8) (str : Bytes) : trimLoop (c :: d :: e :: str) =
    if c = 48 then if isDigit e then (trimLoop (d :: e :: str)).map (· + 1) else some 0 else some 0 := rfl

theorem trimLoop_of_ne {c : UInt8} (hc : c ≠ 48) (str : Bytes) : trimLoop (c :: str) = some 0 := by
  rw [trimLoop.eq_def]
  exact if_neg hc

/-- **The zeros at the end** are counted, but for the two places behind the point. -/
theorem trimLoop_digits (h : ∀ c ∈ digits, isDigit c = true) (hlength : 2 ≤ digits.length)
    (rest : Bytes) : ∃ k ≤ digits.length, trimLoop (digits ++ 46 :: rest) = some k ∧
      digits.take k = List.replicate k 48 := by
  induction digits with
  | nil => cases hlength
  | cons c digits ih =>
    by_cases hzero : c = 48
    · obtain ⟨d, digits, rfl⟩ := exists_cons_of_ne_nil
        (ne_nil_of_length_pos (le_of_succ_le_succ hlength))
      cases digits with
      | nil =>
        refine ⟨0, Nat.zero_le _, ?_, rfl⟩
        rw [hzero]
        rfl
      | cons e digits =>
        obtain ⟨k, hk, htrim, htake⟩ := ih (fun other hother => h other (mem_cons_of_mem _ hother))
          (Nat.le_add_left 2 _)
        have he := h e (by simp)
        refine ⟨k + 1, succ_le_succ hk, ?_, ?_⟩
        · show trimLoop (c :: d :: e :: (digits ++ 46 :: rest)) = _
          rw [trimLoop_cons, if_pos hzero, if_pos he, ← cons_append, ← cons_append, htrim]
          rfl
        · rw [take_succ_cons, htake, hzero, replicate_succ]
    · exact ⟨0, Nat.zero_le _, trimLoop_of_ne hzero _, rfl⟩

theorem pad08_digits {n : Int64} {m : Nat} (hn : n.toInt = m) (hm : m < 10 ^ 8) :
    (pad08 n).length = 8 ∧ (∀ c ∈ pad08 n, isDigit c = true) ∧ value (pad08 n) = m := by
  have hsign : ¬n < 0 := by
    rw [lt_iff_toInt_lt, hn]
    exact Int.not_lt.mpr (natCast_nonneg m)
  have hpad : pad08 n = List.replicate (8 - (Decimal.ofNat m).length) 48 ++ Decimal.ofNat m := by
    rw [pad08, if_neg hsign, hn, natAbs_natCast]
    rfl
  have hlength := length_ofNat_le (by decide) hm
  refine ⟨?_, ?_, ?_⟩
  · rw [hpad, length_append, length_replicate]
    omega
  · intro c hc
    rw [hpad, mem_append] at hc
    rcases hc with hzero | hdigit
    · rw [eq_of_mem_replicate hzero]
      rfl
    · exact isDigit_of_mem_ofNat hdigit
  · rw [hpad, value_append, value_zeros, Nat.zero_mul, Nat.zero_add, value_ofNat]

/-- An amount in whole coins and the rest. -/
theorem toInt_coins {n : Int64} (hnonneg : 0 ≤ n) : ∃ m : Nat, n.toInt = m ∧
    (n / COIN).toInt = (m / 10 ^ 8 : Nat) ∧ (n % COIN).toInt = (m % 10 ^ 8 : Nat) := by
  rw [le_iff_toInt_le, show (0 : Int64).toInt = 0 from rfl] at hnonneg
  obtain ⟨m, hm⟩ := eq_ofNat_of_zero_le hnonneg
  have hlt := n.toInt_lt
  have hcoin : COIN.toInt = (10 ^ 8 : Nat) := rfl
  refine ⟨m, hm, ?_, ?_⟩
  · rw [toInt_div, hm, hcoin, ← ofNat_tdiv]
    exact bmod_eq_of_le (by omega) (by omega)
  · rw [toInt_mod, hm, hcoin]
    rfl

/-- **An amount is written** as a numeral that is worth it. -/
theorem formatMoney_numeral {n : Int64} (hnonneg : 0 ≤ n) (hmax : n ≤ MAX_MONEY) :
    ∃ numeral : Numeral, formatMoney n false = some numeral.text ∧ AmountNumeral numeral ∧
      n = Int64.ofNat (numeral.scaled 8) := by
  obtain ⟨m, hm, hquotient, hremainder⟩ := toInt_coins hnonneg
  have hbound : m ≤ 10 ^ 17 := by
    rw [le_iff_toInt_le, hm, show MAX_MONEY.toInt = 10 ^ 17 from rfl] at hmax
    omega
  obtain ⟨hlength, hdigits, hvalue⟩ := pad08_digits hremainder (mod_lt _ (by decide))
  set pad := pad08 (n % COIN)
  have hstr : Decimal.ofInt (n / COIN).toInt = Decimal.ofNat (m / 10 ^ 8) := by
    rw [hquotient, Decimal.ofInt, if_neg (Int.not_lt.mpr (natCast_nonneg _)), natAbs_natCast]
  have hreversed : ∀ c ∈ pad.reverse, isDigit c = true := fun c hc => hdigits c (mem_reverse.mp hc)
  obtain ⟨k, hk, htrim, hzeros⟩ := trimLoop_digits hreversed
    (by rw [length_reverse, hlength]; decide) (Decimal.ofNat (m / 10 ^ 8)).reverse
  rw [length_reverse, hlength] at hk
  have hkept : pad = pad.take (8 - k) ++ List.replicate k 48 := by
    have hback : pad.drop (8 - k) = List.replicate k 48 := by
      rw [take_reverse, hlength] at hzeros
      rw [← reverse_inj, hzeros, reverse_replicate]
    rw [← hback, take_append_drop]
  have hplaces : (pad.take (8 - k)).length = 8 - k := by
    rw [length_take, hlength]
    exact Nat.min_eq_left (sub_le 8 k)
  have habs : (if n > 0 then n else -n) = n := by
    split
    · rfl
    · next hnot =>
        have hzero : n = 0 := Int64.le_antisymm (Int64.not_lt.mp hnot) hnonneg
        rw [hzero]
        rfl
  refine ⟨⟨Decimal.ofNat (m / 10 ^ 8), some (pad.take (8 - k)), fun c => isDigit_of_mem_ofNat,
    fun c hc => hdigits c (mem_of_mem_take hc)⟩, ?_, ⟨?_, ?_⟩, ?_⟩
  · have hreverse : (Decimal.ofNat (m / 10 ^ 8) ++ 46 :: pad).reverse =
        pad.reverse ++ 46 :: (Decimal.ofNat (m / 10 ^ 8)).reverse := by
      rw [reverse_append, reverse_cons, append_assoc, singleton_append]
    have hcut : (Decimal.ofNat (m / 10 ^ 8) ++ 46 :: pad).take
        ((Decimal.ofNat (m / 10 ^ 8) ++ 46 :: pad).length - k) =
          Decimal.ofNat (m / 10 ^ 8) ++ 46 :: pad.take (8 - k) := by
      have hwhole : Decimal.ofNat (m / 10 ^ 8) ++ 46 :: pad =
          (Decimal.ofNat (m / 10 ^ 8) ++ 46 :: pad.take (8 - k)) ++ List.replicate k 48 := by
        rw [append_assoc, cons_append, ← hkept]
      rw [hwhole, length_append, length_replicate, Nat.add_sub_cancel, take_left]
    simp only [formatMoney, habs, hstr]
    rw [hreverse, htrim, Option.map_some, hcut, if_neg (Int64.not_lt.mpr hnonneg)]
    rfl
  · exact length_ofNat_le (by decide) (by omega)
  · exact hplaces.le.trans (sub_le 8 k)
  · have hworth : value (pad.take (8 - k)) * 10 ^ k = m % 10 ^ 8 := by
      rw [hkept, value_append, value_zeros, length_replicate, Nat.add_zero] at hvalue
      exact hvalue
    have hscaled : value (Decimal.ofNat (m / 10 ^ 8)) * 10 ^ 8 + value (pad.take (8 - k)) *
        10 ^ (8 - (pad.take (8 - k)).length) = m := by
      rw [value_ofNat, hplaces, Nat.sub_sub_self hk, hworth]
      exact div_add_mod' m (10 ^ 8)
    apply toInt_inj.mp
    rw [hm, Int64.toInt_ofNat_of_lt]
    · exact congrArg Nat.cast hscaled.symm
    · exact Nat.lt_of_le_of_lt hscaled.le (by omega)

theorem plain_of_mem_text (numeral : Numeral) {c : UInt8} (hc : c ∈ numeral.text) :
    isDigit c = true ∨ c = 46 := by
  rw [Numeral.text, mem_append] at hc
  rcases hc with hwhole | hfraction
  · exact .inl (numeral.whole_digit c hwhole)
  · have hdigit := numeral.fraction_digit c
    cases hcase : numeral.fraction with
    | none =>
      rw [hcase] at hfraction
      cases hfraction
    | some places =>
      rw [hcase] at hfraction hdigit
      exact (List.mem_cons.mp hfraction).elim .inr fun hplaces => .inl (hdigit hplaces)

theorem nul_notMem_text (numeral : Numeral) : (0 : UInt8) ∉ numeral.text := by
  intro hmem
  rcases plain_of_mem_text numeral hmem with hdigit | hpoint
  · cases hdigit
  · cases hpoint

/-- **Amounts are written and read exactly.**  Read is what stands in front of the first NUL, where
there is one. -/
theorem parseMoney_exact :
    (∀ n : Int64, 0 ≤ n → n ≤ MAX_MONEY → ∃ str, formatMoney n false = some str ∧
    parseMoney str = some n) ∧ ∀ (str : Bytes) (nRet : Int64), parseMoney str = some nRet ↔
      ∃ numeral, AmountNumeral numeral ∧ Writes numeral (cStr str) ∧
        (nRet.toInt : ℚ) = numeral.value * COIN.toInt := by
  refine ⟨?_, fun str nRet => parseMoneyPsz_eq_some_iff⟩
  intro n hnonneg hmax
  obtain ⟨numeral, hformat, hnumeral, hn⟩ := formatMoney_numeral hnonneg hmax
  refine ⟨numeral.text, hformat, ?_⟩
  have hplain : cStr numeral.text = numeral.text := by
    refine cStr_eq fun c hc => ?_
    rintro rfl
    exact nul_notMem_text numeral hc
  rw [parseMoney, hplain, hn]
  exact parseMoneyPsz_of_writes hnumeral ⟨[], [], by simp, by simp, by simp⟩

/-- Ten and a half. -/
theorem parseMoney_exact_ten : ∃ str, formatMoney 1050000000 false = some str ∧
    parseMoney str = some 1050000000 :=
  parseMoney_exact.1 1050000000 (by decide) (by decide)

/-- **A string goes on behind a NUL** that the numeral ends at. -/
theorem parseMoney_nul : ¬∀ (str : Bytes) (nRet : Int64), parseMoney str = some nRet →
    ∃ numeral, AmountNumeral numeral ∧ Writes numeral str ∧
      (nRet.toInt : ℚ) = numeral.value * COIN.toInt := by
  intro h
  obtain ⟨numeral, -, ⟨pre, post, hpre, hpost, htext⟩, -⟩ := h [0x31, 0, 0x78] COIN (by decide +kernel)
  have hnul : (0 : UInt8) ∈ pre ++ numeral.text ++ post := by
    rw [← htext]
    decide
  rw [mem_append, mem_append] at hnul
  rcases hnul with (hmem | hmem) | hmem
  · cases hpre 0 hmem
  · exact nul_notMem_text numeral hmem
  · cases hpost 0 hmem

end MaryJaneCoin
