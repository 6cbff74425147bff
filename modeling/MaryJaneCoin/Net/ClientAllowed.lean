import Mathlib.Computability.Language
import Mathlib.Data.List.TakeWhile

/-!
# Which addresses may use the RPC server

`ClientAllowed` compares the text of the caller's address with the masks of `-rpcallowip`.  What
a mask describes is a language: `*` stands for any text, `?` for any one character, and every
other character for itself.
-/

namespace MaryJaneCoin

namespace Wildcard

/-- The texts that one character of a mask stands for. -/
def charLanguage (c : Char) : Language Char :=
  if c = '*' then ⊤ else if c = '?' then {text | ∃ d, text = [d]} else {[c]}

/-- The texts that a mask describes. -/
def maskLanguage (mask : List Char) : Language Char := (mask.map charLanguage).prod

variable {c d : Char} {text mask : List Char}

theorem mem_nil : text ∈ maskLanguage [] ↔ text = [] := Language.mem_one text

theorem mem_cons : text ∈ maskLanguage (c :: mask) ↔
    ∃ front ∈ charLanguage c, ∃ back ∈ maskLanguage mask, front ++ back = text := by
  rw [maskLanguage, List.map_cons, List.prod_cons]
  exact Language.mem_mul

/-- A star takes nothing, or one character and goes on. -/
theorem mem_star : text ∈ maskLanguage ('*' :: mask) ↔
    text ∈ maskLanguage mask ∨ ∃ d rest, text = d :: rest ∧ rest ∈ maskLanguage ('*' :: mask) := by
  have hany : ∀ front, front ∈ charLanguage '*' := fun _ => trivial
  constructor
  · intro h
    obtain ⟨front, -, back, hback, rfl⟩ := mem_cons.mp h
    cases front with
    | nil => exact .inl hback
    | cons d front => exact .inr ⟨d, front ++ back, rfl, mem_cons.mpr ⟨front, hany front, back, hback, rfl⟩⟩
  · rintro (h | ⟨d, rest, rfl, h⟩)
    · exact mem_cons.mpr ⟨[], hany [], text, h, rfl⟩
    · obtain ⟨front, -, back, hback, rfl⟩ := mem_cons.mp h
      exact mem_cons.mpr ⟨d :: front, hany _, back, hback, rfl⟩

theorem mem_single (hstar : c ≠ '*') : text ∈ maskLanguage (c :: mask) ↔
    ∃ d rest, text = d :: rest ∧ (c = '?' ∨ d = c) ∧ rest ∈ maskLanguage mask := by
  have hone : ∀ front, front ∈ charLanguage c ↔ ∃ d, front = [d] ∧ (c = '?' ∨ d = c) := by
    intro front
    rw [charLanguage, if_neg hstar]
    by_cases hquestion : c = '?'
    · simp only [hquestion, true_or, and_true]
      exact Iff.rfl
    · simp only [hquestion, false_or, exists_eq_right]
      exact Iff.rfl
  rw [mem_cons]
  constructor
  · rintro ⟨front, hfront, back, hback, rfl⟩
    obtain ⟨d, rfl, hd⟩ := (hone front).mp hfront
    exact ⟨d, back, rfl, hd, hback⟩
  · rintro ⟨d, rest, rfl, hd, hrest⟩
    exact ⟨[d], (hone _).mpr ⟨d, rfl, hd⟩, rest, hrest, rfl⟩

end Wildcard

open Wildcard

/-- `WildcardMatch` of what two pointers see up to the end of their texts. -/
def wildcardMatch (psz : List Char) : List Char → Bool
  | [] => psz.isEmpty
  | c :: mask =>
    if c = '*' then
      wildcardMatch psz mask ||
        match psz with
        | [] => false
        | _ :: psz => wildcardMatch psz (c :: mask)
    else if c = '?' then
      match psz with
      | [] => false
      | _ :: psz => wildcardMatch psz mask
    else
      match psz with
      | [] => false
      | d :: psz => if d ≠ c then false else wildcardMatch psz mask
termination_by mask => psz.length + mask.length

/-- What a C text is read to: its first NUL. -/
def cString (str : List Char) : List Char := str.takeWhile (· ≠ '\x00')

/-- `WildcardMatch` of two strings. -/
def wildcardMatchString (str mask : List Char) : Bool := wildcardMatch (cString str) (cString mask)

theorem cString_eq_self {str : List Char} (h : '\x00' ∉ str) : cString str = str := by
  rw [cString, List.takeWhile_eq_self_iff]
  intro c hc
  rw [decide_eq_true_eq]
  rintro rfl
  exact h hc

/-- **The loop decides the language of the mask.** -/
theorem wildcardMatch_iff (psz mask : List Char) : wildcardMatch psz mask = true ↔
    psz ∈ maskLanguage mask := by
  fun_induction wildcardMatch psz mask with
  | case1 psz => exact List.isEmpty_iff.trans mem_nil.symm
  | case2 psz mask ihSkip ihTake =>
    rw [mem_star, ← ihSkip, Bool.or_eq_true]
    cases psz with
    | nil => simp
    | cons d psz => simp [ihTake]
  | case3 mask hstar => simp [mem_single hstar]
  | case4 mask d psz hstar ih => simp [mem_single hstar, ih]
  | case5 c mask hstar hquestion => simp [mem_single hstar]
  | case6 c mask hstar hquestion d psz hne => simp [mem_single hstar, hquestion, hne]
  | case7 c mask hstar hquestion d psz heq ih => simp [mem_single hstar, not_not.mp heq, ih]

/-- A network address, over what stands for an IPv6 one. -/
inductive Address (V6 : Type)
  | v4 (ulong : UInt32)
  | v6 (bytes : V6)

/-- What the network library knows of addresses. -/
structure Asio (V6 : Type) where
  isV4Compatible : V6 → Bool
  isV4Mapped : V6 → Bool
  toV4 : V6 → UInt32
  loopback : V6
  toText : Address V6 → List Char

variable {V6 : Type} [DecidableEq V6] (asio : Asio V6) (vAllow : List (List Char))

/-- An IPv6 address that only carries an IPv4 one is judged as that. -/
def Address.carried : Address V6 → Address V6
  | .v4 ulong => .v4 ulong
  | .v6 bytes => if asio.isV4Compatible bytes || asio.isV4Mapped bytes then .v4 (asio.toV4 bytes)
  else .v6 bytes

def Address.isLoopback : Address V6 → Bool
  | .v4 ulong => ulong == 0x7f000001 || ulong &&& 0xff000000 == 0x7f000000
  | .v6 bytes => bytes == asio.loopback

/-- `ClientAllowed` under the masks of `-rpcallowip`. -/
def clientAllowed (address : Address V6) : Bool :=
  let address := address.carried asio
  if address.isLoopback asio then true
  else vAllow.any (wildcardMatchString (asio.toText address) ·)

/-- **`WildcardMatch` decides the language of the mask**, and the RPC server admits the loopback
addresses and those that one of its masks describes. -/
theorem clientAllowed_iff (htext : ∀ address, '\x00' ∉ asio.toText address)
    (hmasks : ∀ mask ∈ vAllow, '\x00' ∉ mask) : (∀ str mask, '\x00' ∉ str → '\x00' ∉ mask →
      (wildcardMatchString str mask = true ↔ str ∈ maskLanguage mask)) ∧
    ∀ address : Address V6, clientAllowed asio vAllow address = true ↔
      (address.carried asio).isLoopback asio = true ∨
        ∃ mask ∈ vAllow, asio.toText (address.carried asio) ∈ maskLanguage mask := by
  have hmatch : ∀ str mask, '\x00' ∉ str → '\x00' ∉ mask →
      (wildcardMatchString str mask = true ↔ str ∈ maskLanguage mask) := by
    intro str mask hstr hmask
    rw [wildcardMatchString, cString_eq_self hstr, cString_eq_self hmask]
    exact wildcardMatch_iff str mask
  refine ⟨hmatch, ?_⟩
  intro address
  have hany : vAllow.any (wildcardMatchString (asio.toText (address.carried asio)) ·) = true ↔
      ∃ mask ∈ vAllow, asio.toText (address.carried asio) ∈ maskLanguage mask := by
    rw [List.any_eq_true]
    exact exists_congr fun mask => and_congr_right fun hmem => hmatch _ mask (htext _) (hmasks mask hmem)
  rw [clientAllowed, ← hany]
  split <;> simp [*]

/-- A mask for a local network, and an address in it. -/
theorem clientAllowed_network :
    let asio : Asio Nat := ⟨fun a => 1 < a && a < 2 ^ 32, fun a => a / 2 ^ 32 == 0xffff,
      fun a => .ofNat a, 1, fun _ => "192.168.1.5".toList⟩
    clientAllowed asio ["192.168.*".toList] (.v4 0xc0a80105) = true := by
  intro asio
  refine ((clientAllowed_iff asio _ ?_ ?_).2 _).mpr (.inr ⟨_, List.mem_singleton_self _, ?_⟩)
  · intro address
    show '\x00' ∉ "192.168.1.5".toList
    decide
  · decide
  · exact (wildcardMatch_iff _ _).mp (by simp [wildcardMatch, asio])

/-- A loopback address is admitted under no mask at all. -/
theorem clientAllowed_loopback : ¬∀ (asio : Asio Nat) (vAllow : List (List Char)) (address : Address Nat),
      clientAllowed asio vAllow address = true ↔
        ∃ mask ∈ vAllow, asio.toText address ∈ maskLanguage mask := by
  intro h
  have hloopback := h ⟨fun _ => false, fun _ => false, fun _ => 0, 1,
    fun _ => "127.0.0.1".toList⟩ [] (.v4 0x7f000001)
  obtain ⟨mask, hmem, -⟩ := hloopback.mp rfl
  cases hmem

end MaryJaneCoin
