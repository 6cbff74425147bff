import Mathlib.Algebra.BigOperators.Group.List.Basic
import Mathlib.Algebra.Module.NatInt
import Mathlib.Data.Int.ModEq

/-!
# Openings over two independent generators

In an abelian group with two elements `H` and `G`, a point `v • H + b • G` opens
to the value `v` under the blind `b`.  When the generators are independent
modulo `n`, a combination of opened points that vanishes has values that add up
to zero modulo `n`.
-/

namespace Opening

open List

variable {P : Type} [AddCommGroup P] {H G Q R : P} {v w : Int} {n : Nat}

/-- The point opens to this value. -/
def Opens (H G Q : P) (v : Int) : Prop := ∃ b : Int, Q = v • H + b • G

/-- No combination of the generators vanishes unless its first coefficient is
zero modulo `n`. -/
def Independent (H G : P) (n : Nat) : Prop := ∀ v b : Int, v • H + b • G = 0 → (n : Int) ∣ v

theorem opens_zero (H G : P) : Opens H G 0 0 := ⟨0, by simp⟩

theorem Opens.add (hQ : Opens H G Q v) (hR : Opens H G R w) : Opens H G (Q + R) (v + w) := by
  obtain ⟨b, rfl⟩ := hQ
  obtain ⟨c, rfl⟩ := hR
  refine ⟨b + c, ?_⟩
  rw [add_zsmul, add_zsmul, add_add_add_comm]

theorem Opens.neg (hQ : Opens H G Q v) : Opens H G (-Q) (-v) := by
  obtain ⟨b, rfl⟩ := hQ
  refine ⟨-b, ?_⟩
  rw [neg_zsmul, neg_zsmul, neg_add]

theorem opens_sum {ε : Type} {point : ε → P} {value : ε → Int} {items : List ε}
    (h : ∀ item ∈ items, Opens H G (point item) (value item)) :
    Opens H G (items.map point).sum (items.map value).sum := by
  induction items with
  | nil => exact opens_zero H G
  | cons item items ih =>
    rw [map_cons, map_cons, sum_cons, sum_cons]
    exact (h item mem_cons_self).add
      (ih fun other hother => h other (mem_cons_of_mem _ hother))

/-- **Binding.**  The value of a point is determined modulo `n`. -/
theorem Independent.modEq (hind : Independent H G n) (hv : Opens H G Q v) (hw : Opens H G Q w) :
    v ≡ w [ZMOD n] := by
  obtain ⟨b, hb⟩ := hv.add hw.neg
  rw [add_neg_cancel] at hb
  have hdvd := hind _ _ hb.symm
  apply (Int.modEq_iff_dvd.mpr _).symm
  rwa [sub_eq_add_neg]

end Opening
