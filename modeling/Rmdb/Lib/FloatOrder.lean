import Mathlib

/-!
# The order of `Float32`

A float has a code, a list of three integers; on floats that are not NaN, `<` is the
lexicographic order of the codes (`float_lt_iff`).
-/

namespace Rmdb.Lib

open Float.Model

def unpackedCode : UnpackedFloat → List Int
  | .infinity .positive => [2, 0, 0]
  | .infinity .negative => [-2, 0, 0]
  | .notANumber => [3, 0, 0]
  | .zero _ => [0, 0, 0]
  | .finite .positive m e _ => [1, e, m]
  | .finite .negative m e _ => [-1, -e, -m]

def floatCode (f : Float32) : List Int := unpackedCode f.toModel.unpack

def IsNaN (f : Float32) : Prop := f.toModel.unpack.isNaN = true

instance (f : Float32) : Decidable (IsNaN f) := inferInstanceAs (Decidable (_ = true))

theorem floatCode_length (f : Float32) : (floatCode f).length = 3 := by
  unfold floatCode
  match f.toModel.unpack with
  | .infinity .positive => rfl
  | .infinity .negative => rfl
  | .notANumber => rfl
  | .zero _ => rfl
  | .finite .positive _ _ _ => rfl
  | .finite .negative _ _ _ => rfl

theorem triple_lt (a b c x y z : Int) : [a, b, c] < [x, y, z] ↔
    a < x ∨ (a = x ∧ (b < y ∨ (b = y ∧ c < z))) := by
  simp [List.cons_lt_cons_iff]

theorem then_lt_iff (e f : Int) (m n : Nat) :
    (compare e f).then (compare m n) = .lt ↔ e < f ∨ (e = f ∧ m < n) := by
  rw [Ordering.then_eq_lt, compare_lt_iff_lt, compare_eq_iff_eq, compare_lt_iff_lt]

theorem beq_lt_iff (o : Option Ordering) : (o == some Ordering.lt) = true ↔ o = some .lt := by
  rcases o with _ | _ | _ | _ <;> decide

/-- Two finite floats of one sign are compared by exponent, then by mantissa; otherwise the
kinds decide. -/
theorem unpacked_lt_iff {a b : UnpackedFloat} (ha : a.isNaN = false) (hb : b.isNaN = false) :
    a.lt b = true ↔ unpackedCode a < unpackedCode b := by
  unfold UnpackedFloat.lt
  rw [beq_lt_iff]
  match a, b with
  | .notANumber, _ => cases ha
  | _, .notANumber => cases hb
  | .finite .positive m e _, .finite .positive n f _ =>
      simp only [UnpackedFloat.compare, unpackedCode, Option.some.injEq, then_lt_iff, triple_lt,
        lt_self_iff_false, true_and, false_or, Nat.cast_lt]
  | .finite .negative m e _, .finite .negative n f _ =>
      simp only [UnpackedFloat.compare, unpackedCode, Option.some.injEq, triple_lt]
      rw [Ordering.swap_eq_lt, Ordering.then_eq_gt, compare_gt_iff_gt, compare_eq_iff_eq,
        compare_gt_iff_gt]
      simp only [lt_self_iff_false, true_and, false_or, Int.neg_lt_neg_iff, neg_inj, Nat.cast_lt]
  | .infinity .positive, .infinity .positive => decide
  | .infinity .positive, .infinity .negative => decide
  | .infinity .negative, .infinity .positive => decide
  | .infinity .negative, .infinity .negative => decide
  | .infinity .positive, .zero _ => simp [UnpackedFloat.compare, unpackedCode, triple_lt]
  | .infinity .negative, .zero _ => simp [UnpackedFloat.compare, unpackedCode, triple_lt]
  | .zero _, .infinity .positive => simp [UnpackedFloat.compare, unpackedCode, triple_lt]
  | .zero _, .infinity .negative => simp [UnpackedFloat.compare, unpackedCode, triple_lt]
  | .zero _, .zero _ => simp [UnpackedFloat.compare, unpackedCode]
  | .infinity .positive, .finite s _ _ _ =>
      cases s <;> simp [UnpackedFloat.compare, unpackedCode, triple_lt]
  | .infinity .negative, .finite s _ _ _ =>
      cases s <;> simp [UnpackedFloat.compare, unpackedCode, triple_lt]
  | .finite s _ _ _, .infinity .positive =>
      cases s <;> simp [UnpackedFloat.compare, unpackedCode, triple_lt]
  | .finite s _ _ _, .infinity .negative =>
      cases s <;> simp [UnpackedFloat.compare, unpackedCode, triple_lt]
  | .zero _, .finite s _ _ _ =>
      cases s <;> simp [UnpackedFloat.compare, unpackedCode, triple_lt]
  | .finite s _ _ _, .zero _ =>
      cases s <;> simp [UnpackedFloat.compare, unpackedCode, triple_lt]
  | .finite .positive _ _ _, .finite .negative _ _ _ =>
      simp [UnpackedFloat.compare, unpackedCode, triple_lt]
  | .finite .negative _ _ _, .finite .positive _ _ _ =>
      simp [UnpackedFloat.compare, unpackedCode, triple_lt]

theorem float_lt_iff {f g : Float32} (hf : ¬ IsNaN f) (hg : ¬ IsNaN g) :
    f < g ↔ floatCode f < floatCode g := by
  have h : f < g ↔ f.toModel.unpack.lt g.toModel.unpack = true := by
    show ((decide (f.toModel < g.toModel)) = true) ↔ _
    rw [decide_eq_true_iff]
    exact Iff.rfl
  rw [h]
  exact unpacked_lt_iff (Bool.eq_false_iff.2 hf) (Bool.eq_false_iff.2 hg)

theorem float_lt_irrefl (f : Float32) : ¬ f < f := by
  intro h
  by_cases hn : IsNaN f
  · have hlt : f.toModel.unpack.lt f.toModel.unpack = true := by
      change (decide (f.toModel < f.toModel)) = true at h
      rw [decide_eq_true_iff] at h
      exact h
    unfold IsNaN at hn
    revert hn hlt
    match f.toModel.unpack with
    | .notANumber => exact fun _ h => absurd h (by decide)
    | .infinity _ => exact fun h => Bool.noConfusion h
    | .zero _ => exact fun h => Bool.noConfusion h
    | .finite .. => exact fun h => Bool.noConfusion h
  · exact absurd ((float_lt_iff hn hn).1 h) (lt_irrefl _)

end Rmdb.Lib
