import Mathlib

/-!
# Binary search over an index range

`binSearch p fuel l r` is the loop

    while (l < r) { mid = (l + r) >> 1; if (p mid) r = mid; else l = mid + 1; }

with `fuel` bounding the number of rounds.  For a predicate that stays true once
it is true and `r - l` rounds it returns the first index of `[l, r)` on which `p`
holds, and `r` when there is none (`binSearch_spec`).
-/

namespace Rmdb.Lib

def binSearch (p : Nat → Bool) : Nat → Nat → Nat → Nat
  | 0, l, _ => l
  | fuel + 1, l, r =>
      if l < r then
        let mid := (l + r) / 2
        if p mid then binSearch p fuel l mid else binSearch p fuel (mid + 1) r
      else l

/-- The search stays in `[l, r]` and splits it: below the result `p` fails, from
the result on (inside the range) it holds. -/
theorem binSearch_spec (p : Nat → Bool) :
    ∀ (fuel l r : Nat), l ≤ r → r - l ≤ fuel →
      (∀ i j, l ≤ i → i ≤ j → j < r → p i = true → p j = true) →
      l ≤ binSearch p fuel l r ∧ binSearch p fuel l r ≤ r ∧
      (∀ i, l ≤ i → i < binSearch p fuel l r → p i = false) ∧
      (∀ i, binSearch p fuel l r ≤ i → i < r → p i = true) := by
  intro fuel
  induction fuel with
  | zero =>
      intro l r hlr hf _
      simp only [binSearch]
      exact ⟨Nat.le_refl _, hlr, fun i h1 h2 => by omega, fun i h1 h2 => by omega⟩
  | succ fuel ih =>
      intro l r hlr hf hmono
      simp only [binSearch]
      by_cases hlt : l < r
      · rw [if_pos hlt]
        by_cases hp : p ((l + r) / 2) = true
        · rw [if_pos hp]
          obtain ⟨h1, h2, h3, h4⟩ := ih l ((l + r) / 2) (by omega) (by omega)
            (fun i j hi hij hj => hmono i j hi hij (by omega))
          refine ⟨h1, by omega, h3, fun i hi hir => ?_⟩
          by_cases him : i < (l + r) / 2
          · exact h4 i hi him
          · exact hmono ((l + r) / 2) i (by omega) (by omega) hir hp
        · rw [if_neg hp]
          obtain ⟨h1, h2, h3, h4⟩ := ih ((l + r) / 2 + 1) r (by omega) (by omega)
            (fun i j hi hij hj => hmono i j (by omega) hij hj)
          refine ⟨by omega, h2, fun i hi hir => ?_, h4⟩
          by_cases him : (l + r) / 2 < i
          · exact h3 i (by omega) hir
          · cases hpi : p i with
            | false => rfl
            | true => exact absurd (hmono i ((l + r) / 2) hi (by omega) (by omega) hpi) hp
      · rw [if_neg hlt]
        exact ⟨Nat.le_refl _, hlr, fun i h1 h2 => by omega, fun i h1 h2 => by omega⟩

end Rmdb.Lib
