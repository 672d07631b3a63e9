import Mathlib
import Rmdb.Lib.Run

/-!
# Runs of a transition relation

`Steps T t as t'`: the labelled relation `T` leads from `t` to `t'` over the labels `as`.
`runs_refine` is the refinement rule: every run of a partial step function, under a condition
on its steps, is a run of a relation that matches each step.
-/

namespace Rmdb.Lib

variable {σ τ α : Type}

inductive Steps (T : τ → α → τ → Prop) : τ → List α → τ → Prop where
  | nil (t : τ) : Steps T t [] t
  | cons {t t1 t' : τ} {a : α} {as : List α} : T t a t1 → Steps T t1 as t' → Steps T t (a :: as) t'

theorem runs_refine {step : σ → α → Option σ} {P : σ → α → Prop} {T : τ → α → τ → Prop} {R : σ → τ → Prop}
    (hstep : ∀ s t a s', R s t → P s a → step s a = some s' → ∃ t', T t a t' ∧ R s' t') :
    ∀ (as : List α) (s : σ) (t : τ) (s' : σ), R s t → Along step P s as → run step s as = some s' →
      ∃ t', Steps T t as t' ∧ R s' t' := by
  intro as
  induction as with
  | nil =>
      intro s t s' h _ hrun
      cases hrun
      exact ⟨t, .nil t, h⟩
  | cons a as ih =>
      intro s t s' h halong hrun
      obtain ⟨s1, hs1, hrest⟩ := Option.bind_eq_some_iff.1 hrun
      obtain ⟨t1, ht1, h1⟩ := hstep s t a s1 h halong.1 hs1
      obtain ⟨t', ht', h'⟩ := ih s1 t1 s' h1 (halong.2 s1 hs1) hrest
      exact ⟨t', .cons ht1 ht', h'⟩

end Rmdb.Lib
