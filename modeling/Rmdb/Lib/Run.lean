import Mathlib

/-!
# Runs of a partial step function

`run step s as` takes the actions `as` one after another from `s`; it is `none` when a step
is refused.  `run_sim` is the forward simulation rule: a total step function and a relation
to an abstract one that every step keeps.  `run_invariant` is the rule for invariants, and
`run_invariant_along` the rule for runs whose every step meets a condition;
`prefixes_iff_along` and `along_congr` say when such a condition is exact.
-/

namespace Rmdb.Lib

variable {σ τ α : Type}

def run (step : σ → α → Option σ) : σ → List α → Option σ
  | s, [] => some s
  | s, a :: as => (step s a).bind fun s => run step s as

@[simp] theorem run_nil (step : σ → α → Option σ) (s : σ) : run step s [] = some s := rfl

theorem run_cons (step : σ → α → Option σ) (s : σ) (a : α) (as : List α) :
    run step s (a :: as) = (step s a).bind fun s => run step s as := rfl

theorem run_append (step : σ → α → Option σ) (s : σ) (as bs : List α) :
    run step s (as ++ bs) = (run step s as).bind fun s' => run step s' bs := by
  induction as generalizing s with
  | nil => rfl
  | cons a as ih =>
      rw [List.cons_append, run_cons, run_cons]
      cases step s a with
      | none => rfl
      | some s1 => exact ih s1

/-- Every action succeeds and keeps `R` to the abstract state. -/
theorem run_sim {step : σ → α → Option σ} {astep : τ → α → τ} {R : σ → τ → Prop}
    (hstep : ∀ s t a, R s t → ∃ s', step s a = some s' ∧ R s' (astep t a)) :
    ∀ (as : List α) (s : σ) (t : τ), R s t → ∃ s', run step s as = some s' ∧ R s' (as.foldl astep t) := by
  intro as
  induction as with
  | nil => intro s t h; exact ⟨s, rfl, h⟩
  | cons a as ih =>
      intro s t h
      obtain ⟨s1, hs1, h1⟩ := hstep s t a h
      obtain ⟨s', hs', h'⟩ := ih s1 _ h1
      exact ⟨s', by rw [run_cons, hs1, Option.bind_some, hs'], h'⟩

/-- What every step keeps holds at the end of a run. -/
theorem run_invariant {step : σ → α → Option σ} {I : σ → Prop}
    (hstep : ∀ s a s', I s → step s a = some s' → I s') :
    ∀ (as : List α) (s s' : σ), I s → run step s as = some s' → I s' := by
  intro as
  induction as with
  | nil =>
      intro s s' h hrun
      cases hrun
      exact h
  | cons a as ih =>
      intro s s' h hrun
      obtain ⟨s1, hs1, hrest⟩ := Option.bind_eq_some_iff.1 hrun
      exact ih s1 s' (hstep s a s1 h hs1) hrest

/-- Every step from `s` on meets the condition, in the state it is taken in. -/
def Along (step : σ → α → Option σ) (P : σ → α → Prop) : σ → List α → Prop
  | _, [] => True
  | s, a :: as => P s a ∧ ∀ s' ∈ step s a, Along step P s' as

instance Along.decidable (step : σ → α → Option σ) (P : σ → α → Prop) [∀ s a, Decidable (P s a)] :
    ∀ (s : σ) (as : List α), Decidable (Along step P s as)
  | _, [] => isTrue trivial
  | s, a :: as =>
      have : ∀ s', Decidable (Along step P s' as) := fun s' => Along.decidable step P s' as
      inferInstanceAs (Decidable (P s a ∧ ∀ s' ∈ step s a, Along step P s' as))

theorem Along.mono {step : σ → α → Option σ} {P Q : σ → α → Prop} (hPQ : ∀ s a, P s a → Q s a) :
    ∀ (as : List α) (s : σ), Along step P s as → Along step Q s as := by
  intro as
  induction as with
  | nil => intro s _; trivial
  | cons a as ih => exact fun s h => ⟨hPQ s a h.1, fun s' hs' => ih s' (h.2 s' hs')⟩

/-- A condition on the actions alone. -/
theorem along_of_forall {step : σ → α → Option σ} {Q : α → Prop} :
    ∀ (as : List α) (s : σ), (∀ a ∈ as, Q a) → Along step (fun _ a => Q a) s as := by
  intro as
  induction as with
  | nil => intro s _; trivial
  | cons a as ih =>
      exact fun s h => ⟨h a List.mem_cons_self,
        fun s' _ => ih s' fun b hb => h b (List.mem_cons_of_mem a hb)⟩

/-- Conditions that an invariant makes equivalent hold along the same runs. -/
theorem along_congr {step : σ → α → Option σ} {P Q : σ → α → Prop} {I : σ → Prop}
    (hPQ : ∀ s a, I s → (Q s a ↔ P s a))
    (hstep : ∀ s a s', I s → P s a → step s a = some s' → I s') :
    ∀ (as : List α) (s : σ), I s → (Along step Q s as ↔ Along step P s as) := by
  intro as
  induction as with
  | nil => exact fun s _ => Iff.rfl
  | cons a as ih =>
      intro s h
      constructor
      · rintro ⟨hQ, hrest⟩
        have hP := (hPQ s a h).1 hQ
        exact ⟨hP, fun s' hs' => (ih s' (hstep s a s' h hP hs')).1 (hrest s' hs')⟩
      · rintro ⟨hP, hrest⟩
        exact ⟨(hPQ s a h).2 hP, fun s' hs' => (ih s' (hstep s a s' h hP hs')).2 (hrest s' hs')⟩

/-- What every step under the condition keeps holds at the end of a run of such steps. -/
theorem run_invariant_along {step : σ → α → Option σ} {P : σ → α → Prop} {I : σ → Prop}
    (hstep : ∀ s a s', I s → P s a → step s a = some s' → I s') :
    ∀ (as : List α) (s s' : σ), I s → Along step P s as → run step s as = some s' → I s' := by
  intro as
  induction as with
  | nil =>
      intro s s' h _ hrun
      cases hrun
      exact h
  | cons a as ih =>
      intro s s' h halong hrun
      obtain ⟨s1, hs1, hrest⟩ := Option.bind_eq_some_iff.1 hrun
      exact ih s1 s' (hstep s a s1 h halong.1 hs1) (halong.2 s1 hs1) hrest

/-- A property holds after every part of a run exactly when each of its steps meets the condition:
such steps keep an invariant that gives the property, and every other step breaks the property. -/
theorem prefixes_iff_along {step : σ → α → Option σ} {P : σ → α → Prop} {I C : σ → Prop}
    (hI : ∀ s, I s → C s) (hstep : ∀ s a s', I s → P s a → step s a = some s' → I s')
    (hbad : ∀ s a, I s → ¬ P s a → ∃ s', step s a = some s' ∧ ¬ C s') :
    ∀ (as : List α) (s : σ), I s →
      ((∀ as' s', as' <+: as → run step s as' = some s' → C s') ↔ Along step P s as) := by
  intro as
  induction as with
  | nil =>
      intro s h
      refine ⟨fun _ => trivial, fun _ as' s' hpre hrun => ?_⟩
      rw [List.prefix_nil.1 hpre] at hrun
      cases hrun
      exact hI s h
  | cons a as ih =>
      intro s h
      constructor
      · intro hall
        have hP : P s a := by
          by_contra hn
          obtain ⟨s', hs', hC⟩ := hbad s a h hn
          exact hC (hall [a] s' (List.prefix_append [a] as) (by rw [run_cons, hs']; rfl))
        refine ⟨hP, fun s1 hs1 => (ih s1 (hstep s a s1 h hP hs1)).1 ?_⟩
        intro as' s' hpre hrun
        refine hall (a :: as') s' ((List.cons_prefix_cons).2 ⟨rfl, hpre⟩) ?_
        rw [run_cons, hs1, Option.bind_some, hrun]
      · rintro ⟨hP, hrest⟩ as' s' hpre hrun
        cases as' with
        | nil =>
            cases hrun
            exact hI s h
        | cons b as' =>
            obtain ⟨rfl, hpre'⟩ := List.cons_prefix_cons.1 hpre
            obtain ⟨s1, hs1, hrun'⟩ := Option.bind_eq_some_iff.1 hrun
            exact (ih s1 (hstep s b s1 h hP hs1)).2 (hrest s1 hs1) as' s' hpre' hrun'

/-- The simulation rule for runs whose every step meets a condition. -/
theorem run_sim_along {step : σ → α → Option σ} {P : σ → α → Prop} {astep : τ → α → τ}
    {R : σ → τ → Prop}
    (hstep : ∀ s t a, R s t → P s a → ∃ s', step s a = some s' ∧ R s' (astep t a)) :
    ∀ (as : List α) (s : σ) (t : τ), R s t → Along step P s as →
      ∃ s', run step s as = some s' ∧ R s' (as.foldl astep t) := by
  intro as
  induction as with
  | nil => intro s t h _; exact ⟨s, rfl, h⟩
  | cons a as ih =>
      intro s t h halong
      obtain ⟨s1, hs1, h1⟩ := hstep s t a h halong.1
      obtain ⟨s', hs', h'⟩ := ih s1 _ h1 (halong.2 s1 hs1)
      exact ⟨s', by rw [run_cons, hs1, Option.bind_some, hs'], h'⟩

/-- A run of a partial abstract step function, whose every step meets a condition, is matched by
a run of the concrete one. -/
theorem run_lift {step : σ → α → Option σ} {astep : τ → α → Option τ} {P : τ → α → Prop}
    {R : σ → τ → Prop} (hstep : ∀ s t a t', R s t → P t a → astep t a = some t' →
      ∃ s', step s a = some s' ∧ R s' t') :
    ∀ (as : List α) (s : σ) (t t' : τ), R s t → Along astep P t as → run astep t as = some t' →
      ∃ s', run step s as = some s' ∧ R s' t' := by
  intro as
  induction as with
  | nil =>
      intro s t t' h _ hrun
      cases hrun
      exact ⟨s, rfl, h⟩
  | cons a as ih =>
      intro s t t' h halong hrun
      obtain ⟨t1, ht1, hrest⟩ := Option.bind_eq_some_iff.1 hrun
      obtain ⟨s1, hs1, h1⟩ := hstep s t a t1 h halong.1 ht1
      obtain ⟨s', hs', h'⟩ := ih s1 t1 t' h1 (halong.2 t1 ht1) hrest
      exact ⟨s', by rw [run_cons, hs1, Option.bind_some, hs'], h'⟩

end Rmdb.Lib
