import Mathlib

/-!
# Lexing by the longest match

An automaton reads a lexeme as long as it can go on (`next`), and starts another where it cannot; to
start it may look at what is behind the first character.  A text on which the automaton goes on
belongs to the lexeme in front of it (`lexemesFrom_run`), and one that it cannot go on with begins a
lexeme of its own (`lexemesFrom_break`); `lexemes_cons` takes the first lexeme off a text.
-/

namespace Rmdb.Lib

structure Munch (σ γ : Type) where
  start : γ → List γ → σ
  next : σ → γ → Option σ

namespace Munch

variable {σ γ : Type} (m : Munch σ γ)

/-- Where the automaton stands behind a text. -/
def run : σ → List γ → Option σ
  | st, [] => some st
  | st, c :: s => (m.next st c).bind fun st => run st s

/-- The lexemes of a text behind the lexeme `w`, with the states that they end in. -/
def lexemesFrom : σ → List γ → List γ → List (σ × List γ)
  | st, w, [] => [(st, w)]
  | st, w, c :: s =>
    match m.next st c with
    | some st => lexemesFrom st (w ++ [c]) s
    | none => (st, w) :: lexemesFrom (m.start c s) [c] s

variable {m}

theorem lexemesFrom_next {st st' : σ} {c : γ} (h : m.next st c = some st') (w s : List γ) :
    m.lexemesFrom st w (c :: s) = m.lexemesFrom st' (w ++ [c]) s := by
  conv => lhs; unfold lexemesFrom
  rw [h]

theorem lexemesFrom_break {st : σ} {c : γ} (h : m.next st c = none) (w s : List γ) :
    m.lexemesFrom st w (c :: s) = (st, w) :: m.lexemesFrom (m.start c s) [c] s := by
  conv => lhs; unfold lexemesFrom
  rw [h]

theorem lexemesFrom_run {st st' : σ} {l : List γ} (h : m.run st l = some st') (w s : List γ) :
    m.lexemesFrom st w (l ++ s) = m.lexemesFrom st' (w ++ l) s := by
  induction l generalizing st w with
  | nil =>
      obtain rfl : st = st' := Option.some.inj h
      rw [List.append_nil]
      rfl
  | cons c l ih =>
      obtain ⟨st1, hnext, hrun⟩ := Option.bind_eq_some_iff.1 h
      rw [List.cons_append, lexemesFrom_next hnext, ih hrun, List.append_assoc]
      rfl

theorem run_append {st st1 : σ} {l l' : List γ} (h : m.run st l = some st1) : m.run st (l ++ l') = m.run st1 l' := by
  induction l generalizing st with
  | nil =>
      obtain rfl : st = st1 := Option.some.inj h
      rfl
  | cons c l ih =>
      obtain ⟨st2, hnext, hrun⟩ := Option.bind_eq_some_iff.1 h
      show (m.next st c).bind _ = _
      rw [hnext]
      exact ih hrun

/-- A text that the automaton stays in a state on. -/
theorem run_of_stays {st : σ} {l : List γ} (h : ∀ c ∈ l, m.next st c = some st) : m.run st l = some st := by
  induction l with
  | nil => rfl
  | cons c l ih =>
      show (m.next st c).bind _ = _
      rw [h c List.mem_cons_self]
      exact ih fun c' hc' => h c' (List.mem_cons_of_mem _ hc')

/-- A lexeme goes as far as the automaton does. -/
theorem exists_lexeme (st : σ) (s : List γ) :
    ∃ l r st', s = l ++ r ∧ m.run st l = some st' ∧ ∀ c ∈ r.head?, m.next st' c = none := by
  induction s generalizing st with
  | nil => exact ⟨[], [], st, rfl, rfl, fun _ h => nomatch h⟩
  | cons c s ih =>
      cases hnext : m.next st c with
      | none =>
          refine ⟨[], c :: s, st, rfl, rfl, fun d hd => ?_⟩
          obtain rfl := Option.some.inj hd
          exact hnext
      | some st1 =>
          obtain ⟨l, r, st', rfl, hrun, hstop⟩ := ih st1
          refine ⟨c :: l, r, st', rfl, ?_, hstop⟩
          show (m.next st c).bind _ = _
          rw [hnext]
          exact hrun

variable (m) in
/-- The lexemes of a text, with the states that they end in. -/
def lexemes : List γ → List (σ × List γ)
  | [] => []
  | c :: s => m.lexemesFrom (m.start c s) [c] s

theorem lexemesFrom_lexeme {st st' : σ} {l r : List γ} (hrun : m.run st l = some st')
    (hstop : ∀ c ∈ r.head?, m.next st' c = none) (w : List γ) :
    m.lexemesFrom st w (l ++ r) = (st', w ++ l) :: m.lexemes r := by
  rw [lexemesFrom_run hrun]
  cases r with
  | nil => rfl
  | cons c r => exact lexemesFrom_break (hstop c rfl) _ _

theorem lexemes_cons {st : σ} {c : γ} {l r : List γ} (hrun : m.run (m.start c (l ++ r)) l = some st)
    (hstop : ∀ d ∈ r.head?, m.next st d = none) : m.lexemes (c :: (l ++ r)) = (st, c :: l) :: m.lexemes r :=
  lexemesFrom_lexeme hrun hstop [c]

end Munch

end Rmdb.Lib
