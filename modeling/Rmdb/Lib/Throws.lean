import Mathlib

/-!
# Calls that throw and keep their effects

A call either returns a value or throws, and leaves a state in either case.  `Outcome` describes both ends of a
call; a call followed by another is described by `Outcome.bind`, and a loop by an invariant (`outcome_each`).
-/

namespace Rmdb.Lib

variable {σ ε α β : Type}

def Throws (σ ε α : Type) := σ → Except ε α × σ

namespace Throws

instance instMonad : Monad (Throws σ ε) where
  pure a := fun s => (.ok a, s)
  bind m f := fun s =>
    match m s with
    | (.ok a, s) => f a s
    | (.error e, s) => (.error e, s)

def throw (e : ε) : Throws σ ε α := fun s => (.error e, s)

def get : Throws σ ε σ := fun s => (.ok s, s)

def modify (f : σ → σ) : Throws σ ε Unit := fun s => (.ok (), f s)

/-- `f` for one element after another. -/
def each (f : α → Throws σ ε Unit) : List α → Throws σ ε Unit
  | [] => pure ()
  | a :: as => do
      f a
      each f as

theorem bind_ok {m : Throws σ ε α} {f : α → Throws σ ε β} {s s' : σ} {a : α} (h : m s = (.ok a, s')) : (m >>= f) s = f a s' := by
  show (match m s with | (.ok a, s) => f a s | (.error e, s) => (.error e, s)) = f a s'
  rw [h]

theorem bind_error {m : Throws σ ε α} {f : α → Throws σ ε β} {s s' : σ} {e : ε} (h : m s = (.error e, s')) :
    (m >>= f) s = (.error e, s') := by
  show (match m s with | (.ok a, s) => f a s | (.error e, s) => (.error e, s)) = (.error e, s')
  rw [h]

theorem each_cons_ok {f : α → Throws σ ε Unit} {a : α} {as : List α} {s s' : σ} (h : f a s = (.ok (), s')) :
    each f (a :: as) s = each f as s' := bind_ok h

theorem get_bind (f : σ → Throws σ ε β) (s : σ) : (get >>= f) s = f s s := rfl

theorem modify_bind (g : σ → σ) (f : Unit → Throws σ ε β) (s : σ) : (modify g >>= f) s = f () (g s) := rfl

/-- What holds where the call returns, and where it throws. -/
def Outcome (m : Throws σ ε α) (s : σ) (Q : α → σ → Prop) (E : ε → σ → Prop) : Prop :=
  (∃ a s', m s = (.ok a, s') ∧ Q a s') ∨ ∃ e s', m s = (.error e, s') ∧ E e s'

variable {s : σ} {Q Q' : α → σ → Prop} {E E' : ε → σ → Prop}

theorem Outcome.of_ok {m : Throws σ ε α} {a : α} {s' : σ} (h : m s = (.ok a, s')) (hQ : Q a s') : Outcome m s Q E :=
  .inl ⟨a, s', h, hQ⟩

theorem Outcome.of_error {m : Throws σ ε α} {e : ε} {s' : σ} (h : m s = (.error e, s')) (hE : E e s') : Outcome m s Q E :=
  .inr ⟨e, s', h, hE⟩

theorem Outcome.imp {m : Throws σ ε α} (h : Outcome m s Q E) (hQ : ∀ a s', Q a s' → Q' a s') (hE : ∀ e s', E e s' → E' e s') :
    Outcome m s Q' E' := by
  rcases h with ⟨a, s', hm, h⟩ | ⟨e, s', hm, h⟩
  · exact .of_ok hm (hQ a s' h)
  · exact .of_error hm (hE e s' h)

theorem Outcome.bind {m : Throws σ ε α} {f : α → Throws σ ε β} {R : β → σ → Prop} (h : Outcome m s Q E)
    (hf : ∀ a s', Q a s' → Outcome (f a) s' R E) : Outcome (m >>= f) s R E := by
  rcases h with ⟨a, s', hm, hQ⟩ | ⟨e, s', hm, hE⟩
  · rcases hf a s' hQ with ⟨b, s2, hb, hR⟩ | ⟨e, s2, he, hE⟩
    · exact .of_ok ((bind_ok hm).trans hb) hR
    · exact .of_error ((bind_ok hm).trans he) hE
  · exact .of_error (bind_error hm) hE

/-- An invariant of the state and the elements that are left. -/
theorem outcome_each {f : α → Throws σ ε Unit} {I : List α → σ → Prop}
    (hf : ∀ a as s, I (a :: as) s → Outcome (f a) s (fun _ => I as) E) :
    ∀ (as : List α) (s : σ), I as s → Outcome (each f as) s (fun _ => I []) E := by
  intro as
  induction as with
  | nil => exact fun s h => .of_ok rfl h
  | cons a as ih => exact fun s h => (hf a as s h).bind fun _ s' h' => ih s' h'

end Throws

end Rmdb.Lib
