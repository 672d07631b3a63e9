import Rmdb.Wal.Durable

/-!
# Calls of the log manager in progress

What a step of the log manager leaves alone, and that a thread that waits for a log number
returns only when it is persisted.  For systems that call the log manager.
-/

namespace Rmdb.Wal

open Rmdb.Txn

namespace LogManager

variable {disk : Bytes} {m m' : LogManager} {b : Batch}

/-- Thread `i` waits for `n`, or its call has returned. -/
def Waits (m : LogManager) (i : Nat) (n : Int) : Prop :=
  m.callers i = .target n ∨ m.callers i = .asked n ∨ m.callers i = .asleep n ∨
    (m.callers i = .idle ∧ n ≤ m.persistLsn)

/-- The steps that append nothing. -/
def quiet : LogAct → Bool
  | .addLog _ _ _ | .addWoken _ | .flushLogToDisk _ => false
  | _ => true

/-- Does the step start a call of thread `i`? -/
def starts (i : Nat) : LogAct → Bool
  | .flushLogToDisk j | .waitForPersist j _ | .addLog j _ _ => decide (j = i)
  | _ => false

/-- What a step leaves alone: nothing is appended, `persist_lsn_` does not fall, calls in progress
stay or return. -/
structure Kept (m m' : LogManager) : Prop where
  appended : m'.appended = m.appended
  global : m'.globalLsn = m.globalLsn
  persist : m.persistLsn ≤ m'.persistLsn
  space : ∀ i prevLsn l, m'.callers i = .space prevLsn l → m.callers i = .space prevLsn l

theorem space_setCaller {i j : Nat} {c : Caller} {prevLsn : Int} {l : LogRecord}
    (hc : ∀ prevLsn l, c ≠ .space prevLsn l) (h : Function.update m.callers i c j = .space prevLsn l) :
    m.callers j = .space prevLsn l := by
  by_cases hj : j = i
  · rw [hj, Function.update_self] at h
    exact absurd h (hc _ _)
  · rwa [Function.update_of_ne hj] at h

theorem Inv.flush_persist (h : Inv disk m) (hs : m.flush = some m') : m.persistLsn ≤ m'.persistLsn := by
  unfold LogManager.flush at hs
  split at hs
  · cases hs
    exact Int.le_refl _
  · cases hs
    exact Int.le_refl _
  · cases hs
    exact Int.le_refl _
  · rename_i fl b target hw
    have hf := h.flushing _ _ _ _ hw
    have hpersist := h.persist
    rw [upTo_flushing hw] at hpersist
    have hlen : (entriesOf m.batches).length =
        (entriesOf m.batches.dropLast).length + b.entries.length := by
      conv_lhs => rw [hf.last]
      rw [entriesOf_concat, List.length_append]
    cases hs
    show m.persistLsn ≤ target
    rw [hpersist, hf.target]
    show ((entriesOf m.batches.dropLast).length : Int) - 1 ≤ _
    omega
  · cases hs
    exact Int.le_refl _
  · cases hs

theorem Inv.kept {a : LogAct} (h : Inv disk m) (hs : m.step a = some m') (hq : quiet a = true) :
    Kept m m' := by
  cases stepped hs with
  | full | added | addedLate | target => cases hq
  | waitFor | returned | raised | requested | woken =>
      exact ⟨rfl, rfl, Int.le_refl _, fun _ _ _ => space_setCaller (fun _ _ h => (by cases h))⟩
  | wake | rest => exact ⟨rfl, rfl, Int.le_refl _, fun _ _ _ h => h⟩
  | swap _ hs =>
      rw [swap_eq hs]
      exact ⟨rfl, rfl, Int.le_refl _, fun _ _ _ h => h⟩
  | flush hs =>
      have hpersist := h.flush_persist hs
      rw [flush_eq hs]
      exact ⟨rfl, rfl, hpersist, fun _ _ _ h => h⟩

/-- The thread that takes the step. -/
def caller? : LogAct → Option Nat
  | .addLog i _ _ | .addWoken i | .flushLogToDisk i | .waitForPersist i _ | .checkPersist i
  | .requestFlush i | .wakePersist i => some i
  | _ => none

/-- A step of another thread or of the worker. -/
theorem callers_other {a : LogAct} {i : Nat} (hs : m.step a = some m') (hi : caller? a ≠ some i) :
    m'.callers i = m.callers i := by
  have hne : ∀ {j : Nat}, some j ≠ some i → i ≠ j := fun hj hij => hj (congrArg some hij.symm)
  cases stepped hs with
  | full | addedLate | target | waitFor | returned | raised | requested | woken =>
      exact Function.update_of_ne (hne hi) _ _
  | added | wake | rest => rfl
  | swap _ hs => rw [swap_eq hs]
  | flush hs => rw [flush_eq hs]

/-- Only the worker publishes. -/
theorem Inv.persist_le {a : LogAct} (h : Inv disk m) (hs : m.step a = some m') :
    m.persistLsn ≤ m'.persistLsn := by
  cases stepped hs with
  | swap _ hs => rw [swap_eq hs]
  | flush hs => exact h.flush_persist hs
  | _ => exact Int.le_refl _

/-- A call in progress goes on, or returns when its number is persisted. -/
theorem Waits.step {a : LogAct} {i : Nat} {n : Int} (hw : Waits m i n) (h : Inv disk m)
    (hs : m.step a = some m') (hno : starts i a = false) : Waits m' i n := by
  have hsame : ∀ {n'}, m.callers i = .target n' ∨ m.callers i = .asked n' ∨ m.callers i = .asleep n' →
      n' = n := by
    rintro n' (hc | hc | hc)
    all_goals
      rcases hw with hw | hw | hw | ⟨hw, -⟩
      all_goals rw [hc] at hw
      all_goals cases hw
      rfl
  by_cases hown : caller? a = some i
  · cases stepped hs with
    | full | added | target | waitFor =>
        cases hown
        exact absurd rfl (of_decide_eq_false hno)
    | addedLate hc =>
        cases hown
        rcases hw with hw | hw | hw | ⟨hw, -⟩
        all_goals rw [hc] at hw
        all_goals cases hw
    | returned hc hp =>
        cases hown
        cases hsame (.inl hc)
        exact .inr (.inr (.inr ⟨Function.update_self _ _ _, hp⟩))
    | raised hc =>
        cases hown
        cases hsame (.inl hc)
        exact .inr (.inl (Function.update_self _ _ _))
    | requested hc =>
        cases hown
        cases hsame (.inr (.inl hc))
        exact .inr (.inr (.inl (Function.update_self _ _ _)))
    | woken hc hp =>
        cases hown
        cases hsame (.inr (.inr hc))
        exact .inr (.inr (.inr ⟨Function.update_self _ _ _, hp⟩))
    | wake | rest | swap | flush => cases hown
  · have hc := callers_other hs hown
    have hp := h.persist_le hs
    unfold Waits at hw ⊢
    rw [hc]
    exact hw.imp_right fun hw => hw.imp_right fun hw => hw.imp_right fun hw =>
      ⟨hw.1, Int.le_trans hw.2 hp⟩

end LogManager

end Rmdb.Wal
