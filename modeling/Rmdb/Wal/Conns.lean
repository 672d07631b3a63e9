import Rmdb.Wal.Calls

/-!
# Statements and the log

What the connections do with the log manager when their statements change records on pages
(the executors and `run_load` in src/execution): `insert_record` and in-place slot updates change
the page first and call `add_log_to_buffer` then; versioned writes and in-place deletes log first.
Where the changes go is left to the systems built on this.
-/

namespace Rmdb.Wal

open Rmdb.Txn
open LogManager (Waits starts)

/-! ## State -/

structure PageId where
  fd : Int
  pageNo : Int
deriving DecidableEq, Repr

/-- A change of a record on a page, with the log record that its statement writes. -/
structure Change where
  id : Nat
  page : PageId
  record : LogRecord
deriving DecidableEq, Repr

/-- The changes applied to a page since the server started. -/
abbrev Image := List Change

/-- Where a statement is between its change and its log record. -/
inductive Stmt where
  | idle
  /-- `insert_record` or the write to the slot is done, `add_log_to_buffer` comes next -/
  | changed (c : Change)
  /-- `add_log_to_buffer` comes first, the change is applied later -/
  | logging (c : Change)
deriving DecidableEq, Repr

/-- The change whose log record is still to come. -/
def Stmt.change? : Stmt → Option Change
  | .idle => none
  | .changed c | .logging c => some c

structure Conns where
  log : LogManager
  nextId : Nat := 0
  /-- the changes whose log record is appended, with the record -/
  records : List (Change × Entry) := []
  stmt : Nat → Stmt := fun _ => .idle
  /-- changes that are logged and not yet applied -/
  ready : Nat → List Change := fun _ => []

namespace Conns

def setStmt (s : Conns) (i : Nat) (st : Stmt) : Conns := { s with stmt := Function.update s.stmt i st }

/-! ## Steps -/

/-- A statement changes a page, or logs the change first. -/
def begin (s : Conns) (i : Nat) (st : Change → Stmt) (p : PageId) (record : LogRecord) : Option Conns :=
  if s.stmt i = .idle ∧ s.log.callers i = .idle then
    some ({ s with nextId := s.nextId + 1 }.setStmt i (st ⟨s.nextId, p, record⟩))
  else none

/-- The log record of the statement is in the buffer. -/
def logged (s : Conns) (i : Nat) (e : Entry) : Conns :=
  match s.stmt i with
  | .idle => s
  | .changed c => { s with records := (c, e) :: s.records }.setStmt i .idle
  | .logging c =>
      { s with
        records := (c, e) :: s.records
        ready := Function.update s.ready i (c :: s.ready i) }.setStmt i .idle

/-- The record that thread `i` appends next: of its statement, or any other record. -/
def recordOf (s : Conns) (i : Nat) (other : LogRecord) : LogRecord :=
  match (s.stmt i).change? with
  | none => other
  | some c => c.record

/-- `add_log_to_buffer`. -/
def addLog (s : Conns) (i : Nat) (other : LogRecord) : Option Conns :=
  let l := s.recordOf i other
  (s.log.addLog i (-1) l).map fun log =>
    if (s.log.bufs s.log.active).isFull (logTotLen l) then { s with log := log }
    else { s with log := log }.logged i ⟨s.log.globalLsn, -1, l⟩

/-- `add_log_to_buffer` goes on after its wait for room. -/
def addWoken (s : Conns) (i : Nat) : Option Conns :=
  match s.log.callers i with
  | .space prevLsn l =>
      (s.log.addWoken i).map fun log =>
        { s with log := log }.logged i ⟨s.log.globalLsn, prevLsn, l⟩
  | _ => none

/-- A change that is logged is about to be applied: at once, or at commit. -/
def take (s : Conns) (i : Nat) (c : Change) : Option Conns :=
  if c ∈ s.ready i ∧ s.log.callers i = .idle then
    some { s with ready := Function.update s.ready i ((s.ready i).erase c) }
  else none

/-- Any other step of the log manager. -/
def logStep (s : Conns) (a : LogAct) : Option Conns :=
  match a with
  | .addLog _ _ _ | .addWoken _ => none
  | _ => (s.log.step a).map fun log => { s with log := log }

end Conns

inductive ConnAct where
  | change (i : Nat) (p : PageId) (record : LogRecord)
  | logFirst (i : Nat) (p : PageId) (record : LogRecord)
  | addLog (i : Nat) (other : LogRecord)
  | addWoken (i : Nat)
  | take (i : Nat) (c : Change)
  | log (a : LogAct)
deriving DecidableEq, Repr

def Conns.step (s : Conns) : ConnAct → Option Conns
  | .change i p record => s.begin i .changed p record
  | .logFirst i p record => s.begin i .logging p record
  | .addLog i other => s.addLog i other
  | .addWoken i => s.addWoken i
  | .take i c => s.take i c
  | .log a => s.logStep a

/-- Does the step start a call of thread `i` to the log manager? -/
def ConnAct.starts (i : Nat) : ConnAct → Bool
  | .addLog j _ => decide (j = i)
  | .log a => LogManager.starts i a
  | _ => false

namespace Conns

variable {disk : Bytes} {s s' : Conns} {i : Nat} {n : Int}

/-! ## The records are in the log -/

structure Ok (disk : Bytes) (s : Conns) : Prop where
  log : LogManager.Inv disk s.log
  records : ∀ x ∈ s.records, x.2 ∈ s.log.appended ∧ x.2.record = x.1.record
  space : ∀ i prevLsn l c, s.log.callers i = .space prevLsn l → (s.stmt i).change? = some c →
    l = c.record

theorem init_ok (disk : Bytes) : Ok disk { log := LogManager.init disk } where
  log := LogManager.init_inv disk
  records := fun x hx => (by cases hx)
  space := fun i prevLsn l c h => (by cases h)

/-- What every step does to the log and to the records. -/
structure Grown (s s' : Conns) : Prop where
  log : s'.log = s.log ∨ ∃ a, s.log.step a = some s'.log
  records : s.records ⊆ s'.records
  fresh : ∀ x ∈ s'.records, x ∈ s.records ∨ x.2.lsn = s.log.globalLsn

@[simp] theorem logged_log (s : Conns) (i : Nat) (e : Entry) : (s.logged i e).log = s.log := by
  unfold logged
  split <;> rfl

theorem logged_records (s : Conns) (i : Nat) (e : Entry) :
    (s.logged i e).records = s.records ∨ ∃ c, (s.logged i e).records = (c, e) :: s.records := by
  unfold logged
  split
  · exact .inl rfl
  · exact .inr ⟨_, rfl⟩
  · exact .inr ⟨_, rfl⟩

theorem logged_grown {log : LogManager} {a : LogAct} {e : Entry} (hlog : s.log.step a = some log)
    (he : e.lsn = s.log.globalLsn) : Grown s ({ s with log := log }.logged i e) := by
  refine ⟨.inr ⟨a, by rw [logged_log]; exact hlog⟩, ?_, ?_⟩
  · rcases logged_records { s with log := log } i e with hrec | ⟨c, hrec⟩
    · rw [hrec]
      exact List.Subset.refl _
    · rw [hrec]
      exact List.subset_cons_self _ _
  · intro x hx
    rcases logged_records { s with log := log } i e with hrec | ⟨c, hrec⟩
    · rw [hrec] at hx
      exact .inl hx
    · rw [hrec] at hx
      rcases List.mem_cons.1 hx with rfl | hx
      · exact .inr he
      · exact .inl hx

theorem grown {a : ConnAct} (hs : s.step a = some s') : Grown s s' := by
  have hkeep : ∀ {t : Conns}, t.log = s.log → t.records = s.records → Grown s t :=
    fun hlog hrec => ⟨.inl hlog, hrec ▸ List.Subset.refl _, fun x hx => .inl (hrec ▸ hx)⟩
  cases a with
  | change i p record | logFirst i p record =>
      obtain ⟨-, hs⟩ := Option.ite_none_right_eq_some.1 hs
      cases hs
      exact hkeep rfl rfl
  | addLog i other =>
      obtain ⟨log, hlog, hs⟩ := Option.map_eq_some_iff.1 hs
      have hstep : s.log.step (.addLog i (-1) (s.recordOf i other)) = some log := hlog
      split at hs <;> cases hs
      · exact ⟨.inr ⟨_, hstep⟩, List.Subset.refl _, fun x hx => .inl hx⟩
      · exact logged_grown hstep rfl
  | addWoken i =>
      simp only [step, addWoken] at hs
      split at hs
      · obtain ⟨log, hlog, hs⟩ := Option.map_eq_some_iff.1 hs
        cases hs
        exact logged_grown (a := .addWoken i) hlog rfl
      · cases hs
  | take i c =>
      obtain ⟨-, hs⟩ := Option.ite_none_right_eq_some.1 hs
      cases hs
      exact hkeep rfl rfl
  | log a =>
      simp only [step, logStep] at hs
      split at hs
      · cases hs
      · cases hs
      · obtain ⟨log, hlog, hs⟩ := Option.map_eq_some_iff.1 hs
        cases hs
        exact ⟨.inr ⟨_, hlog⟩, List.Subset.refl _, fun x hx => .inl hx⟩

theorem Grown.appended (h : Grown s s') : s.log.appended <+: s'.log.appended := by
  rcases h.log with hlog | ⟨a, ha⟩
  · rw [hlog]
  · exact LogManager.step_appended ha

/-! ## The invariant -/

/-- A step of the log manager. -/
theorem Ok.logStep {a : LogAct} {log : LogManager} (h : Ok disk s) (hs : s.log.step a = some log)
    (hsmall : log.appended.length < 2 ^ 31)
    (hspace : ∀ j prevLsn l c, log.callers j = .space prevLsn l → (s.stmt j).change? = some c →
      l = c.record) : Ok disk { s with log := log } where
  log := h.log.step hs hsmall
  records := fun x hx => ⟨(LogManager.step_appended hs).subset (h.records x hx).1, (h.records x hx).2⟩
  space := hspace

/-- The record of a statement is appended. -/
theorem Ok.logged {e : Entry} (h : Ok disk s) (he : e ∈ s.log.appended)
    (hrec : ∀ c, (s.stmt i).change? = some c → e.record = c.record) : Ok disk (s.logged i e) := by
  have hadd : ∀ c ready, (s.stmt i).change? = some c →
      Ok disk ({ s with records := (c, e) :: s.records, ready := ready }.setStmt i .idle) := by
    intro c ready hc
    refine ⟨h.log, ?_, ?_⟩
    · intro x hx
      rcases List.mem_cons.1 hx with rfl | hx
      · exact ⟨he, hrec c hc⟩
      · exact h.records x hx
    · intro j prevLsn l c' hj hs
      change (Function.update s.stmt i .idle j).change? = some c' at hs
      by_cases hji : j = i
      · rw [hji, Function.update_self] at hs
        cases hs
      · rw [Function.update_of_ne hji] at hs
        exact h.space j prevLsn l c' hj hs
  unfold Conns.logged
  split
  · exact h
  · rename_i c hc
    exact hadd c s.ready (by rw [hc]; rfl)
  · rename_i c hc
    exact hadd c _ (by rw [hc]; rfl)

theorem Ok.begin {st : Change → Stmt} {p : PageId} {record : LogRecord} (h : Ok disk s)
    (hs : s.begin i st p record = some s') : Ok disk s' := by
  obtain ⟨⟨-, hidle⟩, hs⟩ := Option.ite_none_right_eq_some.1 hs
  cases hs
  refine ⟨h.log, h.records, fun j prevLsn l c hj hc => ?_⟩
  change (Function.update s.stmt i _ j).change? = some c at hc
  by_cases hji : j = i
  · rw [hji] at hj
    change s.log.callers i = _ at hj
    rw [hidle] at hj
    cases hj
  · rw [Function.update_of_ne hji] at hc
    exact h.space j prevLsn l c hj hc

theorem Ok.addLog {other : LogRecord} (h : Ok disk s) (hs : s.addLog i other = some s')
    (hsmall : s'.log.appended.length < 2 ^ 31) : Ok disk s' := by
  obtain ⟨log, hlog, hs⟩ := Option.map_eq_some_iff.1 hs
  have hstep : s.log.step (.addLog i (-1) (s.recordOf i other)) = some log := hlog
  have hrec : ∀ c, (s.stmt i).change? = some c → s.recordOf i other = c.record := by
    intro c hc
    unfold recordOf
    rw [hc]
  obtain ⟨-, hlog⟩ := Option.ite_none_right_eq_some.1 hlog
  split at hlog
  · rename_i hfull
    rw [if_pos hfull] at hs
    cases hs
    refine h.logStep hstep hsmall ?_
    intro j prevLsn l c hj hc
    cases hlog
    change Function.update s.log.callers i _ j = _ at hj
    by_cases hji : j = i
    · rw [hji] at hj hc
      rw [Function.update_self] at hj
      cases hj
      exact hrec c hc
    · rw [Function.update_of_ne hji] at hj
      exact h.space j prevLsn l c hj hc
  · rename_i hfull
    rw [if_neg hfull] at hs
    cases hs
    cases hlog
    have hok : Ok disk { s with log := s.log.append (-1) (s.recordOf i other) } :=
      h.logStep hstep (by rwa [logged_log] at hsmall) h.space
    exact hok.logged (List.mem_append_right _ (List.mem_singleton_self _)) hrec

theorem Ok.addWoken (h : Ok disk s) (hs : s.addWoken i = some s')
    (hsmall : s'.log.appended.length < 2 ^ 31) : Ok disk s' := by
  unfold Conns.addWoken at hs
  split at hs
  · rename_i prevLsn l hcall
    obtain ⟨log, hlog, hs⟩ := Option.map_eq_some_iff.1 hs
    cases hs
    have hstep : s.log.step (.addWoken i) = some log := hlog
    simp only [LogManager.addWoken, hcall] at hlog
    obtain ⟨-, hlog⟩ := Option.ite_none_left_eq_some.1 hlog
    cases hlog
    have hok := h.logStep hstep (by rwa [logged_log] at hsmall) (by
      intro j prevLsn' l' c hj hc
      change Function.update s.log.callers i .idle j = _ at hj
      by_cases hji : j = i
      · rw [hji, Function.update_self] at hj
        cases hj
      · rw [Function.update_of_ne hji] at hj
        exact h.space j prevLsn' l' c hj hc)
    exact hok.logged (List.mem_append_right _ (List.mem_singleton_self _))
      fun c hc => h.space i prevLsn l c hcall hc
  · cases hs

theorem Ok.step {a : ConnAct} (h : Ok disk s) (hs : s.step a = some s')
    (hsmall : s'.log.appended.length < 2 ^ 31) : Ok disk s' := by
  cases a with
  | change i p record => exact h.begin hs
  | logFirst i p record => exact h.begin hs
  | addLog i other => exact h.addLog hs hsmall
  | addWoken i => exact h.addWoken hs hsmall
  | take i c =>
      obtain ⟨-, hs⟩ := Option.ite_none_right_eq_some.1 hs
      cases hs
      exact ⟨h.log, h.records, h.space⟩
  | log a =>
      simp only [Conns.step, Conns.logStep] at hs
      split at hs
      · cases hs
      · cases hs
      · rename_i h1 h2
        obtain ⟨log, hlog, hs⟩ := Option.map_eq_some_iff.1 hs
        cases hs
        refine h.logStep hlog hsmall fun j prevLsn l c hj hc => h.space j prevLsn l c ?_ hc
        cases a with
        | addLog i prevLsn l => exact absurd rfl (h1 i prevLsn l)
        | addWoken i => exact absurd rfl (h2 i)
        | flushLogToDisk i =>
            obtain ⟨-, hlog⟩ := Option.ite_none_right_eq_some.1 hlog
            cases hlog
            exact LogManager.space_setCaller (fun _ _ h => (by cases h)) hj
        | waitForPersist | checkPersist | requestFlush | wakePersist | wake | rest | swap | flush =>
            exact (h.log.kept hlog rfl).space j prevLsn l hj

/-! ## Threads that wait for the log -/

/-- A thread that waits goes on waiting, or its number is persisted. -/
theorem Ok.waits {a : ConnAct} (h : Ok disk s) (hs : s.step a = some s') (hw : Waits s.log i n)
    (hno : a.starts i = false) : Waits s'.log i n := by
  have hlogged : ∀ {b log j e}, s.log.step b = some log → LogManager.starts i b = false →
      Waits ({ s with log := log }.logged j e).log i n := fun hlog hb => by
    rw [logged_log]
    exact hw.step h.log hlog hb
  cases a with
  | change j p record | logFirst j p record | take j c =>
      obtain ⟨-, hs⟩ := Option.ite_none_right_eq_some.1 hs
      cases hs
      exact hw
  | addLog j other =>
      obtain ⟨log, hlog, hs⟩ := Option.map_eq_some_iff.1 hs
      have hstep : s.log.step (.addLog j (-1) (s.recordOf j other)) = some log := hlog
      split at hs <;> cases hs
      · exact hw.step h.log hstep hno
      · exact hlogged hstep hno
  | addWoken j =>
      simp only [Conns.step, Conns.addWoken] at hs
      split at hs
      · obtain ⟨log, hlog, hs⟩ := Option.map_eq_some_iff.1 hs
        cases hs
        exact hlogged (b := .addWoken j) hlog rfl
      · cases hs
  | log a =>
      simp only [Conns.step, Conns.logStep] at hs
      split at hs
      · cases hs
      · cases hs
      · obtain ⟨log, hlog, hs⟩ := Option.map_eq_some_iff.1 hs
        cases hs
        exact hw.step h.log hlog hno

theorem Ok.persist_le {a : ConnAct} (h : Ok disk s) (hs : s.step a = some s') :
    s.log.persistLsn ≤ s'.log.persistLsn := by
  rcases (grown hs).log with hlog | ⟨b, hb⟩
  · rw [hlog]
  · exact h.log.persist_le hb

/-- The wait of a thread is over. -/
theorem persisted_of_idle (hw : Waits s.log i n) (hidle : s.log.callers i = .idle) :
    n ≤ s.log.persistLsn := by
  rcases hw with hw | hw | hw | ⟨-, hw⟩
  · rw [hidle] at hw
    cases hw
  · rw [hidle] at hw
    cases hw
  · rw [hidle] at hw
    cases hw
  · exact hw

end Conns

end Rmdb.Wal
