import Rmdb.Txn.Types
import Rmdb.Lib.Run

/-!
# The lock manager

src/transaction/concurrency/lock_manager.cpp with every latched section as one step of its
thread: `lock_exclusive_on_record`, `unlock` and `unlock_all` of any number of transactions,
each with the thread it runs in.  Only records have entries (the table locks return at once).
A thread asleep in `cv.wait` may look at its predicate again whenever the entry's `mtx` is
free: a `notify_all` is one occasion, a spurious wake-up another, so that notifying changes
nothing in the state.  `INVALID_TXN_ID` is `none`.
-/

namespace Rmdb.Lock

open Rmdb.Index (Rid)
open Rmdb.Txn (TxnId)
open Rmdb.Lib (run Along)

/-- A `LockDataId` of type `RECORD`. -/
structure LockDataId where
  fd : Int
  rid : Rid
deriving DecidableEq, Repr

/-- Where the thread of a transaction stands. -/
inductive Pc where
  /-- outside, after anything but `lock_exclusive_on_record` -/
  | idle
  /-- outside, after `lock_exclusive_on_record` -/
  | returned (r : LockDataId) (res : Bool)
  /-- before `waiting_txn_[me] = txn` -/
  | registering (r : LockDataId)
  /-- before `lk(entry.mtx)` -/
  | entering (r : LockDataId)
  /-- at the condition of the `while`, `mtx` held from here on -/
  | looping (r : LockDataId)
  /-- before `wait_for_[me] = entry.owner` -/
  | recording (r : LockDataId)
  /-- in `mark_victim_abort`, before its `wfg_latch_` -/
  | marking (r : LockDataId) (victim : TxnId)
  /-- in `mark_victim_abort`, after it -/
  | flagging (r : LockDataId) (victim : Option TxnId)
  /-- before the last look at the flag ahead of `cv.wait` -/
  | checking (r : LockDataId)
  /-- at the predicate of `cv.wait` -/
  | testing (r : LockDataId)
  /-- in `cv.wait`, `mtx` given back -/
  | asleep (r : LockDataId)
  /-- after `cv.wait` -/
  | woken (r : LockDataId)
  /-- after the wait's edge is erased -/
  | unwaited (r : LockDataId)
  /-- before `clear_wfg_state` of a call that fails -/
  | failing (r : LockDataId)
  | failed (r : LockDataId)
  /-- before `clear_wfg_state` of a call that succeeds -/
  | granting (r : LockDataId)
  | granted (r : LockDataId)
  /-- in `unlock_all`, before `clear_wfg_state` -/
  | clearing (ids : List LockDataId)
  /-- before the `unlock` of each -/
  | releasing (ids : List LockDataId)
  /-- in the `unlock` of `r`, before `lock_set->erase` -/
  | erasing (r : LockDataId) (ids : List LockDataId)
deriving DecidableEq, Repr

/-- The thread may make a call. -/
def Pc.outside : Pc → Bool
  | .idle | .returned .. => true
  | _ => false

/-- The entry whose `mtx` the thread holds. -/
def Pc.holds : Pc → Option LockDataId
  | .looping r | .recording r | .marking r _ | .flagging r _ | .checking r | .testing r | .woken r
  | .unwaited r | .failing r | .failed r | .granting r | .granted r => some r
  | _ => none

/-- The entry the thread waits on, from the recorded edge on until it leaves `cv.wait`. -/
def Pc.waits : Pc → Option LockDataId
  | .marking r _ | .flagging r _ | .checking r | .testing r | .asleep r => some r
  | _ => none

abbrev WaitFor := AList fun _ : TxnId => TxnId

structure LockManager where
  /-- `owner` of the entries of `record_locks_` -/
  owner : LockDataId → Option TxnId
  /-- who holds `mtx` of the entry -/
  mtx : LockDataId → Option TxnId
  waitFor : WaitFor
  waitingOnEntry : TxnId → Option LockDataId
  /-- the ids in `waiting_txn_` -/
  waitingTxn : TxnId → Bool
  /-- `lock_abort_` of the transactions -/
  lockAbort : TxnId → Bool
  /-- `lock_set_` of the transactions -/
  lockSet : TxnId → Finset LockDataId
  pc : TxnId → Pc

def start : LockManager where
  owner _ := none
  mtx _ := none
  waitFor := ∅
  waitingOnEntry _ := none
  waitingTxn _ := false
  lockAbort _ := false
  lockSet _ := ∅
  pc _ := .idle

/-! ## The wait-for graph -/

/-- The `while` of `detect_deadlock_victim`. -/
def walk (wf : WaitFor) (start : TxnId) : Nat → TxnId → TxnId → Option TxnId
  | 0, _, _ => none
  | guard + 1, cur, youngest =>
      if cur = start then some youngest
      else
        match wf.lookup cur with
        | none => none
        | some next => walk wf start guard next (max youngest cur)

def detectDeadlockVictim (wf : WaitFor) (start : TxnId) : Option TxnId :=
  (wf.lookup start).bind fun cur => walk wf start (wf.entries.length + 1) cur start

namespace LockManager

variable (m : LockManager)

/-! ## Sections -/

def goto (me : TxnId) (p : Pc) : LockManager :=
  { m with pc := Function.update m.pc me p }

def clearLockAbort (me : TxnId) : LockManager :=
  { m with lockAbort := Function.update m.lockAbort me false }

def requestLockAbort (t : TxnId) : LockManager :=
  { m with lockAbort := Function.update m.lockAbort t true }

def clearWfgState (me : TxnId) : LockManager :=
  { m with
    waitFor := m.waitFor.erase me
    waitingOnEntry := Function.update m.waitingOnEntry me none
    waitingTxn := Function.update m.waitingTxn me false }

/-- `wait_for_.erase(me); waiting_on_entry_.erase(me)` -/
def eraseWait (me : TxnId) : LockManager :=
  { m with
    waitFor := m.waitFor.erase me
    waitingOnEntry := Function.update m.waitingOnEntry me none }

def lockMtx (me : TxnId) (r : LockDataId) : LockManager :=
  { m with mtx := Function.update m.mtx r (some me) }

def unlockMtx (r : LockDataId) : LockManager :=
  { m with mtx := Function.update m.mtx r none }

/-- `wait_for_[me] = entry.owner; waiting_on_entry_[me] = &entry` -/
def addWait (me : TxnId) (r : LockDataId) (u : TxnId) : LockManager :=
  { m with
    waitFor := m.waitFor.insert me u
    waitingOnEntry := Function.update m.waitingOnEntry me (some r) }

/-- The section under `wfg_latch_` that records the edge and looks for a cycle. -/
def recordWait (me : TxnId) (r : LockDataId) (u : TxnId) : LockManager :=
  let m := m.addWait me r u
  match detectDeadlockVictim m.waitFor me with
  | none => m.goto me (.checking r)
  | some victim =>
      if victim = me then
        (((m.eraseWait me).clearLockAbort me).unlockMtx r).goto me (.returned r false)
      else m.goto me (.marking r victim)

section
variable {m} {me : TxnId} {r : LockDataId} {u : TxnId}

theorem recordWait_none (h : detectDeadlockVictim (m.waitFor.insert me u) me = none) :
    m.recordWait me r u = (m.addWait me r u).goto me (.checking r) := by
  unfold recordWait
  simp only [addWait, h]

theorem recordWait_self (h : detectDeadlockVictim (m.waitFor.insert me u) me = some me) :
    m.recordWait me r u =
      ((((m.addWait me r u).eraseWait me).clearLockAbort me).unlockMtx r).goto me (.returned r false) := by
  unfold recordWait
  simp only [addWait, h, if_pos]

theorem recordWait_other {v : TxnId} (h : detectDeadlockVictim (m.waitFor.insert me u) me = some v)
    (hv : v ≠ me) : m.recordWait me r u = (m.addWait me r u).goto me (.marking r v) := by
  unfold recordWait
  simp only [addWait, h, if_neg hv]

end

/-- The predicate of `cv.wait`. -/
def wakes (me : TxnId) (r : LockDataId) : Bool :=
  m.owner r = none || m.owner r = some me || m.lockAbort me

def flagAt (t : Option TxnId) : LockManager :=
  match t with
  | none => m
  | some t => m.requestLockAbort t

def grant (me : TxnId) (r : LockDataId) : LockManager :=
  { m with
    owner := Function.update m.owner r (some me)
    lockSet := Function.update m.lockSet me (insert r (m.lockSet me)) }

/-- The section of `unlock` under `entry.mtx`. -/
def release (me : TxnId) (r : LockDataId) : LockManager :=
  if m.owner r = some me then { m with owner := Function.update m.owner r none } else m

def eraseLock (me : TxnId) (r : LockDataId) : LockManager :=
  { m with lockSet := Function.update m.lockSet me ((m.lockSet me).erase r) }

/-- The next step of the thread of `me` inside its call. -/
def next (me : TxnId) : Option LockManager :=
  match m.pc me with
  | .idle | .returned .. => none
  | .registering r =>
      some ({ m with waitingTxn := Function.update m.waitingTxn me true }.goto me (.entering r))
  | .entering r =>
      if m.mtx r = none then some ((m.lockMtx me r).goto me (.looping r)) else none
  | .looping r =>
      if m.owner r = none ∨ m.owner r = some me then some (m.goto me (.granting r))
      else if m.lockAbort me then some (m.goto me (.failing r))
      else some (m.goto me (.recording r))
  | .recording r => (m.owner r).map fun u => m.recordWait me r u
  | .marking r victim =>
      some (m.goto me (.flagging r (if m.waitingTxn victim then some victim else none)))
  | .flagging r victim => some ((m.flagAt victim).goto me (.checking r))
  | .checking r =>
      if m.lockAbort me then some (m.goto me (.failing r)) else some (m.goto me (.testing r))
  | .testing r =>
      if m.wakes me r then some (m.goto me (.woken r))
      else some ((m.unlockMtx r).goto me (.asleep r))
  | .asleep r =>
      if m.mtx r = none ∧ m.wakes me r then some ((m.lockMtx me r).goto me (.woken r)) else none
  | .woken r => some ((m.eraseWait me).goto me (.unwaited r))
  | .unwaited r =>
      if m.lockAbort me then some (m.goto me (.failing r)) else some (m.goto me (.looping r))
  | .failing r => some ((m.clearWfgState me).goto me (.failed r))
  | .failed r => some (((m.clearLockAbort me).unlockMtx r).goto me (.returned r false))
  | .granting r => some ((m.clearWfgState me).goto me (.granted r))
  | .granted r =>
      some ((((m.clearLockAbort me).grant me r).unlockMtx r).goto me (.returned r true))
  | .clearing ids => some ((m.clearWfgState me).goto me (.releasing ids))
  | .releasing [] => some (m.goto me .idle)
  | .releasing (r :: ids) =>
      if r ∉ m.lockSet me then some (m.goto me (.releasing ids))
      else if m.mtx r = none then some ((m.release me r).goto me (.erasing r ids))
      else none
  | .erasing r ids => some ((m.eraseLock me r).goto me (.releasing ids))

end LockManager

/-! ## Calls and steps -/

inductive Act where
  | lockExclusiveOnRecord (r : LockDataId)
  | unlock (r : LockDataId)
  /-- `unlock_all`, which finds the locks of the transaction in the order `ids` -/
  | unlockAll (ids : List LockDataId)
  /-- the next section of the call under way -/
  | next
deriving DecidableEq, Repr

/-- A step of the thread of `act.1`. -/
def step (m : LockManager) (act : TxnId × Act) : Option LockManager :=
  let me := act.1
  match act.2 with
  | .next => m.next me
  | .lockExclusiveOnRecord r =>
      if (m.pc me).outside then
        if r ∈ m.lockSet me then some (m.goto me (.returned r true))
        else some ((m.clearLockAbort me).goto me (.registering r))
      else none
  | .unlock r => if (m.pc me).outside then some (m.goto me (.releasing [r])) else none
  | .unlockAll ids =>
      if (m.pc me).outside ∧ ids.Nodup ∧ ids.toFinset = m.lockSet me then
        some ((m.clearLockAbort me).goto me (.clearing ids))
      else none

end Rmdb.Lock
