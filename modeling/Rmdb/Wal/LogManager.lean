import Rmdb.Lib.Run
import Rmdb.Wal.Scan

/-!
# The log manager

`add_log_to_buffer`, `flush_log_to_disk`, `wait_for_persist` and `flush_worker`
(src/recovery/log_manager.cpp) as steps of threads and of the flush worker, each step one
section under `append_mtx_` or `persist_mtx_`, one write or one sync.  Writes and syncs
succeed and `stop_` stays false.  `appended`, `batches` and `returned` record the history and
are read by no step.
-/

namespace Rmdb.Wal

open Rmdb.Txn

def logBufferSize : Nat := 1024 * 4096
def logPreallocChunk : Nat := 16 * 1024 * 1024

/-! ## The log file -/

/-- `DiskManager::ensure_log_capacity`: the file is extended with zeros. -/
def ensureLogCapacity (file : Bytes) (needEnd : Nat) : Bytes :=
  if needEnd ≤ file.length then file
  else file ++ List.replicate ((needEnd / logPreallocChunk + 1) * logPreallocChunk - file.length) 0

/-- `DiskManager::write_log`. -/
def writeLog (file data : Bytes) (off : Nat) : Bytes :=
  putBytes (ensureLogCapacity file (off + data.length)) off data

/-! ## State -/

/-- The records in a buffer, and `offset_`. -/
structure LogBuffer where
  entries : List Entry := []
  offset : Nat := 0

def LogBuffer.isFull (b : LogBuffer) (appendSize : Nat) : Bool :=
  decide (b.offset + appendSize > logBufferSize)

/-- The records that were swapped out together, and where their frame goes. -/
structure Batch where
  off : Nat
  entries : List Entry
deriving DecidableEq, Repr

def Batch.frame (b : Batch) : Bytes := Wal.frame (batchBody b.entries)

/-- Where a thread is inside a call. -/
inductive Caller where
  | idle
  /-- `add_log_to_buffer` waits for room -/
  | space (prevLsn : Int) (record : LogRecord)
  /-- the lsn to wait for is known -/
  | target (n : Int)
  /-- `requested_lsn_` is raised, `request_flush` comes next -/
  | asked (n : Int)
  /-- waits on `persist_cv_` -/
  | asleep (n : Int)
deriving DecidableEq, Repr

/-- How far the batch that was swapped out is. -/
inductive Stage where
  | swapped
  | headed
  | written
  | synced
  | published
deriving DecidableEq, Repr

inductive Worker where
  /-- in `cv_.wait` -/
  | waiting
  /-- at the head of the inner loop -/
  | looping
  | flushing (stage : Stage) (fl : Bool) (batch : Batch) (target : Int)
deriving DecidableEq, Repr

structure LogManager where
  globalLsn : Int := 0
  active : Bool := false
  bufs : Bool → LogBuffer := fun _ => {}
  totalOffset : Nat
  flushRequested : Bool := false
  spaceWaiters : Nat := 0
  persistLsn : Int := -1
  requestedLsn : Int := -1
  worker : Worker := .waiting
  callers : Nat → Caller := fun _ => .idle
  file : Bytes
  /-- the content of the file at the last sync -/
  durable : Bytes
  appended : List Entry := []
  batches : List Batch := []
  returned : List Int := []

namespace LogManager

/-- The log manager of a new server: the file holds the log up to `init_offset`. -/
def init (disk : Bytes) : LogManager :=
  { totalOffset := disk.length, file := disk, durable := disk }

def setCaller (m : LogManager) (i : Nat) (c : Caller) : LogManager :=
  { m with callers := Function.update m.callers i c }

/-! ## Steps of the callers -/

/-- `add_log_to_buffer` with room in the active buffer. -/
def append (m : LogManager) (prevLsn : Int) (l : LogRecord) : LogManager :=
  let e : Entry := ⟨m.globalLsn, prevLsn, l⟩
  let buf := m.bufs m.active
  { m with
    globalLsn := toInt32 (m.globalLsn + 1)
    bufs := Function.update m.bufs m.active ⟨buf.entries ++ [e], buf.offset + logTotLen l⟩
    totalOffset := m.totalOffset + logTotLen l
    appended := m.appended ++ [e] }

/-- `add_log_to_buffer` up to its return or to the wait for room. -/
def addLog (m : LogManager) (i : Nat) (prevLsn : Int) (l : LogRecord) : Option LogManager :=
  if m.callers i = .idle then
    if (m.bufs m.active).isFull (logTotLen l) then
      some ({ m with flushRequested := true, spaceWaiters := m.spaceWaiters + 1 }.setCaller i
        (.space prevLsn l))
    else some (m.append prevLsn l)
  else none

/-- The waiting writer wakes up to a buffer with room. -/
def addWoken (m : LogManager) (i : Nat) : Option LogManager :=
  match m.callers i with
  | .space prevLsn l =>
      if (m.bufs m.active).isFull (logTotLen l) then none
      else some (({ m with spaceWaiters := m.spaceWaiters - 1 }.append prevLsn l).setCaller i .idle)
  | _ => none

/-- `flush_log_to_disk` reads `global_lsn_`. -/
def flushLogToDisk (m : LogManager) (i : Nat) : Option LogManager :=
  if m.callers i = .idle then some (m.setCaller i (.target (toInt32 (m.globalLsn - 1)))) else none

/-- `wait_for_persist` is called. -/
def waitForPersist (m : LogManager) (i : Nat) (n : Int) : Option LogManager :=
  if m.callers i = .idle then some (m.setCaller i (.target n)) else none

/-- Both return. -/
def finish (m : LogManager) (i : Nat) (n : Int) : LogManager :=
  { m.setCaller i .idle with returned := n :: m.returned }

/-- The first section of both: return at once, or raise `requested_lsn_`. -/
def checkPersist (m : LogManager) (i : Nat) : Option LogManager :=
  match m.callers i with
  | .target n =>
      if m.persistLsn ≥ n then some (m.finish i n)
      else some ({ m with requestedLsn := max m.requestedLsn n }.setCaller i (.asked n))
  | _ => none

def requestFlush (m : LogManager) (i : Nat) : Option LogManager :=
  match m.callers i with
  | .asked n => some ({ m with flushRequested := true }.setCaller i (.asleep n))
  | _ => none

/-- The wait on `persist_cv_` ends. -/
def wakePersist (m : LogManager) (i : Nat) : Option LogManager :=
  match m.callers i with
  | .asleep n => if m.persistLsn ≥ n then some (m.finish i n) else none
  | _ => none

/-! ## Steps of the flush worker -/

def wake (m : LogManager) : Option LogManager :=
  if m.worker = .waiting ∧ m.flushRequested then
    some { m with flushRequested := false, worker := .looping }
  else none

/-- The inner loop ends: the buffer is empty, or nobody waited when the worker looked.  Since
then a caller can have raised `requested_lsn_`, so that this is not checked again. -/
def rest (m : LogManager) : Option LogManager :=
  if m.worker = .looping then some { m with worker := .waiting } else none

/-- The active buffer is swapped out; somebody waits for it. -/
def swap (m : LogManager) : Option LogManager :=
  if m.worker = .looping ∧ (m.bufs m.active).offset > 0 ∧
      (m.persistLsn < m.requestedLsn ∨ m.spaceWaiters ≠ 0) then
    let fl := m.active
    let batchBytes := (m.bufs fl).offset
    let batch : Batch := ⟨m.totalOffset - batchBytes, (m.bufs fl).entries⟩
    some { m with
      active := !fl
      totalOffset := m.totalOffset + walBatchHdrSize
      worker := .flushing .swapped fl batch (toInt32 (m.globalLsn - 1))
      batches := m.batches ++ [batch] }
  else none

/-- The header of a frame. -/
def header (body : Bytes) : Bytes :=
  wordBytes walBatchMagic ++ u32Bytes body.length ++ wordBytes (walCrc32 body)

/-- What the worker does next with the batch: two writes, the sync, the publication of
`persist_lsn_`, and the buffer is free again. -/
def flush (m : LogManager) : Option LogManager :=
  match m.worker with
  | .flushing .swapped fl batch target =>
      some { m with
        file := writeLog m.file (header (batchBody (m.bufs fl).entries)) batch.off
        worker := .flushing .headed fl batch target }
  | .flushing .headed fl batch target =>
      some { m with
        file := writeLog m.file (batchBody (m.bufs fl).entries) (batch.off + walBatchHdrSize)
        worker := .flushing .written fl batch target }
  | .flushing .written fl batch target =>
      some { m with durable := m.file, worker := .flushing .synced fl batch target }
  | .flushing .synced fl batch target =>
      some { m with persistLsn := target, worker := .flushing .published fl batch target }
  | .flushing .published fl _ _ =>
      some { m with bufs := Function.update m.bufs fl {}, worker := .looping }
  | _ => none

end LogManager

/-! ## Runs -/

inductive LogAct where
  | addLog (i : Nat) (prevLsn : Int) (record : LogRecord)
  | addWoken (i : Nat)
  | flushLogToDisk (i : Nat)
  | waitForPersist (i : Nat) (n : Int)
  | checkPersist (i : Nat)
  | requestFlush (i : Nat)
  | wakePersist (i : Nat)
  | wake
  | rest
  | swap
  | flush
deriving DecidableEq, Repr

def LogManager.step (m : LogManager) : LogAct → Option LogManager
  | .addLog i prevLsn l => m.addLog i prevLsn l
  | .addWoken i => m.addWoken i
  | .flushLogToDisk i => m.flushLogToDisk i
  | .waitForPersist i n => m.waitForPersist i n
  | .checkPersist i => m.checkPersist i
  | .requestFlush i => m.requestFlush i
  | .wakePersist i => m.wakePersist i
  | .wake => m.wake
  | .rest => m.rest
  | .swap => m.swap
  | .flush => m.flush

/-! ## What a step can do -/

namespace LogManager

/-- The log manager after each kind of step, with what the step has checked. -/
inductive Stepped (m : LogManager) : LogAct → LogManager → Prop
  | full {i : Nat} {prevLsn : Int} {l : LogRecord} (idle : m.callers i = .idle)
      (full : (m.bufs m.active).isFull (logTotLen l) = true) :
      Stepped m (.addLog i prevLsn l)
        ({ m with flushRequested := true, spaceWaiters := m.spaceWaiters + 1 }.setCaller i
          (.space prevLsn l))
  | added {i : Nat} {prevLsn : Int} {l : LogRecord} (idle : m.callers i = .idle) :
      Stepped m (.addLog i prevLsn l) (m.append prevLsn l)
  | addedLate {i : Nat} {prevLsn : Int} {l : LogRecord} (caller : m.callers i = .space prevLsn l) :
      Stepped m (.addWoken i)
        (({ m with spaceWaiters := m.spaceWaiters - 1 }.append prevLsn l).setCaller i .idle)
  | target {i : Nat} (idle : m.callers i = .idle) :
      Stepped m (.flushLogToDisk i) (m.setCaller i (.target (toInt32 (m.globalLsn - 1))))
  | waitFor {i : Nat} {n : Int} (idle : m.callers i = .idle) :
      Stepped m (.waitForPersist i n) (m.setCaller i (.target n))
  | returned {i : Nat} {n : Int} (caller : m.callers i = .target n) (persisted : n ≤ m.persistLsn) :
      Stepped m (.checkPersist i) (m.finish i n)
  | raised {i : Nat} {n : Int} (caller : m.callers i = .target n) :
      Stepped m (.checkPersist i)
        ({ m with requestedLsn := max m.requestedLsn n }.setCaller i (.asked n))
  | requested {i : Nat} {n : Int} (caller : m.callers i = .asked n) :
      Stepped m (.requestFlush i) ({ m with flushRequested := true }.setCaller i (.asleep n))
  | woken {i : Nat} {n : Int} (caller : m.callers i = .asleep n) (persisted : n ≤ m.persistLsn) :
      Stepped m (.wakePersist i) (m.finish i n)
  | wake (waiting : m.worker = .waiting) :
      Stepped m .wake { m with flushRequested := false, worker := .looping }
  | rest (looping : m.worker = .looping) : Stepped m .rest { m with worker := .waiting }
  | swap {m' : LogManager} (looping : m.worker = .looping) (hs : m.swap = some m') : Stepped m .swap m'
  | flush {m' : LogManager} (hs : m.flush = some m') : Stepped m .flush m'

variable {m m' : LogManager}

theorem stepped {a : LogAct} (hs : m.step a = some m') : Stepped m a m' := by
  cases a with
  | addLog i prevLsn l =>
      obtain ⟨hidle, hs⟩ := Option.ite_none_right_eq_some.1 hs
      split at hs <;> cases hs
      · exact .full hidle ‹_›
      · exact .added hidle
  | addWoken i =>
      simp only [step, addWoken] at hs
      split at hs
      · obtain ⟨-, hs⟩ := Option.ite_none_left_eq_some.1 hs
        cases hs
        exact .addedLate ‹_›
      · cases hs
  | flushLogToDisk i =>
      obtain ⟨hidle, hs⟩ := Option.ite_none_right_eq_some.1 hs
      cases hs
      exact .target hidle
  | waitForPersist i n =>
      obtain ⟨hidle, hs⟩ := Option.ite_none_right_eq_some.1 hs
      cases hs
      exact .waitFor hidle
  | checkPersist i =>
      simp only [step, checkPersist] at hs
      split at hs
      · split at hs <;> cases hs
        · exact .returned ‹_› ‹_›
        · exact .raised ‹_›
      · cases hs
  | requestFlush i =>
      simp only [step, requestFlush] at hs
      split at hs <;> cases hs
      exact .requested ‹_›
  | wakePersist i =>
      simp only [step, wakePersist] at hs
      split at hs
      · obtain ⟨hn, hs⟩ := Option.ite_none_right_eq_some.1 hs
        cases hs
        exact .woken ‹_› hn
      · cases hs
  | wake =>
      obtain ⟨⟨hw, -⟩, hs⟩ := Option.ite_none_right_eq_some.1 hs
      cases hs
      exact .wake hw
  | rest =>
      obtain ⟨hw, hs⟩ := Option.ite_none_right_eq_some.1 hs
      cases hs
      exact .rest hw
  | swap => exact .swap (Option.ite_none_right_eq_some.1 hs).1.1 hs
  | flush => exact .flush hs

/-- The swap moves the active buffer to a new batch. -/
theorem swap_eq (hs : m.swap = some m') : m' =
    { m with
      active := !m.active
      totalOffset := m.totalOffset + walBatchHdrSize
      worker := .flushing .swapped m.active
        ⟨m.totalOffset - (m.bufs m.active).offset, (m.bufs m.active).entries⟩
        (toInt32 (m.globalLsn - 1))
      batches := m.batches ++
        [⟨m.totalOffset - (m.bufs m.active).offset, (m.bufs m.active).entries⟩] } := by
  obtain ⟨-, hs⟩ := Option.ite_none_right_eq_some.1 hs
  cases hs
  rfl

/-- A stage of a flush changes the file, what is synced or published, the swapped buffer and the worker. -/
theorem flush_eq (hs : m.flush = some m') : m' =
    { m with
      file := m'.file
      durable := m'.durable
      persistLsn := m'.persistLsn
      bufs := m'.bufs
      worker := m'.worker } := by
  unfold flush at hs
  split at hs <;> cases hs
  all_goals rfl

end LogManager

end Rmdb.Wal
