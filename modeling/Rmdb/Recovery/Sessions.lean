import Rmdb.Wal.LogManager
import Rmdb.Recovery.History

/-!
# Sessions and restarts

A session of the server is recovery, which ends with `do_checkpoint` (src/system/sm_manager.cpp),
then connections that run transactions and take checkpoints, and a crash.  Every session numbers
its transactions from 0 and writes behind the log of the earlier ones, so what `analyze` may
read is decided by the offset in db.restart.  Here the log is its complete batches and an
offset is the number of batches before it; `Server` puts the bytes under it.
-/

namespace Rmdb.Recovery

open Rmdb.Txn
open Rmdb.Wal (Entry frame batchBody logTotLen toInt32 walBatchHdrSize walCrc32
  logPreallocChunk)

/-! ## State -/

/-- A record, and the session that wrote it. -/
structure Written where
  session : Nat
  entry : Entry
deriving DecidableEq, Repr

/-- The transaction of a record; ids count the calls of `begin` in the session. -/
def Written.txn? (w : Written) : Option TxnId := Recovery.txn? w.entry.record

inductive Phase where
  | down
  /-- `analyze` is done, `redo` and `undo` run -/
  | analyzed
  /-- `undo` has cut the log to its end and takes its checkpoint -/
  | recovering
  | running
deriving DecidableEq, Repr

/-- Where a thread is in `do_checkpoint`; `n` is the number of records a flush waits for. -/
inductive CkptAt where
  | idle
  | flushing (n : Nat)
  /-- `cur_offset` has returned `off` -/
  | read (off : Nat)
  | logged (off : Nat)
  | forcing (off n : Nat)
  /-- db.restart is truncated and not written yet -/
  | truncated (off : Nat)
deriving DecidableEq, Repr

/-- Is `cur_offset` the next step? -/
def CkptAt.reads : CkptAt → Bool
  | .flushing _ => true
  | _ => false

def CkptAt.offset? : CkptAt → Option Nat
  | .idle | .flushing _ => none
  | .read off | .logged off | .forcing off _ | .truncated off => some off

structure Sessions where
  session : Nat := 0
  phase : Phase := .down
  nextTxnId : Nat := 0
  active : List TxnId := []
  /-- the transactions that did commit, each with its session -/
  committed : List (Nat × TxnId) := []
  /-- the batches that are complete in the log file -/
  batches : List (List Written) := []
  /-- the batch that the flush worker writes -/
  flying : Option (List Written) := none
  buffered : List Written := []
  /-- records appended in this session, and those in complete batches -/
  appended : Nat := 0
  persisted : Nat := 0
  ckpt : Nat → CkptAt := fun _ => .idle
  /-- what db.restart holds; `none` when it is missing or empty -/
  restart : Option Nat := none
  /-- the size of the log file -/
  capacity : Nat := 0

def batchSize (es : List Written) : Nat :=
  walBatchHdrSize + (es.map fun w => logTotLen w.entry.record).sum

def logSize (bs : List (List Written)) : Nat := (bs.map batchSize).sum

/-- The size of the log file after `ensure_log_capacity`. -/
def ensuredCapacity (capacity needEnd : Nat) : Nat :=
  if needEnd ≤ capacity then capacity else (needEnd / logPreallocChunk + 1) * logPreallocChunk

/-- The bytes of a batch in the file. -/
def frameOf (es : List Written) : Bytes := frame (batchBody (es.map Written.entry))

/-- Should `rest` look like a complete batch, its checksum is not the one of its body. -/
def Exposed (rest : Bytes) : Prop :=
  walBatchHdrSize + (getWord rest 4).toNat ≤ rest.length →
    getWord rest 8 ≠ walCrc32 (getBytes rest walBatchHdrSize (getWord rest 4).toNat)

instance : DecidablePred Exposed := fun rest => inferInstanceAs (Decidable
  (walBatchHdrSize + (getWord rest 4).toNat ≤ rest.length →
    getWord rest 8 ≠ walCrc32 (getBytes rest walBatchHdrSize (getWord rest 4).toNat)))

/-- The transactions with a record among `ws` are of one session. -/
def OneSession (ws : List Written) : Prop :=
  ∀ w ∈ ws, ∀ w' ∈ ws, w.txn? ≠ none → w'.txn? ≠ none → w.session = w'.session

instance : DecidablePred OneSession := fun ws => inferInstanceAs (Decidable
  (∀ w ∈ ws, ∀ w' ∈ ws, w.txn? ≠ none → w'.txn? ≠ none → w.session = w'.session))

/-! ## Steps -/

inductive Event where
  | analyze
  | truncateLog
  | serve
  | begin
  | log (prevLsn : Int) (record : LogRecord)
  /-- A transaction ends without a record. -/
  | leave (t : TxnId)
  | startCkpt (i : Nat)
  | ckpt (i : Nat)
  | swap
  | write
  /-- `cut` bytes of the batch being written are in the file, which has been extended for
  `need` of them. -/
  | crash (cut need : Nat)
deriving DecidableEq, Repr

namespace Sessions

def append (s : Sessions) (prevLsn : Int) (record : LogRecord) : Sessions :=
  { s with
    buffered := s.buffered ++ [⟨s.session, toInt32 s.appended, prevLsn, record⟩]
    appended := s.appended + 1 }

/-- A record of an active transaction; a commit or an abort ends it. -/
def logTxn (s : Sessions) (t : TxnId) (prevLsn : Int) (record : LogRecord) : Sessions :=
  let s := s.append prevLsn record
  match record with
  | .commit _ => { s with active := s.active.erase t, committed := (s.session, t) :: s.committed }
  | .abort _ => { s with active := s.active.erase t }
  | _ => s

def setCkpt (s : Sessions) (i : Nat) (c : CkptAt) : Sessions :=
  { s with ckpt := Function.update s.ckpt i c }

/-- The next step of the checkpoint of thread `i`. -/
def nextCkpt (s : Sessions) (i : Nat) : Option Sessions :=
  match s.ckpt i with
  | .idle => none
  | .flushing n =>
      if n ≤ s.persisted then
        some (s.setCkpt i (.read (s.batches.length + s.flying.toList.length)))
      else none
  | .read off => some ((s.append (-1) .ckpt).setCkpt i (.logged off))
  | .logged off => some (s.setCkpt i (.forcing off s.appended))
  | .forcing off n =>
      if n ≤ s.persisted then some { s.setCkpt i (.truncated off) with restart := none } else none
  | .truncated off => some { s.setCkpt i .idle with restart := some off }

/-- What is left when the process ends. -/
def crashed (s : Sessions) (capacity : Nat) : Sessions :=
  { s with
    phase := .down
    nextTxnId := 0
    active := []
    flying := none
    buffered := []
    appended := 0
    persisted := 0
    ckpt := fun _ => .idle
    capacity := capacity }

/-- The size of the log file after the crash. -/
def crashCapacity (s : Sessions) (cut need : Nat) : Nat :=
  match s.flying with
  | none => s.capacity
  | some _ => ensuredCapacity (ensuredCapacity s.capacity (logSize s.batches + need))
      (logSize s.batches + cut)

def step (s : Sessions) : Event → Option Sessions
  | .analyze =>
      if s.phase = .down then some { s with session := s.session + 1, phase := .analyzed } else none
  | .truncateLog =>
      if s.phase = .analyzed then
        some ({ s with phase := .recovering, capacity := logSize s.batches }.setCkpt 0 (.flushing 0))
      else none
  | .serve =>
      if s.phase = .recovering ∧ s.ckpt 0 = .idle then some { s with phase := .running } else none
  | .begin =>
      if s.phase = .running then
        some { s with nextTxnId := s.nextTxnId + 1, active := s.nextTxnId :: s.active }
      else none
  | .log prevLsn record =>
      (Recovery.txn? record).bind fun t =>
        if s.phase = .running ∧ t ∈ s.active then some (s.logTxn t prevLsn record) else none
  | .leave t => if t ∈ s.active then some { s with active := s.active.erase t } else none
  | .startCkpt i =>
      if s.phase = .running ∧ s.ckpt i = .idle then some (s.setCkpt i (.flushing s.appended)) else none
  | .ckpt i => s.nextCkpt i
  | .swap =>
      if s.flying = none ∧ s.buffered ≠ [] then
        some { s with flying := some s.buffered, buffered := [] }
      else none
  | .write =>
      s.flying.map fun es =>
        { s with
          batches := s.batches ++ [es]
          flying := none
          persisted := s.persisted + es.length
          capacity := ensuredCapacity s.capacity (logSize (s.batches ++ [es])) }
  | .crash cut need =>
      if s.phase ≠ .down ∧ cut ≤ need ∧
          ∀ es ∈ s.flying, cut < batchSize es ∧ need ≤ batchSize es then
        some (s.crashed (s.crashCapacity cut need))
      else none

/-! ## Conditions on a step -/

/-- What follows the complete batches after a crash in the middle of a write. -/
def tornRest (s : Sessions) (cut need : Nat) (es : List Written) : Bytes :=
  (frameOf es).take cut ++ List.replicate (s.crashCapacity cut need - logSize s.batches - cut) 0

/-- `begin` has ids left, nothing is buffered at `cur_offset`, and the crash leaves a log of less
than 2 GiB with a torn batch that the checksum exposes. -/
def Orderly (s : Sessions) : Event → Prop
  | .begin => s.nextTxnId < 2 ^ 64
  | .ckpt i => (s.ckpt i).reads = true → s.buffered = []
  | .crash cut need => s.crashCapacity cut need < 2 ^ 31 ∧
      ∀ es ∈ s.flying, cut ≠ 0 → Exposed (s.tornRest cut need es)
  | _ => True

/-- The crash finds an offset in db.restart, or a log that only one session has written. -/
def Restartable (s : Sessions) : Event → Prop
  | .crash _ _ => s.restart = none → OneSession s.batches.flatten
  | _ => True

instance (s : Sessions) : DecidablePred s.Orderly
  | .begin => inferInstanceAs (Decidable (s.nextTxnId < 2 ^ 64))
  | .ckpt i => inferInstanceAs (Decidable ((s.ckpt i).reads = true → s.buffered = []))
  | .crash cut need => inferInstanceAs (Decidable (s.crashCapacity cut need < 2 ^ 31 ∧
      ∀ es ∈ s.flying, cut ≠ 0 → Exposed (s.tornRest cut need es)))
  | .analyze | .truncateLog | .serve | .log _ _ | .leave _ | .startCkpt _ | .swap | .write =>
      isTrue trivial

instance (s : Sessions) : DecidablePred s.Restartable
  | .crash _ _ => inferInstanceAs (Decidable (s.restart = none → OneSession s.batches.flatten))
  | .analyze | .truncateLog | .serve | .begin | .log _ _ | .leave _ | .startCkpt _ | .ckpt _ | .swap
  | .write => isTrue trivial

/-! ## What a step can do -/

/-- The state after each kind of step, with what the step has checked. -/
inductive Stepped (s : Sessions) : Event → Sessions → Prop
  | analyze (down : s.phase = .down) :
      Stepped s .analyze { s with session := s.session + 1, phase := .analyzed }
  | truncateLog (analyzed : s.phase = .analyzed) : Stepped s .truncateLog
      ({ s with phase := .recovering, capacity := logSize s.batches }.setCkpt 0 (.flushing 0))
  | serve (recovering : s.phase = .recovering) (idle : s.ckpt 0 = .idle) :
      Stepped s .serve { s with phase := .running }
  | begin (running : s.phase = .running) : Stepped s .begin
      { s with nextTxnId := s.nextTxnId + 1, active := s.nextTxnId :: s.active }
  | log {t : TxnId} {prevLsn : Int} {record : LogRecord} (txn : Recovery.txn? record = some t)
      (running : s.phase = .running) (active : t ∈ s.active) :
      Stepped s (.log prevLsn record) (s.logTxn t prevLsn record)
  | leave {t : TxnId} (active : t ∈ s.active) :
      Stepped s (.leave t) { s with active := s.active.erase t }
  | startCkpt {i : Nat} (running : s.phase = .running) (idle : s.ckpt i = .idle) :
      Stepped s (.startCkpt i) (s.setCkpt i (.flushing s.appended))
  | readOffset {i n : Nat} (ckpt : s.ckpt i = .flushing n) : Stepped s (.ckpt i)
      (s.setCkpt i (.read (s.batches.length + s.flying.toList.length)))
  | logCkpt {i off : Nat} (ckpt : s.ckpt i = .read off) :
      Stepped s (.ckpt i) ((s.append (-1) .ckpt).setCkpt i (.logged off))
  | force {i off : Nat} (ckpt : s.ckpt i = .logged off) :
      Stepped s (.ckpt i) (s.setCkpt i (.forcing off s.appended))
  | truncate {i off n : Nat} (ckpt : s.ckpt i = .forcing off n) (persisted : n ≤ s.persisted) :
      Stepped s (.ckpt i) { s.setCkpt i (.truncated off) with restart := none }
  | rewrite {i off : Nat} (ckpt : s.ckpt i = .truncated off) :
      Stepped s (.ckpt i) { s.setCkpt i .idle with restart := some off }
  | swap (free : s.flying = none) (buffered : s.buffered ≠ []) :
      Stepped s .swap { s with flying := some s.buffered, buffered := [] }
  | write {es : List Written} (flying : s.flying = some es) : Stepped s .write
      { s with
        batches := s.batches ++ [es]
        flying := none
        persisted := s.persisted + es.length
        capacity := ensuredCapacity s.capacity (logSize (s.batches ++ [es])) }
  | crash {cut need : Nat} (up : s.phase ≠ .down) (cut_le : cut ≤ need)
      (torn : ∀ es ∈ s.flying, cut < batchSize es ∧ need ≤ batchSize es) :
      Stepped s (.crash cut need) (s.crashed (s.crashCapacity cut need))

variable {s s' : Sessions} {e : Event}

theorem stepped (hs : s.step e = some s') : Stepped s e s' := by
  cases e with
  | analyze =>
      obtain ⟨hd, hs⟩ := Option.ite_none_right_eq_some.1 hs
      cases hs
      exact .analyze hd
  | truncateLog =>
      obtain ⟨ha, hs⟩ := Option.ite_none_right_eq_some.1 hs
      cases hs
      exact .truncateLog ha
  | serve =>
      obtain ⟨⟨hr, h0⟩, hs⟩ := Option.ite_none_right_eq_some.1 hs
      cases hs
      exact .serve hr h0
  | begin =>
      obtain ⟨hr, hs⟩ := Option.ite_none_right_eq_some.1 hs
      cases hs
      exact .begin hr
  | log prevLsn record =>
      obtain ⟨t, ht, hs⟩ := Option.bind_eq_some_iff.1 hs
      obtain ⟨⟨hr, ha⟩, hs⟩ := Option.ite_none_right_eq_some.1 hs
      cases hs
      exact .log ht hr ha
  | leave t =>
      obtain ⟨ha, hs⟩ := Option.ite_none_right_eq_some.1 hs
      cases hs
      exact .leave ha
  | startCkpt i =>
      obtain ⟨⟨hr, hi⟩, hs⟩ := Option.ite_none_right_eq_some.1 hs
      cases hs
      exact .startCkpt hr hi
  | ckpt i =>
      simp only [step, nextCkpt] at hs
      split at hs
      · cases hs
      · obtain ⟨-, hs⟩ := Option.ite_none_right_eq_some.1 hs
        cases hs
        exact .readOffset ‹_›
      · cases hs
        exact .logCkpt ‹_›
      · cases hs
        exact .force ‹_›
      · obtain ⟨hn, hs⟩ := Option.ite_none_right_eq_some.1 hs
        cases hs
        exact .truncate ‹_› hn
      · cases hs
        exact .rewrite ‹_›
  | swap =>
      obtain ⟨⟨hf, hb⟩, hs⟩ := Option.ite_none_right_eq_some.1 hs
      cases hs
      exact .swap hf hb
  | write =>
      obtain ⟨es, hes, rfl⟩ := Option.map_eq_some_iff.1 hs
      exact .write hes
  | crash cut need =>
      obtain ⟨⟨hu, hc, ht⟩, hs⟩ := Option.ite_none_right_eq_some.1 hs
      cases hs
      exact .crash hu hc ht

end Sessions
end Rmdb.Recovery
