import Rmdb.Wal.Durable

/-!
# Rounds of the flush worker, and the wrap of the log numbers

One whole round from the request of a flush to the sleep of the worker.  Repeated 2^31 - 1
times it brings `global_lsn_` to the largest `int`; the next number is negative, and a record
with it is below `persist_lsn_` before it is written.
-/

namespace Rmdb.Wal

open Rmdb.Txn
open Rmdb.Lib (run run_nil run_cons run_append)

namespace LogManager

variable {m : LogManager}

/-! ## One round of the worker -/

/-- What a thread does to have the log flushed, up to its wait. -/
def askFlush (i : Nat) : List LogAct := [.flushLogToDisk i, .checkPersist i, .requestFlush i]

theorem run_askFlush {i : Nat} {n : Int} (hc : m.callers i = .idle) (hn : toInt32 (m.globalLsn - 1) = n)
    (hp : m.persistLsn < n) : run LogManager.step m (askFlush i) =
      some ({ m with
        requestedLsn := max m.requestedLsn n
        flushRequested := true
        callers := Function.update m.callers i (.asleep n) }) := by
  have h1 : m.step (.flushLogToDisk i) = some (m.setCaller i (.target n)) := by
    rw [← hn]
    exact if_pos hc
  have h2 : (m.setCaller i (.target n)).step (.checkPersist i) =
      some ({ m.setCaller i (.target n) with requestedLsn := max m.requestedLsn n }.setCaller i
        (.asked n)) := by
    simp only [LogManager.step, checkPersist, setCaller, Function.update_self]
    exact if_neg (by omega)
  rw [askFlush, run_cons, h1, Option.bind_some, run_cons, h2, Option.bind_some, run_cons]
  simp only [LogManager.step, requestFlush, setCaller, Function.update_self, Function.update_idem,
    Option.bind_some, run_nil]

/-- The worker wakes up, flushes the active buffer and goes to sleep. -/
def flushRound : List LogAct := [.wake, .swap, .flush, .flush, .flush, .flush, .flush, .rest]

/-- The log manager after that. -/
def flushed (m : LogManager) : LogManager :=
  let batch : Batch := ⟨m.totalOffset - (m.bufs m.active).offset, (m.bufs m.active).entries⟩
  let body := batchBody (m.bufs m.active).entries
  let file := writeLog (writeLog m.file (header body) batch.off) body (batch.off + walBatchHdrSize)
  { m with
    active := !m.active
    bufs := Function.update m.bufs m.active {}
    totalOffset := m.totalOffset + walBatchHdrSize
    flushRequested := false
    persistLsn := toInt32 (m.globalLsn - 1)
    file := file
    durable := file
    batches := m.batches ++ [batch] }

theorem run_flushRound (hw : m.worker = .waiting) (hr : m.flushRequested = true)
    (ho : (m.bufs m.active).offset > 0) (hn : m.persistLsn < m.requestedLsn) :
    run LogManager.step m flushRound = some m.flushed := by
  have h1 : m.step .wake = some { m with flushRequested := false, worker := .looping } :=
    if_pos ⟨hw, hr⟩
  rw [flushRound, run_cons, h1, Option.bind_some, run_cons]
  simp only [LogManager.step, LogManager.swap]
  rw [if_pos ⟨trivial, ho, .inl hn⟩]
  simp only [Option.bind_some, run, LogManager.step, LogManager.flush, LogManager.rest, if_true, flushed, hw]

/-! ## Log numbers wrap -/

/-- `k` records are appended and flushed, and everybody waits. -/
structure Quiet (m : LogManager) (k : Nat) : Prop where
  worker : m.worker = .waiting
  caller : m.callers 0 = .idle
  bufs : m.bufs = fun _ => {}
  global : m.globalLsn = k
  persist : m.persistLsn = (k : Int) - 1
  count : m.appended.length = k

/-- One more record, appended and flushed. -/
def flushOne : List LogAct :=
  [.addLog 0 (-1) .ckpt] ++ askFlush 0 ++ flushRound ++ [.wakePersist 0]

theorem addLog_empty {i : Nat} (hc : m.callers i = .idle) (hb : (m.bufs m.active).offset ≤ 24) :
    m.step (.addLog i (-1) .ckpt) = some (m.append (-1) .ckpt) := by
  have hfull : (m.bufs m.active).isFull (logTotLen .ckpt) = false := by
    unfold LogBuffer.isFull
    rw [decide_eq_false]
    simp only [logTotLen, logHeaderSize, logBufferSize]
    omega
  show m.addLog i (-1) .ckpt = _
  unfold addLog
  rw [if_pos hc, hfull, if_neg Bool.false_ne_true]

theorem Quiet.next {k : Nat} (h : Quiet m k) (hk : k + 1 < 2 ^ 31) :
    ∃ m', run LogManager.step m flushOne = some m' ∧ Quiet m' (k + 1) := by
  obtain ⟨hw, hc, hb, hg, hp, hn⟩ := h
  have hk1 : toInt32 ((k : Int) + 1) = (k : Int) + 1 := toInt32_eq (by omega) (by omega)
  have hk0 : toInt32 ((k : Int) + 1 - 1) = k := by
    rw [Int.add_sub_cancel]
    exact toInt32_eq (by omega) (by omega)
  have hempty : (m.bufs m.active).offset = 0 := by rw [hb]
  have h1 := addLog_empty hc (by omega)
  obtain ⟨m1, hm1⟩ : ∃ m1, m1 = m.append (-1) .ckpt := ⟨_, rfl⟩
  rw [← hm1] at h1
  have hg1 : m1.globalLsn = (k : Int) + 1 := by
    rw [hm1]
    show toInt32 (m.globalLsn + 1) = (k : Int) + 1
    rw [hg, hk1]
  have hbuf1 : m1.bufs m1.active = ⟨[⟨m.globalLsn, -1, .ckpt⟩], 24⟩ := by
    rw [hm1]
    simp only [append, Function.update_self, hb]
    rfl
  have h2 := run_askFlush (m := m1) (i := 0) (n := k) (by rw [hm1]; exact hc) (by rw [hg1]; exact hk0)
    (by rw [hm1]; show m.persistLsn < k; omega)
  obtain ⟨m2, hm2⟩ : ∃ m2 : LogManager, m2 = { m1 with
      requestedLsn := max m1.requestedLsn k
      flushRequested := true
      callers := Function.update m1.callers 0 (.asleep (k : Int)) } := ⟨_, rfl⟩
  rw [← hm2] at h2
  have h3 := run_flushRound (m := m2) (by rw [hm2, hm1]; exact hw) (by rw [hm2]) (by
      rw [hm2]
      show (m1.bufs m1.active).offset > 0
      rw [hbuf1]
      exact Nat.zero_lt_succ 23) (by
      rw [hm2, hm1]
      show m.persistLsn < max m.requestedLsn k
      omega)
  have h4 : m2.flushed.step (.wakePersist 0) = some (m2.flushed.finish 0 k) := by
    have hc2 : m2.flushed.callers 0 = .asleep (k : Int) := by
      rw [hm2]
      show Function.update m1.callers 0 (.asleep (k : Int)) 0 = .asleep (k : Int)
      rw [Function.update_self]
    simp only [LogManager.step, wakePersist, hc2]
    refine if_pos ?_
    show toInt32 (m2.globalLsn - 1) ≥ k
    rw [hm2]
    show toInt32 (m1.globalLsn - 1) ≥ k
    rw [hg1, hk0]
  refine ⟨m2.flushed.finish 0 k, ?_, ?_⟩
  · rw [flushOne, run_append, run_append, run_append, run_cons, h1, Option.bind_some, run_nil,
      Option.bind_some, h2, Option.bind_some, h3, Option.bind_some, run_cons, h4]
    rfl
  · refine ⟨?_, ?_, ?_, ?_, ?_, ?_⟩
    · rw [hm2, hm1]
      exact hw
    · show Function.update m2.flushed.callers 0 .idle 0 = .idle
      rw [Function.update_self]
    · rw [hm2, hm1]
      funext i
      show Function.update (Function.update m.bufs m.active _) m.active {} i = {}
      rw [Function.update_idem, hb]
      by_cases hi : i = m.active
      · rw [hi, Function.update_self]
      · rw [Function.update_of_ne hi]
    · rw [hm2]
      show m1.globalLsn = _
      rw [hg1]
      omega
    · rw [hm2]
      show toInt32 (m1.globalLsn - 1) = _
      rw [hg1, hk0]
      omega
    · rw [hm2, hm1]
      show (m.appended ++ [_]).length = k + 1
      rw [List.length_append, hn]
      rfl

theorem init_quiet (disk : Bytes) : Quiet (init disk) 0 := ⟨rfl, rfl, rfl, rfl, rfl, rfl⟩

/-- The first record is durable when the worker has flushed it. -/
theorem run_durable_one : ∃ m, run LogManager.step (init []) flushOne = some m ∧ m.persistLsn = 0 ∧
    Durable [] m := by
  obtain ⟨m, hrun, hq⟩ := (init_quiet []).next (by omega)
  exact ⟨m, hrun, hq.persist, run_durable hrun (by rw [hq.count]; omega)⟩

theorem exists_quiet (disk : Bytes) : ∀ k, k < 2 ^ 31 →
    ∃ acts m, run LogManager.step (init disk) acts = some m ∧ Quiet m k := by
  intro k
  induction k with
  | zero => exact fun _ => ⟨[], init disk, rfl, init_quiet disk⟩
  | succ k ih =>
      intro hk
      obtain ⟨acts, m, hrun, hq⟩ := ih (by omega)
      obtain ⟨m', hrun', hq'⟩ := hq.next hk
      exact ⟨acts ++ flushOne, m', by rw [run_append, hrun, Option.bind_some, hrun'], hq'⟩

/-- After 2^31 records a record has a negative number, and counts as persisted before it is written. -/
theorem not_durable_wrapped : ∃ acts m, run LogManager.step (init []) acts = some m ∧
    ¬ Durable [] m := by
  obtain ⟨acts, m, hrun, hq⟩ := exists_quiet [] (2 ^ 31 - 1) (by omega)
  have hinv := run_inv hrun (by rw [hq.count]; omega)
  have hempty : (m.bufs m.active).offset = 0 := by rw [hq.bufs]
  have h1 := addLog_empty hq.caller (by omega)
  have hbuf : ((m.append (-1) .ckpt).bufs (m.append (-1) .ckpt).active).offset = 24 := by
    simp only [append, Function.update_self, hq.bufs]
    rfl
  have hc1 : (m.append (-1) .ckpt).callers 0 = .idle := hq.caller
  have h2 := addLog_empty hc1 (by rw [hbuf])
  refine ⟨acts ++ [.addLog 0 (-1) .ckpt, .addLog 0 (-1) .ckpt],
    (m.append (-1) .ckpt).append (-1) .ckpt, ?_, ?_⟩
  · rw [run_append, hrun, Option.bind_some, run_cons, h1, Option.bind_some, run_cons, h2]
    rfl
  · intro hd
    have hlsn : toInt32 (m.globalLsn + 1) = -2 ^ 31 := by
      rw [hq.global]
      decide
    obtain ⟨b, hb, he, -⟩ := hd.persisted ⟨-2 ^ 31, -1, .ckpt⟩ (by
        rw [← hlsn]
        exact List.mem_append_right _ (List.mem_singleton_self _)) (by
        show -2 ^ 31 ≤ m.persistLsn
        rw [hq.persist]
        omega)
    have hmem : (⟨-2 ^ 31, -1, .ckpt⟩ : Entry) ∈ m.appended := by
      rw [hinv.split]
      exact List.mem_append_left _ (List.mem_flatMap.2 ⟨b, hb, he⟩)
    obtain ⟨k, hk⟩ := List.getElem?_of_mem hmem
    have hneg : (-2 ^ 31 : Int) = k := hinv.lsns k _ hk
    omega

end LogManager
end Rmdb.Wal
