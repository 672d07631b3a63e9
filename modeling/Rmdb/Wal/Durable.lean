import Rmdb.Wal.LogManager

/-!
# What `persist_lsn_` says about the disk

As long as the log numbers have not wrapped, the batches swapped out so far lie one after
another in the file, the records of the published ones are synced, and together with the active
buffer they are exactly the records appended, in order.
-/

namespace Rmdb.Wal

open Rmdb.Txn
open Rmdb.Lib (run run_nil run_cons run_append run_invariant)

variable {disk file tail : Bytes} {m m' : LogManager} {bs : List Batch} {b : Batch} {off : Nat}

/-! ## Batches in the file -/

def framesOf (bs : List Batch) : Bytes := bs.flatMap Batch.frame

def entriesOf (bs : List Batch) : List Entry := bs.flatMap Batch.entries

/-- The batches lie one after another from `off` on. -/
def Contiguous : Nat → List Batch → Prop
  | _, [] => True
  | off, b :: bs => b.off = off ∧ Contiguous (off + b.frame.length) bs

/-- The file starts with the log as it was and the frames of the batches. -/
def Holds (disk file : Bytes) (bs : List Batch) : Prop := ∃ tail, file = disk ++ framesOf bs ++ tail

@[simp] theorem framesOf_nil : framesOf [] = [] := rfl

theorem framesOf_concat (bs : List Batch) (b : Batch) : framesOf (bs ++ [b]) = framesOf bs ++ b.frame := by
  unfold framesOf
  rw [List.flatMap_append, List.flatMap_singleton]

theorem entriesOf_concat (bs : List Batch) (b : Batch) :
    entriesOf (bs ++ [b]) = entriesOf bs ++ b.entries := by
  unfold entriesOf
  rw [List.flatMap_append, List.flatMap_singleton]

theorem contiguous_concat : ∀ {bs : List Batch} {off : Nat}, Contiguous off (bs ++ [b]) ↔
    Contiguous off bs ∧ b.off = off + (framesOf bs).length := by
  intro bs
  induction bs with
  | nil =>
      intro off
      show b.off = off ∧ True ↔ True ∧ b.off = off + 0
      rw [and_true, true_and, Nat.add_zero]
  | cons x bs ih =>
      intro off
      have hlen : (framesOf (x :: bs)).length = x.frame.length + (framesOf bs).length :=
        List.length_append
      show x.off = off ∧ Contiguous _ (bs ++ [b]) ↔ (x.off = off ∧ Contiguous _ bs) ∧ _
      rw [ih, hlen, and_assoc, Nat.add_assoc]

theorem Contiguous.front : ∀ {xs ys : List Batch} {off : Nat}, Contiguous off (xs ++ ys) →
    Contiguous off xs := by
  intro xs
  induction xs with
  | nil => exact fun _ => trivial
  | cons x xs ih => exact fun h => ⟨h.1, ih h.2⟩

/-- A batch among contiguous ones is at its offset in the file. -/
theorem Holds.batch (hb : b ∈ bs) (hc : Contiguous disk.length bs) (h : Holds disk file bs) :
    getBytes file b.off b.frame.length = b.frame := by
  obtain ⟨tail, rfl⟩ := h
  obtain ⟨before, after, rfl⟩ := List.append_of_mem hb
  have hsplit : before ++ b :: after = (before ++ [b]) ++ after := by
    rw [List.append_assoc, List.singleton_append]
  have hoff : b.off = (disk ++ framesOf before).length := by
    rw [hsplit] at hc
    rw [List.length_append]
    exact (contiguous_concat.1 hc.front).2
  have hframes : framesOf (before ++ b :: after) = framesOf before ++ (b.frame ++ framesOf after) := by
    unfold framesOf
    rw [List.flatMap_append, List.flatMap_cons]
  rw [hframes, hoff]
  unfold getBytes
  rw [← List.append_assoc, List.append_assoc, List.drop_left, List.append_assoc, List.take_left]

/-! ## Writing to the file -/

theorem ensureLogCapacity_eq (file : Bytes) (needEnd : Nat) :
    ∃ zeros, ensureLogCapacity file needEnd = file ++ zeros ∧ needEnd ≤ (file ++ zeros).length := by
  unfold ensureLogCapacity
  split
  · exact ⟨[], by rw [List.append_nil], by rw [List.append_nil]; assumption⟩
  · refine ⟨_, rfl, ?_⟩
    have hchunk : needEnd < (needEnd / logPreallocChunk + 1) * logPreallocChunk := by
      rw [Nat.mul_comm]
      exact Nat.lt_mul_div_succ needEnd (by decide)
    rw [List.length_append, List.length_replicate]
    omega

/-- A write behind `a` keeps `a`. -/
theorem writeLog_append (a tail data : Bytes) :
    ∃ tail', writeLog (a ++ tail) data a.length = a ++ data ++ tail' := by
  obtain ⟨zeros, heq, hlen⟩ := ensureLogCapacity_eq (a ++ tail) (a.length + data.length)
  unfold writeLog
  rw [heq, List.append_assoc]
  refine ⟨(tail ++ zeros).drop data.length, ?_⟩
  unfold putBytes
  rw [List.take_left, ← List.drop_drop, List.drop_left]

theorem frame_eq (b : Batch) : b.frame = LogManager.header (batchBody b.entries) ++ batchBody b.entries :=
  rfl

/-! ## The invariant -/

namespace LogManager

/-- The batches that are past a stage. -/
def upTo (m : LogManager) (past : Stage → Bool) : List Batch :=
  match m.worker with
  | .flushing stage _ _ _ => if past stage then m.batches else m.batches.dropLast
  | _ => m.batches

def pastWritten : Stage → Bool
  | .swapped | .headed => false
  | .written | .synced | .published => true

def pastSynced : Stage → Bool
  | .swapped | .headed | .written => false
  | .synced | .published => true

def pastPublished : Stage → Bool
  | .swapped | .headed | .written | .synced => false
  | .published => true

/-- What holds of the batch being flushed. -/
structure FlushOk (disk : Bytes) (m : LogManager) (stage : Stage) (fl : Bool) (b : Batch)
    (target : Int) : Prop where
  other : fl = !m.active
  last : m.batches = m.batches.dropLast ++ [b]
  entries : (m.bufs fl).entries = b.entries
  target : target = (entriesOf m.batches).length - 1
  headed : stage = .headed → ∃ tail, m.file =
    disk ++ framesOf m.batches.dropLast ++ header (batchBody b.entries) ++ tail

structure Inv (disk : Bytes) (m : LogManager) : Prop where
  global : m.globalLsn = m.appended.length
  lsns : ∀ (k : Nat) (e : Entry), m.appended[k]? = some e → e.lsn = k
  split : m.appended = entriesOf m.batches ++ (m.bufs m.active).entries
  offset : (m.bufs m.active).offset = (batchBody (m.bufs m.active).entries).length
  contiguous : Contiguous disk.length m.batches
  total : m.totalOffset = disk.length + (framesOf m.batches).length + (m.bufs m.active).offset
  idle : (∀ stage fl b target, m.worker ≠ .flushing stage fl b target) → m.bufs (!m.active) = {}
  flushing : ∀ stage fl b target, m.worker = .flushing stage fl b target →
    FlushOk disk m stage fl b target
  written : Holds disk m.file (m.upTo pastWritten)
  synced : Holds disk m.durable (m.upTo pastSynced)
  persist : m.persistLsn = (entriesOf (m.upTo pastPublished)).length - 1
  returned : ∀ n ∈ m.returned, n ≤ m.persistLsn

theorem init_inv (disk : Bytes) : Inv disk (init disk) where
  global := rfl
  lsns := fun k e h => (by cases h)
  split := rfl
  offset := rfl
  contiguous := trivial
  total := rfl
  idle := fun _ => rfl
  flushing := fun _ _ _ _ h => (by cases h)
  written := ⟨[], by simp [init, upTo]⟩
  synced := ⟨[], by simp [init, upTo]⟩
  persist := rfl
  returned := fun n h => (by cases h)

/-! ## Steps of the callers -/

/-- A step that changes neither the log nor the buffers; at most a call returns. -/
theorem Inv.callers (h : Inv disk m) (hm : m' = { m with
      flushRequested := m'.flushRequested
      spaceWaiters := m'.spaceWaiters
      requestedLsn := m'.requestedLsn
      callers := m'.callers
      returned := m'.returned })
    (hret : ∀ n ∈ m'.returned, n ≤ m.persistLsn) : Inv disk m' := by
  rw [hm]
  exact
    { h with
      returned := hret
      flushing := fun stage fl b target hw =>
        let hf := h.flushing stage fl b target hw
        ⟨hf.other, hf.last, hf.entries, hf.target, hf.headed⟩
      written := h.written
      synced := h.synced
      persist := h.persist }

theorem batchBody_concat (es : List Entry) (e : Entry) :
    batchBody (es ++ [e]) = batchBody es ++ e.serialize := by
  unfold batchBody
  rw [List.flatMap_append, List.flatMap_singleton]

theorem Inv.append (h : Inv disk m) (prevLsn : Int) (l : LogRecord)
    (hsmall : (m.append prevLsn l).appended.length < 2 ^ 31) : Inv disk (m.append prevLsn l) := by
  have hsmall : m.appended.length + 1 < 2 ^ 31 := by
    simpa only [LogManager.append, List.length_append, List.length_singleton] using hsmall
  have hother : Function.update m.bufs m.active
      ⟨(m.bufs m.active).entries ++ [⟨m.globalLsn, prevLsn, l⟩],
        (m.bufs m.active).offset + logTotLen l⟩ (!m.active) = m.bufs (!m.active) :=
    Function.update_of_ne (by cases m.active <;> decide) _ _
  refine
    { global := ?_, lsns := ?_, split := ?_, offset := ?_, contiguous := h.contiguous, total := ?_,
      idle := ?_, flushing := ?_, written := h.written, synced := h.synced, persist := h.persist,
      returned := h.returned }
  · show toInt32 (m.globalLsn + 1) = ((m.appended ++ [_]).length : Int)
    rw [h.global, List.length_append, List.length_singleton]
    have hcast := toInt32_of_lt hsmall
    rw [← hcast]
    rfl
  · intro k e he
    change (m.appended ++ [_])[k]? = some e at he
    rw [List.getElem?_append] at he
    split at he
    · exact h.lsns k e he
    · rename_i hk
      obtain ⟨hlt, rfl⟩ := List.getElem?_eq_some_iff.1 he
      rw [List.length_singleton] at hlt
      have hk0 : k = m.appended.length := by omega
      rw [List.getElem_singleton, hk0]
      exact h.global
  · show m.appended ++ [_] = entriesOf m.batches ++ (Function.update m.bufs m.active _ m.active).entries
    rw [Function.update_self, ← List.append_assoc, ← h.split]
  · show (Function.update m.bufs m.active _ m.active).offset =
      (batchBody (Function.update m.bufs m.active _ m.active).entries).length
    rw [Function.update_self, batchBody_concat, List.length_append, serialize_length, h.offset]
  · show m.totalOffset + logTotLen l = _ + (Function.update m.bufs m.active _ m.active).offset
    rw [Function.update_self, h.total, Nat.add_assoc]
    rfl
  · intro hw
    exact hother.trans (h.idle hw)
  · intro stage fl b target hw
    have hf := h.flushing stage fl b target hw
    refine ⟨hf.other, hf.last, ?_, hf.target, hf.headed⟩
    show (Function.update m.bufs m.active _ fl).entries = b.entries
    rw [hf.other, hother, ← hf.other]
    exact hf.entries

/-! ## Steps of the flush worker -/

/-- Not in the middle of a batch. -/
def Idle (m : LogManager) : Prop := ∀ stage fl b target, m.worker ≠ .flushing stage fl b target

theorem Idle.upTo (h : m.Idle) (past : Stage → Bool) : m.upTo past = m.batches := by
  unfold LogManager.upTo
  split
  · rename_i hw
    exact absurd hw (h _ _ _ _)
  · rfl

theorem upTo_flushing {stage : Stage} {fl : Bool} {target : Int}
    (hw : m.worker = .flushing stage fl b target) (past : Stage → Bool) :
    m.upTo past = if past stage then m.batches else m.batches.dropLast := by
  unfold upTo
  rw [hw]

/-- The worker wakes up or goes to sleep. -/
theorem Inv.resting (h : Inv disk m) (hidle : m.Idle) {w : Worker} {requested : Bool}
    (hidle' : Idle { m with flushRequested := requested, worker := w }) :
    Inv disk { m with flushRequested := requested, worker := w } := by
  have hup := fun past => (hidle'.upTo past).trans (hidle.upTo past).symm
  exact
    { h with
      idle := fun _ => h.idle hidle
      flushing := fun stage fl b target hw => absurd hw (hidle' stage fl b target)
      written := by rw [hup]; exact h.written
      synced := by rw [hup]; exact h.synced
      persist := by rw [hup]; exact h.persist }

theorem Inv.small (h : Inv disk m) (hsmall : m.appended.length < 2 ^ 31) :
    toInt32 (m.globalLsn - 1) = (m.appended.length : Int) - 1 := by
  rw [h.global]
  exact toInt32_eq (by omega) (by omega)

theorem Inv.swap (h : Inv disk m) (hsmall : m.appended.length < 2 ^ 31) (hs : m.swap = some m') :
    Inv disk m' := by
  obtain ⟨⟨hw, -, -⟩, hs⟩ := Option.ite_none_right_eq_some.1 hs
  have hidle : m.Idle := fun _ _ _ _ hw' => by rw [hw] at hw'; cases hw'
  have hempty := h.idle hidle
  have hoff : m.totalOffset - (m.bufs m.active).offset = disk.length + (framesOf m.batches).length := by
    have htotal := h.total
    omega
  cases hs
  have hsplit : m.appended =
      entriesOf (m.batches ++ [⟨m.totalOffset - (m.bufs m.active).offset, (m.bufs m.active).entries⟩]) := by
    rw [entriesOf_concat]
    exact h.split
  refine
    { global := h.global, lsns := h.lsns, split := ?_, offset := ?_, contiguous := ?_, total := ?_,
      idle := ?_, flushing := ?_, written := ?_, synced := ?_, persist := ?_, returned := h.returned }
  · show m.appended = entriesOf _ ++ (m.bufs (!m.active)).entries
    rw [hempty, ← hsplit]
    exact (List.append_nil _).symm
  · show (m.bufs (!m.active)).offset = (batchBody (m.bufs (!m.active)).entries).length
    rw [hempty]
    rfl
  · exact contiguous_concat.2 ⟨h.contiguous, hoff⟩
  · show m.totalOffset + walBatchHdrSize =
      disk.length + (framesOf (m.batches ++ [_])).length + (m.bufs (!m.active)).offset
    have hlen : (Batch.frame ⟨m.totalOffset - (m.bufs m.active).offset, (m.bufs m.active).entries⟩).length =
        walBatchHdrSize + (m.bufs m.active).offset := by
      rw [h.offset]
      exact frame_length _
    have htotal := h.total
    rw [hempty, framesOf_concat, List.length_append, hlen]
    show _ = _ + 0
    omega
  · intro hno
    exact absurd rfl (hno _ _ _ _)
  · intro stage fl b target hw'
    cases hw'
    refine ⟨(Bool.not_not _).symm, ?_, rfl, ?_, fun hh => (by cases hh)⟩
    · show m.batches ++ [_] = (m.batches ++ [_]).dropLast ++ [_]
      rw [List.dropLast_concat]
    · show toInt32 (m.globalLsn - 1) = _
      rw [h.small hsmall, hsplit]
  · show Holds disk m.file (m.batches ++ [_]).dropLast
    rw [List.dropLast_concat, ← hidle.upTo pastWritten]
    exact h.written
  · show Holds disk m.durable (m.batches ++ [_]).dropLast
    rw [List.dropLast_concat, ← hidle.upTo pastSynced]
    exact h.synced
  · show m.persistLsn = (entriesOf (m.batches ++ [_]).dropLast).length - 1
    rw [List.dropLast_concat, ← hidle.upTo pastPublished]
    exact h.persist

/-- One stage of a flush: the file, what is synced and what is published change with the stage. -/
theorem Inv.stage (h : Inv disk m) {stage stage' : Stage} {fl : Bool} {target : Int}
    (hw : m.worker = .flushing stage fl b target) {file' durable' : Bytes} {persist' : Int}
    (hwritten : Holds disk file' (if pastWritten stage' then m.batches else m.batches.dropLast))
    (hsynced : Holds disk durable' (if pastSynced stage' then m.batches else m.batches.dropLast))
    (hpersist : persist' =
      (entriesOf (if pastPublished stage' then m.batches else m.batches.dropLast)).length - 1)
    (hle : m.persistLsn ≤ persist')
    (hheaded : stage' = .headed → ∃ tail, file' =
      disk ++ framesOf m.batches.dropLast ++ header (batchBody b.entries) ++ tail) :
    Inv disk { m with
      file := file'
      durable := durable'
      persistLsn := persist'
      worker := .flushing stage' fl b target } := by
  have hf := h.flushing stage fl b target hw
  refine
    { h with
      idle := fun hno => absurd rfl (hno _ _ _ _)
      flushing := ?_
      written := hwritten
      synced := hsynced
      persist := hpersist
      returned := fun n hn => Int.le_trans (h.returned n hn) hle }
  intro stage'' fl' b' target' hw'
  cases hw'
  exact ⟨hf.other, hf.last, hf.entries, hf.target, hheaded⟩

theorem FlushOk.frames {stage : Stage} {fl : Bool} {target : Int}
    (hf : FlushOk disk m stage fl b target) :
    framesOf m.batches = framesOf m.batches.dropLast ++ b.frame := by
  conv_lhs => rw [hf.last]
  exact framesOf_concat _ _

theorem FlushOk.place {stage : Stage} {fl : Bool} {target : Int}
    (hf : FlushOk disk m stage fl b target) (hc : Contiguous disk.length m.batches) :
    b.off = (disk ++ framesOf m.batches.dropLast).length := by
  rw [hf.last] at hc
  rw [List.length_append]
  exact (contiguous_concat.1 hc).2

theorem Inv.flush (h : Inv disk m) (hs : m.flush = some m') : Inv disk m' := by
  unfold LogManager.flush at hs
  split at hs
  · -- the header goes behind the batches written so far
    rename_i fl b target hw
    have hf := h.flushing _ _ _ _ hw
    have hwritten := h.written
    have hsynced := h.synced
    have hpersist := h.persist
    rw [upTo_flushing hw] at hwritten hsynced hpersist
    obtain ⟨tail, htail⟩ := hwritten
    obtain ⟨tail', htail'⟩ := writeLog_append (disk ++ framesOf m.batches.dropLast) tail
      (header (batchBody b.entries))
    have hfile : writeLog m.file (header (batchBody (m.bufs fl).entries)) b.off =
        disk ++ framesOf m.batches.dropLast ++ header (batchBody b.entries) ++ tail' := by
      rw [hf.entries, htail, hf.place h.contiguous]
      exact htail'
    cases hs
    refine h.stage hw ⟨header (batchBody b.entries) ++ tail', ?_⟩ hsynced hpersist (Int.le_refl _)
      fun _ => ⟨tail', hfile⟩
    rw [hfile, List.append_assoc]
    rfl
  · -- the body completes the frame
    rename_i fl b target hw
    have hf := h.flushing _ _ _ _ hw
    have hsynced := h.synced
    have hpersist := h.persist
    rw [upTo_flushing hw] at hsynced hpersist
    obtain ⟨tail, htail⟩ := hf.headed rfl
    obtain ⟨tail', htail'⟩ := writeLog_append
      (disk ++ framesOf m.batches.dropLast ++ header (batchBody b.entries)) tail (batchBody b.entries)
    have hoff : b.off + walBatchHdrSize =
        (disk ++ framesOf m.batches.dropLast ++ header (batchBody b.entries)).length := by
      rw [List.length_append, ← hf.place h.contiguous]
      rfl
    have hfile : writeLog m.file (batchBody (m.bufs fl).entries) (b.off + walBatchHdrSize) =
        disk ++ framesOf m.batches ++ tail' := by
      rw [hf.entries, htail, hoff, htail', hf.frames, frame_eq]
      simp only [List.append_assoc]
    cases hs
    exact h.stage hw ⟨tail', hfile⟩ hsynced hpersist (Int.le_refl _) fun hh => (by cases hh)
  · rename_i fl b target hw
    have hwritten := h.written
    have hpersist := h.persist
    rw [upTo_flushing hw] at hwritten hpersist
    cases hs
    exact h.stage hw hwritten hwritten hpersist (Int.le_refl _) fun hh => (by cases hh)
  · rename_i fl b target hw
    have hf := h.flushing _ _ _ _ hw
    have hwritten := h.written
    have hsynced := h.synced
    have hpersist := h.persist
    rw [upTo_flushing hw] at hwritten hsynced hpersist
    have hle : m.persistLsn ≤ target := by
      have hlen : (entriesOf m.batches).length =
          (entriesOf m.batches.dropLast).length + b.entries.length := by
        conv_lhs => rw [hf.last]
        rw [entriesOf_concat, List.length_append]
      rw [hpersist, hf.target]
      show ((entriesOf m.batches.dropLast).length : Int) - 1 ≤ _
      omega
    cases hs
    exact h.stage hw hwritten hsynced hf.target hle fun hh => (by cases hh)
  · -- the buffer is free again
    rename_i fl b target hw
    have hf := h.flushing _ _ _ _ hw
    have hwritten := h.written
    have hsynced := h.synced
    have hpersist := h.persist
    rw [upTo_flushing hw] at hwritten hsynced hpersist
    have hactive : Function.update m.bufs fl {} m.active = m.bufs m.active := by
      rw [hf.other]
      exact Function.update_of_ne (by cases m.active <;> decide) _ _
    cases hs
    refine
      { global := h.global, lsns := h.lsns, split := ?_, offset := ?_, contiguous := h.contiguous,
        total := ?_, idle := ?_, flushing := fun _ _ _ _ hw' => (by cases hw'), written := hwritten,
        synced := hsynced, persist := hpersist, returned := h.returned }
    · show m.appended = _ ++ (Function.update m.bufs fl {} m.active).entries
      rw [hactive]
      exact h.split
    · show (Function.update m.bufs fl {} m.active).offset =
        (batchBody (Function.update m.bufs fl {} m.active).entries).length
      rw [hactive]
      exact h.offset
    · show m.totalOffset = _ + (Function.update m.bufs fl {} m.active).offset
      rw [hactive]
      exact h.total
    · intro _
      show Function.update m.bufs fl {} (!m.active) = {}
      rw [← hf.other, Function.update_self]
  · cases hs

/-! ## Every run -/

theorem finish_inv (h : Inv disk m) {i : Nat} {n : Int} (hn : m.persistLsn ≥ n) :
    Inv disk (m.finish i n) := by
  refine h.callers rfl fun k hk => ?_
  rcases List.mem_cons.1 hk with rfl | hk
  · exact hn
  · exact h.returned k hk

theorem step_appended {a : LogAct} (hs : m.step a = some m') : m.appended <+: m'.appended := by
  cases stepped hs with
  | added | addedLate => exact List.prefix_append _ _
  | full | target | waitFor | returned | raised | requested | woken | wake | rest =>
      exact List.prefix_rfl
  | swap _ hs => rw [swap_eq hs]
  | flush hs => rw [flush_eq hs]

/-- Only a swap adds a batch. -/
theorem step_batches {a : LogAct} (hs : m.step a = some m') : m.batches <+: m'.batches := by
  cases stepped hs with
  | swap _ hs =>
      rw [swap_eq hs]
      exact List.prefix_append _ _
  | flush hs => rw [flush_eq hs]
  | _ => exact List.prefix_rfl

theorem Inv.step {a : LogAct} (h : Inv disk m) (hs : m.step a = some m')
    (hsmall : m'.appended.length < 2 ^ 31) : Inv disk m' := by
  have hle := (step_appended hs).length_le
  cases stepped hs with
  | full | target | waitFor | raised | requested => exact h.callers rfl h.returned
  | returned _ hn | woken _ hn => exact finish_inv h hn
  | added => exact h.append _ _ hsmall
  | addedLate =>
      have h1 : Inv disk { m with spaceWaiters := m.spaceWaiters - 1 } := h.callers rfl h.returned
      have h2 := h1.append _ _ hsmall
      exact h2.callers rfl h2.returned
  | wake hw | rest hw =>
      exact h.resting (fun _ _ _ _ hw' => by rw [hw] at hw'; cases hw') (fun _ _ _ _ hw' => (by cases hw'))
  | swap _ hs => exact h.swap (Nat.lt_of_le_of_lt hle hsmall) hs
  | flush hs => exact h.flush hs

/-- In every run with fewer than 2^31 records the invariant holds. -/
theorem run_inv {acts : List LogAct} (hrun : run LogManager.step (init disk) acts = some m)
    (hsmall : m.appended.length < 2 ^ 31) : Inv disk m := by
  have hkeep : ∀ s a s', (s.appended.length < 2 ^ 31 → Inv disk s) → LogManager.step s a = some s' →
      s'.appended.length < 2 ^ 31 → Inv disk s' := fun s a s' h hs hsmall' =>
    (h (Nat.lt_of_le_of_lt (step_appended hs).length_le hsmall')).step hs hsmall'
  exact run_invariant hkeep acts (init disk) m (fun _ => init_inv disk) hrun hsmall

/-! ## Durability -/

/-- What the log manager promises: records up to `persist_lsn_` are in a batch that is synced at its
place in the file, the batches are contiguous and in the order of the log numbers, every record
is in exactly one batch or still in the active buffer, and calls return for persisted numbers. -/
structure Durable (disk : Bytes) (m : LogManager) : Prop where
  persisted : ∀ e ∈ m.appended, e.lsn ≤ m.persistLsn →
    ∃ b ∈ m.batches, e ∈ b.entries ∧ getBytes m.durable b.off b.frame.length = b.frame
  contiguous : Contiguous disk.length m.batches
  ordered : (entriesOf m.batches).Pairwise fun e e' => e.lsn < e'.lsn
  once : m.appended = entriesOf m.batches ++ (m.bufs m.active).entries
  distinct : (m.appended.map Entry.lsn).Nodup
  returned : ∀ n ∈ m.returned, n ≤ m.persistLsn

theorem Inv.ordered (h : Inv disk m) : m.appended.Pairwise fun e e' => e.lsn < e'.lsn := by
  rw [List.pairwise_iff_getElem]
  intro i j hi hj hij
  rw [h.lsns i _ (List.getElem?_eq_getElem hi), h.lsns j _ (List.getElem?_eq_getElem hj)]
  exact Int.ofNat_lt.2 hij

theorem Inv.durable (h : Inv disk m) : Durable disk m := by
  have hordered := h.ordered
  refine ⟨?_, h.contiguous, ?_, h.split, ?_, h.returned⟩
  · intro e he hle
    obtain ⟨k, hk⟩ := List.getElem?_of_mem he
    rw [h.lsns k e hk, h.persist] at hle
    -- the published batches are a prefix of the synced ones
    have hpub : m.upTo pastPublished <+: m.upTo pastSynced := by
      unfold upTo
      split
      · rename_i stage _ _ _ _
        cases stage <;> first | exact List.prefix_rfl | exact List.dropLast_prefix _
      · exact List.prefix_rfl
    have hall : m.upTo pastSynced <+: m.batches := by
      unfold upTo
      split
      · split
        · exact List.prefix_rfl
        · exact List.dropLast_prefix _
      · exact List.prefix_rfl
    obtain ⟨rest, hrest⟩ := hpub.trans hall
    have hmem : e ∈ entriesOf (m.upTo pastPublished) := by
      rw [h.split, ← hrest, entriesOf, List.flatMap_append, List.append_assoc,
        List.getElem?_append_left (by unfold entriesOf at hle; omega)] at hk
      exact List.mem_of_getElem? hk
    obtain ⟨b, hb, heb⟩ := List.mem_flatMap.1 hmem
    have hbs := hpub.subset hb
    refine ⟨b, hall.subset hbs, heb, h.synced.batch hbs ?_⟩
    obtain ⟨rest', hrest'⟩ := hall
    have hc := h.contiguous
    rw [← hrest'] at hc
    exact hc.front
  · rw [h.split, List.pairwise_append] at hordered
    exact hordered.1
  · rw [List.Nodup, List.pairwise_map]
    exact hordered.imp fun hlt => Int.ne_of_lt hlt

/-- The record is in a batch that is synced at its place in the file. -/
def Synced (m : LogManager) (e : Entry) : Prop :=
  ∃ b ∈ m.batches, e ∈ b.entries ∧ getBytes m.durable b.off b.frame.length = b.frame

/-- Durability in every run with fewer than 2^31 records. -/
theorem run_durable {acts : List LogAct} (hrun : run LogManager.step (init disk) acts = some m)
    (hsmall : m.appended.length < 2 ^ 31) : Durable disk m :=
  (run_inv hrun hsmall).durable

end LogManager

end Rmdb.Wal
