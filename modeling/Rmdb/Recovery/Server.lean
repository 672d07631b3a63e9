import Rmdb.Wal.RoundTrip
import Rmdb.Recovery.Restart

/-!
# Sessions over the bytes of the log

The server with db.log and db.restart as bytes and offsets.  Its runs follow those of
`Sessions`, and the scan of the next `analyze` hands out the records after the offset
(`run_visited`).  When every crash leaves a log that can be restarted from, what `analyze`
classifies as committed did commit in its own session (`run_classified`).
-/

namespace Rmdb.Recovery

open Rmdb.Txn
open Rmdb.Wal (Entry Crashed StartsAt analyzeScan batchBody ensureLogCapacity frame frame_length
  getLong logPreallocChunk logTotLen logType logTid offsetLogTid scan_crashed serialize_length
  walBatchHdrSize writeLog)
open Rmdb.Lib (run Along)

/-- The server; `visited` is what `analyze` handed to `handle_rec`. -/
structure Server extends Sessions where
  file : Bytes := []
  /-- `log_end_` -/
  logEnd : Nat := 0
  visited : List Bytes := []
  totalOffset : Nat := 0
  /-- where the batch being written goes -/
  flyingOff : Nat := 0
  /-- what `cur_offset` returned to the checkpoint of each thread -/
  ckptOff : Nat → Nat := fun _ => 0
  /-- the number in db.restart -/
  restartOff : Option Int := none

def bufferSize (ws : List Written) : Nat := (ws.map fun w => logTotLen w.entry.record).sum

namespace Server

/-- What an event does to the files and the offsets. -/
def bytesAfter (s : Server) : Event → Option Server
  | .analyze => (analyzeScan (some s.file) s.restartOff).map fun a =>
      { s with logEnd := a.scanner.logEnd.toNat, visited := a.visited }
  | .truncateLog => some { s with file := s.file.take s.logEnd, totalOffset := s.logEnd }
  | .log _ record => some { s with totalOffset := s.totalOffset + logTotLen record }
  | .ckpt i =>
      match s.ckpt i with
      | .flushing _ => some { s with ckptOff := Function.update s.ckptOff i s.totalOffset }
      | .read _ => some { s with totalOffset := s.totalOffset + logTotLen .ckpt }
      | .forcing _ _ => some { s with restartOff := none }
      | .truncated _ => some { s with restartOff := some (s.ckptOff i) }
      | .idle | .logged _ => some s
  | .swap => some { s with
      flyingOff := s.totalOffset - bufferSize s.buffered
      totalOffset := s.totalOffset + walBatchHdrSize }
  | .write =>
      match s.flying with
      | none => some s
      | some es => some { s with file := writeLog s.file (frameOf es) s.flyingOff }
  | .crash cut need =>
      match s.flying with
      | none => some s
      | some es => some { s with
          file := writeLog (ensureLogCapacity s.file (s.flyingOff + need)) ((frameOf es).take cut)
            s.flyingOff }
  | .serve | .begin | .leave _ | .startCkpt _ => some s

def step (s : Server) (e : Event) : Option Server :=
  (s.toSessions.step e).bind fun t => (s.bytesAfter e).map fun s => { s with toSessions := t }

end Server

/-! ## Sizes -/

def logBytes (bs : List (List Written)) : Bytes := bs.flatMap frameOf

theorem frameOf_length (es : List Written) : (frameOf es).length = batchSize es := by
  unfold frameOf batchSize batchBody
  rw [frame_length, List.length_flatMap, List.map_map]
  congr 2
  apply List.map_congr_left
  intro w _
  exact serialize_length w.entry

theorem logBytes_length (bs : List (List Written)) : (logBytes bs).length = logSize bs := by
  unfold logBytes logSize
  rw [List.length_flatMap]
  congr 1
  apply List.map_congr_left
  intro es _
  exact frameOf_length es

theorem logSize_append (as bs : List (List Written)) :
    logSize (as ++ bs) = logSize as + logSize bs := by
  unfold logSize
  rw [List.map_append, List.sum_append]

theorem logSize_singleton (es : List Written) : logSize [es] = batchSize es := by
  simp [logSize]

theorem le_ensuredCapacity (c n : Nat) : n ≤ ensuredCapacity c n ∧ c ≤ ensuredCapacity c n := by
  have hchunk : n < (n / logPreallocChunk + 1) * logPreallocChunk := by
    rw [Nat.mul_comm]
    exact Nat.lt_mul_div_succ n (by decide)
  unfold ensuredCapacity
  split <;> omega

/-! ## Writes behind the complete batches -/

theorem ensureLogCapacity_zeros (a : Bytes) (z n : Nat) :
    ensureLogCapacity (a ++ List.replicate z 0) n =
      a ++ List.replicate (ensuredCapacity (a.length + z) n - a.length) 0 := by
  have hlen : (a ++ List.replicate z 0).length = a.length + z := by
    rw [List.length_append, List.length_replicate]
  unfold ensureLogCapacity ensuredCapacity
  rw [hlen]
  split
  · rw [Nat.add_sub_cancel_left]
  · have hle : n < (n / logPreallocChunk + 1) * logPreallocChunk := by
      rw [Nat.mul_comm]
      exact Nat.lt_mul_div_succ n (by decide)
    rw [List.append_assoc, List.replicate_append_replicate]
    congr 2
    omega

theorem writeLog_zeros (a data : Bytes) (z : Nat) :
    writeLog (a ++ List.replicate z 0) data a.length = a ++ data ++
      List.replicate (ensuredCapacity (a.length + z) (a.length + data.length) -
        (a.length + data.length)) 0 := by
  unfold writeLog putBytes
  rw [ensureLogCapacity_zeros, List.take_left, ← List.drop_drop, List.drop_left, List.drop_replicate,
    Nat.sub_sub]

/-! ## The files and the sessions -/

namespace Server

variable {s s' : Server} {t : Sessions} {e : Event} {i k : Nat}

structure Ok (s : Server) : Prop where
  size : s.file.length = s.capacity
  small : s.phase = .down ∨ s.phase = .analyzed → s.capacity < 2 ^ 31
  torn : s.phase = .down ∨ s.phase = .analyzed → ∃ (next : List Written) (cut zeros : Nat),
    s.file = logBytes s.batches ++ ((frameOf next).take cut ++ List.replicate zeros 0) ∧
      cut < batchSize next ∧ (cut ≠ 0 → Exposed ((frameOf next).take cut ++ List.replicate zeros 0))
  logEnd : s.phase = .analyzed → s.logEnd = logSize s.batches
  zeros : s.phase ≠ .down ∧ s.phase ≠ .analyzed →
    ∃ zeros, s.file = logBytes s.batches ++ List.replicate zeros 0
  total : s.phase ≠ .down ∧ s.phase ≠ .analyzed →
    s.totalOffset = logSize s.batches + logSize s.flying.toList + bufferSize s.buffered
  flyingOff : ∀ es, s.flying = some es → s.flyingOff = logSize s.batches
  offset : ∀ i k, (s.ckpt i).offset? = some k →
    s.ckptOff i = logSize ((s.batches ++ s.flying.toList).take k)
  restart : s.restartOff = s.restart.map fun k => (logSize (s.batches.take k) : Int)

theorem ok_init : Ok {} where
  size := rfl
  small := fun _ => (by decide)
  torn := fun _ => ⟨[], 0, 0, rfl, by decide, fun h => absurd rfl h⟩
  logEnd := fun h => (by cases h)
  zeros := fun h => absurd rfl h.1
  total := fun h => absurd rfl h.1
  flyingOff := fun es h => (by cases h)
  offset := fun i k h => (by cases h)
  restart := rfl

/-- The scan of `analyze` hands out the records after the offset, and ends behind the complete
batches. -/
theorem Ok.scan (h : Ok s) (hsh : s.toSessions.Shape) (hd : s.phase = .down ∨ s.phase = .analyzed) :
    ∃ a, analyzeScan (some s.file) s.restartOff = some a ∧
      a.visited = (s.after (s.restart.getD 0)).map (fun w => w.entry.serialize) ∧
      a.scanner.logEnd = logSize s.batches := by
  obtain ⟨next, cut, zeros, hfile, hcut, hexp⟩ := h.torn hd
  obtain ⟨k, hk⟩ : ∃ k, k = s.restart.getD 0 := ⟨_, rfl⟩
  have hentries : ∀ bs : List (List Written),
      (bs.map fun es => es.map Written.entry).flatMap (fun es => frame (batchBody es)) = logBytes bs := by
    intro bs
    rw [List.flatMap_map]
    rfl
  let c : Crashed :=
    { pre := logBytes (s.batches.take k)
      batches := (s.batches.drop k).map fun es => es.map Written.entry
      next := next.map Written.entry
      cut := cut
      zeros := zeros
      nonempty := by
        intro es hes
        obtain ⟨ws, hws, rfl⟩ := List.mem_map.1 hes
        rw [Ne, List.map_eq_nil_iff]
        exact hsh.nonempty ws (List.mem_append_left _ (List.mem_of_mem_drop hws))
      torn := by
        rw [← frameOf_length] at hcut
        exact hcut }
  have hcomplete : c.complete = logBytes s.batches := by
    show logBytes (s.batches.take k) ++ _ = _
    rw [hentries, logBytes, logBytes, ← List.flatMap_append, List.take_append_drop]
    rfl
  have hbytes : c.bytes = s.file := by
    rw [hfile, ← hcomplete]
    rfl
  have hstart : StartsAt s.restartOff c.pre.length := by
    have hpre : c.pre.length = logSize (s.batches.take k) := logBytes_length _
    rw [hpre, h.restart]
    cases hr : s.restart with
    | none =>
        right
        rw [hk, hr]
        exact ⟨rfl, rfl⟩
    | some k' =>
        left
        rw [hk, hr]
        rfl
  obtain ⟨a, -, ha, hvisited, hend, -⟩ := scan_crashed c s.restartOff hstart
    (by rw [hbytes, h.size]; exact h.small hd) hexp
  rw [hbytes] at ha
  refine ⟨a, ha, ?_, ?_⟩
  · rw [hvisited, ← hk]
    unfold Crashed.records Sessions.after
    rw [← List.map_flatten, List.map_map]
    rfl
  · rw [hend, hcomplete, logBytes_length]

/-- A crash leaves the complete batches, what is written of the next one, and zeros. -/
theorem Ok.crash (h : Ok s) {cut need : Nat} (hup : s.phase ≠ .down ∧ s.phase ≠ .analyzed)
    (htorn : ∀ es ∈ s.flying, cut < batchSize es ∧ need ≤ batchSize es)
    (ho : s.Orderly (.crash cut need)) :
    ∃ s1 : Server, s.bytesAfter (.crash cut need) = some s1 ∧
      s1.file.length = s.crashCapacity cut need ∧ s1.restartOff = s.restartOff ∧
      ∃ (next : List Written) (cut zeros : Nat),
        s1.file = logBytes s.batches ++ ((frameOf next).take cut ++ List.replicate zeros 0) ∧
          cut < batchSize next ∧ (cut ≠ 0 → Exposed ((frameOf next).take cut ++ List.replicate zeros 0)) := by
  obtain ⟨z, hz⟩ := h.zeros hup
  cases hf : s.flying with
  | none =>
      refine ⟨s, by simp only [bytesAfter, hf], ?_, rfl, [], 0, z, hz, by decide, fun h => absurd rfl h⟩
      rw [h.size, Sessions.crashCapacity, hf]
  | some es =>
      obtain ⟨hcut, -⟩ := htorn es hf
      have hoff := h.flyingOff es hf
      have hlen := logBytes_length s.batches
      have hcap : logSize s.batches + z = s.capacity := by
        rw [← h.size, hz, List.length_append, List.length_replicate, hlen]
      have htake : ((frameOf es).take cut).length = cut := by
        rw [List.length_take, frameOf_length]
        omega
      have hgrown := le_ensuredCapacity s.capacity (logSize s.batches + need)
      have hgrown' := le_ensuredCapacity (ensuredCapacity s.capacity (logSize s.batches + need))
        (logSize s.batches + cut)
      have hcrash : s.crashCapacity cut need = ensuredCapacity
          (ensuredCapacity s.capacity (logSize s.batches + need)) (logSize s.batches + cut) := by
        rw [Sessions.crashCapacity, hf]
      have hwrite : writeLog (ensureLogCapacity s.file (s.flyingOff + need)) ((frameOf es).take cut)
          s.flyingOff = logBytes s.batches ++ ((frameOf es).take cut ++
            List.replicate (s.crashCapacity cut need - logSize s.batches - cut) 0) := by
        rw [hz, hoff, ensureLogCapacity_zeros, ← hlen, writeLog_zeros, htake, hlen, hcap, hcrash,
          Nat.add_sub_cancel' (by omega), Nat.sub_sub, List.append_assoc]
      have h1 : s.bytesAfter (.crash cut need) = some { s with
          file := writeLog (ensureLogCapacity s.file (s.flyingOff + need)) ((frameOf es).take cut)
            s.flyingOff } := by
        simp only [bytesAfter, hf]
      refine ⟨_, h1, ?_, rfl, es, cut, _, hwrite, hcut, fun hne => ?_⟩
      · dsimp only
        rw [hwrite, List.length_append, List.length_append, htake, List.length_replicate, hlen, hcrash]
        omega
      · exact ho.2 es hf hne

/-! ## What each step keeps of it -/

theorem Ok.analyze {logEnd : Int} {visited : List Bytes} (h : Ok s) (hd : s.phase = .down)
    (hend : logEnd = logSize s.batches) :
    Ok { s with
      toSessions := { s.toSessions with session := s.session + 1, phase := .analyzed }
      logEnd := logEnd.toNat, visited := visited } := by
  refine ⟨h.size, fun _ => h.small (.inl hd), fun _ => h.torn (.inl hd), fun _ => ?_,
    fun hq => absurd rfl hq.2, fun hq => absurd rfl hq.2, h.flyingOff, h.offset, h.restart⟩
  show logEnd.toNat = logSize s.batches
  rw [hend, Int.toNat_natCast]

theorem Ok.truncateLog (h : Ok s) (hsh : s.toSessions.Shape) (ha : s.phase = .analyzed) :
    Ok { s with
      toSessions := { s.toSessions with phase := .recovering, capacity := logSize s.batches }.setCkpt 0 (.flushing 0)
      file := s.file.take s.logEnd, totalOffset := s.logEnd } := by
  obtain ⟨hf, hb, -, -, -⟩ := hsh.quiet (.inr ha)
  obtain ⟨next, cut, zeros, hfile, -⟩ := h.torn (.inr ha)
  have htake : s.file.take s.logEnd = logBytes s.batches := by
    rw [h.logEnd ha, hfile, ← logBytes_length, List.take_left]
  have hnone : ∀ {P : Prop}, Phase.recovering = .down ∨ Phase.recovering = .analyzed → P := by
    intro P hq
    rcases hq with hq | hq <;> cases hq
  refine ⟨?_, hnone, hnone, fun hq => (by cases hq), fun _ => ⟨0, ?_⟩, fun _ => ?_, fun es hes => ?_,
    fun j k hj => ?_, h.restart⟩
  · show (s.file.take s.logEnd).length = logSize s.batches
    rw [htake, logBytes_length]
  · show s.file.take s.logEnd = logBytes s.batches ++ []
    rw [htake, List.append_nil]
  · show s.logEnd = logSize s.batches + logSize s.flying.toList + bufferSize s.buffered
    rw [h.logEnd ha, hf, hb]
    rfl
  · have hes : s.flying = some es := hes
    rw [hf] at hes
    cases hes
  · rcases Sessions.setCkpt_offset hj with ⟨-, hc⟩ | hc
    · cases hc
    · exact h.offset j k hc

theorem Ok.serve (h : Ok s) (hr : s.phase = .recovering) :
    Ok { s with toSessions := { s.toSessions with phase := .running } } := by
  have hup : s.phase ≠ .down ∧ s.phase ≠ .analyzed := by
    rw [hr]
    exact ⟨fun h => (by cases h), fun h => (by cases h)⟩
  have hnone : ∀ {P : Prop}, Phase.running = .down ∨ Phase.running = .analyzed → P := by
    intro P hq
    rcases hq with hq | hq <;> cases hq
  exact ⟨h.size, hnone, hnone, fun hq => (by cases hq), fun _ => h.zeros hup, fun _ => h.total hup,
    h.flyingOff, h.offset, h.restart⟩

theorem Ok.logTxn (h : Ok s) (t' : TxnId) (prevLsn : Int) (record : LogRecord) :
    Ok { s with
      toSessions := s.toSessions.logTxn t' prevLsn record, totalOffset := s.totalOffset + logTotLen record } := by
  have hsame : (s.logTxn t' prevLsn record).phase = s.phase ∧
      (s.logTxn t' prevLsn record).batches = s.batches ∧
      (s.logTxn t' prevLsn record).flying = s.flying ∧
      (s.logTxn t' prevLsn record).ckpt = s.ckpt ∧
      (s.logTxn t' prevLsn record).restart = s.restart ∧
      (s.logTxn t' prevLsn record).capacity = s.capacity ∧
      bufferSize (s.logTxn t' prevLsn record).buffered = bufferSize s.buffered + logTotLen record := by
    unfold Sessions.logTxn Sessions.append bufferSize
    dsimp only
    split <;> simp
  obtain ⟨hp, hbs, hf, hc, hre, hcap, hbuf⟩ := hsame
  have htotal : s.phase ≠ .down ∧ s.phase ≠ .analyzed → s.totalOffset + logTotLen record =
      logSize s.batches + logSize s.flying.toList + (bufferSize s.buffered + logTotLen record) := by
    intro hup
    have := h.total hup
    omega
  refine ⟨?_, ?_, ?_, ?_, ?_, ?_, ?_, ?_, ?_⟩ <;> simp only [hp, hbs, hf, hc, hre, hcap, hbuf]
  · exact h.size
  · exact h.small
  · exact h.torn
  · exact h.logEnd
  · exact h.zeros
  · exact htotal
  · exact h.flyingOff
  · exact h.offset
  · exact h.restart

/-- A checkpoint moves, with the offset it has read. -/
theorem Ok.setCkpt {c : CkptAt} (h : Ok s)
    (hoff : ∀ k, c.offset? = some k → s.ckptOff i = logSize ((s.batches ++ s.flying.toList).take k)) :
    Ok { s with toSessions := s.toSessions.setCkpt i c } := by
  refine ⟨h.size, h.small, h.torn, h.logEnd, h.zeros, h.total, h.flyingOff, fun j k hj => ?_, h.restart⟩
  rcases Sessions.setCkpt_offset hj with ⟨rfl, hk⟩ | hk
  · exact hoff k hk
  · exact h.offset j k hk

/-- `cur_offset`: with an empty buffer it is the end of the last batch. -/
theorem Ok.readOffset (h : Ok s) (hup : s.phase ≠ .down ∧ s.phase ≠ .analyzed) (hb : s.buffered = []) :
    Ok { s with
      toSessions := s.toSessions.setCkpt i (.read (s.batches.length + s.flying.toList.length))
      ckptOff := Function.update s.ckptOff i s.totalOffset } := by
  have htotal := h.total hup
  rw [hb] at htotal
  refine ⟨h.size, h.small, h.torn, h.logEnd, h.zeros, h.total, h.flyingOff, fun j k hj => ?_, h.restart⟩
  show Function.update s.ckptOff i s.totalOffset j = _
  have hj : (Function.update s.ckpt i
    (.read (s.batches.length + s.flying.toList.length)) j).offset? = some k := hj
  by_cases hji : j = i
  · subst hji
    rw [Function.update_self] at hj ⊢
    cases hj
    rw [← List.length_append, htotal]
    show _ = logSize ((s.batches ++ s.flying.toList).take (s.batches ++ s.flying.toList).length)
    rw [List.take_length, logSize_append]
    rfl
  · rw [Function.update_of_ne hji] at hj ⊢
    exact h.offset j k hj

theorem Ok.appendCkpt (h : Ok s) : Ok { s with
    toSessions := s.toSessions.append (-1) .ckpt, totalOffset := s.totalOffset + logTotLen .ckpt } := by
  refine ⟨h.size, h.small, h.torn, h.logEnd, h.zeros, fun hup => ?_, h.flyingOff, h.offset, h.restart⟩
  have htotal := h.total hup
  show s.totalOffset + logTotLen .ckpt = logSize s.batches + logSize s.flying.toList +
    bufferSize (s.buffered ++ [_])
  simp only [bufferSize, List.map_append, List.sum_append] at htotal ⊢
  simp only [List.map_singleton, List.sum_singleton]
  omega

/-- The number in db.restart is the end of a batch. -/
theorem Ok.setRestart (h : Ok s) {restart : Option Nat} {restartOff : Option Int}
    (hre : restartOff = restart.map fun k => (logSize (s.batches.take k) : Int)) :
    Ok { s with toSessions := { s.toSessions with restart := restart }, restartOff := restartOff } :=
  ⟨h.size, h.small, h.torn, h.logEnd, h.zeros, h.total, h.flyingOff, h.offset, hre⟩

/-- The buffer becomes the batch being written, behind the last one. -/
theorem Ok.swap (h : Ok s) (hsh : s.toSessions.Shape) (hf : s.flying = none) (hb : s.buffered ≠ []) :
    Ok { s with
      toSessions := { s.toSessions with flying := some s.buffered, buffered := [] }
      flyingOff := s.totalOffset - bufferSize s.buffered, totalOffset := s.totalOffset + walBatchHdrSize } := by
  have hup : s.phase ≠ .down ∧ s.phase ≠ .analyzed := by
    refine not_or.1 fun hq => hb (hsh.quiet hq).2.1
  have htotal := h.total hup
  rw [hf] at htotal
  have htotal : s.totalOffset = logSize s.batches + bufferSize s.buffered := htotal
  refine ⟨h.size, h.small, h.torn, h.logEnd, h.zeros, fun _ => ?_, fun es hes => ?_, fun j k hj => ?_, h.restart⟩
  · show s.totalOffset + walBatchHdrSize = logSize s.batches + logSize [s.buffered] + bufferSize []
    rw [logSize_singleton, batchSize, htotal]
    simp only [bufferSize, List.map_nil, List.sum_nil]
    omega
  · show s.totalOffset - bufferSize s.buffered = logSize s.batches
    omega
  · have hle := hsh.offset j k hj
    have hoff := h.offset j k hj
    rw [hf] at hle hoff
    simp only [Option.toList_none, List.length_nil, Nat.add_zero, List.append_nil] at hle hoff
    show s.ckptOff j = logSize ((s.batches ++ [s.buffered]).take k)
    rw [List.take_append_of_le_length hle]
    exact hoff

/-- The file after a whole batch has been written behind the others. -/
theorem Ok.written {es : List Written} (h : Ok s) (hup : s.phase ≠ .down ∧ s.phase ≠ .analyzed)
    (hf : s.flying = some es) : writeLog s.file (frameOf es) s.flyingOff = logBytes (s.batches ++ [es]) ++
      List.replicate (ensuredCapacity s.capacity (logSize (s.batches ++ [es])) - logSize (s.batches ++ [es])) 0 := by
  obtain ⟨z, hz⟩ := h.zeros hup
  have hlen := logBytes_length s.batches
  have hcap : logSize s.batches + z = s.capacity := by
    rw [← h.size, hz, List.length_append, List.length_replicate, hlen]
  have hcat : logBytes (s.batches ++ [es]) = logBytes s.batches ++ frameOf es := by
    rw [logBytes, List.flatMap_append, List.flatMap_singleton]
    rfl
  rw [hz, h.flyingOff es hf, ← hlen, writeLog_zeros, frameOf_length, hlen, hcap, hcat, logSize_append,
    logSize_singleton]

theorem Ok.write {es : List Written} (h : Ok s) (hsh : s.toSessions.Shape) (hf : s.flying = some es) :
    Ok { s with
      toSessions := { s.toSessions with
        batches := s.batches ++ [es], flying := none, persisted := s.persisted + es.length
        capacity := ensuredCapacity s.capacity (logSize (s.batches ++ [es])) }
      file := writeLog s.file (frameOf es) s.flyingOff } := by
  have hup : s.phase ≠ .down ∧ s.phase ≠ .analyzed := by
    refine not_or.1 fun hq => ?_
    rw [(hsh.quiet hq).1] at hf
    cases hf
  have hwrite := h.written hup hf
  have hgrown := le_ensuredCapacity s.capacity (logSize (s.batches ++ [es]))
  refine ⟨?_, fun hq => absurd hq (not_or.2 hup), fun hq => absurd hq (not_or.2 hup), fun hq => absurd hq hup.2,
    fun _ => ⟨_, hwrite⟩, fun _ => ?_, fun es' hes => (by cases hes), fun j k hj => ?_, ?_⟩
  · show (writeLog s.file (frameOf es) s.flyingOff).length = _
    rw [hwrite, List.length_append, List.length_replicate, logBytes_length]
    show _ = ensuredCapacity s.capacity (logSize (s.batches ++ [es]))
    omega
  · have htotal := h.total hup
    rw [hf] at htotal
    show s.totalOffset = logSize (s.batches ++ [es]) + logSize [] + bufferSize s.buffered
    rw [htotal, Option.toList_some, logSize_append]
    rfl
  · have hoff := h.offset j k hj
    rw [hf] at hoff
    show s.ckptOff j = logSize ((s.batches ++ [es] ++ []).take k)
    rw [List.append_nil]
    exact hoff
  · show s.restartOff = s.restart.map fun k => (logSize ((s.batches ++ [es]).take k) : Int)
    rw [h.restart]
    cases hre : s.restart with
    | none => rfl
    | some k =>
        rw [Option.map_some, Option.map_some, List.take_append_of_le_length (hsh.restart k hre)]

/-- The server follows an orderly step of the sessions. -/
theorem Ok.step (h : Ok s) (hsh : s.toSessions.Shape) (ho : s.Orderly e)
    (hs : s.toSessions.step e = some t) : ∃ s', s.step e = some s' ∧ s'.toSessions = t ∧ Ok s' := by
  have hstep : ∀ s1, s.bytesAfter e = some s1 → s.step e = some { s1 with toSessions := t } := by
    intro s1 h1
    rw [Server.step, hs, Option.bind_some, h1, Option.map_some]
  have hmoved : ∀ {i off : Nat}, (s.ckpt i).offset? = some off → ∀ {c : CkptAt}, c.offset? = some off →
      ∀ k, c.offset? = some k → s.ckptOff i = logSize ((s.batches ++ s.flying.toList).take k) := by
    intro i off hc c hoff k hk
    rw [hoff] at hk
    cases hk
    exact h.offset i off hc
  cases Sessions.stepped hs with
  | analyze hd =>
      obtain ⟨a, ha, -, hend⟩ := h.scan hsh (.inl hd)
      exact ⟨_, hstep _ (by rw [bytesAfter, ha, Option.map_some]), rfl, h.analyze hd hend⟩
  | truncateLog ha => exact ⟨_, hstep _ rfl, rfl, h.truncateLog hsh ha⟩
  | serve hr h0 => exact ⟨_, hstep _ rfl, rfl, h.serve hr⟩
  | begin hr =>
      exact ⟨_, hstep _ rfl, rfl, h.size, h.small, h.torn, h.logEnd, h.zeros, h.total, h.flyingOff,
        h.offset, h.restart⟩
  | @log t' prevLsn record ht hr ha => exact ⟨_, hstep _ rfl, rfl, h.logTxn t' prevLsn record⟩
  | leave ha =>
      exact ⟨_, hstep _ rfl, rfl, h.size, h.small, h.torn, h.logEnd, h.zeros, h.total, h.flyingOff,
        h.offset, h.restart⟩
  | startCkpt hr hi => exact ⟨_, hstep _ rfl, rfl, h.setCkpt fun k hk => (by cases hk)⟩
  | @readOffset i n hc =>
      have h1 : s.bytesAfter (.ckpt i) = some { s with ckptOff := Function.update s.ckptOff i s.totalOffset } := by
        simp only [bytesAfter, hc]
      have hup := hsh.up (i := i) (by rw [hc]; simp)
      exact ⟨_, hstep _ h1, rfl, h.readOffset hup (ho (by rw [hc]; rfl))⟩
  | @logCkpt i off hc =>
      have h1 : s.bytesAfter (.ckpt i) = some { s with totalOffset := s.totalOffset + logTotLen .ckpt } := by
        simp only [bytesAfter, hc]
      exact ⟨_, hstep _ h1, rfl, h.appendCkpt.setCkpt (hmoved (by rw [hc]; rfl) rfl)⟩
  | @force i off hc =>
      have h1 : s.bytesAfter (.ckpt i) = some s := by
        simp only [bytesAfter, hc]
      exact ⟨_, hstep _ h1, rfl, h.setCkpt (hmoved (by rw [hc]; rfl) rfl)⟩
  | @truncate i off n hc hn =>
      have h1 : s.bytesAfter (.ckpt i) = some { s with restartOff := none } := by
        simp only [bytesAfter, hc]
      have hmove : Ok { s with toSessions := s.toSessions.setCkpt i (.truncated off) } :=
        h.setCkpt (hmoved (by rw [hc]; rfl) rfl)
      have hre := @Ok.setRestart _ hmove none none rfl
      exact ⟨_, hstep _ h1, rfl, hre⟩
  | @rewrite i off hc =>
      have h1 : s.bytesAfter (.ckpt i) = some { s with restartOff := some (s.ckptOff i : Int) } := by
        simp only [bytesAfter, hc]
      have hmove : Ok { s with toSessions := s.toSessions.setCkpt i .idle } := h.setCkpt fun k hk => (by cases hk)
      have hoff := h.offset i off (by rw [hc]; rfl)
      rw [List.take_append_of_le_length (hsh.truncated i off hc)] at hoff
      have hre := @Ok.setRestart _ hmove (some off) (some (s.ckptOff i : Int))
        (congrArg (fun n : Nat => some (n : Int)) hoff)
      exact ⟨_, hstep _ h1, rfl, hre⟩
  | swap hf hb => exact ⟨_, hstep _ rfl, rfl, h.swap hsh hf hb⟩
  | @write es hf =>
      have h1 : s.bytesAfter .write = some { s with file := writeLog s.file (frameOf es) s.flyingOff } := by
        simp only [bytesAfter, hf]
      exact ⟨_, hstep _ h1, rfl, h.write hsh hf⟩
  | @crash cut need hu hcut htorn =>
      by_cases hup : s.phase = .analyzed
      · have hf := (hsh.quiet (.inr hup)).1
        have hcrash : s.crashCapacity cut need = s.capacity := by
          rw [Sessions.crashCapacity, hf]
        have h1 : s.bytesAfter (.crash cut need) = some s := by
          simp only [bytesAfter, hf]
        refine ⟨_, hstep s h1, rfl, h.size.trans hcrash.symm, fun _ => ho.1,
          fun _ => h.torn (.inr hup), fun hq => (by cases hq), fun hq => absurd rfl hq.1,
          fun hq => absurd rfl hq.1, fun es hes => (by cases hes), fun j k hj => (by cases hj), h.restart⟩
      · obtain ⟨s1, hs1, hsize, hre, htorn⟩ := h.crash ⟨hu, hup⟩ htorn ho
        exact ⟨_, hstep s1 hs1, rfl, hsize, fun _ => ho.1, fun _ => htorn, fun hq => (by cases hq),
          fun hq => absurd rfl hq.1, fun hq => absurd rfl hq.1, fun es hes => (by cases hes),
          fun j k hj => (by cases hj), hre.trans h.restart⟩

end Server

/-! ## What `analyze` classifies as committed -/

/-- `committed_` after `handle_rec` has seen the records. -/
def committedTids (visited : List Bytes) : List (BitVec 64) :=
  (visited.filter fun r => getWord r 0 = 4).map fun r => getLong r offsetLogTid

/-- `redo_one` replays the record. -/
def Classified (visited : List Bytes) (r : Bytes) : Prop :=
  getLong r offsetLogTid ∈ committedTids visited

instance (visited : List Bytes) : DecidablePred (Classified visited) := fun r =>
  inferInstanceAs (Decidable (getLong r offsetLogTid ∈ committedTids visited))

theorem getWord_logType (e : Entry) : getWord e.serialize 0 = BitVec.ofNat 32 (logType e.record) := by
  unfold Entry.serialize
  rw [List.append_assoc, List.append_assoc, List.append_assoc, List.append_assoc]
  exact getWord_wordBytes _ _

theorem getLong_logTid (e : Entry) :
    getLong e.serialize offsetLogTid = BitVec.ofInt 64 (logTid e.record) := by
  have h12 : (Wal.u32Bytes (logType e.record) ++ Wal.i32Bytes e.lsn ++
      Wal.u32Bytes (logTotLen e.record)).length = 12 := rfl
  have hdrop : e.serialize.drop 12 =
      Wal.longBytes (BitVec.ofInt 64 (logTid e.record)) ++ (Wal.i32Bytes e.prevLsn ++ Wal.payload e.record) := by
    rw [← h12, Entry.serialize, List.append_assoc (_ ++ _ ++ _), List.append_assoc (_ ++ _ ++ _), List.drop_left]
    rfl
  have hlong := Wal.getLong_longBytes (BitVec.ofInt 64 (logTid e.record)) (Wal.i32Bytes e.prevLsn ++ Wal.payload e.record)
  rwa [← hdrop, Wal.getLong_drop] at hlong

theorem logTid_of_txn {l : LogRecord} {t : TxnId} (h : txn? l = some t) : logTid l = t := by
  cases l <;> cases h <;> rfl

theorem commit_of_logType {e : Entry} (h : getWord e.serialize 0 = 4) :
    ∃ t, e.record = .commit t := by
  rw [getWord_logType] at h
  cases hr : e.record <;> rw [hr] at h
  case commit t => exact ⟨t, rfl⟩
  all_goals
    simp only [logType] at h
    exact absurd h (by decide)

/-- In a log of one session the records of the ids in `committed_` are of transactions that did
commit. -/
theorem Sessions.Owned.classified {s : Sessions} (h : s.Owned) {k : Nat} (hone : OneSession (s.after k))
    {w : Written} (hw : w ∈ s.after k) {t : TxnId} (ht : w.txn? = some t)
    (hc : Classified ((s.after k).map fun w => w.entry.serialize) w.entry.serialize) :
    (w.session, t) ∈ s.committed := by
  have hsub : ∀ w ∈ s.after k, w ∈ s.records := by
    intro w hw
    obtain ⟨es, hes, hw⟩ := List.mem_flatten.1 hw
    exact List.mem_append_left _ (List.mem_flatten.2 ⟨es, List.mem_of_mem_drop hes, hw⟩)
  obtain ⟨r, hr, htid⟩ := List.mem_map.1 hc
  obtain ⟨hr, hcommit⟩ := List.mem_filter.1 hr
  obtain ⟨w', hw', rfl⟩ := List.mem_map.1 hr
  obtain ⟨t', ht'⟩ := commit_of_logType (of_decide_eq_true hcommit)
  have htxn : w'.txn? = some t' := by
    unfold Written.txn?
    rw [ht']
    rfl
  -- the ids agree on 64 bits, and fewer than 2^64 have been given out
  have hid : t' = t := by
    rw [getLong_logTid, getLong_logTid, logTid_of_txn ht, logTid_of_txn htxn, BitVec.ofInt_natCast,
      BitVec.ofInt_natCast] at htid
    have hlt := h.ids w (hsub w hw) t ht
    have hlt' := h.ids w' (hsub w' hw') t' htxn
    have := congrArg BitVec.toNat htid
    rwa [BitVec.toNat_ofNat, BitVec.toNat_ofNat, Nat.mod_eq_of_lt hlt', Nat.mod_eq_of_lt hlt] at this
  have hsession : w'.session = w.session := hone w' hw' w hw (by rw [htxn]; simp) (by rw [ht]; simp)
  have := h.commits w' (hsub w' hw') t' ht'
  rwa [hsession, hid] at this

/-! ## Runs -/

theorem run_server {events : List Event} {t : Sessions} (hc : Along Sessions.step Sessions.Orderly {} events)
    (hrun : run Sessions.step {} events = some t) :
    ∃ s : Server, run Server.step {} events = some s ∧ s.toSessions = t ∧ t.Shape ∧ s.Ok := by
  have hstep : ∀ (s : Server) (t : Sessions) e t', (s.toSessions = t ∧ t.Shape ∧ s.Ok) → t.Orderly e →
      t.step e = some t' → ∃ s', s.step e = some s' ∧ s'.toSessions = t' ∧ t'.Shape ∧ s'.Ok := by
    rintro s t e t' ⟨rfl, hsh, hok⟩ ho hs
    obtain ⟨s', hs', ht', hok'⟩ := hok.step hsh ho hs
    exact ⟨s', hs', ht', hsh.step hs, hok'⟩
  exact Lib.run_lift hstep events {} {} t ⟨rfl, Sessions.shape_init, Server.ok_init⟩ hc hrun

/-- After orderly steps the next `analyze` sees exactly the records after the offset. -/
theorem run_visited {events : List Event} {t : Sessions}
    (hc : Along Sessions.step Sessions.Orderly {} events) (hrun : run Sessions.step {} events = some t) :
    ∃ s : Server, run Server.step {} events = some s ∧ s.toSessions = t ∧ (t.phase = .down →
      ∃ a, analyzeScan (some s.file) s.restartOff = some a ∧
        a.visited = (t.after (t.restart.getD 0)).map fun w => w.entry.serialize) := by
  obtain ⟨s, hs, rfl, hsh, hok⟩ := run_server hc hrun
  refine ⟨s, hs, rfl, fun hd => ?_⟩
  obtain ⟨a, ha, hvisited, -⟩ := hok.scan hsh (.inl hd)
  exact ⟨a, ha, hvisited⟩

theorem run_owned {events : List Event} {t : Sessions}
    (hc : Along Sessions.step (fun s e => s.Orderly e ∧ s.Restartable e) {} events)
    (hrun : run Sessions.step {} events = some t) : t.Shape ∧ t.Owned := by
  refine Lib.run_invariant_along (I := fun s => s.Shape ∧ s.Owned) ?_ events {} t
    ⟨Sessions.shape_init, Sessions.owned_init⟩ hc hrun
  intro s e s' h hp hs
  exact ⟨h.1.step hs, h.2.step h.1 hp.1 hp.2 hs⟩

/-- After any sessions whose steps are orderly and whose crashes leave an offset in db.restart or
the log of one session: `analyze` reads the last records of the log, and those it classifies as
committed are of transactions that did commit in the session that wrote them. -/
theorem run_classified {events : List Event} {t : Sessions}
    (hc : Along Sessions.step (fun s e => s.Orderly e ∧ s.Restartable e) {} events)
    (hrun : run Sessions.step {} events = some t) :
    ∃ s : Server, run Server.step {} events = some s ∧ s.toSessions = t ∧ (t.phase = .down →
      ∃ a before after, analyzeScan (some s.file) s.restartOff = some a ∧
        t.batches.flatten = before ++ after ∧
        a.visited = after.map (fun w => w.entry.serialize) ∧
        ∀ w ∈ after, ∀ u, w.txn? = some u → Classified a.visited w.entry.serialize →
          (w.session, u) ∈ t.committed) := by
  obtain ⟨-, how⟩ := run_owned hc hrun
  have hc' : Along Sessions.step Sessions.Orderly {} events := 
    Along.mono (P := fun (s : Sessions) e => s.Orderly e ∧ s.Restartable e) (fun _ _ h => h.1) events _ hc
  obtain ⟨s, hs, ht, hvisited⟩ := run_visited hc' hrun
  refine ⟨s, hs, ht, fun hd => ?_⟩
  obtain ⟨a, ha, hv⟩ := hvisited hd
  refine ⟨a, (t.batches.take (t.restart.getD 0)).flatten, t.after (t.restart.getD 0), ha, ?_, hv, ?_⟩
  · unfold Sessions.after
    rw [← List.flatten_append, List.take_append_drop]
  · intro w hw u hu hcl
    rw [hv] at hcl
    exact how.classified (how.down (.inl hd)) hw hu hcl

/-- Recovery up to the truncation of db.restart. -/
def recoverToTruncate : List Event :=
  [.analyze, .truncateLog, .ckpt 0, .ckpt 0, .ckpt 0, .swap, .write, .ckpt 0]

/-- A session whose transaction 0 inserts a record, commits if `commits`, and is in the log when the
server crashes. -/
def sessionOf (value : UInt8) (commits : Bool) : List Event :=
  recoverToTruncate ++ [.ckpt 0, .serve, .begin, .log (-1) (.insert 0 ⟨"t", ⟨1, value.toNat⟩⟩ [value])] ++
    (if commits then [.log 1 (.commit 0)] else []) ++ [.swap, .write, .crash 0 0]

/-- The second session has the same transaction id, which it does not commit. -/
theorem run_classified_two_sessions : ∃ s : Server,
    run Server.step {} (sessionOf 7 true ++ sessionOf 8 false) = some s ∧ s.committed = [(1, 0)] ∧
      ∃ a before after, analyzeScan (some s.file) s.restartOff = some a ∧
        s.batches.flatten = before ++ after ∧ a.visited = after.map (fun w => w.entry.serialize) ∧
        ∀ w ∈ after, ∀ u, w.txn? = some u → Classified a.visited w.entry.serialize →
          (w.session, u) ∈ s.committed := by
  obtain ⟨t, ht⟩ : ∃ t, run Sessions.step {} (sessionOf 7 true ++ sessionOf 8 false) = some t :=
    Option.isSome_iff_exists.1 (by decide +kernel)
  have hfacts : (run Sessions.step {} (sessionOf 7 true ++ sessionOf 8 false)).all (fun t =>
      decide (t.phase = .down ∧ t.committed = [(1, 0)])) = true := by
    decide +kernel
  rw [ht] at hfacts
  obtain ⟨hd, hcommitted⟩ := of_decide_eq_true hfacts
  obtain ⟨s, hs, rfl, h⟩ := run_classified (by decide +kernel) ht
  exact ⟨s, hs, hcommitted, h hd⟩

/-- A third session crashes in the checkpoint of its recovery, when db.restart is truncated: the
next `analyze` reads the whole log, and takes the insert of the second session for committed. -/
theorem not_classified_truncated : ∃ s : Server,
    run Server.step {} (sessionOf 7 true ++ sessionOf 8 false ++ recoverToTruncate ++ [.crash 0 0]) =
        some s ∧
      ∃ a, analyzeScan (some s.file) s.restartOff = some a ∧ ∃ w ∈ s.batches.flatten,
        w.entry.serialize ∈ a.visited ∧ Classified a.visited w.entry.serialize ∧ w.txn? = some 0 ∧
          (w.session, 0) ∉ s.committed := by
  have hsome : (run Sessions.step {} (sessionOf 7 true ++ sessionOf 8 false ++ recoverToTruncate ++
      [.crash 0 0])).isSome := by
    decide +kernel
  obtain ⟨t, ht⟩ := Option.isSome_iff_exists.1 hsome
  have hfacts : (run Sessions.step {} (sessionOf 7 true ++ sessionOf 8 false ++ recoverToTruncate ++
      [.crash 0 0])).all (fun t => decide (t.phase = .down ∧ t.restart = none ∧
        ∃ w ∈ t.batches.flatten, Classified (t.batches.flatten.map fun w => w.entry.serialize)
          w.entry.serialize ∧ w.txn? = some 0 ∧ (w.session, 0) ∉ t.committed)) = true := by
    decide +kernel
  rw [ht] at hfacts
  obtain ⟨hd, hre, w, hw, hcl, htxn, hnot⟩ := of_decide_eq_true hfacts
  obtain ⟨s, hs, rfl, h⟩ := run_visited (by decide +kernel) ht
  obtain ⟨a, ha, hv⟩ := h hd
  have hall : s.after (s.restart.getD 0) = s.batches.flatten := by
    rw [hre]
    rfl
  rw [hall] at hv
  refine ⟨s, hs, a, ha, w, hw, ?_, ?_, htxn, hnot⟩
  · rw [hv]
    exact List.mem_map_of_mem hw
  · rw [hv]
    exact hcl

end Rmdb.Recovery
