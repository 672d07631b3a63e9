import Rmdb.Recovery.Sessions

/-!
# Whose records the next `analyze` reads

While the steps are orderly, an offset that a checkpoint has read or that db.restart holds is
the end of a complete batch (`Shape`).  As long as no crash leaves an empty db.restart behind
the logs of two sessions, everything after the offset is of one session (`Owned`).
-/

namespace Rmdb.Recovery

open Rmdb.Txn
open Rmdb.Wal (toInt32)

namespace Sessions

variable {s s' : Sessions} {e : Event} {i j k n : Nat} {c c' : CkptAt} {t : TxnId}

/-- The checkpoint of thread `j` after the one of thread `i` has moved to `c`. -/
theorem setCkpt_ckpt (h : (s.setCkpt i c).ckpt j = c') : (j = i ∧ c' = c) ∨ s.ckpt j = c' := by
  have h : Function.update s.ckpt i c j = c' := h
  by_cases hj : j = i
  · subst hj
    left
    rw [Function.update_self] at h
    exact ⟨rfl, h.symm⟩
  · right
    rwa [Function.update_of_ne hj] at h

theorem setCkpt_offset (h : ((s.setCkpt i c).ckpt j).offset? = some k) :
    (j = i ∧ c.offset? = some k) ∨ (s.ckpt j).offset? = some k := by
  obtain ⟨hj, hc⟩ | hc := setCkpt_ckpt (s := s) (i := i) (c := c) (j := j) rfl
  · left
    rw [hc] at h
    exact ⟨hj, h⟩
  · right
    rwa [hc]

/-! ## Offsets are ends of batches -/

structure Shape (s : Sessions) : Prop where
  quiet : s.phase = .down ∨ s.phase = .analyzed →
    s.flying = none ∧ s.buffered = [] ∧ s.appended = 0 ∧ s.persisted = 0 ∧ ∀ i, s.ckpt i = .idle
  nonempty : ∀ es ∈ s.batches ++ s.flying.toList, es ≠ []
  count : s.appended = s.persisted + (s.flying.getD []).length + s.buffered.length
  offset : ∀ i k, (s.ckpt i).offset? = some k → k ≤ s.batches.length + s.flying.toList.length
  forcing : ∀ i k n, s.ckpt i = .forcing k n → k ≤ s.batches.length ∨ s.persisted < n
  truncated : ∀ i k, s.ckpt i = .truncated k → k ≤ s.batches.length
  restart : ∀ k, s.restart = some k → k ≤ s.batches.length

theorem shape_init : Shape {} where
  quiet := fun _ => ⟨rfl, rfl, rfl, rfl, fun _ => rfl⟩
  nonempty := fun es h => (by cases h)
  count := rfl
  offset := fun i k h => (by cases h)
  forcing := fun i k n h => (by cases h)
  truncated := fun i k h => (by cases h)
  restart := fun k h => (by cases h)

theorem Shape.append (h : Shape s) (hup : s.phase ≠ .down ∧ s.phase ≠ .analyzed) (prevLsn : Int)
    (record : LogRecord) : Shape (s.append prevLsn record) where
  quiet := fun hq => absurd hq (not_or.2 hup)
  nonempty := h.nonempty
  count := by
    have := h.count
    simp only [Sessions.append, List.length_append, List.length_singleton]
    omega
  offset := h.offset
  forcing := h.forcing
  truncated := h.truncated
  restart := h.restart

/-- A step of a checkpoint that only moves it. -/
theorem Shape.setCkpt (h : Shape s) (hup : s.phase ≠ .down ∧ s.phase ≠ .analyzed)
    (hoff : ∀ k, c.offset? = some k → k ≤ s.batches.length + s.flying.toList.length)
    (hforce : ∀ k n, c = .forcing k n → k ≤ s.batches.length ∨ s.persisted < n)
    (htrunc : ∀ k, c = .truncated k → k ≤ s.batches.length) : Shape (s.setCkpt i c) where
  quiet := fun hq => absurd hq (not_or.2 hup)
  nonempty := h.nonempty
  count := h.count
  offset := by
    intro j k hj
    rcases setCkpt_offset hj with ⟨-, hc⟩ | hc
    · exact hoff k hc
    · exact h.offset j k hc
  forcing := by
    intro j k n hj
    rcases setCkpt_ckpt hj with ⟨-, hc⟩ | hc
    · exact hforce k n hc.symm
    · exact h.forcing j k n hc
  truncated := by
    intro j k hj
    rcases setCkpt_ckpt hj with ⟨-, hc⟩ | hc
    · exact htrunc k hc.symm
    · exact h.truncated j k hc
  restart := h.restart

/-- While a checkpoint is under way the server is up. -/
theorem Shape.up (h : Shape s) (hi : s.ckpt i ≠ .idle) : s.phase ≠ .down ∧ s.phase ≠ .analyzed := by
  by_contra hup
  have hq : s.phase = .down ∨ s.phase = .analyzed := by
    rcases Decidable.not_and_iff_or_not.1 hup with hd | ha
    · exact .inl (not_not.1 hd)
    · exact .inr (not_not.1 ha)
  exact hi ((h.quiet hq).2.2.2.2 i)

/-- The batch being written, or a record in the buffer, was appended in this session. -/
theorem Shape.persisted_lt {es : List Written} (h : Shape s) (hf : s.flying = some es) :
    s.persisted < s.appended := by
  have hne : es ≠ [] := h.nonempty es (by
    rw [hf]
    exact List.mem_append_right _ (List.mem_singleton_self es))
  have hpos := List.length_pos_iff.2 hne
  have hcount := h.count
  rw [hf, Option.getD_some] at hcount
  omega

theorem Shape.truncateLog (h : Shape s) :
    Shape ({ s with phase := .recovering, capacity := logSize s.batches }.setCkpt 0 (.flushing 0)) := by
  have h' : Shape { s with phase := .recovering, capacity := logSize s.batches } := by
    refine ⟨fun hq => ?_, h.nonempty, h.count, h.offset, h.forcing, h.truncated, h.restart⟩
    rcases hq with hq | hq <;> cases hq
  exact h'.setCkpt ⟨fun hc => (by cases hc), fun hc => (by cases hc)⟩ (fun k hk => (by cases hk))
    (fun k n hk => (by cases hk)) (fun k hk => (by cases hk))

theorem Shape.logTxn (h : Shape s) (hr : s.phase = .running) (t : TxnId) (prevLsn : Int) (record : LogRecord) :
    Shape (s.logTxn t prevLsn record) := by
  have hup : s.phase ≠ .down ∧ s.phase ≠ .analyzed := by
    rw [hr]
    exact ⟨fun h => (by cases h), fun h => (by cases h)⟩
  have h' := h.append hup prevLsn record
  unfold Sessions.logTxn
  dsimp only
  split
  all_goals exact ⟨h'.quiet, h'.nonempty, h'.count, h'.offset, h'.forcing, h'.truncated, h'.restart⟩

/-- The checkpoint waits for what is buffered; a batch in flight is not persisted yet. -/
theorem Shape.force {off : Nat} (h : Shape s) (hc : s.ckpt i = .logged off) :
    Shape (s.setCkpt i (.forcing off s.appended)) := by
  have hoff := h.offset i off (by rw [hc]; rfl)
  refine h.setCkpt (h.up (i := i) (by rw [hc]; simp)) (fun k hk => ?_) (fun k n hk => ?_)
    (fun k hk => (by cases hk))
  · cases hk
    exact hoff
  · cases hk
    cases hf : s.flying with
    | none =>
        rw [hf] at hoff
        exact .inl hoff
    | some es => exact .inr (h.persisted_lt hf)

/-- What the checkpoint waited for is persisted, so that its offset is the end of a complete batch. -/
theorem Shape.truncateRestart {off : Nat} (h : Shape s) (hc : s.ckpt i = .forcing off n) (hn : n ≤ s.persisted) :
    Shape { s.setCkpt i (.truncated off) with restart := none } := by
  have hle : off ≤ s.batches.length := by
    rcases h.forcing i off n hc with hle | hlt
    · exact hle
    · omega
  have h' := h.setCkpt (i := i) (c := .truncated off) (h.up (i := i) (by rw [hc]; simp))
    (fun k hk => (by cases hk; omega)) (fun k n hk => (by cases hk)) (fun k hk => (by cases hk; exact hle))
  exact ⟨h'.quiet, h'.nonempty, h'.count, h'.offset, h'.forcing, h'.truncated, fun k hk => (by cases hk)⟩

theorem Shape.rewrite {off : Nat} (h : Shape s) (hc : s.ckpt i = .truncated off) :
    Shape { s.setCkpt i .idle with restart := some off } := by
  have h' := h.setCkpt (i := i) (c := .idle) (h.up (i := i) (by rw [hc]; simp))
    (fun k hk => (by cases hk)) (fun k n hk => (by cases hk)) (fun k hk => (by cases hk))
  refine ⟨h'.quiet, h'.nonempty, h'.count, h'.offset, h'.forcing, h'.truncated, fun k hk => ?_⟩
  cases hk
  exact h.truncated i off hc

theorem Shape.swap (h : Shape s) (hf : s.flying = none) (hb : s.buffered ≠ []) :
    Shape { s with flying := some s.buffered, buffered := [] } := by
  refine ⟨fun hq => absurd (h.quiet hq).2.1 hb, ?_, ?_, fun j k hj => ?_, h.forcing, h.truncated, h.restart⟩
  · intro es hes
    rcases List.mem_append.1 hes with hes | hes
    · exact h.nonempty es (List.mem_append_left _ hes)
    · rw [List.mem_singleton.1 hes]
      exact hb
  · have hcount := h.count
    rw [hf] at hcount
    simpa using hcount
  · have hle := h.offset j k hj
    rw [hf] at hle
    exact Nat.le_succ_of_le hle

/-- The batch that was being written is complete. -/
theorem Shape.write {es : List Written} {capacity : Nat} (h : Shape s) (hf : s.flying = some es) :
    Shape { s with
      batches := s.batches ++ [es], flying := none, persisted := s.persisted + es.length, capacity := capacity } := by
  have hlen : (s.batches ++ [es]).length = s.batches.length + 1 := List.length_append
  refine ⟨fun hq => absurd (hf.symm.trans (h.quiet hq).1) (fun h => (by cases h)), ?_, ?_,
    fun j k hj => ?_, fun j k n hj => ?_, fun j k hj => ?_, fun k hk => ?_⟩
  · intro es' hes
    refine h.nonempty es' ?_
    rw [hf]
    simpa using hes
  · have hcount := h.count
    rw [hf] at hcount
    simpa using hcount
  · have hle := h.offset j k hj
    rw [hf] at hle
    rw [hlen]
    exact hle
  · have hle := h.offset j k (by rw [show s.ckpt j = _ from hj]; rfl)
    rw [hf] at hle
    left
    rw [hlen]
    exact hle
  · rw [hlen]
    exact Nat.le_succ_of_le (h.truncated j k hj)
  · rw [hlen]
    exact Nat.le_succ_of_le (h.restart k hk)

theorem Shape.crash (h : Shape s) (capacity : Nat) : Shape (s.crashed capacity) := by
  refine ⟨fun _ => ⟨rfl, rfl, rfl, rfl, fun _ => rfl⟩, fun es hes => ?_, rfl, fun i k h => (by cases h),
    fun i k n h => (by cases h), fun i k h => (by cases h), h.restart⟩
  refine h.nonempty es (List.mem_append_left _ ?_)
  simpa [crashed] using hes

theorem Shape.step (h : Shape s) (hs : s.step e = some s') : Shape s' := by
  cases stepped hs with
  | analyze hd =>
      exact ⟨fun _ => h.quiet (.inl hd), h.nonempty, h.count, h.offset, h.forcing, h.truncated, h.restart⟩
  | truncateLog ha => exact h.truncateLog
  | serve hr h0 =>
      refine ⟨fun hq => ?_, h.nonempty, h.count, h.offset, h.forcing, h.truncated, h.restart⟩
      rcases hq with hq | hq <;> cases hq
  | begin hr => exact ⟨h.quiet, h.nonempty, h.count, h.offset, h.forcing, h.truncated, h.restart⟩
  | log ht hr ha => exact h.logTxn hr _ _ _
  | leave ha => exact ⟨h.quiet, h.nonempty, h.count, h.offset, h.forcing, h.truncated, h.restart⟩
  | startCkpt hr hi =>
      refine h.setCkpt ?_ (fun k hk => (by cases hk)) (fun k n hk => (by cases hk))
        (fun k hk => (by cases hk))
      rw [hr]
      exact ⟨fun h => (by cases h), fun h => (by cases h)⟩
  | readOffset hc =>
      refine h.setCkpt (h.up (by rw [hc]; simp)) (fun k hk => ?_) (fun k n hk => (by cases hk))
        (fun k hk => (by cases hk))
      cases hk
      exact Nat.le_refl _
  | @logCkpt i off hc =>
      have hup := h.up (i := i) (by rw [hc]; simp)
      refine (h.append hup (-1) .ckpt).setCkpt hup (fun k hk => ?_) (fun k n hk => (by cases hk))
        (fun k hk => (by cases hk))
      cases hk
      exact h.offset i off (by rw [hc]; rfl)
  | force hc => exact h.force hc
  | truncate hc hn => exact h.truncateRestart hc hn
  | rewrite hc => exact h.rewrite hc
  | swap hf hb => exact h.swap hf hb
  | write hf => exact h.write hf
  | crash hu hcut ht => exact h.crash _

/-! ## Whose records follow an offset -/

/-- All records handed to the log that no crash has lost. -/
def records (s : Sessions) : List Written := s.batches.flatten ++ (s.flying.getD [] ++ s.buffered)

/-- The records of the complete batches after an offset. -/
def after (s : Sessions) (off : Nat) : List Written := (s.batches.drop off).flatten

/-- The transactions with a complete record after the offset are of this session. -/
def Own (s : Sessions) (off : Nat) : Prop := ∀ w ∈ s.after off, w.txn? ≠ none → w.session = s.session

theorem Own.oneSession (h : s.Own k) : OneSession (s.after k) :=
  fun w hw w' hw' ht ht' => (h w hw ht).trans (h w' hw' ht').symm

structure Owned (s : Sessions) : Prop where
  ids : ∀ w ∈ s.records, ∀ t, w.txn? = some t → t < 2 ^ 64
  active : ∀ t ∈ s.active, t < 2 ^ 64
  commits : ∀ w ∈ s.records, ∀ t, w.entry.record = .commit t → (w.session, t) ∈ s.committed
  current : ∀ w ∈ s.flying.getD [] ++ s.buffered,
    w.session = s.session ∧ (s.phase = .recovering → w.txn? = none)
  others : s.phase = .recovering → ∀ i, i ≠ 0 → s.ckpt i = .idle
  offset : ∀ i k, (s.ckpt i).offset? = some k → s.Own k
  running : s.phase = .running → ∀ k, s.restart = some k → s.Own k
  recovering : s.phase = .recovering → ∀ k, s.restart = some k → OneSession (s.after k)
  recovered : s.phase = .recovering → s.ckpt 0 = .idle → ∃ k, s.restart = some k ∧ s.Own k
  down : s.phase = .down ∨ s.phase = .analyzed → OneSession (s.after (s.restart.getD 0))

theorem owned_init : Owned {} where
  ids := fun w h => (by cases h)
  active := fun t h => (by cases h)
  commits := fun w h => (by cases h)
  current := fun w h => (by cases h)
  others := fun h => (by cases h)
  offset := fun i k h => (by cases h)
  running := fun h => (by cases h)
  recovering := fun h => (by cases h)
  recovered := fun h => (by cases h)
  down := fun _ w h => (by cases h)

theorem records_append (s : Sessions) (prevLsn : Int) (record : LogRecord) :
    (s.append prevLsn record).records =
      s.records ++ [⟨s.session, toInt32 s.appended, prevLsn, record⟩] := by
  unfold records append
  rw [List.append_assoc, List.append_assoc]

theorem Owned.append (h : Owned s) (prevLsn : Int) (record : LogRecord)
    (hid : ∀ t, Recovery.txn? record = some t → t < 2 ^ 64)
    (hcommit : ∀ t, record = .commit t → (s.session, t) ∈ s.committed)
    (hrec : s.phase = .recovering → Recovery.txn? record = none) :
    Owned (s.append prevLsn record) where
  ids := by
    intro w hw t ht
    rw [records_append] at hw
    rcases List.mem_append.1 hw with hw | hw
    · exact h.ids w hw t ht
    · rw [List.mem_singleton.1 hw] at ht
      exact hid t ht
  active := h.active
  commits := by
    intro w hw t ht
    rw [records_append] at hw
    rcases List.mem_append.1 hw with hw | hw
    · exact h.commits w hw t ht
    · rw [List.mem_singleton.1 hw] at ht ⊢
      exact hcommit t ht
  current := by
    intro w hw
    have hw : w ∈ s.flying.getD [] ++ (s.buffered ++ [⟨s.session, toInt32 s.appended, prevLsn, record⟩]) := hw
    rw [← List.append_assoc] at hw
    rcases List.mem_append.1 hw with hw | hw
    · exact h.current w hw
    · rw [List.mem_singleton.1 hw]
      exact ⟨rfl, hrec⟩
  others := h.others
  offset := h.offset
  running := h.running
  recovering := h.recovering
  recovered := h.recovered
  down := h.down

theorem Owned.logTxn (h : Owned s) {prevLsn : Int} {record : LogRecord}
    (ht : Recovery.txn? record = some t) (hr : s.phase = .running) (ha : t ∈ s.active) :
    Owned (s.logTxn t prevLsn record) := by
  have hid : ∀ t', Recovery.txn? record = some t' → t' < 2 ^ 64 := by
    intro t' ht'
    rw [ht] at ht'
    cases ht'
    exact h.active t ha
  have hrec : s.phase = .recovering → Recovery.txn? record = none := by
    intro hp
    rw [hr] at hp
    cases hp
  have hactive : ∀ t' ∈ s.active.erase t, t' < 2 ^ 64 := fun t' ht' =>
    h.active t' (List.mem_of_mem_erase ht')
  unfold Sessions.logTxn
  dsimp only
  split
  · -- the commit is noted before its record is appended
    rename_i t'
    have htt : t' = t := Option.some.inj ht
    subst htt
    have h1 : Owned { s with active := s.active.erase t', committed := (s.session, t') :: s.committed } :=
      ⟨h.ids, hactive, fun w hw u hu => List.mem_cons_of_mem _ (h.commits w hw u hu), h.current, h.others,
        h.offset, h.running, h.recovering, h.recovered, h.down⟩
    refine h1.append prevLsn (.commit t') hid (fun u hu => ?_) hrec
    cases hu
    exact List.mem_cons_self
  · rename_i t'
    have h1 : Owned { s with active := s.active.erase t } :=
      ⟨h.ids, hactive, h.commits, h.current, h.others, h.offset, h.running, h.recovering, h.recovered,
        h.down⟩
    exact h1.append prevLsn (.abort t') hid (fun u hu => (by cases hu)) hrec
  · rename_i hcommit _
    exact h.append prevLsn record hid (fun u hu => absurd hu (hcommit u)) hrec

/-- A checkpoint moves, to an offset with only records of this session behind it. -/
theorem Owned.setCkpt (h : Owned s) (hoff : ∀ k, c.offset? = some k → s.Own k)
    (hothers : s.phase = .recovering → i = 0)
    (hidle : s.phase = .recovering → c = .idle → ∃ k, s.restart = some k ∧ s.Own k) :
    Owned (s.setCkpt i c) where
  ids := h.ids
  active := h.active
  commits := h.commits
  current := h.current
  others := by
    intro hp j hj
    rcases setCkpt_ckpt (s := s) (i := i) (c := c) (j := j) rfl with ⟨hji, -⟩ | hc
    · exact absurd (hji.trans (hothers hp)) hj
    · rw [← hc]
      exact h.others hp j hj
  offset := by
    intro j k hj
    rcases setCkpt_offset hj with ⟨-, hc⟩ | hc
    · exact hoff k hc
    · exact h.offset j k hc
  running := h.running
  recovering := h.recovering
  recovered := by
    intro hp h0
    rcases setCkpt_ckpt h0 with ⟨-, hc⟩ | hc
    · exact hidle hp hc.symm
    · exact h.recovered hp hc
  down := h.down

/-- While it recovers only the server itself takes a checkpoint. -/
theorem Owned.thread (h : Owned s) (hi : s.ckpt i ≠ .idle) (hp : s.phase = .recovering) : i = 0 := by
  by_contra hne
  exact hi (h.others hp i hne)

/-- A complete batch of this session is appended to the log. -/
theorem Owned.after_write {es : List Written} (h : Owned s) (hf : s.flying = some es) {w : Written}
    (hw : w ∈ ((s.batches ++ [es]).drop k).flatten) :
    w ∈ s.after k ∨ (w.session = s.session ∧ (s.phase = .recovering → w.txn? = none)) := by
  rw [List.drop_append, List.flatten_append, List.mem_append] at hw
  rcases hw with hw | hw
  · exact .inl hw
  · right
    obtain ⟨l, hl, hw⟩ := List.mem_flatten.1 hw
    have hes := List.mem_singleton.1 (List.mem_of_mem_drop hl)
    refine h.current w (List.mem_append_left _ ?_)
    rw [hf, Option.getD_some, ← hes]
    exact hw

/-! ## What each step keeps of it -/

theorem Owned.analyze (h : Owned s) (hsh : Shape s) (hd : s.phase = .down) :
    Owned { s with session := s.session + 1, phase := .analyzed } := by
  obtain ⟨hf, hb, -, -, hidle⟩ := hsh.quiet (.inl hd)
  refine ⟨h.ids, h.active, h.commits, fun w hw => ?_, fun hp => (by cases hp), fun j k hj => ?_,
    fun hp => (by cases hp), fun hp => (by cases hp), fun hp => (by cases hp), fun _ => h.down (.inl hd)⟩
  · rw [hf, hb] at hw
    cases hw
  · rw [hidle j] at hj
    cases hj

/-- Recovery begins: the server's own checkpoint is the only one. -/
theorem Owned.truncateLog (h : Owned s) (hsh : Shape s) (ha : s.phase = .analyzed) :
    Owned ({ s with phase := .recovering, capacity := logSize s.batches }.setCkpt 0 (.flushing 0)) := by
  obtain ⟨hf, hb, -, -, hidle⟩ := hsh.quiet (.inr ha)
  have hone := h.down (.inr ha)
  refine ⟨h.ids, h.active, h.commits, fun w hw => ?_, fun _ j hj => ?_, fun j k hj => ?_,
    fun hp => (by cases hp), fun _ k hk => ?_, fun _ h0 => ?_, fun hq => ?_⟩
  · have hw : w ∈ s.flying.getD [] ++ s.buffered := hw
    rw [hf, hb] at hw
    cases hw
  · show Function.update s.ckpt 0 (.flushing 0) j = .idle
    rw [Function.update_of_ne hj]
    exact hidle j
  · rcases setCkpt_offset hj with ⟨-, hc⟩ | hc
    · cases hc
    · have hc : (s.ckpt j).offset? = some k := hc
      rw [hidle j] at hc
      cases hc
  · have hk : s.restart = some k := hk
    rw [hk] at hone
    exact hone
  · have h0 : Function.update s.ckpt 0 (.flushing 0) 0 = .idle := h0
    rw [Function.update_self] at h0
    cases h0
  · rcases hq with hq | hq <;> cases hq

theorem Owned.serve (h : Owned s) (hp : s.phase = .recovering) (h0 : s.ckpt 0 = .idle) :
    Owned { s with phase := .running } := by
  obtain ⟨k, hk, hown⟩ := h.recovered hp h0
  refine ⟨h.ids, h.active, h.commits, fun w hw => ⟨(h.current w hw).1, fun hp => (by cases hp)⟩,
    fun hp => (by cases hp), h.offset, fun _ k' hk' => ?_, fun hp => (by cases hp),
    fun hp => (by cases hp), fun hq => ?_⟩
  · have hk' : s.restart = some k' := hk'
    rw [hk] at hk'
    cases hk'
    exact hown
  · rcases hq with hq | hq <;> cases hq

/-- db.restart is emptied: nothing is asked of it until a crash. -/
theorem Owned.truncateRestart {off : Nat} (h : Owned s) (hsh : Shape s) (hc : s.ckpt i = .forcing off n) :
    Owned { s.setCkpt i (.truncated off) with restart := none } := by
  have hup := hsh.up (i := i) (by rw [hc]; simp)
  have hthread := h.thread (i := i) (by rw [hc]; simp)
  have hoff : ∀ k, (CkptAt.truncated off).offset? = some k → s.Own k := by
    intro k hk
    cases hk
    exact h.offset i off (by rw [hc]; rfl)
  have h' := h.setCkpt hoff hthread (fun _ hc => (by cases hc))
  refine ⟨h'.ids, h'.active, h'.commits, h'.current, h'.others, h'.offset, fun _ k hk => (by cases hk),
    fun _ k hk => (by cases hk), fun hp h0 => ?_, fun hq => ?_⟩
  · have h0 : Function.update s.ckpt i (.truncated off) 0 = .idle := h0
    rw [hthread hp, Function.update_self] at h0
    cases h0
  · exact absurd hq (not_or.2 hup)

/-- The offset of the checkpoint goes to db.restart. -/
theorem Owned.rewrite {off : Nat} (h : Owned s) (hsh : Shape s) (hc : s.ckpt i = .truncated off) :
    Owned { s.setCkpt i .idle with restart := some off } := by
  have hown : s.Own off := h.offset i off (by rw [hc]; rfl)
  have hup := hsh.up (i := i) (by rw [hc]; simp)
  have hthread := h.thread (i := i) (by rw [hc]; simp)
  refine ⟨h.ids, h.active, h.commits, h.current, fun hp j hj => ?_, fun j k hj => ?_,
    fun _ k hk => ?_, fun _ k hk => ?_, fun _ _ => ⟨off, rfl, hown⟩, fun hq => ?_⟩
  · show Function.update s.ckpt i .idle j = .idle
    rw [hthread hp, Function.update_of_ne hj]
    exact h.others hp j hj
  · rcases setCkpt_offset hj with ⟨-, hc⟩ | hc
    · cases hc
    · exact h.offset j k hc
  · cases hk
    exact hown
  · cases hk
    exact hown.oneSession
  · exact absurd hq (not_or.2 hup)

theorem Owned.swap (h : Owned s) (hf : s.flying = none) :
    Owned { s with flying := some s.buffered, buffered := [] } := by
  have hswap : ({ s with flying := some s.buffered, buffered := [] } : Sessions).records = s.records := by
    have hrecords : s.records = s.batches.flatten ++ s.buffered := by
      rw [records, hf]
      rfl
    rw [hrecords]
    simp [records]
  refine ⟨hswap ▸ h.ids, h.active, hswap ▸ h.commits, fun w hw => h.current w ?_, h.others, h.offset,
    h.running, h.recovering, h.recovered, h.down⟩
  rw [hf]
  simpa using hw

/-- The batch that was being written is complete. -/
theorem Owned.write {es : List Written} {capacity : Nat} (h : Owned s) (hsh : Shape s) (hf : s.flying = some es) :
    Owned { s with
      batches := s.batches ++ [es], flying := none, persisted := s.persisted + es.length, capacity := capacity } := by
  have hrecords : ∀ w ∈ (s.batches ++ [es]).flatten ++ s.buffered, w ∈ s.records := by
    intro w hw
    rw [records, hf]
    simpa [or_assoc] using hw
  have hown : ∀ k, s.Own k → ∀ w ∈ ((s.batches ++ [es]).drop k).flatten, w.txn? ≠ none →
      w.session = s.session := by
    intro k hown w hw ht
    rcases h.after_write hf hw with hw | hw
    · exact hown w hw ht
    · exact hw.1
  refine ⟨fun w hw => h.ids w (hrecords w hw), h.active, fun w hw => h.commits w (hrecords w hw),
    fun w hw => h.current w (List.mem_append_right _ hw), h.others, fun j k hj => hown k (h.offset j k hj),
    fun hp k hk => hown k (h.running hp k hk), fun hp k hk w hw w' hw' ht ht' => ?_, fun hp h0 => ?_, fun hq => ?_⟩
  · rcases h.after_write hf hw with hw | hw
    · rcases h.after_write hf hw' with hw' | hw'
      · exact h.recovering hp k hk w hw w' hw' ht ht'
      · exact absurd (hw'.2 hp) ht'
    · exact absurd (hw.2 hp) ht
  · obtain ⟨k, hk, hk'⟩ := h.recovered hp h0
    exact ⟨k, hk, hown k hk'⟩
  · exact absurd (hf.symm.trans (hsh.quiet hq).1) (fun h => (by cases h))

/-- A crash that can be restarted from. -/
theorem Owned.crash {cut need capacity : Nat} (h : Owned s) (hr : s.Restartable (.crash cut need))
    (hu : s.phase ≠ .down) : Owned (s.crashed capacity) := by
  have hrecords : ∀ w ∈ s.batches.flatten ++ [], w ∈ s.records := fun w hw =>
    List.mem_append_left _ (by simpa using hw)
  refine ⟨fun w hw => h.ids w (hrecords w hw), fun t ht => (by cases ht),
    fun w hw => h.commits w (hrecords w hw), fun w hw => (by cases hw), fun hp => (by cases hp),
    fun i k hk => (by cases hk), fun hp => (by cases hp), fun hp => (by cases hp),
    fun hp => (by cases hp), fun _ => ?_⟩
  show OneSession ((s.batches.drop (s.restart.getD 0)).flatten)
  cases hk : s.restart with
  | none => exact hr hk
  | some k =>
      cases hp : s.phase with
      | down => exact absurd hp hu
      | analyzed =>
          have hone := h.down (.inr hp)
          rwa [hk] at hone
      | recovering => exact h.recovering hp k hk
      | running => exact (h.running hp k hk).oneSession

theorem Owned.step (h : Owned s) (hsh : Shape s) (ho : s.Orderly e) (hr : s.Restartable e)
    (hs : s.step e = some s') : Owned s' := by
  cases stepped hs with
  | analyze hd => exact h.analyze hsh hd
  | truncateLog ha => exact h.truncateLog hsh ha
  | serve hp h0 => exact h.serve hp h0
  | begin hp =>
      refine ⟨h.ids, fun t ht => ?_, h.commits, h.current, h.others, h.offset, h.running, h.recovering,
        h.recovered, h.down⟩
      rcases List.mem_cons.1 ht with rfl | ht
      · exact ho
      · exact h.active t ht
  | log ht hp ha => exact h.logTxn ht hp ha
  | leave ha =>
      exact ⟨h.ids, fun t ht => h.active t (List.mem_of_mem_erase ht), h.commits, h.current, h.others,
        h.offset, h.running, h.recovering, h.recovered, h.down⟩
  | startCkpt hp hi =>
      refine h.setCkpt (fun k hk => (by cases hk)) (fun hp' => ?_) (fun _ hc => (by cases hc))
      rw [hp] at hp'
      cases hp'
  | readOffset hc =>
      refine h.setCkpt (fun k hk => ?_) (h.thread (by rw [hc]; simp)) (fun _ hc => (by cases hc))
      cases hk
      intro w hw
      rw [after, List.drop_eq_nil_of_le (Nat.le_add_right _ _)] at hw
      cases hw
  | @logCkpt i off hc =>
      refine (h.append (-1) .ckpt (fun t ht => (by cases ht)) (fun t ht => (by cases ht))
        (fun _ => rfl)).setCkpt (fun k hk => ?_) (h.thread (by rw [hc]; simp)) (fun _ hc => (by cases hc))
      cases hk
      exact h.offset i off (by rw [hc]; rfl)
  | @force i off hc =>
      refine h.setCkpt (fun k hk => ?_) (h.thread (by rw [hc]; simp)) (fun _ hc => (by cases hc))
      cases hk
      exact h.offset i off (by rw [hc]; rfl)
  | truncate hc hn => exact h.truncateRestart hsh hc
  | rewrite hc => exact h.rewrite hsh hc
  | swap hf hb => exact h.swap hf
  | write hf => exact h.write hsh hf
  | crash hu hcut htorn => exact h.crash hr hu

end Sessions
end Rmdb.Recovery
