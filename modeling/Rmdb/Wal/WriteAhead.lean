import Rmdb.Wal.Pages

/-!
# The write-ahead rule

Every write-back waits for the log number it read before it writes.  So a page on the disk has
only changes with a durable log record, as long as every change in the written image was logged
before the write-back read that number.  The statements that change a page before they log the
change do not ensure this.
-/

namespace Rmdb.Wal

open Rmdb.Txn
open Rmdb.Lib (run Along run_invariant_along)
open LogManager (Waits Synced starts)

variable {disk : Bytes} {s s' : Pool} {i : Nat} {p : PageId} {n : Int}

namespace Pool

/-- Every change of the image is logged. -/
def Logged (s : Pool) (img : Image) : Prop := ∀ c ∈ img, ∃ x ∈ s.records, x.1 = c

/-- Every change of the image is logged with a number up to `n`. -/
def LoggedTo (s : Pool) (n : Int) (img : Image) : Prop :=
  ∀ c ∈ img, ∃ x ∈ s.records, x.1 = c ∧ x.2.lsn ≤ n

/-- The changes in the image of a write-back were logged before it reads the number it waits for. -/
def Careful (s : Pool) : PoolAct → Prop
  | .flushLog i => ∀ img ∈ (s.job i).image?, s.Logged img
  | .writeLive i p => ∀ n ∈ (s.job i).target?, ∀ fr ∈ s.table p, s.LoggedTo n fr.data
  | _ => True

instance (s : Pool) (img : Image) : Decidable (s.Logged img) :=
  inferInstanceAs (Decidable (∀ c ∈ img, ∃ x ∈ s.records, x.1 = c))

instance (s : Pool) (n : Int) (img : Image) : Decidable (s.LoggedTo n img) :=
  inferInstanceAs (Decidable (∀ c ∈ img, ∃ x ∈ s.records, x.1 = c ∧ x.2.lsn ≤ n))

instance (s : Pool) : ∀ act, Decidable (s.Careful act)
  | .flushLog i => inferInstanceAs (Decidable (∀ img ∈ (s.job i).image?, s.Logged img))
  | .writeLive i p =>
      inferInstanceAs (Decidable (∀ n ∈ (s.job i).target?, ∀ fr ∈ s.table p, s.LoggedTo n fr.data))
  | .pin _ _ | .load _ _ | .unpin _ _ | .change _ _ _ | .logFirst _ _ _ | .addLog _ _ | .addWoken _
  | .apply _ _ | .evict _ _ | .clean _ _ | .startFlush _ _ _ | .writeFrozen _ | .endFlush _
  | .log _ => isTrue trivial

theorem LoggedTo.mono {img : Image} {n' : Int} (h : s.LoggedTo n img) (hn : n ≤ n')
    (hrec : s.records ⊆ s'.records) : s'.LoggedTo n' img := by
  intro c hc
  obtain ⟨x, hx, hxc, hxn⟩ := h c hc
  exact ⟨x, hrec hx, hxc, Int.le_trans hxn hn⟩

/-! ## The invariant -/

structure Ok (disk : Bytes) (s : Pool) : Prop where
  conns : Conns.Ok disk s.toConns
  waits : ∀ i n, (s.job i).target? = some n → Waits s.log i n
  frozen : ∀ i p img cleaner n, s.job i = .frozen p img cleaner (some n) → s.LoggedTo n img
  disk : ∀ p, s.LoggedTo s.log.persistLsn (s.disk p)

theorem init_ok (disk : Bytes) : Ok disk { log := LogManager.init disk } where
  conns := Conns.init_ok disk
  waits := fun i n h => (by cases h)
  frozen := fun i p img cleaner n h => (by cases h)
  disk := fun p c hc => (by cases hc)

theorem Ok.setFrame {fr : Option Frame} (h : Ok disk s) : Ok disk (s.setFrame p fr) :=
  ⟨h.conns, h.waits, h.frozen, h.disk⟩

/-- A step of the connections that starts no second call of a write-back that waits. -/
theorem Ok.conn {a : ConnAct} (h : Ok disk s) (hs : s.conn a = some s')
    (hsmall : s'.log.appended.length < 2 ^ 31)
    (hno : ∀ j k, (s.job j).target? = some k → a.starts j = false) : Ok disk s' := by
  obtain ⟨t, ht, hs⟩ := Option.map_eq_some_iff.1 hs
  cases hs
  exact
    { conns := h.conns.step ht hsmall
      waits := fun j k hj => h.conns.waits ht (h.waits j k hj) (hno j k hj)
      frozen := fun j p img cleaner k hj =>
        (h.frozen j p img cleaner k hj).mono (Int.le_refl k) (Conns.grown ht).records
      disk := fun p => (h.disk p).mono (h.conns.persist_le ht) (Conns.grown ht).records }

/-- The thread of the step is in no write-back. -/
theorem Ok.conn_of_none {a : ConnAct} (h : Ok disk s) (hjob : s.job i = .none)
    (hown : ∀ j, a.starts j = true → i = j) (hs : s.conn a = some s')
    (hsmall : s'.log.appended.length < 2 ^ 31) : Ok disk s' := by
  refine h.conn hs hsmall fun j k hj => ?_
  cases hst : a.starts j with
  | false => rfl
  | true =>
      rw [← hown j hst, hjob] at hj
      cases hj

/-! ## Steps of the write-backs -/

theorem Ok.setJob {j : Job} (h : Ok disk s) (hwaits : ∀ n, j.target? = some n → Waits s.log i n)
    (hfrozen : ∀ p img cleaner n, j = .frozen p img cleaner (some n) → s.LoggedTo n img) :
    Ok disk (s.setJob i j) where
  conns := h.conns
  waits := by
    intro k n hk
    change (Function.update s.job i j k).target? = some n at hk
    by_cases hki : k = i
    · rw [hki, Function.update_self] at hk
      rw [hki]
      exact hwaits n hk
    · rw [Function.update_of_ne hki] at hk
      exact h.waits k n hk
  frozen := by
    intro k p img cleaner n hk
    change Function.update s.job i j k = _ at hk
    by_cases hki : k = i
    · rw [hki, Function.update_self] at hk
      exact hfrozen p img cleaner n hk
    · rw [Function.update_of_ne hki] at hk
      exact h.frozen k p img cleaner n hk
  disk := h.disk

/-- A write-back that has read no log number. -/
theorem Ok.setJob_none {j : Job} (h : Ok disk s) (hj : j.target? = none) : Ok disk (s.setJob i j) :=
  h.setJob (fun n hn => by rw [hj] at hn; cases hn) (fun p img cleaner n hn => by
    rw [hn] at hj
    cases hj)

/-- A page with durable changes only is written. -/
theorem Ok.write {img : Image} (h : Ok disk s) (himg : s.LoggedTo s.log.persistLsn img) :
    Ok disk { s with disk := Function.update s.disk p img } :=
  { h with
    disk := by
      intro q
      by_cases hq : q = p
      · rw [hq]
        show Pool.LoggedTo _ _ (Function.update s.disk p img p)
        rw [Function.update_self]
        exact himg
      · show Pool.LoggedTo _ _ (Function.update s.disk p img q)
        rw [Function.update_of_ne hq]
        exact h.disk q }

/-- What was appended has a number below the one read from `global_lsn_` afterwards. -/
theorem Ok.loggedTo (h : Ok disk s) (hsmall : s.log.appended.length < 2 ^ 31) {img : Image}
    (himg : s.Logged img) : s.LoggedTo (toInt32 (s.log.globalLsn - 1)) img := by
  intro c hc
  obtain ⟨x, hx, hxc⟩ := himg c hc
  obtain ⟨k, hk⟩ := List.getElem?_of_mem (h.conns.records x hx).1
  obtain ⟨hlt, -⟩ := List.getElem?_eq_some_iff.1 hk
  refine ⟨x, hx, hxc, ?_⟩
  rw [h.conns.log.lsns k x.2 hk, h.conns.log.small hsmall]
  omega

theorem Ok.flushLog (h : Ok disk s) (hcare : s.Careful (.flushLog i)) (hs : s.flushLog i = some s')
    (hsmall : s'.log.appended.length < 2 ^ 31) : Ok disk s' := by
  have hflushed : ∀ t, s.conn (.log (.flushLogToDisk i)) = some t → (s.job i).target? = none →
      t.log.appended.length < 2 ^ 31 → Ok disk t ∧ Waits t.log i (toInt32 (s.log.globalLsn - 1)) ∧
        t.log.appended = s.log.appended ∧ t.records = s.records := by
    intro t ht hjob hsmall
    have hok : Ok disk t := h.conn ht hsmall fun j k hj => by
      refine decide_eq_false fun hij => ?_
      rw [← hij, hjob] at hj
      cases hj
    obtain ⟨conns, hconns, ht⟩ := Option.map_eq_some_iff.1 ht
    obtain ⟨log, hlog, hconns⟩ := Option.map_eq_some_iff.1 hconns
    obtain ⟨-, hlog⟩ := Option.ite_none_right_eq_some.1 hlog
    cases hlog
    cases hconns
    cases ht
    exact ⟨hok, .inl (Function.update_self _ _ _), rfl, rfl⟩
  simp only [Pool.flushLog] at hs
  split at hs
  · rename_i p img cleaner hjob
    obtain ⟨t, ht, hs⟩ := Option.map_eq_some_iff.1 hs
    cases hs
    obtain ⟨hok, hw, happ, hrec⟩ := hflushed t ht (by rw [hjob]; rfl) hsmall
    have himg : s.Logged img := hcare img (by rw [hjob]; rfl)
    have hsmall' : s.log.appended.length < 2 ^ 31 := happ ▸ hsmall
    refine hok.setJob (fun n hn => ?_) (fun p' img' cleaner' n hn => ?_)
    · cases hn
      exact hw
    · cases hn
      exact (h.loggedTo hsmall' himg).mono (Int.le_refl _) (hrec ▸ List.Subset.refl _)
  · rename_i scope drop hjob
    obtain ⟨t, ht, hs⟩ := Option.map_eq_some_iff.1 hs
    cases hs
    obtain ⟨hok, hw, -, -⟩ := hflushed t ht (by rw [hjob]; rfl) hsmall
    refine hok.setJob (fun n hn => ?_) (fun p' img' cleaner' n hn => (by cases hn))
    cases hn
    exact hw
  · cases hs

theorem Ok.writeFrozen (h : Ok disk s) (hs : s.writeFrozen i = some s') : Ok disk s' := by
  simp only [Pool.writeFrozen] at hs
  split at hs
  · rename_i p img cleaner n hjob
    obtain ⟨hidle, hs⟩ := Option.ite_none_right_eq_some.1 hs
    have hle := Conns.persisted_of_idle (h.waits i n (by rw [hjob]; rfl)) hidle
    have himg : s.LoggedTo s.log.persistLsn img :=
      (h.frozen i p img cleaner n hjob).mono hle (List.Subset.refl _)
    have hok : Ok disk ({ s with disk := Function.update s.disk p img }.setJob i .none) :=
      (h.write himg).setJob_none rfl
    split at hs
    · split at hs <;> cases hs
      · exact hok.setFrame
      · exact hok
    · cases hs
      exact hok
  · cases hs

theorem Ok.writeLive (h : Ok disk s) (hcare : s.Careful (.writeLive i p))
    (hs : s.writeLive i p = some s') : Ok disk s' := by
  simp only [Pool.writeLive] at hs
  split at hs
  · rename_i scope drop n fr hjob htable
    obtain ⟨⟨hidle, -⟩, hs⟩ := Option.ite_none_right_eq_some.1 hs
    have hle := Conns.persisted_of_idle (h.waits i n (by rw [hjob]; rfl)) hidle
    have himg : s.LoggedTo n fr.data := hcare n (by rw [hjob]; rfl) fr htable
    cases hs
    split
    · exact h.setFrame
    · exact (h.write (himg.mono hle (List.Subset.refl _))).setFrame
  · cases hs

/-! ## Steps of the statements and of the page table -/

theorem applyChange_eq {c : Change} (hs : s.applyChange i c = some s') :
    ∃ fr, s' = s.setFrame c.page (some fr) := by
  unfold applyChange at hs
  split at hs
  · cases hs
  · obtain ⟨-, hs⟩ := Option.ite_none_right_eq_some.1 hs
    cases hs
    exact ⟨_, rfl⟩

/-- A step of the connections and a change of a page. -/
theorem Ok.connApply {a : ConnAct} {c : Change} (h : Ok disk s) (hno : ∀ j, a.starts j = false)
    (hs : ((s.conn a).bind fun t => t.applyChange i c) = some s')
    (hsmall : s'.log.appended.length < 2 ^ 31) : Ok disk s' := by
  obtain ⟨t, ht, hs⟩ := Option.bind_eq_some_iff.1 hs
  obtain ⟨fr, rfl⟩ := applyChange_eq hs
  have hok : Ok disk t := h.conn ht hsmall fun j _ _ => hno j
  exact hok.setFrame

theorem Ok.evict (h : Ok disk s) (hs : s.evict i p = some s') : Ok disk s' := by
  unfold Pool.evict at hs
  split at hs
  · cases hs
  · obtain ⟨-, hs⟩ := Option.ite_none_right_eq_some.1 hs
    cases hs
    refine h.setFrame.setJob_none ?_
    split <;> rfl

theorem Ok.clean (h : Ok disk s) (hs : s.clean i p = some s') : Ok disk s' := by
  unfold Pool.clean at hs
  split at hs
  · cases hs
  · obtain ⟨-, hs⟩ := Option.ite_none_right_eq_some.1 hs
    cases hs
    exact h.setJob_none rfl

theorem Ok.unpin (h : Ok disk s) (hs : s.unpin i p = some s') : Ok disk s' := by
  unfold Pool.unpin at hs
  split at hs
  · cases hs
  · split at hs
    · cases hs
    · obtain ⟨-, hs⟩ := Option.ite_none_right_eq_some.1 hs
      cases hs
      exact h.setFrame

theorem Ok.pin (h : Ok disk s) (hs : s.pin i p = some s') : Ok disk s' := by
  unfold Pool.pin at hs
  split at hs
  · cases hs
  · obtain ⟨-, hs⟩ := Option.ite_none_right_eq_some.1 hs
    cases hs
    exact h.setFrame

theorem Ok.waitStep {a : LogAct} (h : Ok disk s) (hs : s.logStep a = some s')
    (hsmall : s'.log.appended.length < 2 ^ 31) : Ok disk s' := by
  cases a with
  | flushLogToDisk => cases hs
  | addLog | addWoken => cases hs
  | waitForPersist j k =>
      obtain ⟨hjob, hs⟩ := Option.ite_none_right_eq_some.1 hs
      have hown : ∀ i, ConnAct.starts i (.log (.waitForPersist j k)) = true → j = i :=
        fun _ hi => of_decide_eq_true hi
      exact h.conn_of_none hjob hown hs hsmall
  | checkPersist | requestFlush | wakePersist | wake | rest | swap | flush =>
      exact h.conn hs hsmall fun _ _ _ => rfl

/-! ## Runs -/

theorem Ok.step {act : PoolAct} (h : Ok disk s) (hcare : s.Careful act) (hs : s.step act = some s')
    (hsmall : s'.log.appended.length < 2 ^ 31) : Ok disk s' := by
  cases act with
  | pin i p => exact h.pin hs
  | load i p =>
      obtain ⟨-, hs⟩ := Option.ite_none_right_eq_some.1 hs
      cases hs
      exact h.setFrame
  | unpin i p => exact h.unpin hs
  | change i p record =>
      obtain ⟨-, hs⟩ := Option.ite_none_right_eq_some.1 hs
      exact h.connApply (fun _ => rfl) hs hsmall
  | logFirst i p record =>
      obtain ⟨-, hs⟩ := Option.ite_none_right_eq_some.1 hs
      exact h.conn hs hsmall fun _ _ _ => rfl
  | addLog i other =>
      obtain ⟨hjob, hs⟩ := Option.ite_none_right_eq_some.1 hs
      have hown : ∀ j, ConnAct.starts j (.addLog i other) = true → i = j :=
        fun _ hj => of_decide_eq_true hj
      exact h.conn_of_none hjob hown hs hsmall
  | addWoken i => exact h.conn hs hsmall fun _ _ _ => rfl
  | apply i c =>
      obtain ⟨-, hs⟩ := Option.ite_none_right_eq_some.1 hs
      exact h.connApply (fun _ => rfl) hs hsmall
  | evict i p => exact h.evict hs
  | clean i p => exact h.clean hs
  | startFlush i scope drop =>
      obtain ⟨-, hs⟩ := Option.ite_none_right_eq_some.1 hs
      cases hs
      exact h.setJob_none rfl
  | flushLog i => exact h.flushLog hcare hs hsmall
  | writeFrozen i => exact h.writeFrozen hs
  | writeLive i p => exact h.writeLive hcare hs
  | endFlush i =>
      simp only [Pool.step, endFlush] at hs
      split at hs
      · obtain ⟨-, hs⟩ := Option.ite_none_right_eq_some.1 hs
        cases hs
        exact h.setJob_none rfl
      · cases hs
  | log a => exact h.waitStep hs hsmall

theorem conn_grown {a : ConnAct} (hs : s.conn a = some s') :
    s.log.appended.length ≤ s'.log.appended.length := by
  obtain ⟨t, ht, hs⟩ := Option.map_eq_some_iff.1 hs
  cases hs
  exact (Conns.grown ht).appended.length_le

theorem connApply_grown {a : ConnAct} {c : Change}
    (hs : ((s.conn a).bind fun t => t.applyChange i c) = some s') :
    s.log.appended.length ≤ s'.log.appended.length := by
  obtain ⟨t, ht, hs⟩ := Option.bind_eq_some_iff.1 hs
  obtain ⟨fr, rfl⟩ := applyChange_eq hs
  have hle := conn_grown ht
  exact hle

/-- The log only grows. -/
theorem step_appended {act : PoolAct} (hs : s.step act = some s') :
    s.log.appended.length ≤ s'.log.appended.length := by
  have hkeep : ∀ {t : Pool}, some t = some s' → t.toConns = s.toConns →
      s.log.appended.length ≤ s'.log.appended.length := fun ht hconns => by
    cases ht
    rw [hconns]
  cases act with
  | pin i p =>
      simp only [Pool.step, Pool.pin] at hs
      split at hs
      · cases hs
      · exact hkeep (Option.ite_none_right_eq_some.1 hs).2 rfl
  | load i p => exact hkeep (Option.ite_none_right_eq_some.1 hs).2 rfl
  | unpin i p =>
      simp only [Pool.step, Pool.unpin] at hs
      split at hs
      · cases hs
      · split at hs
        · cases hs
        · exact hkeep (Option.ite_none_right_eq_some.1 hs).2 rfl
  | change i p record => exact connApply_grown (Option.ite_none_right_eq_some.1 hs).2
  | logFirst i p record => exact conn_grown (Option.ite_none_right_eq_some.1 hs).2
  | addLog i other => exact conn_grown (Option.ite_none_right_eq_some.1 hs).2
  | addWoken i => exact conn_grown hs
  | apply i c => exact connApply_grown (Option.ite_none_right_eq_some.1 hs).2
  | evict i p =>
      simp only [Pool.step, Pool.evict] at hs
      split at hs
      · cases hs
      · exact hkeep (Option.ite_none_right_eq_some.1 hs).2 rfl
  | clean i p =>
      simp only [Pool.step, Pool.clean] at hs
      split at hs
      · cases hs
      · exact hkeep (Option.ite_none_right_eq_some.1 hs).2 rfl
  | startFlush i scope drop => exact hkeep (Option.ite_none_right_eq_some.1 hs).2 rfl
  | flushLog i =>
      simp only [Pool.step, Pool.flushLog] at hs
      split at hs
      · obtain ⟨t, ht, hs⟩ := Option.map_eq_some_iff.1 hs
        cases hs
        have hle := conn_grown ht
        exact hle
      · obtain ⟨t, ht, hs⟩ := Option.map_eq_some_iff.1 hs
        cases hs
        have hle := conn_grown ht
        exact hle
      · cases hs
  | writeFrozen i =>
      simp only [Pool.step, Pool.writeFrozen] at hs
      split at hs
      · have hs := (Option.ite_none_right_eq_some.1 hs).2
        split at hs
        · split at hs
          · exact hkeep hs rfl
          · exact hkeep hs rfl
        · exact hkeep hs rfl
      · cases hs
  | writeLive i p =>
      simp only [Pool.step, Pool.writeLive] at hs
      split at hs
      · refine hkeep (Option.ite_none_right_eq_some.1 hs).2 ?_
        split <;> rfl
      · cases hs
  | endFlush i =>
      simp only [Pool.step, endFlush] at hs
      split at hs
      · exact hkeep (Option.ite_none_right_eq_some.1 hs).2 rfl
      · cases hs
  | log a =>
      cases a with
      | addLog | addWoken | flushLogToDisk => cases hs
      | waitForPersist j k => exact conn_grown (Option.ite_none_right_eq_some.1 hs).2
      | checkPersist | requestFlush | wakePersist | wake | rest | swap | flush => exact conn_grown hs

/-- In every run of careful steps with fewer than 2^31 records the invariant holds. -/
theorem run_ok {acts : List PoolAct} (hrun : run Pool.step { log := .init disk } acts = some s)
    (hcare : Along Pool.step Careful { log := .init disk } acts)
    (hsmall : s.log.appended.length < 2 ^ 31) : Ok disk s := by
  have hkeep : ∀ s a s', (s.log.appended.length < 2 ^ 31 → Ok disk s) → Careful s a →
      Pool.step s a = some s' → s'.log.appended.length < 2 ^ 31 → Ok disk s' :=
    fun s a s' h hcare hs hsmall' =>
      (h (Nat.lt_of_le_of_lt (step_appended hs) hsmall')).step hcare hs hsmall'
  exact run_invariant_along hkeep acts _ s (fun _ => init_ok disk) hcare hrun hsmall

/-- The log record of every change on the disk is durable. -/
def WriteAhead (s : Pool) : Prop :=
  ∀ p, ∀ c ∈ s.disk p, ∃ x ∈ s.records, x.1 = c ∧ x.2.record = c.record ∧ Synced s.log x.2

/-- The write-ahead rule, in every run of careful steps with fewer than 2^31 records. -/
theorem run_writeAhead {acts : List PoolAct}
    (hrun : run Pool.step { log := .init disk } acts = some s)
    (hcare : Along Pool.step Careful { log := .init disk } acts)
    (hsmall : s.log.appended.length < 2 ^ 31) : WriteAhead s := by
  have h := run_ok hrun hcare hsmall
  intro p c hc
  obtain ⟨x, hx, rfl, hle⟩ := h.disk p c hc
  obtain ⟨happ, hrec⟩ := h.conns.records x hx
  exact ⟨x, hx, rfl, hrec, h.conns.log.durable.persisted x.2 happ hle⟩

/-- Thread `i` waits until the worker has flushed the log. -/
def waitFlushed (i : Nat) : List PoolAct :=
  [.log (.checkPersist i), .log (.requestFlush i), .log .wake, .log .swap, .log .flush, .log .flush,
    .log .flush, .log .flush, .log .flush, .log .rest, .log (.wakePersist i)]

/-- An insert that fills its page, logged before the page is evicted. -/
def loggedFirst : List PoolAct :=
  [.addLog 1 (.begin 1), .load 1 ⟨3, 1⟩, .change 1 ⟨3, 1⟩ (.insert 1 ⟨"t", ⟨1, 0⟩⟩ [7]),
    .unpin 1 ⟨3, 1⟩, .addLog 1 .ckpt, .evict 2 ⟨3, 1⟩, .flushLog 2] ++ waitFlushed 2 ++
    [.writeFrozen 2]

theorem run_writeAhead_insert : ∃ s, run Pool.step { log := .init [] } loggedFirst = some s ∧
    (s.disk ⟨3, 1⟩).length = 1 ∧ WriteAhead s := by
  have hvals : (run Pool.step { log := .init [] } loggedFirst).map
      (fun s => ((s.disk ⟨3, 1⟩).length, s.log.appended.length)) = some (1, 2) := by decide +kernel
  obtain ⟨s, hrun, hval⟩ := Option.map_eq_some_iff.1 hvals
  obtain ⟨hdisk, hlen⟩ := Prod.mk.inj hval
  exact ⟨s, hrun, hdisk, run_writeAhead hrun (by decide +kernel) (by rw [hlen]; decide)⟩

/-- The same insert, evicted before it is logged. -/
def evictedFirst : List PoolAct :=
  [.addLog 1 (.begin 1), .load 1 ⟨3, 1⟩, .change 1 ⟨3, 1⟩ (.insert 1 ⟨"t", ⟨1, 0⟩⟩ [7]),
    .unpin 1 ⟨3, 1⟩, .evict 2 ⟨3, 1⟩, .flushLog 2] ++ waitFlushed 2 ++ [.writeFrozen 2]

/-- The page is on the disk and the log has no record of the insert. -/
theorem not_writeAhead_evicted : ∃ s, run Pool.step { log := .init [] } evictedFirst = some s ∧
    ¬ WriteAhead s := by
  have hvals : (run Pool.step { log := .init [] } evictedFirst).map
      (fun s => (s.disk ⟨3, 1⟩, s.records)) =
        some ([⟨0, ⟨3, 1⟩, .insert 1 ⟨"t", ⟨1, 0⟩⟩ [7]⟩], []) := by decide +kernel
  obtain ⟨s, hrun, hval⟩ := Option.map_eq_some_iff.1 hvals
  obtain ⟨hdisk, hrec⟩ := Prod.mk.inj hval
  refine ⟨s, hrun, fun h => ?_⟩
  obtain ⟨x, hx, -⟩ := h ⟨3, 1⟩ _ (by rw [hdisk]; exact List.mem_singleton_self _)
  rw [hrec] at hx
  cases hx

end Pool

end Rmdb.Wal
