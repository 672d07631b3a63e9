import Rmdb.Mvcc.Sections

/-!
# Read and commit timestamps between the sections

`last_commit_ts_` and `active_rts_` against the transactions that can still read: a commit that has
rows to publish has a timestamp that nobody reads at, and `prune_wm` is under every snapshot.  Both need
that `begin` stays out of the way (`Careful`).
-/

namespace Rmdb.Txn

/-- `commit` has not left `active_rts_`. -/
def CommitAt.early : CommitAt → Bool
  | .outside | .restoring _ | .stamped _ => true
  | .publishing .. | .reclaiming .. => false

def CommitAt.cts? : CommitAt → Option Ts
  | .outside | .restoring _ => none
  | .stamped cts | .publishing cts _ _ | .reclaiming cts _ _ => some cts

def CommitAt.wm? : CommitAt → Option Ts
  | .outside | .restoring _ | .stamped _ => none
  | .publishing _ wm _ | .reclaiming _ wm _ => some wm

/-- What a snapshot shows of a row to a transaction that has not written it. -/
def rowView (row : Row) (ts : Ts) : Option Image :=
  match row.chain with
  | none => if row.slot.isRecord then some row.slot.data else none
  | some c => Db.verImage (Db.visibleVer c.hist ts)

namespace Latched

section
variable (st : Latched)

/-- The transaction can still read. -/
def Reader (u : TxnId) : Prop := st.db.Live u ∧ st.commitAt u = .outside

instance (u : TxnId) : Decidable (st.Reader u) :=
  inferInstanceAs (Decidable (st.db.Live u ∧ st.commitAt u = .outside))

/-- What a commit that has its timestamp still has to publish. -/
def owing (t : TxnId) : List WriteRecord :=
  match st.commitAt t with
  | .stamped _ => (st.db.txn t).writeSet
  | .publishing _ _ todo => todo
  | _ => []

/-- `begin` reads `last_commit_ts_` when everything up to it is published, no `prune_wm` passes a
snapshot that `begin` has not registered yet, an insert fills a slot whose old versions no snapshot
shows, a difference is added to a record, and `mvcc_read` takes the bytes of a slot only if the slot is
set. -/
def Careful : LatchAct → Prop
  | .beginRead _ _ => ∀ u < st.db.nextTxnId, st.owing u = []
  | .watermark t => ∀ u ∈ st.beginner, ∀ cts ∈ (st.commitAt t).cts?,
      st.pruneWm t cts ≤ (st.db.txn u).readTs
  | .mvccInsert _ r _ => ∀ u < st.db.nextTxnId, st.Reader u →
      rowView (st.db.rows r) (st.db.txn u).readTs = none
  | .mvccWriteColDelta _ r .. => (st.db.rows r).slot.isRecord = true
  | .mvccRead t => ∀ x ∈ st.heapData t,
      (st.db.rows x.1).chain.isNone = true → (st.db.rows x.1).slot.isRecord = true
  | _ => True

instance (a : LatchAct) : Decidable (st.Careful a) := by
  cases a <;> unfold Careful <;> infer_instance

end

structure Clock (st : Latched) : Prop where
  readTs : ∀ u, u < st.db.nextTxnId → (st.db.txn u).readTs ≤ st.db.lastCommitTs
  active : st.db.activeRts.Perm (st.registered.map fun u => (st.db.txn u).readTs)
  registered : ∀ u, st.db.Live u → (st.commitAt u).early = true → st.beginner ≠ some u →
    u ∈ st.registered
  known : ∀ u ∈ st.registered, u < st.db.nextTxnId
  watermark : ∀ t wm, (st.commitAt t).wm? = some wm →
    wm ≤ st.db.lastCommitTs ∧ ∀ u, st.Reader u → wm ≤ (st.db.txn u).readTs
  stamp : ∀ t cts, (st.commitAt t).cts? = some cts → st.stampOf t = cts ∧ cts ≤ st.db.lastCommitTs
  owing : ∀ t, st.owing t ≠ [] → ∀ u, u < st.db.nextTxnId → (st.db.txn u).readTs < st.stampOf t

/-- A step of `t` that keeps its snapshot. -/
structure Frame (st st' : Latched) (t : TxnId) : Prop extends StepOf st st' t where
  readTs : (st'.db.txn t).readTs = (st.db.txn t).readTs
  now : st.db.lastCommitTs ≤ st'.db.lastCommitTs
  reader : st'.Reader t → st.Reader t
  stampOf : ∀ u, u ≠ t → st'.stampOf u = st.stampOf u

variable {st st' : Latched} {t : TxnId} {r : RowId}

theorem Frame.readTs_eq (h : Frame st st' t) (u : TxnId) :
    (st'.db.txn u).readTs = (st.db.txn u).readTs := by
  rcases eq_or_ne u t with rfl | hne
  · exact h.readTs
  · rw [Db.txn_congr (h.txns u hne)]

theorem Frame.reader_of (h : Frame st st' t) {u : TxnId} (hu : st'.Reader u) : st.Reader u := by
  rcases eq_or_ne u t with rfl | hne
  · exact h.reader hu
  · refine ⟨(h.toOthers.live_iff hne).1 hu.1, ?_⟩
    rw [← h.commitAt u hne]
    exact hu.2

theorem Frame.owing_eq (h : Frame st st' t) {u : TxnId} (hne : u ≠ t) : st'.owing u = st.owing u := by
  unfold Latched.owing
  rw [h.commitAt u hne, Db.txn_congr (h.txns u hne)]

theorem Clock.of_frame (h : Clock st) (hf : Frame st st' t)
    (hactive : st'.db.activeRts.Perm (st'.registered.map fun u => (st.db.txn u).readTs))
    (hreg : ∀ u, u ≠ t → u ∈ st.registered → u ∈ st'.registered)
    (hsub : ∀ u ∈ st'.registered, u ∈ st.registered)
    (hself : st'.db.Live t → (st'.commitAt t).early = true → st.beginner ≠ some t → t ∈ st'.registered)
    (hwm : ∀ wm, (st'.commitAt t).wm? = some wm →
      wm ≤ st'.db.lastCommitTs ∧ ∀ u, st'.Reader u → wm ≤ (st.db.txn u).readTs)
    (hstamp : ∀ cts, (st'.commitAt t).cts? = some cts →
      st'.stampOf t = cts ∧ cts ≤ st'.db.lastCommitTs)
    (howing : st'.owing t ≠ [] → ∀ u, u < st.db.nextTxnId → (st.db.txn u).readTs < st'.stampOf t) :
    Clock st' where
  readTs := by
    intro u hu
    rw [hf.next] at hu
    rw [hf.readTs_eq]
    exact le_trans (h.readTs u hu) hf.now
  active := by
    simp only [hf.readTs_eq]
    exact hactive
  registered := by
    intro u hl he hb
    rw [hf.beginner] at hb
    rcases eq_or_ne u t with rfl | hne
    · exact hself hl he hb
    · rw [hf.commitAt u hne] at he
      exact hreg u hne (h.registered u ((hf.toOthers.live_iff hne).1 hl) he hb)
  known := by
    intro u hu
    rw [hf.next]
    exact h.known u (hsub u hu)
  watermark := by
    intro u wm hu
    simp only [hf.readTs_eq]
    rcases eq_or_ne u t with rfl | hne
    · exact hwm wm hu
    · rw [hf.commitAt u hne] at hu
      obtain ⟨h1, h2⟩ := h.watermark u wm hu
      exact ⟨le_trans h1 hf.now, fun v hv => h2 v (hf.reader_of hv)⟩
  stamp := by
    intro u cts hu
    rcases eq_or_ne u t with rfl | hne
    · exact hstamp cts hu
    · rw [hf.commitAt u hne] at hu
      obtain ⟨h1, h2⟩ := h.stamp u cts hu
      rw [hf.stampOf u hne]
      exact ⟨h1, le_trans h2 hf.now⟩
  owing := by
    intro u hu v hv
    rw [hf.next] at hv
    rw [hf.readTs_eq]
    rcases eq_or_ne u t with rfl | hne
    · exact howing hu v hv
    · rw [hf.owing_eq hne] at hu
      rw [hf.stampOf u hne]
      exact h.owing u hu v hv

/-- A step that takes no timestamp and leaves `active_rts_` alone. -/
theorem Clock.of_same (h : Clock st) (hf : Frame st st' t) (hactive : st'.db.activeRts = st.db.activeRts)
    (hreg : st'.registered = st.registered) (hstamp : st'.stampOf t = st.stampOf t)
    (hearly : st'.db.Live t → (st'.commitAt t).early = true →
      st.db.Live t ∧ (st.commitAt t).early = true)
    (hwm : ∀ wm, (st'.commitAt t).wm? = some wm → (st.commitAt t).wm? = some wm)
    (hcts : ∀ cts, (st'.commitAt t).cts? = some cts → (st.commitAt t).cts? = some cts)
    (howing : st'.owing t ≠ [] → st.owing t ≠ []) : Clock st' := by
  refine h.of_frame hf ?_ ?_ ?_ ?_ ?_ ?_ ?_
  · rw [hactive, hreg]
    exact h.active
  · intro u _ hu
    rwa [hreg]
  · intro u hu
    rwa [hreg] at hu
  · intro hl he hb
    rw [hreg]
    obtain ⟨hl', he'⟩ := hearly hl he
    exact h.registered t hl' he' hb
  · intro wm hu
    obtain ⟨h1, h2⟩ := h.watermark t wm (hwm wm hu)
    exact ⟨le_trans h1 hf.now, fun v hv => h2 v (hf.reader_of hv)⟩
  · intro cts hu
    obtain ⟨h1, h2⟩ := h.stamp t cts (hcts cts hu)
    rw [hstamp]
    exact ⟨h1, le_trans h2 hf.now⟩
  · intro ho
    rw [hstamp]
    exact h.owing t (howing ho)

theorem Section.frame (hs : Section st st' t) (hnow : st.db.lastCommitTs ≤ st'.db.lastCommitTs)
    (hout : st'.commitAt t ≠ .outside) (hstamp : ∀ u, u ≠ t → st'.stampOf u = st.stampOf u) :
    Frame st st' t where
  toStepOf := hs.toStepOf
  readTs := hs.readTs
  now := hnow
  reader := fun hr => absurd hr.2 hout
  stampOf := hstamp

/-- A step of a transaction that is not in `commit`. -/
theorem Clock.of_outside (h : Clock st) (hf : Frame st st' t) (ht : st.db.Live t)
    (hout : st.commitAt t = .outside) (hcommit : st'.commitAt t = .outside)
    (hactive : st'.db.activeRts = st.db.activeRts) (hreg : st'.registered = st.registered)
    (hstamp : st'.stampOf t = st.stampOf t) : Clock st' := by
  refine h.of_same hf hactive hreg hstamp ?_ ?_ ?_ ?_
  · intro _ _
    rw [hout]
    exact ⟨ht, rfl⟩
  · rw [hcommit, hout]
    exact fun _ => id
  · rw [hcommit, hout]
    exact fun _ => id
  · unfold Latched.owing
    rw [hcommit, hout]
    exact id

/-! ## Steps before commit -/

theorem RowWrite.frame {row : Row} {ws : List WriteRecord} {mark : Bool} {db' : Db}
    (hw : RowWrite st.db db' t r row ws mark) (ht : st.db.Live t) : Frame st { st with db := db' } t where
  txns := hw.others
  commitAt := fun _ _ => rfl
  reads := fun _ _ => rfl
  next := hw.nextTxnId
  beginner := rfl
  readTs := hw.readTs t
  now := le_of_eq hw.lastCommitTs.symm
  reader := fun hr => ⟨ht, hr.2⟩
  stampOf := fun _ _ => rfl

theorem Clock.row_write (h : Clock st) {row : Row} {ws : List WriteRecord} {mark : Bool} {db' : Db}
    (hw : RowWrite st.db db' t r row ws mark) (ht : st.Ready t) : Clock { st with db := db' } :=
  h.of_outside (RowWrite.frame hw ht.1) ht.1 ht.2.1 ht.2.1 hw.activeRts rfl rfl

theorem Clock.versioned (h : Clock st) (ht : st.Ready t) {old : Image} {db' : Db}
    (hv : Versioned st.db t r old db') : Clock { st with db := db' } := by
  cases hv with
  | same => exact h
  | touched hw => exact h.row_write hw ht
  | took hw => exact h.row_write hw ht

theorem release_frame (ht : st.Ready t) :
    Frame st { st with db := st.db.releaseStatementWrites t } t where
  txns := fun _ hu => release_txns_ne hu
  commitAt := fun _ _ => rfl
  reads := fun _ _ => rfl
  next := (release_fields st.db t).1
  beginner := rfl
  readTs := release_proj Transaction.readTs (fun _ _ => rfl) t
  now := le_of_eq (release_fields st.db t).2.1.symm
  reader := fun hr => ⟨ht.1, hr.2⟩
  stampOf := fun _ _ => rfl

theorem abort_frame (ht : st.Ready t) :
    Frame st { st with db := st.db.abort t, registered := st.registered.erase t } t := by
  have ha := abort_spec ht.1.live
  exact {
    txns := ha.others
    commitAt := fun _ _ => rfl
    reads := fun _ _ => rfl
    next := ha.nextTxnId
    beginner := rfl
    readTs := by
      show ((st.db.abort t).txn t).readTs = _
      rw [Db.txn, ha.self]
      rfl
    now := le_of_eq ha.lastCommitTs.symm
    reader := fun hr => ⟨ht.1, hr.2⟩
    stampOf := fun _ _ => rfl }

/-- What is left of `active_rts_` without `t`. -/
theorem Clock.leave (h : Clock st) (ht : t ∈ st.registered) :
    (st.db.activeRts.erase (st.db.txn t).readTs).Perm
      ((st.registered.erase t).map fun u => (st.db.txn u).readTs) := by
  have hmap := (List.perm_cons_erase ht).map fun u => (st.db.txn u).readTs
  have herase := (h.active.trans hmap).erase (st.db.txn t).readTs
  rwa [List.map_cons, List.erase_cons_head] at herase

theorem Clock.abort (h : Clock st) (hs : st.abort t = some st') : Clock st' := by
  obtain ⟨ht, heq⟩ := Option.ite_none_right_eq_some.1 hs
  cases heq
  have ha := abort_spec ht.1.live
  have hreg : t ∈ st.registered := h.registered t ht.1 (by rw [ht.2.1]; rfl) ht.2.2
  refine h.of_frame (abort_frame ht) ?_ ?_ ?_ ?_ ?_ ?_ ?_
  · have hactive : (st.db.abort t).activeRts = st.db.activeRts.erase (st.db.txn t).readTs := ha.activeRts
    rw [hactive]
    exact h.leave hreg
  · exact fun u hne hu => (List.mem_erase_of_ne hne).2 hu
  · exact fun u hu => List.mem_of_mem_erase hu
  · exact fun hl => absurd hl ha.ended.not_live
  · intro wm hu
    rw [show st.commitAt t = .outside from ht.2.1] at hu
    cases hu
  · intro cts hu
    rw [show st.commitAt t = .outside from ht.2.1] at hu
    cases hu
  · intro ho
    refine absurd ?_ ho
    unfold Latched.owing
    rw [show st.commitAt t = .outside from ht.2.1]

theorem read_frame {heap : TxnId → Option (RowId × Image)} {reads : TxnId → List Read}
    (hreads : ∀ u, u ≠ t → reads u = st.reads u) :
    Frame st { st with heapData := heap, reads := reads } t where
  txns := fun _ _ => rfl
  commitAt := fun _ _ => rfl
  reads := hreads
  next := rfl
  beginner := rfl
  readTs := rfl
  now := le_rfl
  reader := id
  stampOf := fun _ _ => rfl

/-! ## Begin -/

theorem Clock.beginRead (h : Clock st) (hl : Locks st) {explicit : Bool} {iso : IsolationLevel}
    (hc : st.Careful (.beginRead explicit iso)) (hs : st.beginRead explicit iso = some st') :
    Clock st' := by
  obtain ⟨hnone, heq⟩ := Option.ite_none_right_eq_some.1 hs
  have hself : (st'.db.txn st.db.nextTxnId).readTs = st.db.lastCommitTs := by
    cases heq
    simp [Db.txn]
  have hother : ∀ u, u ≠ st.db.nextTxnId → st'.db.txns u = st.db.txns u := by
    intro u hu
    cases heq
    exact Function.update_of_ne hu _ _
  have hrts : ∀ u, u ≠ st.db.nextTxnId → (st'.db.txn u).readTs = (st.db.txn u).readTs :=
    fun u hu => by rw [Db.txn_congr (hother u hu)]
  have hlt : ∀ u, st.db.Live u → u < st.db.nextTxnId := by
    rintro u ⟨x, hx, -⟩
    by_contra hge
    rw [(hl.fresh u (Nat.le_of_not_lt hge)).1] at hx
    cases hx
  have hcommit : st'.commitAt = st.commitAt := by
    cases heq
    rfl
  have hnow : st'.db.lastCommitTs = st.db.lastCommitTs := by
    cases heq
    rfl
  have hreg : st'.registered = st.registered := by
    cases heq
    rfl
  have hstamp : st'.stampOf = st.stampOf := by
    cases heq
    rfl
  have hbegin : st'.beginner = some st.db.nextTxnId := by
    cases heq
    rfl
  have hnext : st'.db.nextTxnId = st.db.nextTxnId + 1 := by
    cases heq
    rfl
  have hactive : st'.db.activeRts = st.db.activeRts := by
    cases heq
    rfl
  have hout : st.commitAt st.db.nextTxnId = .outside := by
    by_contra hne
    exact absurd (hlt _ (hl.busy _ hne).1) (lt_irrefl _)
  refine ⟨?_, ?_, ?_, ?_, ?_, ?_, ?_⟩
  · intro u hu
    rw [hnow]
    rcases eq_or_ne u st.db.nextTxnId with rfl | hne
    · exact le_of_eq hself
    · rw [hrts u hne]
      rw [hnext] at hu
      exact h.readTs u (lt_of_le_of_ne (Nat.le_of_lt_succ hu) hne)
  · rw [hactive, hreg]
    refine h.active.trans (List.Perm.of_eq (List.map_congr_left ?_))
    exact fun u hu => (hrts u (Nat.ne_of_lt (h.known u hu))).symm
  · intro u hlive he hb
    rw [hbegin] at hb
    have hne : u ≠ st.db.nextTxnId := fun heq => hb (by rw [heq])
    rw [hcommit] at he
    rw [hreg]
    refine h.registered u ?_ he (by rw [hnone]; exact fun hn => by cases hn)
    obtain ⟨x, hx, hxl⟩ := hlive
    rw [hother u hne] at hx
    exact ⟨x, hx, hxl⟩
  · intro u hu
    rw [hreg] at hu
    rw [hnext]
    exact Nat.lt_succ_of_lt (h.known u hu)
  · intro u wm hu
    rw [hcommit] at hu
    obtain ⟨h1, h2⟩ := h.watermark u wm hu
    rw [hnow]
    refine ⟨h1, fun v hv => ?_⟩
    rcases eq_or_ne v st.db.nextTxnId with rfl | hne
    · rw [hself]
      exact h1
    · rw [hrts v hne]
      obtain ⟨⟨x, hx, hxl⟩, hvo⟩ := hv
      rw [hother v hne] at hx
      rw [hcommit] at hvo
      exact h2 v ⟨⟨x, hx, hxl⟩, hvo⟩
  · intro u cts hu
    rw [hcommit] at hu
    rw [hstamp, hnow]
    exact h.stamp u cts hu
  · -- no commit owes a version when a snapshot is taken
    intro u hu _ _
    refine absurd ?_ hu
    rcases eq_or_ne u st.db.nextTxnId with rfl | hne
    · unfold Latched.owing
      rw [hcommit, hout]
    · have hsame : st'.owing u = st.owing u := by
        unfold Latched.owing
        rw [hcommit, Db.txn_congr (hother u hne)]
      rw [hsame]
      rcases Nat.lt_or_ge u st.db.nextTxnId with hlt' | hge
      · exact hc u hlt'
      · have hdead : st.commitAt u = .outside := by
          by_contra hne'
          exact absurd (hlt u (hl.busy u hne').1) (Nat.not_lt.2 hge)
        unfold Latched.owing
        rw [hdead]

theorem Clock.register (h : Clock st) (hs : st.register = some st') (hl : Locks st) : Clock st' := by
  unfold Latched.register at hs
  split at hs
  · cases hs
  · rename_i t hb
    cases hs
    exact {
      readTs := h.readTs
      active := h.active.cons _
      registered := by
        intro u hlive he _
        rcases eq_or_ne u t with rfl | hne
        · exact List.mem_cons_self
        · refine List.mem_cons_of_mem _ (h.registered u hlive he ?_)
          rw [hb]
          exact fun hn => hne (Option.some.inj hn).symm
      known := by
        intro u hu
        rcases List.mem_cons.1 hu with rfl | hu
        · obtain ⟨x, hx, -⟩ := hl.begun u hb
          by_contra hge
          rw [(hl.fresh u (Nat.le_of_not_lt hge)).1] at hx
          cases hx
        · exact h.known u hu
      watermark := h.watermark
      stamp := h.stamp
      owing := h.owing }

/-! ## Commit -/

theorem startCommit_section (hs : st.startCommit t = some st') : st.Ready t ∧ Section st st' t ∧
    st'.commitAt t = .restoring (st.overlayRows t) := by
  obtain ⟨ht, heq⟩ := Option.ite_none_right_eq_some.1 hs
  cases heq
  exact ⟨ht, Section.of_db rfl rfl fun _ => rfl, setCommitAt_self _ _ _⟩

theorem Clock.startCommit (h : Clock st) (hs : st.startCommit t = some st') : Clock st' := by
  obtain ⟨ht, hsec, hc⟩ := startCommit_section hs
  have heq : st' = st.setCommitAt t (.restoring (st.overlayRows t)) :=
    (Option.some.inj (Option.ite_none_right_eq_some.1 hs).2).symm
  refine h.of_same (hsec.frame (by rw [heq]; exact le_rfl) (by rw [hc]; simp) (by rw [heq]; exact fun _ _ => rfl))
    (by rw [heq]; rfl) (by rw [heq]; rfl) (by rw [heq]; rfl) ?_ ?_ ?_ ?_
  · intro _ _
    rw [ht.2.1]
    exact ⟨ht.1, rfl⟩
  · intro wm hu
    rw [hc] at hu
    cases hu
  · intro cts hu
    rw [hc] at hu
    cases hu
  · intro ho
    refine absurd ?_ ho
    unfold Latched.owing
    rw [hc]

theorem restore_section (hs : st.restore t r = some st') : Section st st' t ∧
    ∃ todo todo' db, st.commitAt t = .restoring todo ∧ st'.commitAt t = .restoring todo' ∧
      db.lastCommitTs = st.db.lastCommitTs ∧ db.activeRts = st.db.activeRts ∧
      st' = ({ st with db := db } : Latched).setCommitAt t (.restoring todo') := by
  obtain ⟨todo, ov, hc, -, -, heq⟩ := restore_spec hs
  cases heq
  exact ⟨Section.of_db rfl rfl fun _ => rfl, todo, _, st.db.setRow r (restoreRow t ov (st.db.rows r)), hc,
    setCommitAt_self _ _ _, rfl, rfl, rfl⟩

theorem Clock.restore (h : Clock st) (hl : Locks st) (hs : st.restore t r = some st') : Clock st' := by
  obtain ⟨hsec, todo, todo', db, hc, hc', hnow, hactive, heq⟩ := restore_section hs
  refine h.of_same (hsec.frame (by rw [heq]; exact le_of_eq hnow.symm) (by rw [hc']; simp)
    (by rw [heq]; exact fun _ _ => rfl)) (by rw [heq]; exact hactive) (by rw [heq]; rfl)
    (by rw [heq]; rfl) ?_ ?_ ?_ ?_
  · intro _ _
    rw [hc]
    exact ⟨(hl.busy t (by rw [hc]; simp)).1, rfl⟩
  · intro wm hu
    rw [hc'] at hu
    cases hu
  · intro cts hu
    rw [hc'] at hu
    cases hu
  · intro ho
    refine absurd ?_ ho
    unfold Latched.owing
    rw [hc']

theorem stamp_frame (hs : st.stamp t = some st') : Frame st st' t := by
  obtain ⟨-, hc, hsec, -, -, -, -, hnow, hstamp⟩ := stamp_spec hs
  refine hsec.frame (by rw [hnow]; exact le_max_left _ _) (by rw [hc]; simp) fun u hu => ?_
  rw [hstamp, Function.update_of_ne hu]

theorem Clock.stamp_step (h : Clock st) (hl : Locks st) (hs : st.stamp t = some st') : Clock st' := by
  obtain ⟨hc, hc', hsec, -, -, hreg, hactive, hnow, hstamp⟩ := stamp_spec hs
  have hself : st'.stampOf t = st.db.nextCts t := by rw [hstamp, Function.update_self]
  refine h.of_frame (stamp_frame hs) ?_ ?_ ?_ ?_ ?_ ?_ ?_
  · rw [hactive, hreg]
    exact h.active
  · intro u _ hu
    rwa [hreg]
  · intro u hu
    rwa [hreg] at hu
  · intro _ _ hb
    rw [hreg]
    exact h.registered t (hl.busy t (by rw [hc]; simp)).1 (by rw [hc]; rfl) hb
  · intro wm hu
    rw [hc'] at hu
    cases hu
  · intro cts hu
    rw [hc'] at hu
    cases hu
    exact ⟨hself, by rw [hnow]; exact le_max_right _ _⟩
  · intro ho u hu
    have hws : (st.db.txn t).writeSet ≠ [] := by
      unfold Latched.owing at ho
      rw [hc'] at ho
      dsimp only at ho
      rwa [hsec.writeSet] at ho
    rw [hself, Db.nextCts, if_pos (.inl hws)]
    exact Nat.lt_succ_of_le (h.readTs u hu)

theorem watermark_frame (hs : st.watermark t = some st') : Frame st st' t := by
  obtain ⟨cts, -, hc, hsec, -, -, -, -, hnow, hstamp⟩ := watermark_spec hs
  exact hsec.frame (le_of_eq hnow.symm) (by rw [hc]; simp) fun u _ => by rw [hstamp]

/-- `prune_wm` is under the snapshots in `active_rts_`, and no later than the newest commit. -/
theorem Clock.pruneWm_le (h : Clock st) (ht : t ∈ st.registered) {cts : Ts}
    (hcts : cts ≤ st.db.lastCommitTs) :
    st.pruneWm t cts ≤ st.db.lastCommitTs ∧
      ∀ u ∈ st.registered, u ≠ t → st.pruneWm t cts ≤ (st.db.txn u).readTs := by
  have hleave := h.leave ht
  have hmem : ∀ ts, ts ∈ (st.leaveActive t).activeRts ↔
      ∃ u ∈ st.registered.erase t, (st.db.txn u).readTs = ts := by
    intro ts
    rw [show (st.leaveActive t).activeRts = st.db.activeRts.erase (st.db.txn t).readTs from rfl,
      hleave.mem_iff, List.mem_map]
  unfold Latched.pruneWm Db.lowestRts
  cases hmin : (st.leaveActive t).activeRts.min? with
  | none =>
      refine ⟨hcts, fun u hu hne => ?_⟩
      have hin := (hmem _).2 ⟨u, (List.mem_erase_of_ne hne).2 hu, rfl⟩
      rw [List.min?_eq_none_iff.1 hmin] at hin
      cases hin
  | some m =>
      obtain ⟨hm, hle⟩ := List.min?_eq_some_iff.1 hmin
      rw [Option.getD_some]
      constructor
      · obtain ⟨u, hu, heq⟩ := (hmem m).1 hm
        rw [← heq]
        exact h.readTs u (h.known u (List.mem_of_mem_erase hu))
      · intro u hu hne
        exact hle _ ((hmem _).2 ⟨u, (List.mem_erase_of_ne hne).2 hu, rfl⟩)

theorem Clock.watermark_step (h : Clock st) (hl : Locks st) (hcare : st.Careful (.watermark t))
    (hs : st.watermark t = some st') : Clock st' := by
  obtain ⟨cts, hc, hc', hsec, -, -, hreg, hactive, hnow, hstamp⟩ := watermark_spec hs
  obtain ⟨hlive, hb⟩ := hl.busy t (by rw [hc]; simp)
  have hin : t ∈ st.registered := h.registered t hlive (by rw [hc]; rfl) hb
  obtain ⟨hst, hcts⟩ := h.stamp t cts (by rw [hc]; rfl)
  obtain ⟨hwm, hwms⟩ := h.pruneWm_le hin hcts
  refine h.of_frame (watermark_frame hs) ?_ ?_ ?_ ?_ ?_ ?_ ?_
  · rw [hactive, hreg]
    exact h.leave hin
  · intro u hne hu
    rw [hreg]
    exact (List.mem_erase_of_ne hne).2 hu
  · intro u hu
    rw [hreg] at hu
    exact List.mem_of_mem_erase hu
  · intro _ he
    rw [hc'] at he
    cases he
  · intro wm hu
    rw [hc'] at hu
    cases hu
    rw [hnow]
    refine ⟨hwm, fun u hr => ?_⟩
    have hr' := (watermark_frame hs).reader_of hr
    have hne : u ≠ t := by
      rintro rfl
      rw [hr'.2] at hc
      cases hc
    -- the snapshot of a `begin` under way is not in `active_rts_`
    by_cases hbu : st.beginner = some u
    · exact hcare u hbu cts (by rw [hc]; rfl)
    · exact hwms u (h.registered u hr'.1 (by rw [hr'.2]; rfl) hbu) hne
  · intro cts' hu
    rw [hc'] at hu
    cases hu
    rw [hstamp, hnow]
    exact ⟨hst, hcts⟩
  · intro ho
    rw [hstamp]
    refine h.owing t ?_
    unfold Latched.owing at ho ⊢
    rw [hc'] at ho
    rw [hc]
    exact ho

theorem publish_frame (hs : st.publish t = some st') : Frame st st' t := by
  obtain ⟨cts, wm, todo, -, hsec, -, -, hnow, hstamp, hcase⟩ := publish_spec hs
  refine hsec.frame (le_of_eq hnow.symm) ?_ fun u _ => by rw [hstamp]
  rcases hcase with ⟨-, hc, -⟩ | ⟨w, ws, row, -, hc, -⟩ <;> rw [hc] <;> simp

theorem Clock.publish (h : Clock st) (hs : st.publish t = some st') : Clock st' := by
  obtain ⟨cts, wm, todo, hc, -, hreg, hactive, -, hstamp, hcase⟩ := publish_spec hs
  have hframe := publish_frame hs
  rcases hcase with ⟨-, hc', -⟩ | ⟨w, ws, row, htodo, hc', -⟩
  · refine h.of_same hframe hactive hreg (by rw [hstamp]) ?_ ?_ ?_ ?_
    · intro _ he
      rw [hc'] at he
      cases he
    · rw [hc, hc']
      exact fun _ => id
    · rw [hc, hc']
      exact fun _ => id
    · intro ho
      refine absurd ?_ ho
      unfold Latched.owing
      rw [hc']
  · refine h.of_same hframe hactive hreg (by rw [hstamp]) ?_ ?_ ?_ ?_
    · intro _ he
      rw [hc'] at he
      cases he
    · rw [hc, hc']
      exact fun _ => id
    · rw [hc, hc']
      exact fun _ => id
    · intro _
      unfold Latched.owing
      rw [hc, htodo]
      exact List.cons_ne_nil w ws

theorem Finished.frame (hf : Finished st st' t) : Frame st st' t where
  toStepOf := hf.toStepOf
  readTs := by
    obtain ⟨x, hx, -, -, -, hrts⟩ := hf.ended
    rw [Db.txn, hx]
    exact hrts
  now := le_of_eq hf.lastCommitTs.symm
  reader := fun hr => absurd hr.1 hf.not_live
  stampOf := fun u _ => by rw [hf.stampOf]

theorem Clock.reclaim (h : Clock st) (hl : Locks st) (hs : st.reclaim t = some st') : Clock st' := by
  obtain ⟨cts, wm, todo, hc, hcase⟩ := reclaim_spec hs
  rcases hcase with ⟨-, heq⟩ | ⟨w, ws, -, hc', hsec, -, -, hreg, hactive, hnow, hstamp⟩
  · have hf : Finished st st' t := by
      rw [heq]
      exact finished (hl.not_pending (not_unrestored hc (by simp) (by simp)))
    refine h.of_same hf.frame hf.activeRts hf.registered (by rw [hf.stampOf])
      (fun hlive => absurd hlive hf.not_live) ?_ ?_ ?_
    · rw [hf.commitAt_self]
      exact fun wm hu => by cases hu
    · rw [hf.commitAt_self]
      exact fun cts hu => by cases hu
    · intro ho
      refine absurd ?_ ho
      unfold Latched.owing
      rw [hf.commitAt_self]
  · refine h.of_same (hsec.frame (le_of_eq hnow.symm) (by rw [hc']; simp) fun u _ => by rw [hstamp]) hactive
      hreg (by rw [hstamp]) ?_ ?_ ?_ ?_
    · intro _ he
      rw [hc'] at he
      cases he
    · rw [hc, hc']
      exact fun _ => id
    · rw [hc, hc']
      exact fun _ => id
    · intro ho
      refine absurd ?_ ho
      unfold Latched.owing
      rw [hc']

/-! ## All steps -/

theorem Clock.step (h : Clock st) (hl : Locks st) {a : LatchAct} (hcare : st.Careful a)
    (hs : st.step a = some st') : Clock st' := by
  have hwrite : a.writes = true → Clock st' := by
    intro ha
    obtain ⟨t, r, old, db', ht, -, hv, -, heq⟩ := write_versioned hs ha
    rw [heq]
    exact h.versioned ht hv
  cases a with
  | beginRead explicit iso => exact h.beginRead hl hcare hs
  | register => exact h.register hs hl
  | mvccInsert t r data =>
      obtain ⟨⟨ht, -⟩, heq⟩ := Option.ite_none_right_eq_some.1 hs
      cases heq
      exact h.row_write (insert_write st.db t r data) ht
  | mvccWrite t r old new => exact hwrite rfl
  | mvccWriteColDelta t r visible off type deltaF deltaI => exact hwrite rfl
  | mvccWriteColPatch t r visible patches => exact hwrite rfl
  | release t =>
      obtain ⟨ht, heq⟩ := Option.ite_none_right_eq_some.1 hs
      cases heq
      exact h.of_outside (release_frame ht) ht.1 ht.2.1 ht.2.1 (release_fields st.db t).2.2.1 rfl rfl
  | abort t => exact h.abort hs
  | startCommit t => exact h.startCommit hs
  | restore t r => exact h.restore hl hs
  | stamp t => exact h.stamp_step hl hs
  | watermark t => exact h.watermark_step hl hcare hs
  | publish t => exact h.publish hs
  | reclaim t => exact h.reclaim hl hs
  | readHeap t r =>
      obtain ⟨ht, heq⟩ := Option.ite_none_right_eq_some.1 hs
      cases heq
      exact h.of_outside (read_frame (t := t) fun _ _ => rfl) ht.1 ht.2.1 ht.2.1 rfl rfl rfl
  | mvccRead t =>
      obtain ⟨r, heap, -, ht, heq⟩ := mvccRead_spec hs
      rw [heq]
      exact h.of_outside (read_frame (t := t) fun u hu => Function.update_of_ne hu _ _) ht.1 ht.2.1
        ht.2.1 rfl rfl rfl

theorem boot_clock (tabs : TabName → TabMeta) (files : TabName → RmFileHdr) (heap : RowId → Slot)
    (index : IndexId → IndexMap) : Clock (boot tabs files heap index) where
  readTs := fun _ _ => le_rfl
  active := List.Perm.refl _
  registered := by
    rintro u ⟨x, hx, -⟩
    cases hx
  known := fun u hu => by cases hu
  watermark := fun t wm hu => by cases hu
  stamp := fun t cts hu => by cases hu
  owing := fun t ho => absurd rfl ho

end Latched

end Rmdb.Txn
