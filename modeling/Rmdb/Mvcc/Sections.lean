import Rmdb.Mvcc.Locks

/-!
# The latched sections keep the holds of rows

What each section of begin, commit and `mvcc_read` changes, and that `Locks` survives it.
-/

namespace Rmdb.Txn

open Rmdb.Index (Rid)

/-- Is the section one of the three write routines? -/
def LatchAct.writes : LatchAct → Bool
  | .mvccWrite .. | .mvccWriteColDelta .. | .mvccWriteColPatch .. => true
  | _ => false

/-- The row that `mvcc_write_col_delta` writes; it looks for no delete. -/
def LatchAct.deltaRow : LatchAct → Option RowId
  | .mvccWriteColDelta _ r .. => some r
  | _ => none

/-- A free slot has neither a writer nor a pending one. -/
theorem RowLock.free {row : Row} {V : LockView} (h : RowLock row V) (hfree : row.slot.isRecord = false) :
    row.writer = none ∧ row.pending = none := by
  have hnot : ¬ (row.writer.isSome ∨ row.pending.isSome) := by
    intro hor
    rw [h.held hor] at hfree
    cases hfree
  rw [not_or, Bool.not_eq_true, Bool.not_eq_true, Option.isSome_eq_false_iff,
    Option.isSome_eq_false_iff, Option.isNone_iff_eq_none, Option.isNone_iff_eq_none] at hnot
  exact hnot

section
variable {row row' : Row} {V V' : LockView} {t : TxnId}

/-- A step that ends the hold of `t` on a row. -/
theorem RowLock.emptied (h : RowLock row V) (hothers : ∀ u, u ≠ t → V.Agree V' u)
    (hw : ∀ u, row.writer = some u → u = t) (hp : ∀ u, row.pending = some u → u = t)
    (hw' : row'.writer = none) (hp' : row'.pending = none)
    (hgone : V'.live t → ¬ V'.outside t ∧ ¬ V'.unrestored t)
    (htouches : (V'.overlay t).isSome → V'.touches t)
    (hodata : ∀ ov, V'.overlay t = some ov → ov.isDeleted = true ∨ ov.data.bytes ≠ []) :
    RowLock row' V' := by
  refine h.change hothers ?_ ?_ ?_ ?_ ?_ ?_ ?_ (fun hl hu => absurd hu (hgone hl).2) htouches
    (fun hl ho => absurd ho (hgone hl).1) hodata
  · intro u hu
    rw [hw']
    exact ⟨fun hn => (by cases hn), fun hn => absurd (hw u hn) hu⟩
  · intro u hu
    rw [hp']
    exact ⟨fun hn => (by cases hn), fun hn => absurd (hp u hn) hu⟩
  · intro u v hu
    rw [hw'] at hu
    cases hu
  · rw [hp']
    exact fun hn => by cases hn
  · rw [hw', hp']
    exact fun hor => by rcases hor with hor | hor <;> cases hor
  · intro c u hc hu
    have := (Row.writer_chain hc).symm.trans hw'
    rw [hu] at this
    cases this
  · rw [hp']
    exact fun hn => by cases hn

/-- A step of a transaction whose overlays are back in the chains, or were never there. -/
theorem RowLock.past (h : RowLock row V) (hothers : ∀ u, u ≠ t → V.Agree V' u)
    (hpast : row.pending ≠ some t) (hgone : V'.live t → ¬ V'.outside t ∧ ¬ V'.unrestored t)
    (htouches : (V'.overlay t).isSome → V'.touches t)
    (hodata : ∀ ov, V'.overlay t = some ov → ov.isDeleted = true ∨ ov.data.bytes ≠ []) :
    RowLock row V' :=
  h.keep hothers (fun hp => absurd hp hpast) (fun hl hu => absurd hu (hgone hl).2) htouches
    (fun hl ho => absurd ho (hgone hl).1) hodata

end

namespace Latched

variable {st st' : Latched} {t : TxnId} {r : RowId} {old : Image}

theorem Ready.live (h : st.Ready t) : st.db.Live t := h.1

theorem chainOf_of_some {db : Db} {c : MvccChain} (h : (db.rows r).chain = some c) : db.chainOf r = c := by
  rw [Db.chainOf, h]
  rfl

theorem chainOf_writer (db : Db) (r : RowId) : (db.chainOf r).writer = (db.rows r).writer := by
  unfold Db.chainOf Row.writer
  cases (db.rows r).chain with
  | none => rfl
  | some c => rfl

theorem chainOf_of_writer {db : Db} {u : TxnId} (h : (db.chainOf r).writer = some u) :
    (db.rows r).chain = some (db.chainOf r) := by
  rw [chainOf_writer] at h
  obtain ⟨c, hc, -⟩ := Row.writer_some.1 h
  rw [hc, chainOf_of_some hc]

/-- A write that takes nothing leaves the holder of the row as it is. -/
theorem Locks.touched (h : Locks st) (ht : st.Ready t) {db' : Db}
    (hw : RowWrite st.db db' t r ((st.db.rows r).withChain (st.db.chainOf r)) [] true) :
    Locks { st with db := db' } := by
  refine h.row_write ht hw ?_ (fun w hw => by cases hw) (.inl ⟨chainOf_writer st.db r, rfl⟩)
    fun u hu => (h.rows r).data _ u (chainOf_of_writer hu) hu
  rw [chainOf_writer]
  exact (h.rows r).held

theorem Locks.refused (h : Locks st) (ht : st.Ready t) {db' : Db} (hr : Refused st.db t r db') :
    Locks { st with db := db' } := by
  rcases hr with rfl | ⟨hw, -⟩
  · exact h
  · exact h.touched ht hw

theorem Locks.versioned (h : Locks st) (ht : st.Ready t) (hrec : (st.db.rows r).slot.isRecord = true)
    {db' : Db} (hv : Versioned st.db t r old db') : Locks { st with db := db' } := by
  cases hv with
  | same => exact h
  | touched hw why => exact h.touched ht hw
  | took hw free hwriter hhist hdata hws =>
      refine h.row_write ht hw (fun _ => hrec) hws (.inr ⟨hwriter, ?_, fun u => pending_of_free free⟩)
        fun _ _ => hdata
      intro u hu
      rw [← chainOf_writer] at hu
      rcases writer_of_free free with hnone | hself
      · rw [hnone] at hu
        cases hu
      · rw [hself] at hu
        exact (Option.some.inj hu).symm

theorem write_inv {fits : Bool} {out : WriteOutcome} (hs : st.write t r old fits out = some st') :
    st.Ready t ∧ st.hasRead t r old = true ∧ 0 < (st.db.tabs r.tab).recordSize ∧ fits = true ∧
      ∃ db', out.db? = some db' ∧ st' = { st with db := db' } := by
  unfold Latched.write at hs
  obtain ⟨⟨h1, h2, h3, h4⟩, hs⟩ := Option.ite_none_right_eq_some.1 hs
  obtain ⟨db', hdb, heq⟩ := Option.map_eq_some_iff.1 hs
  exact ⟨h1, h2, h3, h4, db', hdb, heq.symm⟩

/-- The row once an insert has filled its slot. -/
theorem insert_write (db : Db) (t : TxnId) (r : RowId) (data : Bytes) :
    RowWrite db ((db.mvccInsert t r data).fillSlot r ⟨data, some t⟩) t r
      { db.rows r with slot := ⟨true, ⟨data, some t⟩⟩, chain := some { db.chainOf r with
        hist := [], writer := some t, writerDel := false, writerData := ⟨data, some t⟩ } }
      [⟨.insertTuple, r, .empty⟩] true := by
  have h1 := mvccInsert_write db t r data
  have h2 := h1.trans (RowWrite.fillSlot _ t r ⟨data, some t⟩)
  rwa [h1.row_self, List.append_nil, Bool.or_false] at h2

theorem Locks.insert (h : Locks st) {data : Bytes} (hs : st.insert t r data = some st') : Locks st' := by
  obtain ⟨⟨ht, hfree, hdata⟩, heq⟩ := Option.ite_none_right_eq_some.1 hs
  cases heq
  obtain ⟨hw, hp⟩ := (h.rows r).free hfree
  refine h.row_write ht (insert_write st.db t r data) (fun _ => rfl) ?_ (.inr ⟨rfl, ?_, ?_⟩) fun _ _ => .inr hdata
  · intro w hw
    rw [List.mem_singleton.1 hw]
  · intro u hu
    rw [hw] at hu
    cases hu
  · intro u hu
    rw [hp] at hu
    cases hu

/-! ## The other steps before commit -/

theorem Locks.release (h : Locks st) (hs : st.release t = some st') : Locks st' := by
  obtain ⟨⟨hlive, hout, hb⟩, heq⟩ := Option.ite_none_right_eq_some.1 hs
  cases heq
  have hsome := (Txn.live_iff.1 hlive).1
  have hf := release_fields st.db t
  have hstep : StepOf st { st with db := st.db.releaseStatementWrites t } t :=
    ⟨⟨fun u hu => release_txns_ne hu, fun _ _ => rfl, fun _ _ => rfl⟩, hf.1, rfl⟩
  have hlive' : (st.db.releaseStatementWrites t).Live t := (release_live_iff hsome t).2 hlive
  have htouch : ∀ r, ((st.db.releaseStatementWrites t).txn t).touches r = (st.db.txn t).touches r :=
    fun r => release_proj (fun x => x.touches r) (fun _ _ => rfl) t
  have hclaims : ∀ r, Claims { st with db := st.db.releaseStatementWrites t } t r → st.Claims t r := by
    intro r hc
    unfold Claims at hc
    rwa [htouch] at hc
  refine h.of_step hstep hlive hb (fun hne => absurd hout hne) ?_ fun r => ?_
  · intro r hr
    have hdirty : (st.db.releaseStatementWrites t).tableIsDirty r.tab = st.db.tableIsDirty r.tab := by
      rw [Db.tableIsDirty, hf.2.2.2.2.1, hf.2.2.2.2.2.1]
      rfl
    rw [hdirty]
    refine h.dirty r ?_
    rcases release_row st.db t r with ⟨hrow, -⟩ | ⟨c, -, hc, -⟩
    · rwa [hrow] at hr
    · rw [hc]
      rfl
  · have hrow := h.rows r
    show RowLock ((st.db.releaseStatementWrites t).rows r) _
    rcases release_row st.db t r with ⟨heq, hov⟩ | ⟨c, htc, hc, hw, -, heq, hov⟩
    · rw [heq]
      refine hrow.keep (fun u hu => hstep.toOthers.agree r hu) ?_ ?_ ?_ ?_ ?_
      · intro hp
        obtain ⟨-, h2, -, h3⟩ := hrow.pending t hp
        exact ⟨hlive', by show ((Db.txn _ t).overlay r).isSome = true; rw [hov]; exact h2, h3⟩
      · intro _ h2 h3
        change ((Db.txn _ t).overlay r).isSome = true at h3
        rw [hov] at h3
        exact hrow.overlay t hlive h2 h3
      · intro ho
        change ((Db.txn _ t).overlay r).isSome = true at ho
        show (Db.txn _ t).touches r = true
        rw [hov] at ho
        rw [htouch]
        exact hrow.touches t ho
      · exact fun _ h2 h3 => hrow.owns t hlive h2 (hclaims r h3)
      · intro ov ho
        change (Db.txn _ t).overlay r = some ov at ho
        rw [hov] at ho
        exact hrow.overlayData t ov ho
    · rw [heq]
      have hwriter := (Row.writer_chain hc).trans hw
      refine hrow.change (fun u hu => hstep.toOthers.agree r hu) ?_ ?_ ?_ (fun _ => rfl) ?_ ?_ ?_ (fun _ _ _ => rfl)
        ?_ (fun _ _ _ => .inr rfl) ?_
      · intro u hu
        rw [hwriter]
        exact ⟨fun hn => (by cases hn), fun hn => absurd (Option.some.inj hn).symm hu⟩
      · intro u hu
        refine ⟨fun hn => absurd (Option.some.inj hn).symm hu, fun hn => ?_⟩
        exact absurd (hrow.owner t u hwriter hn).symm hu
      · exact fun u v hu => by cases hu
      · exact fun _ => hrow.held (.inl (by rw [hwriter]; rfl))
      · intro c' u hc' hu
        cases hc'
        cases hu
      · intro _
        exact ⟨hlive', by show ((Db.txn _ t).overlay r).isSome = true; rw [hov]; rfl, .inl hout⟩
      · intro _
        show (Db.txn _ t).touches r = true
        rw [htouch]
        exact htc
      · intro ov ho
        change (Db.txn _ t).overlay r = some ov at ho
        rw [hov] at ho
        cases ho
        exact hrow.data c t hc hw

/-- A transaction that has not begun to commit holds every row that it has written. -/
theorem Locks.held (h : Locks st) (ht : st.Ready t) (hr : st.Claims t r) :
    ∃ c, (st.db.restored t r).chain = some c ∧ c.writer = some t ∧ (st.db.restored t r).pending = none ∧
      (∀ u, (st.db.rows r).writer = some u → u = t) ∧ ∀ u, (st.db.rows r).pending = some u → u = t := by
  obtain ⟨hlive, hout, -⟩ := ht
  have hrow := h.rows r
  have hown := hrow.owns t hlive hout hr
  have hwriters : ∀ u, (st.db.rows r).writer = some u → u = t := by
    intro u hu
    rcases hown with hw | hp
    · rw [hw] at hu
      exact (Option.some.inj hu).symm
    · exact hrow.owner u t hu hp
  have hpendings : ∀ u, (st.db.rows r).pending = some u → u = t := by
    intro u hu
    rcases hown with hw | hp
    · exact (hrow.owner t u hw hu).symm
    · rw [hp] at hu
      exact (Option.some.inj hu).symm
  cases hov : (st.db.txn t).overlay r with
  | none =>
      have hnot : (st.db.rows r).pending = none := by
        cases hp : (st.db.rows r).pending with
        | none => rfl
        | some u =>
            have hsome := (hrow.pending u hp).2.1
            rw [hpendings u hp] at hsome
            change ((st.db.txn t).overlay r).isSome = true at hsome
            rw [hov] at hsome
            cases hsome
      have hw := hown.resolve_right fun hp => by rw [hnot] at hp; cases hp
      obtain ⟨c, hc, hcw⟩ := Row.writer_some.1 hw
      rw [restored_of_none hov]
      exact ⟨c, hc, hcw, hnot, hwriters, hpendings⟩
  | some ov =>
      refine ⟨{ (st.db.rows r).chain.getD {} with
        writer := some t, writerDel := ov.isDeleted, writerData := ov.data }, ?_, rfl,
        restored_pending (by rw [hov]; rfl), hwriters, hpendings⟩
      simp only [Db.restored, Db.restoreWritersFromOverlays, hov]

/-- The rows after an abort. -/
theorem Locks.abort_row (h : Locks st) (ht : st.Ready t) (r : RowId) :
    ((st.db.txn t).touches r = false ∧ (st.db.abort t).rows r = st.db.rows r) ∨
    ∃ c, (st.db.restored t r).chain = some c ∧ c.writer = some t ∧ (st.db.txn t).touches r = true ∧
      (st.db.abort t).rows r = Db.undoVersionedRow c (st.db.restored t r) := by
  have ha := abort_spec ht.live.live
  cases htouch : (st.db.txn t).touches r with
  | false =>
      refine .inl ⟨rfl, ?_⟩
      rw [ha.rows r, undoRow_nil_of_untouched htouch]
      refine restored_of_none ?_
      by_contra hne
      have := (h.rows r).touches t (Option.isSome_iff_ne_none.2 hne)
      change (st.db.txn t).touches r = true at this
      rw [htouch] at this
      cases this
  | true =>
      obtain ⟨c, hc, hw, -⟩ := h.held ht (.inl htouch)
      refine .inr ⟨c, hc, hw, rfl, ?_⟩
      rw [ha.rows r, undoRow_versioned htouch hc hw]

theorem Locks.abort (h : Locks st) (hs : st.abort t = some st') : Locks st' := by
  obtain ⟨ht, heq⟩ := Option.ite_none_right_eq_some.1 hs
  cases heq
  obtain ⟨hlive, hout, hb⟩ := ht
  have ha := abort_spec hlive.live
  have hstep : StepOf st { st with db := st.db.abort t, registered := st.registered.erase t } t :=
    ⟨⟨ha.others, fun _ _ => rfl, fun _ _ => rfl⟩, ha.nextTxnId, rfl⟩
  have hdead : ¬ (st.db.abort t).Live t := ha.ended.not_live
  have hov : ∀ r, ((st.db.abort t).txn t).overlay r = none := by
    intro r
    rw [Db.txn, ha.self]
    rfl
  refine h.of_step hstep hlive hb (fun hne => absurd hout hne) ?_ fun r => ?_
  · intro r hr
    rcases ha.chains r hr with hres | hd
    · refine ha.dirty _ (h.dirty r ?_)
      cases hov : (st.db.txn t).overlay r with
      | none => rwa [restored_of_none hov] at hres
      | some ov =>
          have hp := (h.rows r).overlay t hlive (.inl hout) (by
            show ((st.db.txn t).overlay r).isSome = true
            rw [hov]
            rfl)
          exact ((h.rows r).pending t hp).2.2.1
    · exact hd
  · have hrow := h.rows r
    have hodata : ∀ ov, ((st.db.abort t).txn t).overlay r = some ov →
        ov.isDeleted = true ∨ ov.data.bytes ≠ [] := by
      intro ov ho
      rw [hov] at ho
      cases ho
    have htouches : (((st.db.abort t).txn t).overlay r).isSome →
        ((st.db.abort t).txn t).touches r = true := by
      intro ho
      rw [hov] at ho
      cases ho
    rcases h.abort_row ⟨hlive, hout, hb⟩ r with ⟨htouch, heq⟩ | ⟨c, hc, hw, htouch, heq⟩
    · show RowLock ((st.db.abort t).rows r) _
      rw [heq]
      refine hrow.past (fun u hu => hstep.toOthers.agree r hu) ?_ (fun hl => absurd hl hdead) htouches hodata
      intro hp
      have := hrow.touches t (hrow.pending t hp).2.1
      change (st.db.txn t).touches r = true at this
      rw [htouch] at this
      cases this
    · obtain ⟨c', hc', -, hpend, hwriters, hpendings⟩ := h.held ⟨hlive, hout, hb⟩ (.inl htouch)
      show RowLock ((st.db.abort t).rows r) _
      rw [heq]
      exact hrow.emptied (fun u hu => hstep.toOthers.agree r hu) hwriters hpendings rfl hpend
        (fun hl => absurd hl hdead) htouches hodata

/-! ## Commit -/

theorem setCommitAt_self (st : Latched) (t : TxnId) (c : CommitAt) :
    (st.setCommitAt t c).commitAt t = c := Function.update_self _ _ _

theorem setCommitAt_ne (st : Latched) {t u : TxnId} (c : CommitAt) (hu : u ≠ t) :
    (st.setCommitAt t c).commitAt u = st.commitAt u := Function.update_of_ne hu _ _

/-- A step of a `commit` that has its overlays back leaves the rows and the write set alone. -/
theorem Locks.later (h : Locks st) (hs : StepOf st st' t) (hbusy : st.commitAt t ≠ .outside)
    (hdone : ∀ r, ¬ st.Unrestored t r)
    (hgone : st'.db.Live t → st'.commitAt t ≠ .outside ∧ ∀ r, ¬ st'.Unrestored t r)
    (hlive : st'.commitAt t ≠ .outside → st'.db.Live t)
    (hdirty : ∀ tab, st.db.tableIsDirty tab = true → st'.db.tableIsDirty tab = true)
    (hov : ∀ r ov, (st'.db.txn t).overlay r = some ov →
      (st.db.txn t).overlay r = some ov ∧ (st'.db.txn t).touches r = true)
    (hrows : ∀ r, (st'.db.rows r).writer = none ∧ (st'.db.rows r).pending = none ∧
        (∀ u, (st.db.rows r).writer = some u → u = t) ∧ (st.db.rows r).pending = none ∧
        ((st'.db.rows r).chain.isSome → (st.db.rows r).chain.isSome) ∨
      st'.db.rows r = st.db.rows r) : Locks st' := by
  obtain ⟨hl, hb⟩ := h.busy t hbusy
  refine h.of_step hs hl hb hlive ?_ fun r => ?_
  · intro r hr
    refine hdirty _ (h.dirty r ?_)
    rcases hrows r with ⟨-, -, -, -, hchain⟩ | heq
    · exact hchain hr
    · rwa [heq] at hr
  · have hrow := h.rows r
    have htouches : ((st'.db.txn t).overlay r).isSome → (st'.db.txn t).touches r = true := by
      intro ho
      obtain ⟨ov, ho⟩ := Option.isSome_iff_exists.1 ho
      exact (hov r ov ho).2
    have hodata : ∀ ov, (st'.db.txn t).overlay r = some ov → ov.isDeleted = true ∨ ov.data.bytes ≠ [] :=
      fun ov ho => hrow.overlayData t ov (hov r ov ho).1
    have hgone' : st'.db.Live t → ¬ st'.commitAt t = .outside ∧ ¬ st'.Unrestored t r :=
      fun hl => ⟨(hgone hl).1, (hgone hl).2 r⟩
    rcases hrows r with ⟨hw', hp', hw, hp, -⟩ | heq
    · refine hrow.emptied (fun u hu => hs.toOthers.agree r hu) hw ?_ hw' hp' hgone' htouches hodata
      intro u hu
      rw [hp] at hu
      cases hu
    · rw [heq]
      exact hrow.past (fun u hu => hs.toOthers.agree r hu) (fun hp => hdone r (hrow.pending t hp).2.2.2) hgone'
        htouches hodata

theorem Locks.startCommit (h : Locks st) (hs : st.startCommit t = some st') : Locks st' := by
  obtain ⟨⟨hlive, hout, hb⟩, heq⟩ := Option.ite_none_right_eq_some.1 hs
  cases heq
  have hstep : StepOf st (st.setCommitAt t (.restoring (st.overlayRows t))) t :=
    ⟨⟨fun _ _ => rfl, fun u hu => setCommitAt_ne st _ hu, fun _ _ => rfl⟩, rfl, rfl⟩
  have hself := setCommitAt_self st t (.restoring (st.overlayRows t))
  refine h.of_step hstep hlive hb (fun _ => hlive) h.dirty fun r => ?_
  have hrow := h.rows r
  refine hrow.keep (fun u hu => hstep.toOthers.agree r hu) ?_ ?_ (hrow.touches t) ?_ (hrow.overlayData t)
  · intro hp
    obtain ⟨h1, h2, -, -⟩ := hrow.pending t hp
    refine ⟨h1, h2, .inr ⟨_, hself, List.mem_filter.2 ⟨?_, h2⟩⟩⟩
    obtain ⟨w, hmem, hwr⟩ := touches_mem (hrow.touches t h2)
    exact List.mem_map.2 ⟨w, hmem, hwr⟩
  · exact fun h1 _ h3 => hrow.overlay t h1 (.inl hout) h3
  · intro _ ho
    change (st.setCommitAt t _).commitAt t = _ at ho
    rw [hself] at ho
    cases ho

theorem restore_spec (hs : st.restore t r = some st') : ∃ todo ov, st.commitAt t = .restoring todo ∧
    (st.db.txn t).overlay r = some ov ∧ r ∈ todo ∧
    st' = ({ st with db := st.db.setRow r (restoreRow t ov (st.db.rows r)) } : Latched).setCommitAt t
      (.restoring (todo.filter fun r' => r' ≠ r)) := by
  unfold Latched.restore at hs
  split at hs
  · rename_i todo ov hc hov
    obtain ⟨hmem, heq⟩ := Option.ite_none_right_eq_some.1 hs
    exact ⟨todo, ov, hc, hov, hmem, (Option.some.inj heq).symm⟩
  · cases hs

theorem Locks.restore (h : Locks st) (hs : st.restore t r = some st') : Locks st' := by
  obtain ⟨todo, ov, hc, hov, hmem, heq⟩ := restore_spec hs
  obtain ⟨hlive, hb⟩ := h.busy t (by rw [hc]; exact fun hn => by cases hn)
  have hself : st'.commitAt t = .restoring (todo.filter fun r' => r' ≠ r) := by
    rw [heq]
    exact setCommitAt_self _ _ _
  have hstep : StepOf st st' t := by
    rw [heq]
    exact ⟨⟨fun _ _ => rfl, fun u hu => setCommitAt_ne _ _ hu, fun _ _ => rfl⟩, rfl, rfl⟩
  have hrows : st'.db.rows = Function.update st.db.rows r (restoreRow t ov (st.db.rows r)) := by
    rw [heq]
    rfl
  have htxns : st'.db.txns = st.db.txns := by
    rw [heq]
    rfl
  have htxn : st'.db.txn t = st.db.txn t := Db.txn_congr (congrFun htxns t)
  have hlive' : st'.db.Live t := by
    unfold Db.Live
    rw [htxns]
    exact hlive
  have hp : (st.db.rows r).pending = some t := by
    refine (h.rows r).overlay t hlive (.inr ⟨todo, hc, hmem⟩) ?_
    show ((st.db.txn t).overlay r).isSome = true
    rw [hov]
    rfl
  refine h.of_step hstep hlive hb (fun _ => hlive') ?_ fun r' => ?_
  · intro r' hr'
    have hd : st'.db.tableIsDirty r'.tab = st.db.tableIsDirty r'.tab := by
      rw [heq]
      rfl
    rw [hd]
    refine h.dirty r' ?_
    rw [hrows] at hr'
    rcases eq_or_ne r' r with rfl | hne
    · exact ((h.rows r').pending t hp).2.2.1
    · rwa [Function.update_of_ne hne] at hr'
  · have hrow := h.rows r'
    have htouches : ((st'.db.txn t).overlay r').isSome → (st'.db.txn t).touches r' = true := by
      rw [htxn]
      exact hrow.touches t
    have hodata : ∀ ov, (st'.db.txn t).overlay r' = some ov → ov.isDeleted = true ∨ ov.data.bytes ≠ [] := by
      rw [htxn]
      exact hrow.overlayData t
    have howns : st'.db.Live t → st'.commitAt t = .outside → st'.Claims t r' →
        (st'.db.rows r').writer = some t ∨ (st'.db.rows r').pending = some t := by
      intro _ ho
      rw [hself] at ho
      cases ho
    show RowLock (st'.db.rows r') _
    rcases eq_or_ne r' r with rfl | hne
    · -- the row leaves the overlay of `t`, which has held it, for its chain
      rw [hrows, Function.update_self] at howns ⊢
      refine hrow.change (fun u hu => hstep.toOthers.agree _ hu) ?_ ?_ ?_ ?_ ?_ ?_ ?_ ?_ htouches howns hodata
      · intro u hu
        refine ⟨fun hw => absurd (Option.some.inj hw).symm hu, fun hw => ?_⟩
        exact absurd (hrow.owner u t hw hp) hu
      · intro u hu
        rw [hp]
        exact ⟨fun hn => (by cases hn), fun hn => absurd (Option.some.inj hn).symm hu⟩
      · exact fun u v _ hv => by cases hv
      · exact fun hn => by cases hn
      · exact fun _ => hrow.held (.inr (by rw [hp]; rfl))
      · intro c u hc' _
        cases hc'
        exact hrow.overlayData t ov hov
      · exact fun hn => by cases hn
      · rintro - (ho | ⟨todo', ho, hr⟩)
        · rw [hself] at ho
          cases ho
        · rw [hself] at ho
          cases ho
          simp at hr
    · rw [hrows, Function.update_of_ne hne] at howns ⊢
      refine hrow.keep (fun u hu => hstep.toOthers.agree r' hu) ?_ ?_ htouches howns hodata
      · intro hpt
        obtain ⟨-, h2, -, h3⟩ := hrow.pending t hpt
        refine ⟨hlive', ?_, ?_⟩
        · show ((st'.db.txn t).overlay r').isSome = true
          rw [htxn]
          exact h2
        · rcases h3 with ho | ⟨todo', ho, hr⟩
          · rw [hc] at ho
            cases ho
          · rw [hc] at ho
            cases ho
            exact .inr ⟨_, hself, List.mem_filter.2 ⟨hr, decide_eq_true hne⟩⟩
      · intro _ hun ho
        change ((st'.db.txn t).overlay r').isSome = true at ho
        rw [htxn] at ho
        refine hrow.overlay t hlive ?_ ho
        rcases hun with hout | ⟨todo', htodo, hr⟩
        · rw [hself] at hout
          cases hout
        · rw [hself] at htodo
          cases htodo
          exact .inr ⟨todo, hc, (List.mem_filter.1 hr).1⟩

/-- What the sections of a commit leave alone, up to the last one. -/
structure Section (st st' : Latched) (t : TxnId) : Prop extends StepOf st st' t where
  ownReads : st'.reads t = st.reads t
  heapData : st'.heapData = st.heapData
  live : st.db.Live t → st'.db.Live t
  overlay : (st'.db.txn t).overlay = (st.db.txn t).overlay
  writeSet : (st'.db.txn t).writeSet = (st.db.txn t).writeSet
  readTs : (st'.db.txn t).readTs = (st.db.txn t).readTs
  dirty : ∀ tab, st'.db.tableIsDirty tab = st.db.tableIsDirty tab

/-- A section that leaves the transactions as they are. -/
theorem Section.of_db {db : Db} {hist : RowId → List MvccVer} {reg : List TxnId} {c : CommitAt}
    (htxns : db.txns = st.db.txns) (hnext : db.nextTxnId = st.db.nextTxnId)
    (hdirty : ∀ tab, db.tableIsDirty tab = st.db.tableIsDirty tab) :
    Section st (({ st with db := db, history := hist, registered := reg } : Latched).setCommitAt t c) t where
  txns := fun u _ => congrFun htxns u
  commitAt := fun u hu => setCommitAt_ne _ _ hu
  reads := fun _ _ => rfl
  next := hnext
  beginner := rfl
  ownReads := rfl
  heapData := rfl
  live := by
    show st.db.Live t → db.Live t
    unfold Db.Live
    rw [htxns]
    exact id
  overlay := congrArg Transaction.overlay (Db.txn_congr (congrFun htxns t))
  writeSet := congrArg Transaction.writeSet (Db.txn_congr (congrFun htxns t))
  readTs := congrArg Transaction.readTs (Db.txn_congr (congrFun htxns t))
  dirty := hdirty

theorem Section.touches (h : Section st st' t) (r : RowId) :
    (st'.db.txn t).touches r = (st.db.txn t).touches r := by
  unfold Transaction.touches
  rw [h.writeSet]

theorem Locks.section (h : Locks st) (hs : Section st st' t) (hbusy : st.commitAt t ≠ .outside)
    (hdone : ∀ r, ¬ st.Unrestored t r) (hout : st'.commitAt t ≠ .outside)
    (hdone' : ∀ r, ¬ st'.Unrestored t r)
    (hrows : ∀ r, (st'.db.rows r).writer = none ∧ (st'.db.rows r).pending = none ∧
        (∀ u, (st.db.rows r).writer = some u → u = t) ∧ (st.db.rows r).pending = none ∧
        ((st'.db.rows r).chain.isSome → (st.db.rows r).chain.isSome) ∨
      st'.db.rows r = st.db.rows r) : Locks st' := by
  refine h.later hs.toStepOf hbusy hdone (fun _ => ⟨hout, hdone'⟩)
    (fun _ => hs.live (h.busy t hbusy).1) (fun tab ht => (hs.dirty tab).trans ht) ?_ hrows
  intro r ov ho
  rw [hs.overlay] at ho
  refine ⟨ho, ?_⟩
  rw [hs.touches]
  refine (h.rows r).touches t ?_
  show ((st.db.txn t).overlay r).isSome = true
  rw [ho]
  rfl

theorem not_unrestored {c : CommitAt} (h : st.commitAt t = c) (hc : c ≠ .outside)
    (hr : ∀ todo, c = .restoring todo → todo = []) (r : RowId) : ¬ st.Unrestored t r := by
  rintro (hout | ⟨todo, htodo, hmem⟩)
  · exact hc (h.symm.trans hout)
  · rw [hr todo (h.symm.trans htodo)] at hmem
    cases hmem

theorem Locks.not_pending (h : Locks st) (hdone : ∀ r, ¬ st.Unrestored t r) (r : RowId) :
    (st.db.rows r).pending ≠ some t := by
  intro hp
  exact hdone r ((h.rows r).pending t hp).2.2.2

theorem stamp_spec (hs : st.stamp t = some st') : st.commitAt t = .restoring [] ∧
    st'.commitAt t = .stamped (st.db.nextCts t) ∧ Section st st' t ∧ st'.db.rows = st.db.rows ∧
    st'.history = st.history ∧ st'.registered = st.registered ∧ st'.db.activeRts = st.db.activeRts ∧
    st'.db.lastCommitTs = max st.db.lastCommitTs (st.db.nextCts t) ∧
    st'.stampOf = Function.update st.stampOf t (st.db.nextCts t) := by
  obtain ⟨hc, heq⟩ := Option.ite_none_right_eq_some.1 hs
  cases heq
  have htxn : (st.db.modifyTxn t fun x => { x with commitTs := st.db.nextCts t }).txn t =
      { st.db.txn t with commitTs := st.db.nextCts t } := Db.txn_modifyTxn_self _ _ _
  refine ⟨hc, setCommitAt_self _ _ _, ?_, rfl, rfl, rfl, rfl, rfl, rfl⟩
  have hov := congrArg Transaction.overlay htxn
  have hws := congrArg Transaction.writeSet htxn
  have hrts := congrArg Transaction.readTs htxn
  exact {
    txns := fun u hu => Function.update_of_ne hu _ _
    commitAt := fun u hu => setCommitAt_ne _ _ hu
    reads := fun _ _ => rfl
    next := rfl
    beginner := rfl
    ownReads := rfl
    heapData := rfl
    live := by
      rintro ⟨x, hx, hl⟩
      refine ⟨{ st.db.txn t with commitTs := st.db.nextCts t }, Function.update_self _ _ _, ?_⟩
      rw [Db.txn, hx]
      exact hl
    overlay := hov
    writeSet := hws
    readTs := hrts
    dirty := fun _ => rfl }

theorem Locks.stamp (h : Locks st) (hs : st.stamp t = some st') : Locks st' := by
  obtain ⟨hc, hc', hsec, hrows, -⟩ := stamp_spec hs
  refine h.section hsec (by rw [hc]; simp) (not_unrestored hc (by simp) (by simp)) (by rw [hc']; simp)
    (not_unrestored hc' (by simp) (by simp)) fun r => .inr ?_
  rw [hrows]

theorem watermark_spec (hs : st.watermark t = some st') : ∃ cts, st.commitAt t = .stamped cts ∧
    st'.commitAt t = .publishing cts (st.pruneWm t cts) (st.db.txn t).writeSet ∧ Section st st' t ∧
    st'.db.rows = st.db.rows ∧ st'.history = st.history ∧ st'.registered = st.registered.erase t ∧
    st'.db.activeRts = st.db.activeRts.erase (st.db.txn t).readTs ∧
    st'.db.lastCommitTs = st.db.lastCommitTs ∧ st'.stampOf = st.stampOf := by
  unfold Latched.watermark at hs
  split at hs
  case h_2 => cases hs
  rename_i cts hc
  cases hs
  have hcore : ((st.leaveActive t).finishSer t true cts).core = (st.leaveActive t).core :=
    finishSer_core _ _ _ _
  refine ⟨cts, hc, setCommitAt_self _ _ _, Section.of_db (congrArg Core.txns hcore)
    (congrArg Core.nextTxnId hcore) ?_, congrArg Core.rows hcore, rfl, rfl, congrArg Core.activeRts hcore,
    congrArg Core.lastCommitTs hcore, rfl⟩
  intro tab
  have h1 : ((st.leaveActive t).finishSer t true cts).anyMvccDirty = st.db.anyMvccDirty :=
    congrArg Core.anyMvccDirty hcore
  have h2 : ((st.leaveActive t).finishSer t true cts).mvccDirty = st.db.mvccDirty :=
    congrArg Core.mvccDirty hcore
  rw [Db.tableIsDirty, h1, h2]
  rfl

theorem Locks.watermark (h : Locks st) (hs : st.watermark t = some st') : Locks st' := by
  obtain ⟨cts, hc, hc', hsec, hrows, -⟩ := watermark_spec hs
  refine h.section hsec (by rw [hc]; simp) (not_unrestored hc (by simp) (by simp)) (by rw [hc']; simp)
    (not_unrestored hc' (by simp) (by simp)) fun r => .inr ?_
  rw [hrows]

/-- What a section of publishing does: a row of the write set is published, or all are. -/
theorem publish_spec (hs : st.publish t = some st') : ∃ cts wm todo,
    st.commitAt t = .publishing cts wm todo ∧ Section st st' t ∧ st'.registered = st.registered ∧
    st'.db.activeRts = st.db.activeRts ∧ st'.db.lastCommitTs = st.db.lastCommitTs ∧
    st'.stampOf = st.stampOf ∧
    ((todo = [] ∧ st'.commitAt t = .reclaiming cts wm (st.db.txn t).writeSet ∧
        st'.db.rows = st.db.rows ∧ st'.history = st.history) ∨
      ∃ w ws row, todo = w :: ws ∧ st'.commitAt t = .publishing cts wm ws ∧
        Db.publishRow t cts wm (st.db.rows w.row) = some row ∧
        st'.db.rows = Function.update st.db.rows w.row row ∧
        st'.history = Function.update st.history w.row
          (st.history w.row ++ publishedVer t cts (st.db.rows w.row))) := by
  unfold Latched.publish at hs
  split at hs
  · rename_i cts wm w ws hc
    obtain ⟨row, hrow, heq⟩ := Option.map_eq_some_iff.1 hs
    subst heq
    refine ⟨cts, wm, w :: ws, hc, Section.of_db rfl rfl fun _ => rfl, rfl, rfl, rfl, rfl,
      .inr ⟨w, ws, row, rfl, setCommitAt_self _ _ _, hrow, rfl, rfl⟩⟩
  · rename_i cts wm hc
    cases hs
    refine ⟨cts, wm, [], hc, Section.of_db rfl rfl fun _ => rfl, rfl, rfl, rfl, rfl,
      .inl ⟨rfl, setCommitAt_self _ _ _, rfl, rfl⟩⟩
  · cases hs

theorem Locks.publish (h : Locks st) (hs : st.publish t = some st') : Locks st' := by
  obtain ⟨cts, wm, todo, hc, hsec, -, -, -, -, hcase⟩ := publish_spec hs
  have hdone := not_unrestored hc (by simp) (by simp)
  have hpend := h.not_pending hdone
  rcases hcase with ⟨-, hc', hrows, -⟩ | ⟨w, ws, row, -, hc', hpub, hrows, -⟩
  · refine h.section hsec (by rw [hc]; simp) hdone (by rw [hc']; simp)
      (not_unrestored hc' (by simp) (by simp)) fun r => .inr ?_
    rw [hrows]
  · refine h.section hsec (by rw [hc]; simp) hdone (by rw [hc']; simp)
      (not_unrestored hc' (by simp) (by simp)) fun r => ?_
    rw [hrows]
    rcases eq_or_ne r w.row with rfl | hne
    · rw [Function.update_self]
      rcases publishRow_cases hpub with ⟨heq, -⟩ | ⟨c, slot, hchain, hw, heq, -⟩
      · exact .inr heq
      · have hwriter := (Row.writer_chain hchain).trans hw
        have hnone : (st.db.rows w.row).pending = none := by
          cases hp : (st.db.rows w.row).pending with
          | none => rfl
          | some v =>
              rw [← (h.rows w.row).owner t v hwriter hp] at hp
              exact absurd hp (hpend w.row)
        refine .inl ⟨?_, ?_, ?_, hnone, fun _ => by rw [hchain]; rfl⟩
        · rw [heq]
          cases hprune : Db.pruneMvccAfterCommit (c.published t cts) wm cts with
          | none => rfl
          | some c' =>
              obtain ⟨hc'', -⟩ := prune_suffix hprune
              show c'.writer = none
              rw [hc'']
              rfl
        · rw [heq]
          exact hnone
        · intro u hu
          rw [hwriter] at hu
          exact (Option.some.inj hu).symm
    · exact .inr (Function.update_of_ne hne _ _)

/-- What a section of reclaiming does, the last one apart. -/
theorem reclaim_spec (hs : st.reclaim t = some st') : ∃ cts wm todo,
    st.commitAt t = .reclaiming cts wm todo ∧
    ((todo = [] ∧ st' = ({ st with db := st.finishCommit t } : Latched).setCommitAt t .outside) ∨
      ∃ w ws, todo = w :: ws ∧ st'.commitAt t = .reclaiming cts wm ws ∧ Section st st' t ∧
        st'.db.rows = Function.update st.db.rows w.row (Db.reclaimRow wm (st.db.rows w.row)) ∧
        st'.history = st.history ∧ st'.registered = st.registered ∧
        st'.db.activeRts = st.db.activeRts ∧ st'.db.lastCommitTs = st.db.lastCommitTs ∧
        st'.stampOf = st.stampOf) := by
  unfold Latched.reclaim at hs
  split at hs
  · rename_i cts wm w ws hc
    cases hs
    exact ⟨cts, wm, w :: ws, hc, .inr ⟨w, ws, rfl, setCommitAt_self _ _ _,
      Section.of_db rfl rfl fun _ => rfl, rfl, rfl, rfl, rfl, rfl, rfl⟩⟩
  · rename_i cts wm hc
    cases hs
    exact ⟨cts, wm, [], hc, .inl ⟨rfl, rfl⟩⟩
  · cases hs

/-- The state after the last section of a commit. -/
theorem finishCommit_core (st : Latched) (t : TxnId) (hp : ∀ r, (st.db.rows r).pending ≠ some t) :
    (st.finishCommit t).core = { st.db.core with
      txns := Function.update st.db.txns t (some { st.db.txn t with
        state := .committed, writeSet := [], overlay := fun _ => none, delKeys := [], writtenTabs := [] })
      activeExplicitCount := st.db.activeExplicitCount - if (st.db.txn t).txnMode then 1 else 0
      anyMvccDirty := st.db.anyMvccDirty || !(st.db.txn t).writeSet.isEmpty
      mvccDirty := fun tab => st.db.mvccDirty tab || (st.db.txn t).writeSet.any fun w => w.row.tab = tab } := by
  have hmark := markAll_core (st.db.txn t).writeSet st.db
  rw [← logIf_core _ (!(st.db.txn t).writeSet.isEmpty || (st.db.txn t).txnMode || (st.db.txn t).wroteLog)
    (.commit t)] at hmark
  unfold Latched.finishCommit
  dsimp only
  generalize Db.logIf _ _ (LogRecord.commit t) = db5 at hmark ⊢
  have htxns : db5.txns = st.db.txns := congrArg Core.txns hmark
  have hrows : db5.rows = st.db.rows := congrArg Core.rows hmark
  have htxn : db5.txn t = st.db.txn t := Db.txn_congr (congrFun htxns t)
  have hend : (db5.endTxn t .committed).rows = db5.rows := by
    funext r
    have heq : (db5.endTxn t .committed).rows r =
        if ((db5.txn t).overlay r).isSome ∧ (db5.rows r).pending = some t then
          { db5.rows r with pending := none } else db5.rows r := rfl
    rw [heq, if_neg]
    rintro ⟨-, hpt⟩
    rw [hrows] at hpt
    exact hp r hpt
  have hcore : (db5.endTxn t .committed).core = { db5.core with
      txns := Function.update db5.txns t (some { db5.txn t with
        state := .committed, writeSet := [], overlay := fun _ => none, delKeys := [], writtenTabs := [] })
      activeExplicitCount := db5.activeExplicitCount - if (db5.txn t).txnMode then 1 else 0 } := by
    unfold Db.core
    rw [hend]
    rfl
  rw [hcore, hmark, htxns, htxn, show db5.activeExplicitCount = st.db.activeExplicitCount from
    congrArg Core.activeExplicitCount hmark]

/-- What the last section of a commit does. -/
structure Finished (st st' : Latched) (t : TxnId) : Prop extends StepOf st st' t where
  ended : ∃ x, st'.db.txns t = some x ∧ ¬ x.live ∧ x.writeSet = [] ∧ (x.overlay = fun _ => none) ∧
    x.readTs = (st.db.txn t).readTs
  rows : st'.db.rows = st.db.rows
  commitAt_self : st'.commitAt t = .outside
  lastCommitTs : st'.db.lastCommitTs = st.db.lastCommitTs
  activeRts : st'.db.activeRts = st.db.activeRts
  dirty : ∀ tab, st.db.tableIsDirty tab = true → st'.db.tableIsDirty tab = true
  history : st'.history = st.history
  registered : st'.registered = st.registered
  stampOf : st'.stampOf = st.stampOf
  allReads : st'.reads = st.reads
  heapData : st'.heapData = st.heapData

theorem finished (hp : ∀ r, (st.db.rows r).pending ≠ some t) :
    Finished st (({ st with db := st.finishCommit t } : Latched).setCommitAt t .outside) t := by
  have hcore := finishCommit_core st t hp
  have htxns : (st.finishCommit t).txns = Function.update st.db.txns t (some { st.db.txn t with
      state := .committed, writeSet := [], overlay := fun _ => none, delKeys := [], writtenTabs := [] }) :=
    congrArg Core.txns hcore
  have hany : (st.finishCommit t).anyMvccDirty =
      (st.db.anyMvccDirty || !(st.db.txn t).writeSet.isEmpty) := congrArg Core.anyMvccDirty hcore
  have hdirty : ∀ tab, (st.finishCommit t).mvccDirty tab = (st.db.mvccDirty tab ||
      (st.db.txn t).writeSet.any fun w => w.row.tab = tab) := congrFun (congrArg Core.mvccDirty hcore)
  exact {
    txns := by
      intro u hu
      show (st.finishCommit t).txns u = st.db.txns u
      rw [htxns]
      exact Function.update_of_ne hu _ _
    commitAt := fun u hu => setCommitAt_ne _ _ hu
    reads := fun _ _ => rfl
    next := congrArg Core.nextTxnId hcore
    beginner := rfl
    ended := by
      refine ⟨{ st.db.txn t with
        state := .committed, writeSet := [], overlay := fun _ => none, delKeys := [], writtenTabs := [] },
        ?_, by simp [Transaction.live], rfl, rfl, rfl⟩
      show (st.finishCommit t).txns t = _
      rw [htxns, Function.update_self]
    rows := congrArg Core.rows hcore
    commitAt_self := setCommitAt_self _ _ _
    lastCommitTs := congrArg Core.lastCommitTs hcore
    activeRts := congrArg Core.activeRts hcore
    dirty := by
      intro tab htab
      show (st.finishCommit t).tableIsDirty tab = true
      simp only [Db.tableIsDirty, Bool.and_eq_true] at htab ⊢
      rw [hany, hdirty, htab.1, htab.2]
      exact ⟨rfl, rfl⟩
    history := rfl
    registered := rfl
    stampOf := rfl
    allReads := rfl
    heapData := rfl }

theorem Finished.not_live (h : Finished st st' t) : ¬ st'.db.Live t := by
  obtain ⟨x, hx, hl, -⟩ := h.ended
  rintro ⟨y, hy, hly⟩
  rw [hx] at hy
  cases hy
  exact hl hly

theorem Locks.finish (h : Locks st) (hf : Finished st st' t) (hbusy : st.commitAt t ≠ .outside)
    (hdone : ∀ r, ¬ st.Unrestored t r) : Locks st' := by
  refine h.later hf.toStepOf hbusy hdone (fun hl => absurd hl hf.not_live)
    (fun hne => absurd hf.commitAt_self hne) hf.dirty ?_ fun r => .inr (by rw [hf.rows])
  intro r ov ho
  obtain ⟨x, hx, -, -, hov, -⟩ := hf.ended
  rw [Db.txn, hx, Option.getD_some, hov] at ho
  cases ho

theorem Locks.reclaim (h : Locks st) (hs : st.reclaim t = some st') : Locks st' := by
  obtain ⟨cts, wm, todo, hc, hcase⟩ := reclaim_spec hs
  have hdone := not_unrestored hc (by simp) (by simp)
  rcases hcase with ⟨-, heq⟩ | ⟨w, ws, -, hc', hsec, hrows, -⟩
  · subst heq
    exact h.finish (finished (h.not_pending hdone)) (by rw [hc]; simp) hdone
  · refine h.section hsec (by rw [hc]; simp) hdone (by rw [hc']; simp)
      (not_unrestored hc' (by simp) (by simp)) fun r => ?_
    rw [hrows]
    rcases eq_or_ne r w.row with rfl | hne
    · rw [Function.update_self]
      rcases reclaimRow_cases wm (st.db.rows w.row) with heq | ⟨c, v, hchain, hw, -, hp, -, -, heq⟩
      · exact .inr heq
      · rw [heq]
        refine .inl ⟨rfl, hp, ?_, hp, fun hn => by cases hn⟩
        intro u hu
        rw [Row.writer_chain hchain, hw] at hu
        cases hu
    · exact .inr (Function.update_of_ne hne _ _)

/-! ## Begin and reads -/

theorem Locks.register (h : Locks st) (hs : st.register = some st') : Locks st' := by
  unfold Latched.register at hs
  split at hs
  · cases hs
  · cases hs
    exact {
      dirty := h.dirty
      fresh := h.fresh
      busy := fun u hu => ⟨(h.busy u hu).1, fun hn => by cases hn⟩
      begun := fun u hu => by cases hu
      rows := h.rows }

theorem Locks.beginRead (h : Locks st) {explicit : Bool} {iso : IsolationLevel}
    (hs : st.beginRead explicit iso = some st') : Locks st' := by
  obtain ⟨-, heq⟩ := Option.ite_none_right_eq_some.1 hs
  obtain ⟨hnone, hreads⟩ := h.fresh st.db.nextTxnId le_rfl
  have hdead : ¬ st.db.Live st.db.nextTxnId := by
    rintro ⟨x, hx, -⟩
    rw [hnone] at hx
    cases hx
  have hout : st.commitAt st.db.nextTxnId = .outside := by
    by_contra hne
    exact hdead (h.busy _ hne).1
  have hothers : Others st st' st.db.nextTxnId := by
    cases heq
    exact ⟨fun u hu => Function.update_of_ne hu _ _, fun _ _ => rfl, fun _ _ => rfl⟩
  have htxns : st'.db.txns st.db.nextTxnId =
      some { txnMode := explicit, isolation := iso, readTs := st.db.lastCommitTs } := by
    cases heq
    exact Function.update_self _ _ _
  have hlive : st'.db.Live st.db.nextTxnId := ⟨_, htxns, rfl⟩
  have hnext : st'.db.nextTxnId = st.db.nextTxnId + 1 := by
    cases heq
    rfl
  have hbegin : st'.beginner = some st.db.nextTxnId := by
    cases heq
    rfl
  have hcommit : st'.commitAt = st.commitAt := by
    cases heq
    rfl
  have hrows : st'.db.rows = st.db.rows := by
    cases heq
    rfl
  have hlive' : ∀ u, st.db.Live u → st'.db.Live u := by
    intro u hu
    exact (hothers.live_iff fun hn => hdead (hn ▸ hu)).2 hu
  refine ⟨?_, ?_, ?_, ?_, fun r => ?_⟩
  · cases heq
    exact h.dirty
  · intro u hu
    rw [hnext] at hu
    have hne : u ≠ st.db.nextTxnId := Nat.ne_of_gt hu
    rw [hothers.txns u hne, hothers.reads u hne]
    exact h.fresh u (Nat.le_of_succ_le hu)
  · intro u hu
    rw [hcommit] at hu
    refine ⟨hlive' u (h.busy u hu).1, ?_⟩
    rw [hbegin]
    intro hn
    rw [← Option.some.inj hn] at hu
    exact hu hout
  · intro u hu
    rw [hbegin] at hu
    rw [← Option.some.inj hu]
    exact hlive
  · have htxn : st'.db.txn st.db.nextTxnId =
        { txnMode := explicit, isolation := iso, readTs := st.db.lastCommitTs } := by
      rw [Db.txn, htxns]
      rfl
    have hov : ¬ ((st'.db.txn st.db.nextTxnId).overlay r).isSome := by
      rw [htxn]
      exact Bool.false_ne_true
    have htouch : ¬ (st'.db.txn st.db.nextTxnId).touches r = true := by
      rw [htxn]
      exact Bool.false_ne_true
    rw [hrows]
    refine (h.rows r).keep (fun u hu => hothers.agree r hu) ?_
      (fun _ _ ho => absurd ho hov) (fun ho => absurd ho hov) ?_ ?_
    · exact fun hp => absurd ((h.rows r).pending _ hp).1 hdead
    · rintro - - (ht | ⟨x, hx, -⟩)
      · exact absurd ht htouch
      · have hsame : st'.reads st.db.nextTxnId = st.reads st.db.nextTxnId := by
          cases heq
          rfl
        rw [hsame, hreads] at hx
        cases hx
    · intro ov ho
      refine absurd ?_ hov
      change (st'.db.txn st.db.nextTxnId).overlay r = some ov at ho
      rw [ho]
      rfl

theorem Locks.readHeap (h : Locks st) (hs : st.readHeap t r = some st') : Locks st' := by
  obtain ⟨-, heq⟩ := Option.ite_none_right_eq_some.1 hs
  cases heq
  exact ⟨h.dirty, h.fresh, h.busy, h.begun, h.rows⟩

theorem mvccRead_spec (hs : st.mvccRead t = some st') : ∃ r heap, st.heapData t = some (r, heap) ∧
    st.Ready t ∧ st' = { st with
      heapData := Function.update st.heapData t none
      reads := Function.update st.reads t
        (⟨r, st.db.mvccReadOf t r heap, st.db.ownWrite t r⟩ :: st.reads t) } := by
  unfold Latched.mvccRead at hs
  split at hs
  · cases hs
  · rename_i r heap hh
    obtain ⟨hready, heq⟩ := Option.ite_none_right_eq_some.1 hs
    exact ⟨r, heap, hh, hready, (Option.some.inj heq).symm⟩

/-- Its own write of a row is in the chain or pending. -/
theorem Locks.ownWrite (h : Locks st) (ht : st.Ready t) (ho : st.db.ownWrite t r = true) :
    (st.db.rows r).writer = some t ∨ (st.db.rows r).pending = some t := by
  simp only [Db.ownWrite, Bool.or_eq_true, Option.any_eq_true, decide_eq_true_eq] at ho
  rcases ho with ho | ⟨c, hc, hw⟩
  · exact .inr ((h.rows r).overlay t ht.1 (.inl ht.2.1) ho)
  · exact .inl ((Row.writer_chain hc).trans hw)

theorem Locks.mvccRead (h : Locks st) (hs : st.mvccRead t = some st') : Locks st' := by
  obtain ⟨r, heap, -, ht, heq⟩ := mvccRead_spec hs
  have hstep : StepOf st st' t := by
    rw [heq]
    exact ⟨⟨fun _ _ => rfl, fun _ _ => rfl, fun u hu => Function.update_of_ne hu _ _⟩, rfl, rfl⟩
  subst heq
  refine h.of_step hstep ht.1 ht.2.2 (fun _ => ht.1) h.dirty fun r' => ?_
  have hrow := h.rows r'
  refine hrow.keep (fun u hu => hstep.toOthers.agree r' hu) ?_ (hrow.overlay t) (hrow.touches t) ?_
    (hrow.overlayData t)
  · intro hp
    obtain ⟨h1, h2, -, h3⟩ := hrow.pending t hp
    exact ⟨h1, h2, h3⟩
  · rintro - - (htouch | ⟨x, hx, hxr, hown⟩)
    · exact hrow.owns t ht.1 ht.2.1 (.inl htouch)
    · change x ∈ Function.update st.reads t _ t at hx
      rw [Function.update_self] at hx
      rcases List.mem_cons.1 hx with rfl | hx
      · subst hxr
        exact h.ownWrite ht hown
      · exact hrow.owns t ht.1 ht.2.1 (.inr ⟨x, hx, hxr, hown⟩)

/-! ## All steps -/

/-- A write section: the routine that it runs leaves the row in a version of `t`, or alone; a row that
is gone is left alone, unless a difference is added. -/
theorem write_versioned {a : LatchAct} (hs : st.step a = some st') (ha : a.writes = true) :
    ∃ t r old db', st.Ready t ∧ st.hasRead t r old = true ∧ Versioned st.db t r old db' ∧
      ((st.db.Gone t r → Refused st.db t r db') ∨ a.deltaRow = some r) ∧ st' = { st with db := db' } := by
  cases a with
  | mvccWrite t r old new =>
      obtain ⟨ht, hread, hpos, hfits, db', hdb, heq⟩ := write_inv hs
      refine ⟨t, r, old, db', ht, hread, mvccWrite_versioned hpos ?_ hdb,
        .inl fun hgone => mvccWrite_refused hgone hdb, heq⟩
      rintro b rfl rfl
      rw [Option.all_some, decide_eq_true_eq, List.length_nil] at hfits
      omega
  | mvccWriteColDelta t r visible off type deltaF deltaI =>
      obtain ⟨ht, hread, -, hfits, db', hdb, heq⟩ := write_inv hs
      obtain ⟨htype, hoff⟩ := of_decide_eq_true hfits
      exact ⟨t, r, visible, db', ht, hread, colDelta_versioned htype hoff hdb, .inr rfl, heq⟩
  | mvccWriteColPatch t r visible patches =>
      obtain ⟨ht, hread, hpos, -, db', hdb, heq⟩ := write_inv hs
      exact ⟨t, r, visible, db', ht, hread, colPatch_versioned hpos hdb,
        .inl fun hgone => colPatch_refused hgone hdb, heq⟩
  | _ => cases ha

/-- A transaction that writes finds the slot of the row set, or the row deleted behind its snapshot. -/
def Standing (st : Latched) : Prop :=
  ∀ t r old, st.Ready t → st.hasRead t r old = true →
    (st.db.rows r).slot.isRecord = true ∨ st.db.Gone t r

/-- A write of a set slot, or one that is turned down. -/
theorem write_standing (hstand : Standing st) {a : LatchAct}
    (hdelta : ∀ r ∈ a.deltaRow, (st.db.rows r).slot.isRecord = true) (hs : st.step a = some st')
    (ha : a.writes = true) : ∃ t r old db', st.Ready t ∧ st.hasRead t r old = true ∧
      ((st.db.rows r).slot.isRecord = true ∧ Versioned st.db t r old db' ∨ Refused st.db t r db') ∧
      st' = { st with db := db' } := by
  obtain ⟨t, r, old, db', ht, hread, hv, hgone, heq⟩ := write_versioned hs ha
  refine ⟨t, r, old, db', ht, hread, ?_, heq⟩
  rcases hstand t r old ht hread with hrec | hg
  · exact .inl ⟨hrec, hv⟩
  · rcases hgone with hgone | hrow
    · exact .inr (hgone hg)
    · exact .inl ⟨hdelta r hrow, hv⟩

theorem Locks.write (h : Locks st) (hstand : Standing st) {a : LatchAct}
    (hdelta : ∀ r ∈ a.deltaRow, (st.db.rows r).slot.isRecord = true) (hs : st.step a = some st')
    (ha : a.writes = true) : Locks st' := by
  obtain ⟨t, r, old, db', ht, -, hv, heq⟩ := write_standing hstand hdelta hs ha
  rw [heq]
  rcases hv with ⟨hrec, hv⟩ | hr
  · exact h.versioned ht hrec hv
  · exact h.refused ht hr

theorem Locks.step (h : Locks st) (hstand : Standing st) {a : LatchAct}
    (hdelta : ∀ r ∈ a.deltaRow, (st.db.rows r).slot.isRecord = true) (hs : st.step a = some st') :
    Locks st' := by
  cases a with
  | beginRead explicit iso => exact h.beginRead hs
  | register => exact h.register hs
  | mvccInsert t r data => exact h.insert hs
  | mvccWrite t r old new => exact h.write hstand hdelta hs rfl
  | mvccWriteColDelta t r visible off type deltaF deltaI => exact h.write hstand hdelta hs rfl
  | mvccWriteColPatch t r visible patches => exact h.write hstand hdelta hs rfl
  | release t => exact h.release hs
  | abort t => exact h.abort hs
  | startCommit t => exact h.startCommit hs
  | restore t r => exact h.restore hs
  | stamp t => exact h.stamp hs
  | watermark t => exact h.watermark hs
  | publish t => exact h.publish hs
  | reclaim t => exact h.reclaim hs
  | readHeap t r => exact h.readHeap hs
  | mvccRead t => exact h.mvccRead hs

theorem boot_locks (tabs : TabName → TabMeta) (files : TabName → RmFileHdr) (heap : RowId → Slot)
    (index : IndexId → IndexMap) : Locks (boot tabs files heap index) where
  dirty := fun r hr => by cases hr
  fresh := fun _ _ => ⟨rfl, rfl⟩
  busy := fun u hu => absurd rfl hu
  begun := fun u hu => by cases hu
  rows := by
    intro r
    exact {
      owner := fun u v hu => by cases hu
      pending := fun u hu => by cases hu
      overlay := fun u _ _ ho => by cases ho
      touches := fun u ho => by cases ho
      owns := by
        rintro u - - (ht | ⟨x, hx, -⟩)
        · cases ht
        · cases hx
      held := fun hor => by rcases hor with hor | hor <;> cases hor
      data := fun c u hc => by cases hc
      overlayData := fun u ov ho => by cases ho }

end Latched

end Rmdb.Txn
