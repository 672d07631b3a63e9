import Rmdb.Mvcc.Versioned

/-!
# Who holds a row, between the latched sections

The uncommitted write of a row is in its chain or in one overlay; the owner is the only one, and a
transaction that has not come to `commit` still owns every row of its write set.
-/

namespace Rmdb.Txn

open Rmdb.Index (Rid)

/-- The transaction whose uncommitted write is in the chain. -/
def Row.writer (row : Row) : Option TxnId := row.chain.bind MvccChain.writer

theorem Row.writer_some {row : Row} {u : TxnId} :
    row.writer = some u ↔ ∃ c, row.chain = some c ∧ c.writer = some u := Option.bind_eq_some_iff

theorem Row.writer_chain {row : Row} {c : MvccChain} (h : row.chain = some c) : row.writer = c.writer := by
  rw [Row.writer, h]
  rfl

/-! ## One row -/

/-- What the transactions say about a row: who is live, who has not begun to commit, whose overlay of
the row is not taken back yet, whose write set has the row, who has written it or seen its own write of
it, and the overlays. -/
structure LockView where
  live : TxnId → Prop
  outside : TxnId → Prop
  unrestored : TxnId → Prop
  touches : TxnId → Prop
  claims : TxnId → Prop
  overlay : TxnId → Option SiOverlay

/-- The two views say the same about a transaction. -/
structure LockView.Agree (V V' : LockView) (u : TxnId) : Prop where
  live : V'.live u ↔ V.live u
  outside : V'.outside u ↔ V.outside u
  unrestored : V'.unrestored u ↔ V.unrestored u
  touches : V'.touches u ↔ V.touches u
  claims : V'.claims u ↔ V.claims u
  overlay : V'.overlay u = V.overlay u

structure RowLock (row : Row) (V : LockView) : Prop where
  owner : ∀ u v, row.writer = some u → row.pending = some v → u = v
  pending : ∀ u, row.pending = some u →
    V.live u ∧ (V.overlay u).isSome ∧ row.chain.isSome ∧ V.unrestored u
  overlay : ∀ u, V.live u → V.unrestored u → (V.overlay u).isSome → row.pending = some u
  touches : ∀ u, (V.overlay u).isSome → V.touches u
  owns : ∀ u, V.live u → V.outside u → V.claims u → row.writer = some u ∨ row.pending = some u
  held : row.writer.isSome ∨ row.pending.isSome → row.slot.isRecord = true
  data : ∀ c u, row.chain = some c → c.writer = some u →
    c.writerDel = true ∨ c.writerData.bytes ≠ []
  overlayData : ∀ u ov, V.overlay u = some ov → ov.isDeleted = true ∨ ov.data.bytes ≠ []

variable {row row' : Row} {V V' : LockView} {t : TxnId}

/-- A step of `t`: the row and what `t` says about it change. -/
theorem RowLock.change (h : RowLock row V) (hothers : ∀ u, u ≠ t → V.Agree V' u)
    (hwriter : ∀ u, u ≠ t → (row'.writer = some u ↔ row.writer = some u))
    (hpend : ∀ u, u ≠ t → (row'.pending = some u ↔ row.pending = some u))
    (howner : ∀ u v, row'.writer = some u → row'.pending = some v → u = v)
    (hchain : row'.pending.isSome → row'.chain.isSome)
    (hheld : row'.writer.isSome ∨ row'.pending.isSome → row'.slot.isRecord = true)
    (hdata : ∀ c u, row'.chain = some c → c.writer = some u →
      c.writerDel = true ∨ c.writerData.bytes ≠ [])
    (hself : row'.pending = some t → V'.live t ∧ (V'.overlay t).isSome ∧ V'.unrestored t)
    (hoverlay : V'.live t → V'.unrestored t → (V'.overlay t).isSome → row'.pending = some t)
    (htouches : (V'.overlay t).isSome → V'.touches t)
    (howns : V'.live t → V'.outside t → V'.claims t → row'.writer = some t ∨ row'.pending = some t)
    (hodata : ∀ ov, V'.overlay t = some ov → ov.isDeleted = true ∨ ov.data.bytes ≠ []) :
    RowLock row' V' where
  owner := howner
  pending := by
    intro u hu
    have hc : row'.chain.isSome := hchain (by rw [hu]; rfl)
    rcases eq_or_ne u t with rfl | hut
    · obtain ⟨h1, h2, h3⟩ := hself hu
      exact ⟨h1, h2, hc, h3⟩
    · have ha := hothers u hut
      obtain ⟨h1, h2, -, h3⟩ := h.pending u ((hpend u hut).1 hu)
      exact ⟨ha.live.2 h1, by rw [ha.overlay]; exact h2, hc, ha.unrestored.2 h3⟩
  overlay := by
    intro u h1 h2 h3
    rcases eq_or_ne u t with rfl | hut
    · exact hoverlay h1 h2 h3
    · have ha := hothers u hut
      rw [ha.overlay] at h3
      exact (hpend u hut).2 (h.overlay u (ha.live.1 h1) (ha.unrestored.1 h2) h3)
  touches := by
    intro u hu
    rcases eq_or_ne u t with rfl | hut
    · exact htouches hu
    · have ha := hothers u hut
      rw [ha.overlay] at hu
      exact ha.touches.2 (h.touches u hu)
  owns := by
    intro u h1 h2 h3
    rcases eq_or_ne u t with rfl | hut
    · exact howns h1 h2 h3
    · have ha := hothers u hut
      exact (h.owns u (ha.live.1 h1) (ha.outside.1 h2) (ha.claims.1 h3)).imp (hwriter u hut).2
        (hpend u hut).2
  held := hheld
  data := hdata
  overlayData := by
    intro u ov hu
    rcases eq_or_ne u t with rfl | hut
    · exact hodata ov hu
    · rw [(hothers u hut).overlay] at hu
      exact h.overlayData u ov hu

/-- A step of `t` that leaves the row alone. -/
theorem RowLock.keep (h : RowLock row V) (hothers : ∀ u, u ≠ t → V.Agree V' u)
    (hself : row.pending = some t → V'.live t ∧ (V'.overlay t).isSome ∧ V'.unrestored t)
    (hoverlay : V'.live t → V'.unrestored t → (V'.overlay t).isSome → row.pending = some t)
    (htouches : (V'.overlay t).isSome → V'.touches t)
    (howns : V'.live t → V'.outside t → V'.claims t → row.writer = some t ∨ row.pending = some t)
    (hodata : ∀ ov, V'.overlay t = some ov → ov.isDeleted = true ∨ ov.data.bytes ≠ []) :
    RowLock row V' := by
  refine h.change hothers (fun _ _ => Iff.rfl) (fun _ _ => Iff.rfl) h.owner ?_ h.held h.data hself
    hoverlay htouches howns hodata
  intro hp
  obtain ⟨u, hu⟩ := Option.isSome_iff_exists.1 hp
  exact (h.pending u hu).2.2.1

/-! ## All rows -/

namespace Latched

/-- The overlay of the row is not taken back by `commit` yet. -/
def Unrestored (st : Latched) (u : TxnId) (r : RowId) : Prop :=
  st.commitAt u = .outside ∨ ∃ todo, st.commitAt u = .restoring todo ∧ r ∈ todo

/-- The transaction has written the row or seen its own write of it. -/
def Claims (st : Latched) (u : TxnId) (r : RowId) : Prop :=
  (st.db.txn u).touches r = true ∨ ∃ x ∈ st.reads u, x.row = r ∧ x.own = true

def lockView (st : Latched) (r : RowId) : LockView where
  live := st.db.Live
  outside := fun u => st.commitAt u = .outside
  unrestored := fun u => st.Unrestored u r
  touches := fun u => (st.db.txn u).touches r = true
  claims := fun u => st.Claims u r
  overlay := fun u => (st.db.txn u).overlay r

structure Locks (st : Latched) : Prop where
  dirty : st.db.ChainsDirty
  fresh : ∀ u, st.db.nextTxnId ≤ u → st.db.txns u = none ∧ st.reads u = []
  busy : ∀ u, st.commitAt u ≠ .outside → st.db.Live u ∧ st.beginner ≠ some u
  begun : ∀ u, st.beginner = some u → st.db.Live u
  rows : ∀ r, RowLock (st.db.rows r) (st.lockView r)

/-- A step leaves the transactions but `t` alone. -/
structure Others (st st' : Latched) (t : TxnId) : Prop where
  txns : ∀ u, u ≠ t → st'.db.txns u = st.db.txns u
  commitAt : ∀ u, u ≠ t → st'.commitAt u = st.commitAt u
  reads : ∀ u, u ≠ t → st'.reads u = st.reads u

/-- A step of `t` leaves the other transactions and `begin` alone. -/
structure StepOf (st st' : Latched) (t : TxnId) : Prop extends Others st st' t where
  next : st'.db.nextTxnId = st.db.nextTxnId
  beginner : st'.beginner = st.beginner

variable {st st' : Latched} {r : RowId}

theorem Others.live_iff (h : Others st st' t) {u : TxnId} (hu : u ≠ t) : st'.db.Live u ↔ st.db.Live u := by
  unfold Db.Live
  rw [h.txns u hu]

theorem Others.agree (h : Others st st' t) (r : RowId) {u : TxnId} (hu : u ≠ t) :
    (st.lockView r).Agree (st'.lockView r) u := by
  have htxn := Db.txn_congr (h.txns u hu)
  have hc := h.commitAt u hu
  refine ⟨h.live_iff hu, ?_, ?_, ?_, ?_, ?_⟩
  · show st'.commitAt u = _ ↔ st.commitAt u = _
    rw [hc]
  · show st'.Unrestored u r ↔ st.Unrestored u r
    unfold Unrestored
    rw [hc]
  · show (st'.db.txn u).touches r = true ↔ (st.db.txn u).touches r = true
    rw [htxn]
  · show st'.Claims u r ↔ st.Claims u r
    unfold Claims
    rw [htxn, h.reads u hu]
  · show (st'.db.txn u).overlay r = (st.db.txn u).overlay r
    rw [htxn]

theorem Locks.of_step (h : Locks st) (hs : StepOf st st' t) (ht : st.db.Live t)
    (hb : st.beginner ≠ some t) (hbusy : st'.commitAt t ≠ .outside → st'.db.Live t)
    (hdirty : st'.db.ChainsDirty) (hrows : ∀ r, RowLock (st'.db.rows r) (st'.lockView r)) : Locks st' where
  dirty := hdirty
  fresh := by
    intro u hu
    rw [hs.next] at hu
    have hne : u ≠ t := by
      rintro rfl
      obtain ⟨x, hx, -⟩ := ht
      rw [(h.fresh u hu).1] at hx
      cases hx
    rw [hs.txns u hne, hs.reads u hne]
    exact h.fresh u hu
  busy := by
    intro u hu
    rw [hs.beginner]
    rcases eq_or_ne u t with rfl | hne
    · exact ⟨hbusy hu, hb⟩
    · rw [hs.commitAt u hne] at hu
      obtain ⟨hl, hbu⟩ := h.busy u hu
      exact ⟨(hs.toOthers.live_iff hne).2 hl, hbu⟩
  begun := by
    intro u hu
    rw [hs.beginner] at hu
    have hne : u ≠ t := fun heq => hb (heq ▸ hu)
    exact (hs.toOthers.live_iff hne).2 (h.begun u hu)
  rows := hrows

/-! ## Writes -/

/-- A write of one row by `t`: it takes the row, which is free, or leaves the writer as it is. -/
theorem Locks.row_write {db' : Db} {c : MvccChain} {s : Slot} {ws : List WriteRecord} (h : Locks st)
    (ht : st.Ready t) (hw : RowWrite st.db db' t r { st.db.rows r with slot := s, chain := some c } ws true)
    (hs : c.writer.isSome ∨ (st.db.rows r).pending.isSome → s.isRecord = true) (hws : ∀ w ∈ ws, w.row = r)
    (hc : (c.writer = (st.db.rows r).writer ∧ ws = []) ∨ (c.writer = some t ∧
      (∀ u, (st.db.rows r).writer = some u → u = t) ∧ ∀ u, (st.db.rows r).pending = some u → u = t))
    (hdata : ∀ u, c.writer = some u → c.writerDel = true ∨ c.writerData.bytes ≠ []) : Locks { st with db := db' } := by
  obtain ⟨hlive, hout, hb⟩ := ht
  have hsome := (Txn.live_iff.1 hlive).1
  have hstep : StepOf st { st with db := db' } t :=
    ⟨⟨hw.others, fun _ _ => rfl, fun _ _ => rfl⟩, hw.nextTxnId, rfl⟩
  have hov : ∀ r', (db'.txn t).overlay r' = (st.db.txn t).overlay r' := fun r' =>
    congrFun (hw.overlay t) r'
  refine h.of_step hstep hlive hb (fun hne => absurd hout hne) ?_ fun r' => ?_
  · intro r' hr'
    rcases eq_or_ne r' r with rfl | hne
    · exact hw.tableIsDirty_self
    · change (db'.rows r').chain.isSome at hr'
      rw [hw.row_other hne] at hr'
      exact hw.tableIsDirty (h.dirty r' hr')
  · have hrow := h.rows r'
    have hself : (st.db.rows r').pending = some t →
        db'.Live t ∧ ((db'.txn t).overlay r').isSome ∧ st.Unrestored t r' := by
      intro hp
      obtain ⟨-, h2, -, h3⟩ := hrow.pending t hp
      exact ⟨(hw.live_iff hsome t).2 hlive, by rw [hov]; exact h2, h3⟩
    have hoverlay : db'.Live t → st.Unrestored t r' → ((db'.txn t).overlay r').isSome →
        (st.db.rows r').pending = some t := by
      intro _ h2 h3
      rw [hov] at h3
      exact hrow.overlay t hlive h2 h3
    have htouches : ((db'.txn t).overlay r').isSome → (db'.txn t).touches r' = true := by
      intro ho
      rw [hov] at ho
      exact hw.touches (hrow.touches t ho)
    have hodata : ∀ ov, (db'.txn t).overlay r' = some ov → ov.isDeleted = true ∨ ov.data.bytes ≠ [] := by
      intro ov ho
      rw [hov] at ho
      exact hrow.overlayData t ov ho
    have hold : (db'.txn t).touches r' = true → (st.db.txn t).touches r' = true ∨
        ∃ w ∈ ws, w.row = r' := by
      intro htouch
      obtain ⟨w, hmem, hwr⟩ := touches_mem htouch
      rw [hw.writeSet] at hmem
      rcases List.mem_append.1 hmem with hmem | hmem
      · exact .inl (List.any_eq_true.2 ⟨w, hmem, decide_eq_true hwr⟩)
      · exact .inr ⟨w, hmem, hwr⟩
    show RowLock (db'.rows r') _
    rcases eq_or_ne r' r with rfl | hne
    · rw [hw.row_self]
      refine hrow.change (fun u hu => hstep.toOthers.agree _ hu) ?_ (fun _ _ => Iff.rfl) ?_ (fun _ => rfl)
        hs ?_ hself hoverlay htouches ?_ hodata
      · intro u hu
        show c.writer = some u ↔ _
        rcases hc with ⟨heq, -⟩ | ⟨heq, hfree, -⟩
        · rw [heq]
        · rw [heq]
          exact ⟨fun hut => absurd (Option.some.inj hut).symm hu, fun hut => absurd (hfree u hut) hu⟩
      · intro u v hu hv
        change c.writer = some u at hu
        rcases hc with ⟨heq, -⟩ | ⟨heq, -, hfree⟩
        · rw [heq] at hu
          exact hrow.owner u v hu hv
        · rw [heq] at hu
          rw [← Option.some.inj hu]
          exact (hfree v hv).symm
      · intro c' u hc' hu
        cases hc'
        exact hdata u hu
      · intro _ h2 h3
        show c.writer = some t ∨ _
        rcases hc with ⟨heq, hnil⟩ | ⟨heq, -, -⟩
        · rw [heq]
          rcases h3 with h3 | h3
          · rcases hold h3 with hold | ⟨w, hmem, -⟩
            · exact hrow.owns t hlive h2 (.inl hold)
            · rw [hnil] at hmem
              cases hmem
          · exact hrow.owns t hlive h2 (.inr h3)
        · exact .inl heq
    · rw [hw.row_other hne]
      have hsame : (db'.txn t).touches r' = true → (st.db.txn t).touches r' = true := fun htouch =>
        (hold htouch).resolve_right fun ⟨w, hmem, hwr⟩ => hne (hwr.symm.trans (hws w hmem))
      exact hrow.keep (fun u hu => hstep.toOthers.agree _ hu) hself hoverlay htouches
        (fun _ h2 h3 => hrow.owns t hlive h2 (h3.imp_left hsame)) hodata

end Latched

end Rmdb.Txn
