import Rmdb.Row.Exec

/-!
# Statements as chains of row operations

`exec_rows`: whatever a statement does before it ends or aborts is a chain of row operations
of its transaction.  It needs that a row has a chain only in a dirty table (`ChainsDirty`),
which every row operation keeps.
-/

namespace Rmdb.Txn

open Rmdb.Index (Rid)

/-- Rows with a chain are in tables marked dirty. -/
def Db.ChainsDirty (db : Db) : Prop :=
  ∀ r, (db.rows r).chain.isSome → db.tableIsDirty r.tab = true

variable {db db' : Db} {t : TxnId} {r : RowId} {row : Row} {ws : List WriteRecord} {mark : Bool}

theorem Db.ChainsDirty.any (h : db.ChainsDirty) (hr : (db.rows r).chain.isSome) :
    db.anyMvccDirty = true := by
  have := h r hr
  unfold Db.tableIsDirty at this
  exact (Bool.and_eq_true _ _ ▸ this).1

theorem RowWrite.tableIsDirty (h : RowWrite db db' t r row ws mark) {tab : TabName}
    (hd : db.tableIsDirty tab = true) : db'.tableIsDirty tab = true := by
  simp only [Db.tableIsDirty, Bool.and_eq_true] at hd ⊢
  rw [h.anyMvccDirty, h.mvccDirty, hd.1, hd.2]
  exact ⟨rfl, rfl⟩

theorem RowWrite.tableIsDirty_self (h : RowWrite db db' t r row ws true) :
    db'.tableIsDirty r.tab = true := by
  simp [Db.tableIsDirty, h.anyMvccDirty, h.mvccDirty]

/-- A write without the mark leaves the chain alone. -/
theorem RowChange.chain_eq (h : RowChange db t r row ws false) : row.chain = (db.rows r).chain := by
  cases h <;> rfl

theorem RowOp.chainsDirty (h : RowOp t r db db') (hd : db.ChainsDirty) : db'.ChainsDirty := by
  obtain ⟨row, ws, mark, hw, hc⟩ := h
  intro r' hr'
  rcases eq_or_ne r' r with rfl | hne
  · cases mark with
    | true => exact hw.tableIsDirty_self
    | false =>
        rw [hw.row_self, hc.chain_eq] at hr'
        exact hw.tableIsDirty (hd r' hr')
  · rw [hw.row_other hne] at hr'
    exact hw.tableIsDirty (hd r' hr')

/-- A chain of row operations of `t`. -/
def Rows (t : TxnId) : Db → Db → Prop := Relation.ReflTransGen fun db db' => ∃ r, RowOp t r db db'

theorem RowOp.rows (h : RowOp t r db db') : Rows t db db' := .single ⟨r, h⟩

theorem Rows.chainsDirty (h : Rows t db db') (hd : db.ChainsDirty) : db'.ChainsDirty := by
  induction h with
  | refl => exact hd
  | tail _ hop ih =>
      obtain ⟨r, hop⟩ := hop
      exact hop.chainsDirty ih

/-! ## The rids of a statement -/

theorem mem_seqScan {tab : TabName} {conds : List Condition} {rid : Rid} {img : Image}
    (h : (rid, img) ∈ db.seqScan t tab conds) : db.readRow t ⟨tab, rid⟩ = some img := by
  obtain ⟨rid', -, hm⟩ := List.mem_filterMap.1 h
  obtain ⟨img', himg, heq⟩ := Option.map_eq_some_iff.1 hm
  cases heq
  exact (Option.filter_eq_some_iff.1 himg).1

theorem mem_indexScanFrom {tab : TabName} {cols : List ColMeta} {conds : List Condition} {rid : Rid}
    {img : Image} : ∀ {es : IndexMap}, (rid, img) ∈ db.indexScanFrom t tab cols conds es →
      db.readRow t ⟨tab, rid⟩ = some img := by
  intro es
  induction es with
  | nil => intro h; cases h
  | cons e es ih =>
      intro h
      obtain ⟨key, rid'⟩ := e
      simp only [Db.indexScanFrom] at h
      split at h
      · exact ih h
      · rename_i img' hread
        split at h
        · cases h
        · split at h
          · rcases List.mem_cons.1 h with heq | h
            · cases heq
              exact hread
            · exact ih h
          · exact ih h

theorem mem_scan {tab : TabName} {conds : List Condition} {path : Db.Path} {rid : Rid} {img : Image}
    (h : (rid, img) ∈ db.scan t tab conds path) : db.readRow t ⟨tab, rid⟩ = some img := by
  cases path with
  | seq => exact mem_seqScan h
  | index cols => exact mem_indexScanFrom h

theorem mem_targets {tab : TabName} {conds : List Condition} {path : Db.Path} {rid : Rid}
    (h : rid ∈ db.targets t tab conds path) : ∃ img, db.readRow t ⟨tab, rid⟩ = some img := by
  simp only [Db.targets, ordered, List.mem_insertionSort, List.mem_map, Prod.exists,
    exists_and_right, exists_eq_right] at h
  obtain ⟨img, himg⟩ := h
  exact ⟨img, mem_scan himg⟩

/-- A row that `t` reads at the start of a delete. -/
theorem readRow_baseOk (hd : db.ChainsDirty) {img : Image} (h : db.readRow t r = some img) :
    db.BaseOk t r (db.rows r).slot.data := by
  unfold Db.readRow at h
  split at h
  · intro h1 h2 h3
    exact ⟨(mvccRead_baseOk (fun hc => hd.any hc) h h1 h2 h3).1, rfl⟩
  · rename_i hclean
    intro _ _ _
    refine ⟨?_, rfl⟩
    by_contra hne
    exact hclean (hd r (Option.isSome_iff_ne_none.2 hne))

/-! ## Statements -/

/-- What read tracking may change. -/
theorem RowWrite.tracked (db : Db) (t : TxnId) (r : RowId) (ser : SerState) (rw' : List RowId) :
    RowWrite db { db with ser := ser, recentWrites := rw' } t r (db.rows r) [] false :=
  { refl db t r with rows := (refl db t r).rows }

theorem serReadCheck_write (db : Db) (t : TxnId) (r r' : RowId) :
    RowWrite db (db.serReadCheck t r').1 t r (db.rows r) [] false := by
  unfold Db.serReadCheck
  split
  · exact .refl db t r
  · dsimp only
    split
    · exact .tracked db t r _ db.recentWrites
    · exact .tracked db t r _ db.recentWrites

theorem serReadPredCheck_write (db : Db) (t : TxnId) (tab : TabName) (conds : List Condition)
    (r : RowId) : RowWrite db (db.serReadPredCheck t tab conds).1 t r (db.rows r) [] false := by
  unfold Db.serReadPredCheck
  split
  · exact .refl db t r
  · split
    · exact .refl db t r
    · exact .tracked db t r _ _

theorem trackRead_op (t : TxnId) (tab : TabName) (r : RowId) (db : Db) (rid : Rid) :
    (Db.trackRead t tab db rid).Ends fun db' => RowWrite db db' t r (db.rows r) [] false := by
  have h := (RowWrite.tracked db t r (db.ser.recordRead t (db.txn t).readTs ⟨tab, rid⟩)
    db.recentWrites).andThen (serReadCheck_write _ t r ⟨tab, rid⟩)
  unfold Db.trackRead
  dsimp only
  split
  · exact h
  · exact h

theorem select_op (t : TxnId) (tab : TabName) (conds : List Condition) (path : Db.Path) (r : RowId)
    (db : Db) : (db.select t tab conds path).Ends fun db' => RowWrite db db' t r (db.rows r) [] false := by
  unfold Db.select
  split
  · exact .refl db t r
  · have h := (RowWrite.tracked db t r (db.ser.recordPred (db.tabs tab) t (db.txn t).readTs tab conds)
      db.recentWrites).andThen (serReadPredCheck_write _ t tab conds r)
    dsimp only
    split
    · exact h
    · refine (rowLoop_ends (R := fun db db' => RowWrite db db' t r (db.rows r) [] false)
        (I := fun _ _ => True) (fun db => .refl db t r) (fun _ _ _ h h' => h.andThen h') ?_ _ _
        trivial).mono fun db' h' => h.andThen h'
      exact fun rid _ db _ => ⟨trackRead_op t tab r db rid, fun _ _ => trivial⟩

theorem RowWrite.baseOk_other (h : RowWrite db db' t r row ws mark) {r' : RowId} (hr : r' ≠ r)
    (hb : db.BaseOk t r' (db.rows r').slot.data) : db'.BaseOk t r' (db'.rows r').slot.data := by
  unfold Db.BaseOk Db.chainOf at hb ⊢
  rw [h.row_other hr, h.overlay t]
  exact hb

theorem delete_rows (t : TxnId) (tab : TabName) (versioned : Bool) (rids : List Rid) (db : Db)
    (hd : db.ChainsDirty)
    (hbase : versioned → ∀ rid ∈ rids, db.BaseOk t ⟨tab, rid⟩ (db.rows ⟨tab, rid⟩).slot.data)
    (hv : ¬ versioned → db.needsVersioning (db.txn t) tab = false) :
    (rowLoop (Db.deleteRow t tab versioned) rids db).Ends (Rows t db) := by
  refine rowLoop_ends (I := fun rids db => db.ChainsDirty ∧
      (versioned → ∀ rid ∈ rids, db.BaseOk t ⟨tab, rid⟩ (db.rows ⟨tab, rid⟩).slot.data) ∧
      (¬ versioned → db.needsVersioning (db.txn t) tab = false))
    (fun _ => .refl) (fun _ _ _ h h' => h.trans h') ?_ rids db ⟨hd, hbase, hv⟩
  rintro rid rids db ⟨hd, hbase, hv⟩
  have hop := deleteRow_op t tab versioned db rid (fun h => hbase h rid List.mem_cons_self) hv
  refine ⟨hop.mono fun _ h => h.rows, fun db' hdb' => ?_⟩
  rw [hdb'] at hop
  refine ⟨RowOp.chainsDirty hop hd, ?_, ?_⟩
  · rintro rfl rid' hrid'
    have hb := hbase rfl rid' (List.mem_cons_of_mem _ hrid')
    rcases eq_or_ne rid' rid with rfl | hne
    · -- the row itself belongs to `t` now
      intro _ hwriter
      rw [(deleteRow_versioned t tab db rid' hb).2 db' hdb'] at hwriter
      cases hwriter
    · obtain ⟨row, ws, mark, hw, -⟩ := hop
      exact hw.baseOk_other (fun h => hne (congrArg RowId.rid h)) hb
  · intro hver
    cases versioned with
    | true => exact absurd rfl hver
    | false =>
        obtain ⟨db1, hout, hw⟩ := deleteRow_inPlace t tab db rid
        rw [hdb'] at hout
        cases hout
        rw [hw.needsVersioning]
        exact hv hver

theorem exec_rows (hd : db.ChainsDirty) (t : TxnId) (s : Stmt) : (db.exec t s).Ends (Rows t db) := by
  cases s with
  | insert tab rows =>
      refine rowLoop_ends (I := fun _ _ => True) (fun _ => .refl) (fun _ _ _ h h' => h.trans h') ?_
        rows db trivial
      exact fun row _ db _ => ⟨(insertRow_op t tab db row).mono fun _ h => h.rows, fun _ _ => trivial⟩
  | update tab sets conds path =>
      refine rowLoop_ends (I := fun _ db => db.ChainsDirty) (fun _ => .refl)
        (fun _ _ _ h h' => h.trans h') ?_ _ db hd
      intro rid rids db hd
      have hop := updateRow_op t tab sets db rid (fun h => hd.any h)
      refine ⟨hop.mono fun _ h => h.rows, fun db' hdb' => ?_⟩
      rw [hdb'] at hop
      exact RowOp.chainsDirty hop hd
  | delete tab conds path =>
      refine delete_rows t tab _ _ db hd (fun _ rid hrid => ?_) (fun h => by simpa using h)
      obtain ⟨img, himg⟩ := mem_targets hrid
      exact readRow_baseOk hd himg
  | select tab conds path =>
      exact (select_op t tab conds path ⟨tab, default⟩ db).mono fun _ h => (RowOp.none_of h).rows

end Rmdb.Txn
