import Rmdb.Exec.Session

/-!
# What a write of one row leaves alone

`RowWrite db db' t r row ws mark`: from `db` to `db'` transaction `t` has worked on row `r`
only.  The row is now `row`, the records `ws` are new in the write set of `t`, and the table
is marked dirty if `mark`.  Logs, indexes, SSI state and counters are free.
-/

namespace Rmdb.Txn

open Rmdb.Index (Rid)

/-- The fields of a transaction that its writes do not change. -/
def Transaction.head (x : Transaction) : Transaction :=
  { x with wroteLog := false, writeSet := [], delKeys := [], writtenTabs := [] }

structure RowWrite (db db' : Db) (t : TxnId) (r : RowId) (row : Row) (ws : List WriteRecord)
    (mark : Bool) : Prop where
  rows : db'.rows = Function.update db.rows r row
  others : ∀ u, u ≠ t → db'.txns u = db.txns u
  head : (db'.txn t).head = (db.txn t).head
  writeSet : (db'.txn t).writeSet = (db.txn t).writeSet ++ ws
  isSome : (db.txns t).isSome → (db'.txns t).isSome
  tabs : db'.tabs = db.tabs
  nextTxnId : db'.nextTxnId = db.nextTxnId
  lastCommitTs : db'.lastCommitTs = db.lastCommitTs
  activeRts : db'.activeRts = db.activeRts
  activeExplicitCount : db'.activeExplicitCount = db.activeExplicitCount
  anyMvccDirty : db'.anyMvccDirty = (db.anyMvccDirty || mark)
  mvccDirty : ∀ tab, db'.mvccDirty tab = (db.mvccDirty tab || (mark && decide (tab = r.tab)))

variable {db db' db'' : Db} {t : TxnId} {r : RowId} {row row' : Row} {ws ws' : List WriteRecord}
variable {mark mark' : Bool}

@[simp] theorem Db.txn_modifyTxn_self (db : Db) (t : TxnId) (f : Transaction → Transaction) :
    (db.modifyTxn t f).txn t = f (db.txn t) := by
  simp [Db.txn, Db.modifyTxn]

theorem Db.txn_congr {u : TxnId} (h : db'.txns u = db.txns u) : db'.txn u = db.txn u := by
  unfold Db.txn
  rw [h]

@[simp] theorem Db.setRow_rows (db : Db) (r : RowId) (row : Row) :
    (db.setRow r row).rows = Function.update db.rows r row := rfl

namespace RowWrite

theorem txn_other (h : RowWrite db db' t r row ws mark) {u : TxnId} (hu : u ≠ t) :
    db'.txn u = db.txn u := Db.txn_congr (h.others u hu)

theorem row_self (h : RowWrite db db' t r row ws mark) : db'.rows r = row := by
  rw [h.rows, Function.update_self]

theorem row_other (h : RowWrite db db' t r row ws mark) {r' : RowId} (hr : r' ≠ r) :
    db'.rows r' = db.rows r' := by
  rw [h.rows, Function.update_of_ne hr]

theorem head_eq (h : RowWrite db db' t r row ws mark) (u : TxnId) :
    (db'.txn u).head = (db.txn u).head := by
  rcases eq_or_ne u t with rfl | hu
  · exact h.head
  · rw [h.txn_other hu]

theorem proj {α : Type} (h : RowWrite db db' t r row ws mark) (f : Transaction → α)
    (hf : ∀ x, f x.head = f x) (u : TxnId) : f (db'.txn u) = f (db.txn u) := by
  rw [← hf, h.head_eq u, hf]

theorem readTs (h : RowWrite db db' t r row ws mark) (u : TxnId) :
    (db'.txn u).readTs = (db.txn u).readTs := h.proj _ (fun _ => rfl) u

theorem overlay (h : RowWrite db db' t r row ws mark) (u : TxnId) :
    (db'.txn u).overlay = (db.txn u).overlay := h.proj _ (fun _ => rfl) u

theorem txnMode (h : RowWrite db db' t r row ws mark) (u : TxnId) :
    (db'.txn u).txnMode = (db.txn u).txnMode := h.proj _ (fun _ => rfl) u

theorem state (h : RowWrite db db' t r row ws mark) (u : TxnId) :
    (db'.txn u).state = (db.txn u).state := h.proj _ (fun _ => rfl) u

theorem isolation (h : RowWrite db db' t r row ws mark) (u : TxnId) :
    (db'.txn u).isolation = (db.txn u).isolation := h.proj _ (fun _ => rfl) u

theorem touches_eq (hw : RowWrite db db' t r row [] mark) (u : TxnId) (r' : RowId) :
    (db'.txn u).touches r' = (db.txn u).touches r' := by
  rcases eq_or_ne u t with rfl | hu
  · rw [Transaction.touches, hw.writeSet, List.append_nil]
    rfl
  · rw [hw.txn_other hu]

theorem refl (db : Db) (t : TxnId) (r : RowId) : RowWrite db db t r (db.rows r) [] false where
  rows := (Function.update_eq_self r db.rows).symm
  others := fun _ _ => rfl
  head := rfl
  writeSet := (List.append_nil _).symm
  isSome := id
  tabs := rfl
  nextTxnId := rfl
  lastCommitTs := rfl
  activeRts := rfl
  activeExplicitCount := rfl
  anyMvccDirty := (Bool.or_false _).symm
  mvccDirty := fun tab => by simp

theorem trans (h : RowWrite db db' t r row ws mark) (h' : RowWrite db' db'' t r row' ws' mark') :
    RowWrite db db'' t r row' (ws ++ ws') (mark || mark') where
  rows := by rw [h'.rows, h.rows, Function.update_idem]
  others := fun u hu => (h'.others u hu).trans (h.others u hu)
  head := h'.head.trans h.head
  writeSet := by rw [h'.writeSet, h.writeSet, List.append_assoc]
  isSome := fun hs => h'.isSome (h.isSome hs)
  tabs := h'.tabs.trans h.tabs
  nextTxnId := h'.nextTxnId.trans h.nextTxnId
  lastCommitTs := h'.lastCommitTs.trans h.lastCommitTs
  activeRts := h'.activeRts.trans h.activeRts
  activeExplicitCount := h'.activeExplicitCount.trans h.activeExplicitCount
  anyMvccDirty := by rw [h'.anyMvccDirty, h.anyMvccDirty, Bool.or_assoc]
  mvccDirty := fun tab => by
    rw [h'.mvccDirty, h.mvccDirty, Bool.or_assoc, ← Bool.and_or_distrib_right]

/-! ## The single operations -/

theorem setRow (db : Db) (t : TxnId) (r : RowId) (row : Row) :
    RowWrite db (db.setRow r row) t r row [] false :=
  { refl db t r with rows := rfl }

theorem setChain (db : Db) (t : TxnId) (r : RowId) (c : MvccChain) :
    RowWrite db (db.setChain r c) t r { db.rows r with chain := some c } [] false :=
  setRow db t r _

theorem setSlot (db : Db) (t : TxnId) (r : RowId) (s : Slot) :
    RowWrite db (db.setSlot r s) t r { db.rows r with slot := s } [] false :=
  setRow db t r _

theorem modifyTxn (db : Db) (t : TxnId) (r : RowId) (ws : List WriteRecord)
    (f : Transaction → Transaction)
    (hf : (f (db.txn t)).head = (db.txn t).head)
    (hws : (f (db.txn t)).writeSet = (db.txn t).writeSet ++ ws) :
    RowWrite db (db.modifyTxn t f) t r (db.rows r) ws false where
  rows := (Function.update_eq_self r db.rows).symm
  others := fun u hu => Function.update_of_ne hu _ _
  head := by rw [Db.txn_modifyTxn_self, hf]
  writeSet := by rw [Db.txn_modifyTxn_self, hws]
  isSome := fun _ => by simp [Db.modifyTxn]
  tabs := rfl
  nextTxnId := rfl
  lastCommitTs := rfl
  activeRts := rfl
  activeExplicitCount := rfl
  anyMvccDirty := (Bool.or_false _).symm
  mvccDirty := fun tab => by simp [Db.modifyTxn]

theorem noteWrite (db : Db) (t : TxnId) (r : RowId) :
    RowWrite db (db.noteWrite t r) t r (db.rows r) [] false := by
  have h := modifyTxn db t r []
    (fun x => { x with writtenTabs := x.writtenTabs ++ [r.tab] }) rfl (List.append_nil _).symm
  unfold Db.noteWrite
  dsimp only
  split
  · exact { refl db t r with rows := (refl db t r).rows }
  · exact { h with rows := h.rows }

theorem markDirty (db : Db) (t : TxnId) (r : RowId) :
    RowWrite db (db.markDirty r.tab) t r (db.rows r) [] true :=
  { refl db t r with
    anyMvccDirty := (Bool.or_true _).symm
    mvccDirty := by
      intro tab
      by_cases htab : tab = r.tab
      · subst htab
        simp [Db.markDirty]
      · simp [Db.markDirty, htab] }

/-- Every versioned write starts with the dirty mark. -/
theorem start (db : Db) (t : TxnId) (r : RowId) :
    RowWrite db ((db.noteWrite t r).markDirty r.tab) t r (db.rows r) [] true := by
  have h := (noteWrite db t r).trans (markDirty (db.noteWrite t r) t r)
  rwa [(noteWrite db t r).row_self] at h

theorem addWriteRecord (db : Db) (t : TxnId) (r : RowId) (w : WriteRecord) (first : Bool) :
    RowWrite db (db.addWriteRecord t w first) t r (db.rows r) (if first then [w] else []) false := by
  unfold Db.addWriteRecord
  cases first with
  | false => exact refl db t r
  | true =>
      exact modifyTxn db t r [w] (fun x => { x with writeSet := x.writeSet ++ [w] }) rfl rfl

theorem noteDelKey (db : Db) (t : TxnId) (r : RowId) (old : Bytes) :
    RowWrite db (db.noteDelKey t r.tab old) t r (db.rows r) [] false := by
  unfold Db.noteDelKey
  split
  · exact refl db t r
  · rename_i c cs hcols
    have h := modifyTxn db t r []
      (fun x => { x with delKeys := x.delKeys ++ [(r.tab, getBytes old c.offset c.len)] }) rfl
      (List.append_nil _).symm
    exact { h with rows := h.rows }

theorem writeLog (db : Db) (t : TxnId) (r : RowId) (l : LogRecord) :
    RowWrite db (db.writeLog t l) t r (db.rows r) [] false := by
  have h := modifyTxn (db.appendLog l) t r [] (fun x => { x with wroteLog := true }) rfl
    (List.append_nil _).symm
  exact { h with rows := h.rows }

theorem deleteEntry (db : Db) (t : TxnId) (r : RowId) (tab : TabName) (cols : List ColMeta)
    (key : Bytes) : RowWrite db (db.deleteEntry tab cols key) t r (db.rows r) [] false :=
  { refl db t r with rows := (refl db t r).rows }

theorem insertEntry (db : Db) (t : TxnId) (r : RowId) (tab : TabName) (cols : List ColMeta)
    (key : Bytes) (rid : Rid) :
    RowWrite db (db.insertEntry tab cols key rid) t r (db.rows r) [] false := by
  unfold Db.insertEntry
  split
  · exact refl db t r
  · exact { refl db t r with rows := (refl db t r).rows }

/-- A fold of operations that leave row and write set alone does so too. -/
theorem foldl {α : Type} (t : TxnId) (r : RowId) (f : Db → α → Db)
    (hf : ∀ db a, RowWrite db (f db a) t r (db.rows r) [] false) :
    ∀ (as : List α) (db : Db), RowWrite db (as.foldl f db) t r (db.rows r) [] false := by
  intro as
  induction as with
  | nil => exact fun db => refl db t r
  | cons a as ih =>
      intro db
      have h := (hf db a).trans (ih (f db a))
      rwa [(hf db a).row_self] at h

theorem deleteKeys (db : Db) (t : TxnId) (r : RowId) (tab : TabName) (idxs : List (List ColMeta))
    (data : Bytes) : RowWrite db (db.deleteKeys tab idxs data) t r (db.rows r) [] false :=
  foldl t r _ (fun db _ => deleteEntry db t r _ _ _) idxs db

theorem insertKeys (db : Db) (t : TxnId) (r r' : RowId) (idxs : List (List ColMeta))
    (data : Bytes) : RowWrite db (db.insertKeys r' idxs data) t r (db.rows r) [] false :=
  foldl t r _ (fun db _ => insertEntry db t r _ _ _ _) idxs db

theorem fastRecord (db : Db) (t : TxnId) (r : RowId) (w : WriteRecord) :
    RowWrite db (db.fastRecord t w) t r (db.rows r)
      (if db.usesSiFastPath (db.txn t) then [w] else []) false :=
  addWriteRecord db t r w _

theorem serCheck (db : Db) (t : TxnId) (r : RowId) (data : Bytes) :
    RowWrite db (db.serCheck t r data).1 t r (db.rows r) [] false := by
  unfold Db.serCheck
  split
  · exact { refl db t r with rows := (refl db t r).rows }
  · exact refl db t r

theorem fillSlot (db : Db) (t : TxnId) (r : RowId) (data : Image) :
    RowWrite db (db.fillSlot r data) t r { db.rows r with slot := ⟨true, data⟩ } [] false :=
  { setSlot db t r ⟨true, data⟩ with rows := rfl }

/-- The second operation leaves row and write set alone. -/
theorem andThen (h : RowWrite db db' t r row ws mark)
    (h' : RowWrite db' db'' t r (db'.rows r) [] false) : RowWrite db db'' t r row ws mark := by
  have h2 := h.trans h'
  rwa [h.row_self, List.append_nil, Bool.or_false] at h2

end RowWrite

end Rmdb.Txn
