import Rmdb.Mvcc.Chains

/-!
# What the writers leave for the readers' tests

`ser_needs_read_check` and `ser_read_pred_check` look at `write_activity_`, at the tables a
transaction has written and at `recent_writes_` before they look at a chain.  These (`Tracks`)
change where a write is noted and where a transaction ends, and nowhere else.
-/

namespace Rmdb.Txn

open Rmdb.Index (Rid)

structure Tracks where
  recentWrites : List RowId
  writeActivity : TabName → WriteActivity
  writtenTabs : TxnId → List TabName

def Db.tracks (db : Db) : Tracks :=
  ⟨db.recentWrites, db.writeActivity, fun u => (db.txn u).writtenTabs⟩

variable {db db' : Db} {t : TxnId} {r : RowId}

/-! ## Writes -/

/-- A change of a transaction that keeps the tables it has written. -/
theorem modifyTxn_tracks (db : Db) {f : Transaction → Transaction}
    (hf : (f (db.txn t)).writtenTabs = (db.txn t).writtenTabs) :
    (db.modifyTxn t f).tracks = db.tracks := by
  unfold Db.tracks
  congr 1
  funext u
  rcases eq_or_ne u t with rfl | hu
  · rw [Db.txn_modifyTxn_self, hf]
  · rw [Db.txn_congr (Function.update_of_ne hu _ _ : (db.modifyTxn t f).txns u = db.txns u)]

theorem addWriteRecord_tracks (db : Db) (t : TxnId) (w : WriteRecord) (first : Bool) :
    (db.addWriteRecord t w first).tracks = db.tracks := by
  unfold Db.addWriteRecord
  split
  · exact modifyTxn_tracks db rfl
  · rfl

theorem noteDelKey_tracks (db : Db) (t : TxnId) (tab : TabName) (old : Bytes) :
    (db.noteDelKey t tab old).tracks = db.tracks := by
  unfold Db.noteDelKey
  split
  · rfl
  · rename_i c cs hcols
    exact modifyTxn_tracks db
      (f := fun x => { x with delKeys := x.delKeys ++ [(tab, getBytes old c.offset c.len)] }) rfl

theorem putVersion_tracks (db : Db) (t : TxnId) (r : RowId) (ch : MvccChain) (old : Image)
    (del : Bool) (data : Image) : (db.putVersion t r ch old del data).tracks = db.tracks := by
  unfold Db.putVersion
  dsimp only
  rw [addWriteRecord_tracks]
  split
  · exact noteDelKey_tracks _ _ _ _
  · rfl

theorem mvccInsert_tracks (db : Db) (t : TxnId) (r : RowId) (data : Bytes) :
    (db.mvccInsert t r data).tracks = (db.noteWrite t r).tracks :=
  modifyTxn_tracks _ rfl

theorem mvccWrite_tracks {old : Image} {new : Option Bytes}
    (h : (db.mvccWrite t r old new).db? = some db') : db'.tracks = (db.noteWrite t r).tracks := by
  have hput : ∀ del data, ((db.touchChain t r).putVersion t r (db.chainOf r) old del data).tracks =
      (db.noteWrite t r).tracks := fun del data => putVersion_tracks _ _ _ _ _ _ _
  unfold Db.mvccWrite at h
  dsimp only at h
  split at h
  · cases h
    rfl
  · split at h
    · cases h
      exact hput _ _
    · split at h
      · cases h
        rfl
      · split at h
        · cases h
        · split at h
          · cases h
            rfl
          · cases h
            exact hput _ _

theorem colDelta_tracks {visible : Image} {off : Nat} {type : ColType} {deltaF deltaI : BitVec 32}
    (h : (db.mvccWriteColDelta t r visible off type deltaF deltaI).db? = some db') :
    db'.tracks = (db.noteWrite t r).tracks := by
  unfold Db.mvccWriteColDelta at h
  dsimp only at h
  split at h
  · cases h
    rfl
  · split at h
    · cases h
      rfl
    · cases h
      exact addWriteRecord_tracks _ _ _ _

theorem colPatch_tracks {visible : Image} {patches : List MvccColPatch}
    (h : (db.mvccWriteColPatch t r visible patches).db? = some db') :
    db' = db ∨ db'.tracks = (db.noteWrite t r).tracks := by
  unfold Db.mvccWriteColPatch at h
  dsimp only at h
  split at h
  · cases h
    exact .inl rfl
  · right
    split at h
    · cases h
      rfl
    · generalize (if (db.chainOf r).writer = some t then none
        else (db.touchChain t r).newerVer t ((db.touchChain t r).withBase t r (db.chainOf r) visible))
          = newer at h
      split at h
      · cases h
        rfl
      · generalize applyPatches _ patches _ = out at h
        split at h
        · cases h
          exact addWriteRecord_tracks _ _ _ _
        · cases h
          rfl

theorem noteWrite_recentWrites (db : Db) (t : TxnId) (r : RowId) :
    (db.noteWrite t r).recentWrites = db.recentWrites.insert r := by
  unfold Db.noteWrite
  dsimp only
  split <;> rfl

/-! ## Release -/

theorem release_tracks (db : Db) (t : TxnId) : (db.releaseStatementWrites t).tracks = db.tracks := by
  have hrec : (db.releaseStatementWrites t).recentWrites = db.recentWrites ∧
      (db.releaseStatementWrites t).writeActivity = db.writeActivity := by
    unfold Db.releaseStatementWrites
    split
    · exact ⟨rfl, rfl⟩
    · exact ⟨rfl, rfl⟩
  unfold Db.tracks
  rw [hrec.1, hrec.2]
  simp only [release_proj Transaction.writtenTabs (fun _ _ => rfl)]

/-! ## Commit and abort -/

/-- The tracks once a writer of `tabs` has ended with the timestamp `cts`. -/
def Tracks.endActivity (k : Tracks) (tabs : List TabName) (cts : Ts) : Tracks :=
  { k with
    writeActivity := fun tab =>
      if tab ∈ tabs then
        ⟨(k.writeActivity tab).writers - 1, max (k.writeActivity tab).lastCts cts⟩
      else k.writeActivity tab }

def Tracks.forget (k : Tracks) (t : TxnId) : Tracks :=
  { k with writtenTabs := Function.update k.writtenTabs t [] }

/-- What the end of `t` does. -/
def Tracks.leave (k : Tracks) (t : TxnId) (cts : Ts) : Tracks :=
  (k.endActivity (k.writtenTabs t) cts).forget t

theorem foldl_tracks {α : Type} (f : Db → α → Db) (hf : ∀ db a, (f db a).tracks = db.tracks) :
    ∀ (as : List α) (db : Db), (as.foldl f db).tracks = db.tracks := by
  intro as
  induction as with
  | nil => exact fun _ => rfl
  | cons a as ih => exact fun db => (ih _).trans (hf db a)

theorem finishSer_tracks (db : Db) (t : TxnId) (committed : Bool) (cts : Ts) :
    (db.finishSer t committed cts).tracks = db.tracks := by
  unfold Db.finishSer
  split <;> rfl

theorem logIf_tracks (db : Db) (b : Bool) (l : LogRecord) : (db.logIf b l).tracks = db.tracks := by
  unfold Db.logIf
  split <;> rfl

/-- The end of commit and abort forgets the tables that the transaction has written. -/
theorem endTxn_tracks (db : Db) (t : TxnId) (state : TransactionState) :
    (db.endTxn t state).tracks = db.tracks.forget t := by
  unfold Db.tracks Tracks.forget
  congr 1
  funext u
  rcases eq_or_ne u t with rfl | hu
  · rw [Function.update_self, Db.endTxn, Db.txn_modifyTxn_self]
  · rw [Function.update_of_ne hu]
    exact congrArg Transaction.writtenTabs (Db.txn_congr (Function.update_of_ne hu _ _))

theorem endWriteActivity_tracks (db : Db) (tabs : List TabName) (cts : Ts) :
    (db.endWriteActivity tabs cts).tracks = db.tracks.endActivity tabs cts := rfl

theorem markAll_tracks (db : Db) (ws : List WriteRecord) :
    (ws.foldl (fun db w => db.markDirty w.row.tab) db).tracks = db.tracks :=
  foldl_tracks (fun db w => db.markDirty w.row.tab) (fun _ _ => rfl) ws db

theorem commitDelKeys_tracks (db : Db) (t : TxnId) (cts wm : Ts) (keys : List (TabName × Bytes)) :
    (db.commitDelKeys t cts wm keys).tracks = db.tracks := rfl

theorem abortDelKeys_tracks (db : Db) (t : TxnId) (keys : List (TabName × Bytes)) :
    (db.abortDelKeys t keys).tracks = db.tracks := rfl

theorem reclaim_tracks (db : Db) (wm : Ts) (ws : List WriteRecord) :
    (db.reclaim wm ws).tracks = db.tracks := by
  rw [(reclaim_spec wm ws db).1]
  rfl

theorem closeCommit_tracks (db : Db) (t : TxnId) (cts wm : Ts) :
    (db.closeCommit t cts wm).tracks = db.tracks.leave t cts := by
  unfold Db.closeCommit Tracks.leave
  rw [endTxn_tracks, logIf_tracks, markAll_tracks, reclaim_tracks, commitDelKeys_tracks,
    endWriteActivity_tracks]
  rfl

theorem committing_tracks (db : Db) (t : TxnId) : (db.committing t).tracks = db.tracks := by
  unfold Db.committing
  rw [finishSer_tracks]
  exact modifyTxn_tracks (t := t) (f := fun x => { x with commitTs := db.nextCts t })
    (db.restoreWritersFromOverlays t) rfl

theorem commit_tracks (hlive : (db.txn t).live) (h : db.commit t = some db') :
    db'.tracks = db.tracks.leave t (db.nextCts t) := by
  rw [commit_eq hlive] at h
  obtain ⟨db4, hpub, rfl⟩ := Option.map_eq_some_iff.1 h
  have h4 : db4.tracks = db.tracks := by
    rw [(publish_spec _ _ _ _ _ _ hpub).1, ← committing_tracks db t]
    rfl
  rw [closeCommit_tracks, h4]

/-- Undoing writes changes rows, indexes and dirty marks. -/
def UndoOnly (db db' : Db) : Prop := ∃ rows index any dirty,
  db' = { db with rows := rows, index := index, anyMvccDirty := any, mvccDirty := dirty }

theorem UndoOnly.refl (db : Db) : UndoOnly db db := ⟨_, _, _, _, rfl⟩

theorem UndoOnly.trans {db'' : Db} (h : UndoOnly db db') (h' : UndoOnly db' db'') :
    UndoOnly db db'' := by
  obtain ⟨_, _, _, _, rfl⟩ := h
  obtain ⟨_, _, _, _, rfl⟩ := h'
  exact ⟨_, _, _, _, rfl⟩

theorem UndoOnly.ite {p : Prop} [Decidable p] {a b : Db} (ha : UndoOnly db a) (hb : UndoOnly db b) :
    UndoOnly db (if p then a else b) := by
  split
  · exact ha
  · exact hb

theorem UndoOnly.foldl {α : Type} (f : Db → α → Db) (hf : ∀ db a, UndoOnly db (f db a)) :
    ∀ (as : List α) (db : Db), UndoOnly db (as.foldl f db) := by
  intro as
  induction as with
  | nil => exact UndoOnly.refl
  | cons a as ih => exact fun db => (hf db a).trans (ih _)

theorem insertEntry_undoOnly (db : Db) (tab : TabName) (cols : List ColMeta) (key : Bytes) (rid : Rid) :
    UndoOnly db (db.insertEntry tab cols key rid) := by
  unfold Db.insertEntry
  exact .ite (.refl db) ⟨_, _, _, _, rfl⟩

theorem rollbackIndexOnAbort_undoOnly (db : Db) (r : RowId) (wtype : WType) (old new : Bytes) :
    UndoOnly db (db.rollbackIndexOnAbort r wtype old new) := by
  refine .foldl _ (fun db cols => ?_) _ db
  have hdelete : ∀ key, UndoOnly db (db.deleteEntry r.tab cols key) := fun key => ⟨_, _, _, _, rfl⟩
  cases wtype with
  | insertTuple => exact hdelete _
  | deleteTuple => exact .refl db
  | updateTuple =>
      dsimp only
      split
      · exact (hdelete _).trans (insertEntry_undoOnly _ _ _ _ _)
      · exact .refl db

theorem restoreIndexIfMissing_undoOnly (db : Db) (r : RowId) (data : Bytes) :
    UndoOnly db (db.restoreIndexIfMissing r data) := by
  unfold Db.restoreIndexIfMissing
  exact .ite (.refl db) (.foldl _ (fun db cols => insertEntry_undoOnly _ _ _ _ _) _ db)

theorem undoVersioned_undoOnly (db : Db) (w : WriteRecord) (c : MvccChain) :
    UndoOnly db (db.undoVersioned w c) := by
  have hrow : UndoOnly db (db.setRow w.row (Db.undoVersionedRow c (db.rows w.row))) :=
    ⟨_, _, _, _, rfl⟩
  unfold Db.undoVersioned
  dsimp only
  cases c.hist.getLast? with
  | none => exact .ite (hrow.trans (rollbackIndexOnAbort_undoOnly _ _ _ _ _)) hrow
  | some last =>
      exact .ite (hrow.trans (rollbackIndexOnAbort_undoOnly _ _ _ _ _))
        (.ite (hrow.trans (restoreIndexIfMissing_undoOnly _ _ _)) hrow)

theorem physicalUndo_undoOnly (db : Db) (w : WriteRecord) :
    UndoOnly db (db.physicalUndoWriteRecord w) := by
  have hrow : UndoOnly db (db.setRow w.row (Db.physicalUndoRow w (db.rows w.row))) := ⟨_, _, _, _, rfl⟩
  have hdirty : ∀ db' : Db, UndoOnly db' (db'.markDirty w.row.tab) := fun _ => ⟨_, _, _, _, rfl⟩
  unfold Db.physicalUndoWriteRecord
  dsimp only
  cases w.wtype with
  | insertTuple =>
      exact (UndoOnly.ite (hrow.trans (rollbackIndexOnAbort_undoOnly _ _ _ _ _)) hrow).trans (hdirty _)
  | updateTuple => exact .ite (hrow.trans (rollbackIndexOnAbort_undoOnly _ _ _ _ _)) hrow
  | deleteTuple => exact .ite (hrow.trans (restoreIndexIfMissing_undoOnly _ _ _)) hrow

theorem undoWrites_undoOnly (t : TxnId) : ∀ (ws : List WriteRecord) (undone : List RowId) (db : Db),
    UndoOnly db (Db.undoWrites t db undone ws) := by
  intro ws
  induction ws with
  | nil => exact fun _ db => .refl db
  | cons w ws ih =>
      intro undone db
      unfold Db.undoWrites
      split
      · exact (undoVersioned_undoOnly db w _).trans (ih _ _)
      · split
        · exact ih undone db
        · exact (physicalUndo_undoOnly db w).trans (ih _ _)

theorem undoWrites_tracks (t : TxnId) (ws : List WriteRecord) (undone : List RowId) (db : Db) :
    (Db.undoWrites t db undone ws).tracks = db.tracks := by
  obtain ⟨rows, index, any, dirty, heq⟩ := undoWrites_undoOnly t ws undone db
  rw [heq]
  rfl

theorem abort_tracks (hlive : (db.txn t).live) : (db.abort t).tracks = db.tracks.leave t 0 := by
  have hundone : (db.undone t).tracks = db.tracks := undoWrites_tracks t _ [] _
  have hleft : (db.left t).tracks = db.tracks := by
    unfold Db.left
    rw [finishSer_tracks, ← hundone]
    rfl
  unfold Tracks.leave
  rw [abort_eq hlive, endTxn_tracks, Db.aborting, abortDelKeys_tracks, endWriteActivity_tracks,
    logIf_tracks, hleft]
  rfl

end Rmdb.Txn
