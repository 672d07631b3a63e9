import Rmdb.Txn.Manager

/-!
# Statement ends, commit and abort

After each statement of an explicit transaction its uncommitted writes move from the chains
to the transaction's overlays (`release_statement_writes`), except on chains marked
`hold_writer_to_commit`; commit and abort move them back, then publish or undo them.
-/

namespace Rmdb.Txn

namespace Db

variable (db : Db)

/-! ## Moving uncommitted writes -/

/-- The chain of row `r` if its uncommitted write moves to the overlay of `t`. -/
def releasable (t : TxnId) (r : RowId) : Option MvccChain :=
  if (db.txn t).touches r then
    (db.rows r).chain.filter fun c => decide (c.writer = some t) && !c.holdWriterToCommit
  else none

def releaseStatementWrites (t : TxnId) : Db :=
  if !(db.txn t).txnMode then db
  else
    { db with
      rows := fun r =>
        match db.releasable t r with
        | none => db.rows r
        | some c =>
            { db.rows r with
              chain := some { c with writer := none, writerDel := false, writerData := .empty }
              pending := some t }
      txns := Function.update db.txns t (some { db.txn t with
        overlay := fun r =>
          match db.releasable t r with
          | none => (db.txn t).overlay r
          | some c => some ⟨c.writerData, c.writerDel⟩ }) }

def restoreWritersFromOverlays (t : TxnId) : Db :=
  { db with
    rows := fun r =>
      match (db.txn t).overlay r with
      | none => db.rows r
      | some ov =>
          { db.rows r with
            chain := some { (db.rows r).chain.getD {} with
              writer := some t, writerDel := ov.isDeleted, writerData := ov.data }
            pending := none } }

/-- The part of `clear_pending_si_for_txn` that is left once the write set is cleared. -/
def clearPendingSiForTxn (t : TxnId) : Db :=
  { db with
    rows := fun r =>
      if ((db.txn t).overlay r).isSome ∧ (db.rows r).pending = some t then
        { db.rows r with pending := none }
      else db.rows r }

/-! ## Begin -/

/-- `begin` for a new transaction; `BEGIN` also sets `txn_mode` and counts it. -/
def begin (explicit : Bool) (iso : IsolationLevel) : Db :=
  { db with
    txns := Function.update db.txns db.nextTxnId
      (some { txnMode := explicit, isolation := iso, readTs := db.lastCommitTs })
    nextTxnId := db.nextTxnId + 1
    activeRts := db.lastCommitTs :: db.activeRts
    activeExplicitCount := db.activeExplicitCount + if explicit then 1 else 0 }

/-- `*active_rts_.begin()`, or `dflt` when no transaction is active. -/
def lowestRts (dflt : Ts) : Ts := db.activeRts.min?.getD dflt

/-! ## Commit -/

/-- The versions from the newest one with `commit_ts <= wm` on. -/
def pruneHist (hist : List MvccVer) (wm : Ts) : List MvccVer :=
  match hist.reverse.findIdx? (fun v => decide (v.commitTs ≤ wm)) with
  | none => hist
  | some i => hist.drop (hist.length - 1 - i)

/-- `prune_mvcc_after_commit`; `none` when the whole chain goes. -/
def pruneMvccAfterCommit (c : MvccChain) (wm cts : Ts) : Option MvccChain :=
  let whole := decide (c.writer = none) && !c.hist.isEmpty && decide (cts > 0) && decide (wm ≥ cts)
  if c.hist.length ≤ 1 then (if whole then none else some c)
  else
    let c := { c with hist := pruneHist c.hist wm }
    if whole then
      if c.hist.length = 1 then none
      else some { c with hist := c.hist.getLast?.toList }
    else some c

/-- Publish the uncommitted write of `t` on one row; `none` when `update_record` throws. -/
def publishRow (t : TxnId) (cts wm : Ts) (row : Row) : Option Row :=
  match row.chain with
  | none => some row
  | some c =>
      if c.writer ≠ some t then some row
      else
        let v : MvccVer :=
          ⟨if c.writerDel then .empty else c.writerData, cts, c.writerDel, some t⟩
        let slot : Option Slot :=
          if c.writerDel then some { row.slot with isRecord := false }
          else if c.writerData.bytes = [] then some row.slot
          else if row.slot.isRecord then some { row.slot with data := c.writerData }
          else none
        slot.map fun slot =>
          { row with
            slot := slot
            chain := pruneMvccAfterCommit
              { c with
                hist := c.hist ++ [v], writer := none, writerData := .empty
                holdWriterToCommit := false } wm cts }

def publish (t : TxnId) (cts wm : Ts) (db : Db) : List WriteRecord → Option Db
  | [] => some db
  | w :: ws => do
      let row ← publishRow t cts wm (db.rows w.row)
      publish t cts wm (db.setRow w.row row) ws

/-- Drop a chain that says the same as the heap. -/
def reclaimRow (wm : Ts) (row : Row) : Row :=
  match row.chain with
  | none => row
  | some c =>
      match c.writer, c.hist, row.pending with
      | none, [v], none => if v.isDeleted ∨ v.commitTs > wm then row else { row with chain := none }
      | _, _, _ => row

def reclaim (wm : Ts) (ws : List WriteRecord) : Db :=
  ws.foldl (fun db w => db.setRow w.row (reclaimRow wm (db.rows w.row))) db

/-- The write activity of a finished transaction; `cts = 0` after an abort. -/
def endWriteActivity (tabs : List TabName) (cts : Ts) : Db :=
  { db with
    writeActivity := fun tab =>
      if tab ∈ tabs then
        ⟨(db.writeActivity tab).writers - 1, max (db.writeActivity tab).lastCts cts⟩
      else db.writeActivity tab }

/-- The clean-up of `tabmap`: entries without writers, up to the watermark, go. -/
def sweep (wm : Ts) (tabmap : KeyMap) : KeyMap :=
  ⟨tabmap.entries.filter fun e => !(e.2.writers.isEmpty && decide (e.2.lastDelCts ≤ wm)),
    tabmap.nodupKeys.sublist List.filter_sublist⟩

/-- One key that `t` has deleted; the map of a table that has grown is swept. -/
def commitDelKey (t : TxnId) (cts wm : Ts) (m : TabName → KeyMap) (k : TabName × Bytes) : TabName → KeyMap :=
  let st := ((m k.1).lookup k.2).getD {}
  let tabmap := (m k.1).insert k.2 ⟨st.writers.erase t, max st.lastDelCts cts⟩
  Function.update m k.1 (if tabmap.entries.length > 8192 then sweep wm tabmap else tabmap)

def commitDelKeys (t : TxnId) (cts wm : Ts) (keys : List (TabName × Bytes)) : Db :=
  { db with delKeys := keys.foldl (commitDelKey t cts wm) db.delKeys }

/-- One key that `t` had deleted. -/
def abortDelKey (t : TxnId) (m : TabName → KeyMap) (k : TabName × Bytes) : TabName → KeyMap :=
  match (m k.1).lookup k.2 with
  | none => m
  | some st =>
      let st := { st with writers := st.writers.erase t }
      Function.update m k.1
        (if st.writers = [] ∧ st.lastDelCts = 0 then (m k.1).erase k.2 else (m k.1).insert k.2 st)

def abortDelKeys (t : TxnId) (keys : List (TabName × Bytes)) : Db :=
  { db with delKeys := keys.foldl (abortDelKey t) db.delKeys }

def finishSer (t : TxnId) (committed : Bool) (cts : Ts) : Db :=
  if isSer (db.txn t) then
    { db with ser := db.ser.finish t committed cts (db.lowestRts db.lastCommitTs) }
  else db

/-- The last lines of commit and abort. -/
def endTxn (t : TxnId) (state : TransactionState) : Db :=
  let db := { db with
    activeExplicitCount := db.activeExplicitCount - if (db.txn t).txnMode then 1 else 0 }
  (db.clearPendingSiForTxn t).modifyTxn t fun x =>
    { x with
      state := state, writeSet := [], overlay := fun _ => none, delKeys := [], writtenTabs := [] }

def logIf (b : Bool) (l : LogRecord) : Db := if b then db.appendLog l else db

/-- Take the commit timestamp, 0 for none, and leave the active set. -/
def takeCts (t : TxnId) (cts : Ts) : Db :=
  { db.modifyTxn t fun x => { x with commitTs := cts } with
    lastCommitTs := max db.lastCommitTs cts
    activeRts := db.activeRts.erase (db.txn t).readTs }

/-- What commit does after the versions are published. -/
def closeCommit (t : TxnId) (cts wm : Ts) : Db :=
  let x := db.txn t
  let db := db.endWriteActivity x.writtenTabs cts
  let db := db.commitDelKeys t cts wm x.delKeys
  let db := db.reclaim wm x.writeSet
  let db := x.writeSet.foldl (fun db w => db.markDirty w.row.tab) db
  let db := db.logIf (!x.writeSet.isEmpty || x.txnMode || x.wroteLog) (.commit t)
  db.endTxn t .committed

/-- `none` when `update_record` throws. -/
def commit (t : TxnId) : Option Db :=
  if !(db.txn t).live then some db
  else do
    let x := db.txn t
    let cts := if x.writeSet ≠ [] ∨ x.txnMode then db.lastCommitTs + 1 else 0
    let db := (db.restoreWritersFromOverlays t).takeCts t cts
    let wm := db.lowestRts cts
    let db ← publish t cts wm (db.finishSer t true cts) x.writeSet
    some (db.closeCommit t cts wm)

/-! ## Abort -/

/-- The old bytes of a record, or those of the newest version. -/
def undoImage (w : WriteRecord) (row : Row) : Image :=
  if w.record.bytes ≠ [] then w.record
  else ((row.chain.bind fun c => c.hist.getLast?).map MvccVer.data).getD .empty

/-- The heap and the chain after a write without a version is undone.  An update whose bytes
are the same is not written back by the source. -/
def physicalUndoRow (w : WriteRecord) (row : Row) : Row :=
  let old := undoImage w row
  match w.wtype with
  | .insertTuple =>
      { row with
        chain := some { row.chain.getD {} with
          hist := [], writer := none, writerDel := false, writerData := .empty } }
  | .updateTuple =>
      if old.bytes = [] ∨ ¬ row.slot.isRecord then row
      else { row with slot := { row.slot with data := old } }
  | .deleteTuple => if old.bytes = [] then row else { row with slot := ⟨true, old⟩ }

/-- `physical_undo_write_record`, for writes that have no version. -/
def physicalUndoWriteRecord (w : WriteRecord) : Db :=
  let row := db.rows w.row
  let old := (undoImage w row).bytes
  let cur := if row.slot.isRecord then row.slot.data.bytes else []
  let db := db.setRow w.row (physicalUndoRow w row)
  match w.wtype with
  | .insertTuple =>
      let new := if w.record.bytes ≠ [] then w.record.bytes else cur
      let db := if new ≠ [] then db.rollbackIndexOnAbort w.row .insertTuple [] new else db
      db.markDirty w.row.tab
  | .updateTuple =>
      if old ≠ [] ∧ cur ≠ [] then db.rollbackIndexOnAbort w.row .updateTuple old cur else db
  | .deleteTuple => if old ≠ [] then db.restoreIndexIfMissing w.row old else db

/-- The heap and the chain after the uncommitted write `c` is undone. -/
def undoVersionedRow (c : MvccChain) (row : Row) : Row :=
  { row with
    slot :=
      match c.hist.getLast? with
      | none => row.slot
      | some last =>
          if ¬ last.isDeleted ∧ last.data.bytes ≠ [] ∧ row.slot.isRecord then
            { row.slot with data := last.data } else row.slot
    chain := some
      { c with writer := none, writerData := .empty, writerDel := false, holdWriterToCommit := false } }

/-- Undo the uncommitted write `c` of a row whose write record is `w`. -/
def undoVersioned (w : WriteRecord) (c : MvccChain) : Db :=
  let slot := (db.rows w.row).slot
  let db := db.setRow w.row (undoVersionedRow c (db.rows w.row))
  match c.hist.getLast? with
  | none =>
      let new := if w.wtype ≠ .insertTuple then []
        else if c.writerData.bytes = [] ∧ c.writerDel ∧ slot.isRecord then slot.data.bytes
        else c.writerData.bytes
      if new ≠ [] then db.rollbackIndexOnAbort w.row .insertTuple [] new else db
  | some last =>
      if w.wtype = .updateTuple ∧ ¬ c.writerDel ∧ last.data.bytes ≠ [] ∧ c.writerData.bytes ≠ [] then
        db.rollbackIndexOnAbort w.row .updateTuple last.data.bytes c.writerData.bytes
      else if w.wtype = .deleteTuple ∧ ¬ last.isDeleted ∧ last.data.bytes ≠ [] then
        db.restoreIndexIfMissing w.row last.data.bytes
      else db

/-- Undo the records, last first; `undone` are the rows that had a version. -/
def undoWrites (t : TxnId) (db : Db) (undone : List RowId) : List WriteRecord → Db
  | [] => db
  | w :: ws =>
      match (db.rows w.row).chain.filter fun c => decide (c.writer = some t) with
      | some c => undoWrites t (db.undoVersioned w c) (w.row :: undone) ws
      | none =>
          if w.row ∈ undone then undoWrites t db undone ws
          else undoWrites t (db.physicalUndoWriteRecord w) undone ws

def abort (t : TxnId) : Db :=
  if !(db.txn t).live then db
  else
    let x := db.txn t
    let db := undoWrites t (db.restoreWritersFromOverlays t) [] x.writeSet.reverse
    let db := { db with activeRts := db.activeRts.erase x.readTs }
    let db := db.finishSer t false 0
    let db := db.logIf (!x.writeSet.isEmpty) (.abort t)
    let db := db.endWriteActivity x.writtenTabs 0
    let db := db.abortDelKeys t x.delKeys
    db.endTxn t .aborted

end Db

end Rmdb.Txn
