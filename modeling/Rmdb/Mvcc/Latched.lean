import Rmdb.Mvcc.Chains

/-!
# The latched sections of begin, commit and `mvcc_read`

The transaction manager again (src/transaction/transaction_manager.cpp), with the sections that
`begin`, `commit` and `mvcc_read` run under one latch as steps of their own: `begin` reads
`last_commit_ts_` and registers in `active_rts_`; `commit` takes back its overlays row by row, takes
its timestamp, computes `prune_wm`, publishes row by row and reclaims row by row.  A read gets its
`heap_data` before `mvcc_read`.  Versioned writes, `release_statement_writes` and `abort` are one step.
-/

namespace Rmdb.Txn

open Rmdb.Index (Rid)

/-- Where a transaction is inside `commit`. -/
inductive CommitAt where
  | outside
  /-- rows whose overlays `restore_writers_from_overlays` still has to put back -/
  | restoring (todo : List RowId)
  /-- `commit_ts` is taken -/
  | stamped (cts : Ts)
  | publishing (cts wm : Ts) (todo : List WriteRecord)
  | reclaiming (cts wm : Ts) (todo : List WriteRecord)
deriving DecidableEq, Repr

/-- A finished `mvcc_read`. -/
structure Read where
  row : RowId
  result : Option Image
  /-- the reader had an uncommitted write of the row -/
  own : Bool
deriving DecidableEq, Repr

structure Latched where
  db : Db
  commitAt : TxnId → CommitAt := fun _ => .outside
  /-- the transaction whose `begin` holds `latch_` -/
  beginner : Option TxnId := none
  /-- `heap_data` of a read that comes to `mvcc_read` next -/
  heapData : TxnId → Option (RowId × Image) := fun _ => none
  /-- whose `read_ts` is in `active_rts_` -/
  registered : List TxnId := []
  /-- all committed versions of a row, in the order they were published -/
  history : RowId → List MvccVer
  reads : TxnId → List Read := fun _ => []
  /-- the `commit_ts` a transaction has taken -/
  stampOf : TxnId → Ts := fun _ => 0

/-- `mvcc_read` with the bytes that the caller has read from the heap. -/
def Db.mvccReadOf (db : Db) (t : TxnId) (r : RowId) (heap : Image) : Option Image :=
  if !db.anyMvccDirty then some heap
  else
    match (db.txn t).overlay r with
    | some ov => if ov.isDeleted then none else some ov.data
    | none =>
        match (db.rows r).chain with
        | none => some heap
        | some c => Db.chainRead c t (db.txn t).readTs

/-- Has the transaction an uncommitted write of the row? -/
def Db.ownWrite (db : Db) (t : TxnId) (r : RowId) : Bool :=
  ((db.txn t).overlay r).isSome || (db.rows r).chain.any fun c => decide (c.writer = some t)

/-- One row of `restore_writers_from_overlays`. -/
def restoreRow (t : TxnId) (ov : SiOverlay) (row : Row) : Row :=
  { row with
    chain := some { row.chain.getD {} with
      writer := some t, writerDel := ov.isDeleted, writerData := ov.data }
    pending := none }

/-- The version that `publishRow` adds. -/
def publishedVer (t : TxnId) (cts : Ts) (row : Row) : List MvccVer :=
  match row.chain with
  | none => []
  | some c =>
      if c.writer = some t then
        [⟨if c.writerDel then .empty else c.writerData, cts, c.writerDel, some t⟩]
      else []

namespace Latched

/-- The first committed version of a row that is there when the server starts. -/
def baseHistory (slot : Slot) : List MvccVer :=
  if slot.isRecord then [⟨slot.data, 0, false, none⟩] else []

/-- A server that has opened its tables. -/
def boot (tabs : TabName → TabMeta) (files : TabName → RmFileHdr) (heap : RowId → Slot)
    (index : IndexId → IndexMap) : Latched :=
  { db := Db.boot tabs files heap index, history := fun r => baseHistory (heap r) }

variable (st : Latched)

def setCommitAt (t : TxnId) (c : CommitAt) : Latched :=
  { st with commitAt := Function.update st.commitAt t c }

/-- The transaction has begun and is neither in `commit` nor ended. -/
def Ready (t : TxnId) : Prop :=
  st.db.Live t ∧ st.commitAt t = .outside ∧ st.beginner ≠ some t

instance (t : TxnId) : Decidable (st.Ready t) :=
  inferInstanceAs (Decidable (st.db.Live t ∧ st.commitAt t = .outside ∧ st.beginner ≠ some t))

/-- The transaction has read these bytes of the row. -/
def hasRead (t : TxnId) (r : RowId) (old : Image) : Bool :=
  (st.reads t).any fun x => decide (x.row = r ∧ x.result = some old)

/-! ## Begin -/

/-- `begin` up to `set_read_ts`. -/
def beginRead (explicit : Bool) (iso : IsolationLevel) : Option Latched :=
  if st.beginner = none then
    some { st with
      db := { st.db with
        txns := Function.update st.db.txns st.db.nextTxnId
          (some { txnMode := explicit, isolation := iso, readTs := st.db.lastCommitTs })
        nextTxnId := st.db.nextTxnId + 1
        activeExplicitCount := st.db.activeExplicitCount + if explicit then 1 else 0 }
      beginner := some st.db.nextTxnId }
  else none

/-- `begin` registers its read timestamp and returns. -/
def register : Option Latched :=
  match st.beginner with
  | none => none
  | some t =>
      some { st with
        db := { st.db with activeRts := (st.db.txn t).readTs :: st.db.activeRts }
        beginner := none
        registered := t :: st.registered }

/-! ## Writes and abort -/

/-- A versioned write of a row that the transaction has read, one of the three routines; the slot may
have been cleared since.  What the executors ensure about its arguments is `fits`; records have bytes. -/
def write (t : TxnId) (r : RowId) (old : Image) (fits : Bool) (out : WriteOutcome) : Option Latched :=
  if st.Ready t ∧ st.hasRead t r old = true ∧ 0 < (st.db.tabs r.tab).recordSize ∧ fits = true then
    out.db?.map fun db => { st with db := db }
  else none

/-- An insert fills a free slot. -/
def insert (t : TxnId) (r : RowId) (data : Bytes) : Option Latched :=
  if st.Ready t ∧ (st.db.rows r).slot.isRecord = false ∧ data ≠ [] then
    some { st with db := (st.db.mvccInsert t r data).fillSlot r ⟨data, some t⟩ }
  else none

def release (t : TxnId) : Option Latched :=
  if st.Ready t then some { st with db := st.db.releaseStatementWrites t } else none

def abort (t : TxnId) : Option Latched :=
  if st.Ready t then some { st with db := st.db.abort t, registered := st.registered.erase t }
  else none

/-! ## Commit -/

/-- The rows with an overlay. -/
def overlayRows (t : TxnId) : List RowId :=
  ((st.db.txn t).writeSet.map WriteRecord.row).filter fun r => ((st.db.txn t).overlay r).isSome

def startCommit (t : TxnId) : Option Latched :=
  if st.Ready t then some (st.setCommitAt t (.restoring (st.overlayRows t))) else none

/-- One row of `restore_writers_from_overlays`, in any order. -/
def restore (t : TxnId) (r : RowId) : Option Latched :=
  match st.commitAt t, (st.db.txn t).overlay r with
  | .restoring todo, some ov =>
      if r ∈ todo then
        some ({ st with db := st.db.setRow r (restoreRow t ov (st.db.rows r)) }.setCommitAt t
          (.restoring (todo.filter fun r' => r' ≠ r)))
      else none
  | _, _ => none

/-- `last_commit_ts_.fetch_add`. -/
def stamp (t : TxnId) : Option Latched :=
  let x := st.db.txn t
  let cts := if x.writeSet ≠ [] ∨ x.txnMode then st.db.lastCommitTs + 1 else 0
  if st.commitAt t = .restoring [] then
    some ({ st with
      db := { st.db.modifyTxn t fun x => { x with commitTs := cts } with
        lastCommitTs := max st.db.lastCommitTs cts }
      stampOf := Function.update st.stampOf t cts }.setCommitAt t (.stamped cts))
  else none

/-- What `active_rts_` is without the read timestamp of `t`. -/
def leaveActive (t : TxnId) : Db :=
  { st.db with activeRts := st.db.activeRts.erase (st.db.txn t).readTs }

/-- `prune_wm`, as `t` computes it with this `commit_ts`. -/
def pruneWm (t : TxnId) (cts : Ts) : Ts := (st.leaveActive t).lowestRts cts

/-- The section under `rts_latch_`, and the one under `ser_latch_`. -/
def watermark (t : TxnId) : Option Latched :=
  match st.commitAt t with
  | .stamped cts =>
      some ({ st with
        db := (st.leaveActive t).finishSer t true cts
        registered := st.registered.erase t }.setCommitAt t
          (.publishing cts (st.pruneWm t cts) (st.db.txn t).writeSet))
  | _ => none

/-- One row is published; `none` when `update_record` throws. -/
def publish (t : TxnId) : Option Latched :=
  match st.commitAt t with
  | .publishing cts wm (w :: ws) =>
      (Db.publishRow t cts wm (st.db.rows w.row)).map fun row =>
        { st with
          db := st.db.setRow w.row row
          history := Function.update st.history w.row
            (st.history w.row ++ publishedVer t cts (st.db.rows w.row)) }.setCommitAt t
          (.publishing cts wm ws)
  | .publishing cts wm [] =>
      let x := st.db.txn t
      some ({ st with
        db := (st.db.endWriteActivity x.writtenTabs cts).commitDelKeys t cts wm x.delKeys }.setCommitAt t
          (.reclaiming cts wm x.writeSet))
  | _ => none

/-- The end of `commit`. -/
def finishCommit (t : TxnId) : Db :=
  let x := st.db.txn t
  let db := x.writeSet.foldl (fun db w => db.markDirty w.row.tab) st.db
  (db.logIf (!x.writeSet.isEmpty || x.txnMode || x.wroteLog) (.commit t)).endTxn t .committed

/-- One row is reclaimed; after the last one `commit` ends. -/
def reclaim (t : TxnId) : Option Latched :=
  match st.commitAt t with
  | .reclaiming cts wm (w :: ws) =>
      some ({ st with db := st.db.setRow w.row (Db.reclaimRow wm (st.db.rows w.row)) }.setCommitAt t
        (.reclaiming cts wm ws))
  | .reclaiming _ _ [] => some ({ st with db := st.finishCommit t }.setCommitAt t .outside)
  | _ => none

/-! ## Reads -/

/-- The caller of `mvcc_read` gets the bytes of the slot from the heap.  A sequential scan looks at the
bitmap first, an index scan goes to any slot that an entry names. -/
def readHeap (t : TxnId) (r : RowId) : Option Latched :=
  if st.Ready t then
    some { st with heapData := Function.update st.heapData t (some (r, (st.db.rows r).slot.data)) }
  else none

def mvccRead (t : TxnId) : Option Latched :=
  match st.heapData t with
  | none => none
  | some (r, heap) =>
      if st.Ready t then
        some { st with
          heapData := Function.update st.heapData t none
          reads := Function.update st.reads t
            (⟨r, st.db.mvccReadOf t r heap, st.db.ownWrite t r⟩ :: st.reads t) }
      else none

end Latched

/-! ## Runs -/

inductive LatchAct where
  | beginRead (explicit : Bool) (iso : IsolationLevel)
  | register
  | mvccInsert (t : TxnId) (r : RowId) (data : Bytes)
  | mvccWrite (t : TxnId) (r : RowId) (old : Image) (new : Option Bytes)
  | mvccWriteColDelta (t : TxnId) (r : RowId) (visible : Image) (off : Nat) (type : ColType)
      (deltaF deltaI : BitVec 32)
  | mvccWriteColPatch (t : TxnId) (r : RowId) (visible : Image) (patches : List MvccColPatch)
  | release (t : TxnId)
  | abort (t : TxnId)
  | startCommit (t : TxnId)
  | restore (t : TxnId) (r : RowId)
  | stamp (t : TxnId)
  | watermark (t : TxnId)
  | publish (t : TxnId)
  | reclaim (t : TxnId)
  | readHeap (t : TxnId) (r : RowId)
  | mvccRead (t : TxnId)

def Latched.step (st : Latched) : LatchAct → Option Latched
  | .beginRead explicit iso => st.beginRead explicit iso
  | .register => st.register
  | .mvccInsert t r data => st.insert t r data
  | .mvccWrite t r old new =>
      st.write t r old (new.all fun b => decide (b.length = (st.db.tabs r.tab).recordSize))
        (st.db.mvccWrite t r old new)
  | .mvccWriteColDelta t r visible off type deltaF deltaI =>
      st.write t r visible (decide (type ≠ .string ∧ off + 4 ≤ (st.db.tabs r.tab).recordSize))
        (st.db.mvccWriteColDelta t r visible off type deltaF deltaI)
  | .mvccWriteColPatch t r visible patches =>
      st.write t r visible true (st.db.mvccWriteColPatch t r visible patches)
  | .release t => st.release t
  | .abort t => st.abort t
  | .startCommit t => st.startCommit t
  | .restore t r => st.restore t r
  | .stamp t => st.stamp t
  | .watermark t => st.watermark t
  | .publish t => st.publish t
  | .reclaim t => st.reclaim t
  | .readHeap t r => st.readHeap t r
  | .mvccRead t => st.mvccRead t

end Rmdb.Txn
