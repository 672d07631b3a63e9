import Rmdb.Mvcc.Tracks
import Rmdb.Mvcc.Locks

/-!
# The read gate and the sections of commit

`ser_needs_read_check` looks at the write activity of a table only.  `commit` publishes its rows
one by one and counts itself out of `write_activity_` in a section of its own, so here every
section that `commit` runs under one latch is a step (`Gated.step`), and so is each row it takes
back, publishes or reclaims.  Begin, the versioned writes, `release_statement_writes` and `abort`
are one step each.  The executor of a column patch that is turned down throws, so its transaction
does not come to `commit`.
-/

namespace Rmdb.Txn

/-- Where a transaction is inside `commit`. -/
inductive CommitSection where
  | outside
  /-- rows whose overlays are still to be put back -/
  | restoring (todo : List RowId)
  /-- `commit_ts` is taken, `active_rts_` comes next -/
  | stamped (cts : Ts)
  /-- `ser_finish` comes next -/
  | inactive (cts wm : Ts)
  | publishing (cts wm : Ts) (todo : List WriteRecord)
  /-- counted out of `write_activity_`, the deleted keys come next -/
  | counted (cts wm : Ts)
  | reclaiming (wm : Ts) (todo : List WriteRecord)
  /-- the commit record comes next -/
  | marked
  /-- the state and the overlays come next -/
  | logged
deriving DecidableEq, Repr

structure Gated where
  db : Db
  at_ : TxnId → CommitSection := fun _ => .outside
  /-- transactions with a column patch that was turned down -/
  refused : List TxnId := []

inductive GateAct where
  | begin (explicit : Bool) (iso : IsolationLevel)
  | mvccInsert (t : TxnId) (r : RowId) (data : Bytes)
  | mvccWrite (t : TxnId) (r : RowId) (old : Image) (new : Option Bytes)
  | mvccWriteColDelta (t : TxnId) (r : RowId) (visible : Image) (off : Nat) (type : ColType)
      (deltaF deltaI : BitVec 32)
  | mvccWriteColPatch (t : TxnId) (r : RowId) (visible : Image) (patches : List MvccColPatch)
  | release (t : TxnId)
  | abort (t : TxnId)
  | startCommit (t : TxnId)
  | restore (t : TxnId) (r : RowId)
  | stamp (t : TxnId)
  | leaveActive (t : TxnId)
  | finishSer (t : TxnId)
  | publish (t : TxnId)
  | endActivity (t : TxnId)
  | endDelKeys (t : TxnId)
  | reclaim (t : TxnId)
  | writeCommit (t : TxnId)
  | finish (t : TxnId)

def WriteOutcome.isRefused : WriteOutcome → Bool
  | .refused _ => true
  | _ => false

namespace Gated

variable (st : Gated)

def goTo (t : TxnId) (s : CommitSection) : Gated := { st with at_ := Function.update st.at_ t s }

/-- The transaction has begun and is neither in `commit` nor ended. -/
def Ready (t : TxnId) : Prop := st.db.Live t ∧ st.at_ t = .outside

instance (t : TxnId) : Decidable (st.Ready t) :=
  inferInstanceAs (Decidable (st.db.Live t ∧ st.at_ t = .outside))

/-! ## Writes -/

def insert (t : TxnId) (r : RowId) (data : Bytes) : Option Gated :=
  if st.Ready t ∧ (st.db.rows r).slot.isRecord = false then
    some { st with db := (st.db.mvccInsert t r data).fillSlot r ⟨data, some t⟩ }
  else none

/-- One of the three routines on a record; `fits` is what its executor ensures. -/
def write (t : TxnId) (r : RowId) (fits : Bool) (out : WriteOutcome) : Option Gated :=
  if st.Ready t ∧ (st.db.rows r).slot.isRecord = true ∧ fits = true then
    out.db?.map fun db => { st with db := db }
  else none

/-- A column patch; its executor throws when it is turned down. -/
def patch (t : TxnId) (r : RowId) (out : WriteOutcome) : Option Gated :=
  (st.write t r true out).map fun st' =>
    if out.isRefused then { st' with refused := t :: st.refused } else st'

/-! ## The sections of commit -/

/-- The rows with an overlay. -/
def overlayRows (t : TxnId) : List RowId :=
  ((st.db.txn t).writeSet.map WriteRecord.row).filter fun r => ((st.db.txn t).overlay r).isSome

def startCommit (t : TxnId) : Option Gated :=
  if st.Ready t ∧ t ∉ st.refused then some (st.goTo t (.restoring (st.overlayRows t))) else none

/-- One row of `restore_writers_from_overlays`, in any order. -/
def restore (t : TxnId) (r : RowId) : Option Gated :=
  match st.at_ t, (st.db.txn t).overlay r with
  | .restoring todo, some ov =>
      if r ∈ todo then
        some ({ st with db := st.db.setRow r (restoreRow t ov (st.db.rows r)) }.goTo t
          (.restoring (todo.filter fun r' => r' ≠ r)))
      else none
  | _, _ => none

/-- `last_commit_ts_.fetch_add`. -/
def stamp (t : TxnId) : Option Gated :=
  let x := st.db.txn t
  let cts := if x.writeSet ≠ [] ∨ x.txnMode then st.db.lastCommitTs + 1 else 0
  if st.at_ t = .restoring [] then
    some ({ st with db := { st.db.modifyTxn t fun x => { x with commitTs := cts } with
      lastCommitTs := max st.db.lastCommitTs cts } }.goTo t (.stamped cts))
  else none

/-- The section under `rts_latch_`. -/
def leaveActive (t : TxnId) : Option Gated :=
  match st.at_ t with
  | .stamped cts =>
      let db := { st.db with activeRts := st.db.activeRts.erase (st.db.txn t).readTs }
      some ({ st with db := db }.goTo t (.inactive cts (db.lowestRts cts)))
  | _ => none

/-- The section under `ser_latch_`. -/
def finishSer (t : TxnId) : Option Gated :=
  match st.at_ t with
  | .inactive cts wm =>
      some ({ st with db := st.db.finishSer t true cts }.goTo t
        (.publishing cts wm (st.db.txn t).writeSet))
  | _ => none

/-- One row is published; `none` when `update_record` throws. -/
def publish (t : TxnId) : Option Gated :=
  match st.at_ t with
  | .publishing cts wm (w :: ws) =>
      (Db.publishRow t cts wm (st.db.rows w.row)).map fun row =>
        { st with db := st.db.setRow w.row row }.goTo t (.publishing cts wm ws)
  | _ => none

/-- The section under `write_activity_mutex_`. -/
def endActivity (t : TxnId) : Option Gated :=
  match st.at_ t with
  | .publishing cts wm [] =>
      some ({ st with
        db := (st.db.endWriteActivity (st.db.txn t).writtenTabs cts).modifyTxn t fun x =>
          { x with writtenTabs := [] } }.goTo t (.counted cts wm))
  | _ => none

/-- The section under `del_meta_latch_`. -/
def endDelKeys (t : TxnId) : Option Gated :=
  match st.at_ t with
  | .counted cts wm =>
      some ({ st with
        db := (st.db.commitDelKeys t cts wm (st.db.txn t).delKeys).modifyTxn t fun x =>
          { x with delKeys := [] } }.goTo t (.reclaiming wm (st.db.txn t).writeSet))
  | _ => none

/-- One row is reclaimed; then the tables are marked dirty. -/
def reclaim (t : TxnId) : Option Gated :=
  match st.at_ t with
  | .reclaiming wm (w :: ws) =>
      some ({ st with db := st.db.setRow w.row (Db.reclaimRow wm (st.db.rows w.row)) }.goTo t
        (.reclaiming wm ws))
  | .reclaiming _ [] =>
      some ({ st with
        db := (st.db.txn t).writeSet.foldl (fun (db : Db) (w : WriteRecord) =>
          db.markDirty w.row.tab) st.db }.goTo t .marked)
  | _ => none

def writeCommit (t : TxnId) : Option Gated :=
  let x := st.db.txn t
  if st.at_ t = .marked then
    some ({ st with
      db := st.db.logIf (!x.writeSet.isEmpty || x.txnMode || x.wroteLog) (.commit t) }.goTo t .logged)
  else none

/-- The last lines of `commit`. -/
def finish (t : TxnId) : Option Gated :=
  if st.at_ t = .logged then some ({ st with db := st.db.endTxn t .committed }.goTo t .outside)
  else none

/-- One step of one transaction. -/
def step (st : Gated) : GateAct → Option Gated
  | .begin explicit iso => some { st with db := st.db.begin explicit iso }
  | .mvccInsert t r data => st.insert t r data
  | .mvccWrite t r old new => st.write t r true (st.db.mvccWrite t r old new)
  | .mvccWriteColDelta t r visible off type deltaF deltaI =>
      st.write t r (decide (type ≠ .string ∧ off + 4 ≤ (st.db.tabs r.tab).recordSize))
        (st.db.mvccWriteColDelta t r visible off type deltaF deltaI)
  | .mvccWriteColPatch t r visible patches =>
      st.patch t r (st.db.mvccWriteColPatch t r visible patches)
  | .release t => if st.Ready t then some { st with db := st.db.releaseStatementWrites t } else none
  | .abort t => if st.Ready t then some { st with db := st.db.abort t } else none
  | .startCommit t => st.startCommit t
  | .restore t r => st.restore t r
  | .stamp t => st.stamp t
  | .leaveActive t => st.leaveActive t
  | .finishSer t => st.finishSer t
  | .publish t => st.publish t
  | .endActivity t => st.endActivity t
  | .endDelKeys t => st.endDelKeys t
  | .reclaim t => st.reclaim t
  | .writeCommit t => st.writeCommit t
  | .finish t => st.finish t

/-- A server that has opened its tables. -/
def boot (tabs : TabName → TabMeta) (files : TabName → RmFileHdr) (heap : RowId → Slot)
    (index : IndexId → IndexMap) : Gated := { db := Db.boot tabs files heap index }

end Gated

/-- The gate is sound: `writers` counts the live transactions that have written the table, and
where the gate is closed no chain hides a write from the reader. -/
structure GateSound (db : Db) : Prop where
  writers : ∀ tab, (db.writeActivity tab).writers = ((Finset.range db.nextTxnId).filter fun u =>
    db.Live u ∧ tab ∈ (db.txn u).writtenTabs).card
  closed : ∀ t tab, db.serNeedsReadCheck t tab = false → ∀ r, r.tab = tab →
    (∀ u, u ≠ t → db.Live u → ¬ db.Owns u r) ∧
    ∀ c, (db.rows r).chain = some c → ∀ v ∈ c.hist, v.commitTs ≤ (db.txn t).readTs

end Rmdb.Txn
