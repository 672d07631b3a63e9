import Rmdb.Exec.Write

/-!
# Read tracking

What a `SELECT` of a SERIALIZABLE transaction leaves in `ser_`: its predicate, the rids it
returns, and the rw edges to the writers of versions it does not see.
-/

namespace Rmdb.Txn

open Rmdb.Index (Rid)

namespace Db

variable (db : Db)

/-- `ser_needs_read_check`: may there be a write on the table that `t` does not see? -/
def serNeedsReadCheck (t : TxnId) (tab : TabName) : Bool :=
  decide ((db.writeActivity tab).writers > 0) ||
    decide ((db.writeActivity tab).lastCts > (db.txn t).readTs)

/-- The writers of a chain that `t` does not see, in the order the source visits them. -/
def hiddenWriters (t : TxnId) (c : MvccChain) : List TxnId :=
  c.writer.toList.filter (fun w => w ≠ t) ++
    (c.hist.filter fun v => decide (v.commitTs > (db.txn t).readTs)).filterMap fun v =>
      v.writerTxn.filter fun w => w ≠ t

/-- Edges `t →rw w` to the listed writers. -/
def addReadEdges (t : TxnId) (ws : List TxnId) : Db × Bool :=
  let (ser, d) := db.ser.addEdges (fun s w => (s.find w).isSome && s.overlap t w) (fun w => (t, w)) ws
  ({ db with ser := ser }, d)

def serReadCheck (t : TxnId) (r : RowId) : Db × Bool :=
  if !db.serNeedsReadCheck t r.tab then (db, false)
  else
    let db := { db with ser := db.ser.modify t fun i => { i with readTs := (db.txn t).readTs } }
    match (db.rows r).chain with
    | none => (db, false)
    | some c => db.addReadEdges t (db.hiddenWriters t c)

/-- The writers of one chain whose value matches the predicate. -/
def predWriters (t : TxnId) (cc : List SerCompiledCond) (c : MvccChain) : List TxnId :=
  (if !c.writerDel && !c.writerData.bytes.isEmpty && serCompiledMatch c.writerData.bytes cc then
    c.writer.toList.filter fun w => w ≠ t else []) ++
    (c.hist.filter fun v => decide (v.commitTs > (db.txn t).readTs) && !v.isDeleted &&
      !v.data.bytes.isEmpty && serCompiledMatch v.data.bytes cc).filterMap fun v =>
        v.writerTxn.filter fun w => w ≠ t

/-- No chain, or one without a write that some reader may miss. -/
def cold (wm : Ts) : Option MvccChain → Bool
  | none => true
  | some c => decide (c.writer = none) && c.hist.getLast?.all fun v => decide (v.commitTs ≤ wm)

def serReadPredCheck (t : TxnId) (tab : TabName) (conds : List Condition) : Db × Bool :=
  if !db.serNeedsReadCheck t tab then (db, false)
  else
    match serCompilePred tab (db.tabs tab) conds with
    | none => (db, false)
    | some cc =>
        let keys := db.recentWrites.filter fun r => r.tab = tab
        let wm := db.lowestRts db.lastCommitTs
        let ws := keys.flatMap fun r => ((db.rows r).chain.map (db.predWriters t cc)).getD []
        let db := { db with
          recentWrites := db.recentWrites.filter fun r => r.tab ≠ tab || !cold wm (db.rows r).chain }
        db.addReadEdges t ws

/-- `ser_record_read` and `ser_read_check` for one row of the result. -/
def trackRead (t : TxnId) (tab : TabName) (db : Db) (rid : Rid) : RowResult :=
  let db := { db with ser := db.ser.recordRead t (db.txn t).readTs ⟨tab, rid⟩ }
  let (db, d) := db.serReadCheck t ⟨tab, rid⟩
  if d then .abort db else .next db

/-- A `SELECT` over one table. -/
def select (t : TxnId) (tab : TabName) (conds : List Condition) (path : Path) : RowResult :=
  if !isSer (db.txn t) then .next db
  else
    let rids := (db.scan t tab conds path).map Prod.fst
    let db := { db with ser := db.ser.recordPred (db.tabs tab) t (db.txn t).readTs tab conds }
    let (db, d) := db.serReadPredCheck t tab conds
    if d then .abort db else rowLoop (trackRead t tab) rids db

end Db

end Rmdb.Txn
