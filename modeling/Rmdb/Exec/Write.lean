import Rmdb.Txn.Wal
import Rmdb.Exec.Scan

/-!
# The write executors

`InsertExecutor`, `UpdateExecutor` and `DeleteExecutor`, one row at a time.  Row locks only
delay a statement and are left out.
-/

namespace Rmdb.Txn

open Rmdb.Index (Rid)

/-- How the work on one row ends: go on with the next row, leave the loop
(`return nullptr`), `TransactionAbortException`, or a read through a null pointer. -/
inductive RowResult where
  | next (db : Db)
  | done (db : Db)
  | abort (db : Db)
  | stop

/-- The loop over the rows of a statement. -/
def rowLoop {α : Type} (f : Db → α → RowResult) : List α → Db → RowResult
  | [], db => .next db
  | a :: as, db =>
      match f db a with
      | .next db => rowLoop f as db
      | out => out

/-! ## SET clauses -/

/-- `SET lhs = raw`, or `SET lhs = rhsCol ± value`. -/
structure SetClause where
  lhs : String
  isArith : Bool := false
  rhsCol : String := ""
  arithNeg : Bool := false
  intVal : BitVec 32 := 0
  floatVal : BitVec 32 := 0
  raw : Bytes := []
deriving DecidableEq, Repr

/-- `apply_set_value`: the right side is read from `base`. -/
def applySetValue (m : TabMeta) (base dest : Bytes) (s : SetClause) (col : ColMeta) : Bytes :=
  if !s.isArith then putBytes dest col.offset (readRec s.raw col.len)
  else
    match m.findCol s.rhsCol with
    | none => dest
    | some rcol =>
        if rcol.type = .float then
          putWord dest col.offset
            (fadd (getWord base rcol.offset) (if s.arithNeg then fneg s.floatVal else s.floatVal))
        else
          putWord dest col.offset
            (getWord base rcol.offset + if s.arithNeg then -s.intVal else s.intVal)

/-- All clauses on `dest`, with the right sides from `base`. -/
def applySets (m : TabMeta) (sets : List SetClause) (base dest : Bytes) : Bytes :=
  sets.foldl (fun d s =>
    match m.findCol s.lhs with
    | none => d
    | some col => applySetValue m base d s col) dest

structure ColArithDelta where
  colOff : Nat
  colType : ColType
  deltaF : BitVec 32 := 0
  deltaI : BitVec 32 := 0

/-- `detect_col_arith_delta`: a single clause `c = c ± value`. -/
def detectColArithDelta (m : TabMeta) : List SetClause → Option ColArithDelta
  | [s] =>
      if !s.isArith ∨ s.lhs ≠ s.rhsCol then none
      else
        match m.findCol s.lhs with
        | none => none
        | some col =>
            if col.type = .float ∧ col.len = 4 then
              some ⟨col.offset, .float, if s.arithNeg then fneg s.floatVal else s.floatVal, 0⟩
            else if col.type = .int ∧ col.len = 4 then
              some ⟨col.offset, .int, 0, if s.arithNeg then -s.intVal else s.intVal⟩
            else none
  | _ => none

/-- `build_col_patches`. -/
def buildColPatches (m : TabMeta) (sets : List SetClause) : List MvccColPatch :=
  sets.filterMap fun s => do
    let col ← m.findCol s.lhs
    if s.isArith then
      some { offset := col.offset, len := col.len, type := col.type, isArith := true,
             arithNeg := s.arithNeg, rhsCol := s.rhsCol,
             arithRhsF := if col.type = .float then s.floatVal else 0,
             arithRhsI := if col.type = .float then 0 else s.intVal }
    else
      some { offset := col.offset, len := col.len, type := col.type, isArith := false,
             arithNeg := s.arithNeg, absValue := readRec s.raw col.len }

/-- A single absolute `INT` or `FLOAT` assignment as a difference to the visible value. -/
def absColDelta (visible : Bytes) : List MvccColPatch → Option ColArithDelta
  | [p] =>
      if p.isArith then none
      else if p.type = .int ∧ p.len = 4 ∧ p.absValue.length ≥ p.len then
        some ⟨p.offset, .int, 0, getWord p.absValue 0 - getWord visible p.offset⟩
      else if p.type = .float ∧ p.len = 4 ∧ p.absValue.length ≥ p.len then
        some ⟨p.offset, .float, fsub (getWord p.absValue 0) (getWord visible p.offset), 0⟩
      else none
  | _ => none

/-- Does a clause assign a column of the index? -/
def touchesIndex (sets : List SetClause) (cols : List ColMeta) : Bool :=
  cols.any fun c => sets.any fun s => decide (s.lhs = c.name)

namespace Db

variable (db : Db)

def colDelta (t : TxnId) (r : RowId) (visible : Image) (d : ColArithDelta) : WriteOutcome :=
  db.mvccWriteColDelta t r visible d.colOff d.colType d.deltaF d.deltaI

/-- The write of a statement that is not a column delta. -/
def patchOrWrite (t : TxnId) (r : RowId) (visible : Image) (sets : List SetClause) : WriteOutcome :=
  let m := db.tabs r.tab
  let patches := buildColPatches m sets
  if sets.length > 1 ∧ patches ≠ [] then db.mvccWriteColPatch t r visible patches
  else db.mvccWrite t r visible (some (applySets m sets visible.bytes visible.bytes))

/-- Which write routine an update of the row takes. -/
def chooseWrite (t : TxnId) (r : RowId) (visible : Image) (sets : List SetClause) : WriteOutcome :=
  let m := db.tabs r.tab
  match detectColArithDelta m sets with
  | some d => db.colDelta t r visible d
  | none =>
      match absColDelta visible.bytes (buildColPatches m sets) with
      | none => db.patchOrWrite t r visible sets
      | some d =>
          match db.colDelta t r visible d with
          | .refused db => db.patchOrWrite t r visible sets
          | out => out

def serWriteCheck (t : TxnId) (r : RowId) (data : Bytes) : Db × Bool :=
  let (ser, d) := db.ser.writeCheck t (db.txn t).readTs r (some data)
  ({ db with ser := ser }, d)

/-- The check of a write by a SERIALIZABLE transaction. -/
def serCheck (t : TxnId) (r : RowId) (data : Bytes) : Db × Bool :=
  if isSer (db.txn t) then db.serWriteCheck t r data else (db, false)

/-- Does a touched index hold the new key for another row? -/
def keyViolated (r : RowId) (sets : List SetClause) (new : Bytes) : Bool :=
  (db.tabs r.tab).indexes.any fun cols =>
    touchesIndex sets cols &&
      (db.getValue r.tab cols (indexKey cols new)).any fun rid => decide (rid ≠ r.rid)

def deleteKeys (tab : TabName) (idxs : List (List ColMeta)) (data : Bytes) : Db :=
  idxs.foldl (fun db cols => db.deleteEntry tab cols (indexKey cols data)) db

def insertKeys (r : RowId) (idxs : List (List ColMeta)) (data : Bytes) : Db :=
  idxs.foldl (fun db cols => db.insertEntry r.tab cols (indexKey cols data) r.rid) db

def touchedIndexes (tab : TabName) (sets : List SetClause) : List (List ColMeta) :=
  (db.tabs tab).indexes.filter (touchesIndex sets)

/-- `set_prev_lsn(add_log_to_buffer(..))`. -/
def writeLog (t : TxnId) (l : LogRecord) : Db :=
  (db.appendLog l).modifyTxn t fun x => { x with wroteLog := true }

/-- The record of a write that took the fast path. -/
def fastRecord (t : TxnId) (w : WriteRecord) : Db := db.addWriteRecord t w (db.usesSiFastPath (db.txn t))

/-- The second half of an update: `orig` is the heap record, `new` the record written. -/
def finishUpdate (t : TxnId) (r : RowId) (sets : List SetClause) (versioned : Bool)
    (orig new : Image) : Db :=
  if db.keyViolated r sets new.bytes then db
  else
    let idxs := db.touchedIndexes r.tab sets
    let db := db.deleteKeys r.tab idxs orig.bytes
    let db := if versioned then db else db.setSlot r { (db.rows r).slot with data := new }
    let db := db.writeLog t (updateLog t r orig.bytes new.bytes (db.tabs r.tab).recordSize)
    let db := db.fastRecord t ⟨.updateTuple, r, orig⟩
    db.insertKeys r idxs new.bytes

/-- `UpdateExecutor::Next` on one rid. -/
def updateRow (t : TxnId) (tab : TabName) (sets : List SetClause) (db : Db) (rid : Rid) :
    RowResult :=
  let r : RowId := ⟨tab, rid⟩
  let orig := (db.rows r).slot.data
  if db.needsVersioning (db.txn t) tab then
    match db.mvccRead t r with
    | none => .abort db
    | some visible =>
        match db.chooseWrite t r visible sets with
        | .nullRead => .stop
        | .refused db => .abort db
        | .written db new =>
            let (db, d1) := db.serCheck t r visible.bytes
            let (db, d2) := db.serCheck t r new.bytes
            if d1 || d2 then .abort db else .next (db.finishUpdate t r sets true orig new)
  else
    let new : Image := ⟨applySets (db.tabs tab) sets orig.bytes orig.bytes, some t⟩
    .next (db.finishUpdate t r sets false orig new)

/-- `DeleteExecutor::Next` on one rid; `versioned` is fixed for the statement. -/
def deleteRow (t : TxnId) (tab : TabName) (versioned : Bool) (db : Db) (rid : Rid) : RowResult :=
  let r : RowId := ⟨tab, rid⟩
  let old := (db.rows r).slot.data
  if versioned then
    match db.mvccWrite t r old none with
    | .nullRead => .stop
    | .refused db => .abort db
    | .written db _ =>
        let (db, d) := db.serCheck t r old.bytes
        if d then .abort db else .next (db.writeLog t (.delete t r old.bytes))
  else
    let db := db.deleteKeys tab (db.tabs tab).indexes old.bytes
    let db := db.fastRecord t ⟨.deleteTuple, r, old⟩
    let db := db.writeLog t (.delete t r old.bytes)
    .next (db.setSlot r { (db.rows r).slot with isRecord := false })

/-- The unique check of an insert in one index: an entry of a row that `t` does not see is
stale and goes. -/
def insertKeyCheck (t : TxnId) (tab : TabName) (data : Bytes) (db : Db) (cols : List ColMeta) :
    RowResult :=
  let key := indexKey cols data
  match db.getValue tab cols key with
  | none => .next db
  | some rid =>
      if db.needsVersioning (db.txn t) tab then
        if (db.rows ⟨tab, rid⟩).slot.isRecord then
          if (db.mvccRead t ⟨tab, rid⟩).isSome then .done db
          else if db.mvccOtherWriter ⟨tab, rid⟩ t then .abort db
          else .next (db.deleteEntry tab cols key)
        else .next (db.deleteEntry tab cols key)
      else .done db

/-- Is the first column's value being deleted, or was it since the snapshot? -/
def insertConflict (t : TxnId) (tab : TabName) (data : Bytes) : Bool :=
  db.needsVersioning (db.txn t) tab &&
    match (db.tabs tab).cols with
    | [] => false
    | c :: _ => db.mvccInsertKeyConflict t tab (getBytes data c.offset c.len)

/-- A slot the heap may give to an insert: on a page of the file or a new one. -/
def slotFree (tab : TabName) (rid : Rid) : Bool :=
  !(db.rows ⟨tab, rid⟩).slot.isRecord && decide (1 ≤ rid.pageNo) &&
    decide (rid.pageNo ≤ (db.files tab).numPages) && decide (0 ≤ rid.slotNo) &&
    decide (rid.slotNo < (db.files tab).numRecordsPerPage)

/-- Write a record into its new slot and set its bit. -/
def fillSlot (r : RowId) (data : Image) : Db :=
  let db := db.setSlot r ⟨true, data⟩
  let hdr := db.files r.tab
  { db with
    files := Function.update db.files r.tab
      { hdr with numPages := max hdr.numPages (r.rid.pageNo.toNat + 1) } }

/-- `InsertExecutor::Next` on one record, into the slot `rid` that the heap gives it. -/
def insertRow (t : TxnId) (tab : TabName) (db : Db) (row : Bytes × Rid) : RowResult :=
  let data := row.1
  let r : RowId := ⟨tab, row.2⟩
  if db.insertConflict t tab data then .abort db
  else
    match rowLoop (insertKeyCheck t tab data) (db.tabs tab).indexes db with
    | .next db =>
        if !db.slotFree tab row.2 then .stop
        else if db.needsVersioning (db.txn t) tab then
          let db := db.writeLog t (.insert t r data)
          let db := (db.mvccInsert t r data).fillSlot r ⟨data, some t⟩
          let (db, d) := db.serCheck t r data
          if d then .abort db else .next (db.insertKeys r (db.tabs tab).indexes data)
        else
          let db := db.fillSlot r ⟨data, some t⟩
          let db := db.writeLog t (.insert t r data)
          let db := db.fastRecord t ⟨.insertTuple, r, ⟨data, some t⟩⟩
          .next (db.insertKeys r (db.tabs tab).indexes data)
    | out => out

end Db

end Rmdb.Txn
