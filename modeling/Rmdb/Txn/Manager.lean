import Mathlib.Data.List.AList
import Rmdb.Txn.Ser

/-!
# The transaction manager

`TransactionManager` (src/transaction/transaction_manager.cpp) over the state `Db`: begin,
the MVCC reads and writes of one row, the hand-over of uncommitted writes between chains and
overlays, commit and abort.  An index is the list of its entries in key order, with
insert-if-absent and erase: what the B+tree of `Rmdb.Index` holds in its leaves.  `FLOAT` key
columns are not modelled.
-/

namespace Rmdb.Txn

open Rmdb.Index (Rid)

/-- The records of the write-ahead log. -/
inductive LogRecord where
  | insert (t : TxnId) (r : RowId) (value : Bytes)
  | delete (t : TxnId) (r : RowId) (value : Bytes)
  | update (t : TxnId) (r : RowId) (old new : Bytes)
  /-- the changed ranges: offset, old bytes, new bytes -/
  | updateDelta (t : TxnId) (r : RowId) (ranges : List (Nat × Bytes × Bytes))
  | begin (t : TxnId)
  | commit (t : TxnId)
  | abort (t : TxnId)
  | ckpt
deriving DecidableEq, Repr

/-- `get_index_name`: the table and the columns' names. -/
structure IndexId where
  tab : TabName
  cols : List String
deriving DecidableEq, Repr

abbrev IndexMap := List (Bytes × Rid)

/-- The columns of an index as `ix_compare` reads them. -/
def ixCols (cols : List ColMeta) : List Index.IxCol :=
  cols.map fun c => if c.type = .int then .int else .string c.len

/-- Put an entry before the first one with a greater key. -/
def IndexMap.insertAt (cols : List ColMeta) (key : Bytes) (rid : Rid) : IndexMap → IndexMap
  | [] => [(key, rid)]
  | e :: es =>
      if Index.ixCompare (ixCols cols) key e.1 < 0 then (key, rid) :: e :: es
      else e :: insertAt cols key rid es

structure DelKeyState where
  writers : List TxnId := []
  lastDelCts : Ts := 0

/-- The deleted keys of one table. -/
abbrev KeyMap := AList fun _ : Bytes => DelKeyState

structure WriteActivity where
  writers : Nat := 0
  lastCts : Ts := 0

structure Db where
  tabs : TabName → TabMeta
  files : TabName → RmFileHdr
  rows : RowId → Row
  index : IndexId → IndexMap
  txns : TxnId → Option Transaction
  nextTxnId : TxnId
  lastCommitTs : Ts
  /-- `active_rts_`, a multiset -/
  activeRts : List Ts
  activeExplicitCount : Nat
  anyMvccDirty : Bool
  mvccDirty : TabName → Bool
  delKeys : TabName → KeyMap
  writeActivity : TabName → WriteActivity
  /-- `recent_writes_`, a set -/
  recentWrites : List RowId
  ser : SerState
  log : List LogRecord

namespace Db

variable (db : Db)

def setRow (r : RowId) (row : Row) : Db := { db with rows := Function.update db.rows r row }
def setSlot (r : RowId) (slot : Slot) : Db := db.setRow r { db.rows r with slot := slot }
def setChain (r : RowId) (c : MvccChain) : Db := db.setRow r { db.rows r with chain := some c }
def txn (t : TxnId) : Transaction := (db.txns t).getD default
def modifyTxn (t : TxnId) (f : Transaction → Transaction) : Db :=
  { db with txns := Function.update db.txns t (some (f (db.txn t))) }
def appendLog (l : LogRecord) : Db := { db with log := db.log ++ [l] }

/-! ## Index entries -/

/-- The key of a record in an index over `cols`. -/
def indexKey (cols : List ColMeta) (data : Bytes) : Bytes :=
  cols.flatMap fun c => getBytes data c.offset c.len

def indexId (tab : TabName) (cols : List ColMeta) : IndexId := ⟨tab, cols.map ColMeta.name⟩

def getValue (tab : TabName) (cols : List ColMeta) (key : Bytes) : Option Rid :=
  (db.index (indexId tab cols)).lookup key

def insertEntry (tab : TabName) (cols : List ColMeta) (key : Bytes) (rid : Rid) : Db :=
  if (db.getValue tab cols key).isSome then db
  else
    { db with
      index := Function.update db.index (indexId tab cols)
        (IndexMap.insertAt cols key rid (db.index (indexId tab cols))) }

def deleteEntry (tab : TabName) (cols : List ColMeta) (key : Bytes) : Db :=
  { db with
    index := Function.update db.index (indexId tab cols)
      ((db.index (indexId tab cols)).filter fun e => e.1 ≠ key) }

/-- `rollback_index_on_abort`. -/
def rollbackIndexOnAbort (r : RowId) (wtype : WType) (old new : Bytes) : Db :=
  (db.tabs r.tab).indexes.foldl (fun db cols =>
    let oldKey := indexKey cols old
    let newKey := indexKey cols new
    match wtype with
    | .insertTuple => db.deleteEntry r.tab cols newKey
    | .updateTuple =>
        if old ≠ [] ∧ new ≠ [] ∧ oldKey ≠ newKey then
          (db.deleteEntry r.tab cols newKey).insertEntry r.tab cols oldKey r.rid
        else db
    | .deleteTuple => db) db

/-- `restore_index_if_missing`. -/
def restoreIndexIfMissing (r : RowId) (data : Bytes) : Db :=
  if data = [] then db
  else (db.tabs r.tab).indexes.foldl (fun db cols =>
    db.insertEntry r.tab cols (indexKey cols data) r.rid) db

/-! ## Which writes are versioned -/

def usesSiFastPath (txn : Transaction) : Bool :=
  txn.txnMode && decide (db.activeExplicitCount ≤ 1) && !db.anyMvccDirty &&
    decide (txn.isolation ≠ .serializable)

def tableIsDirty (tab : TabName) : Bool := db.anyMvccDirty && db.mvccDirty tab

def needsVersioning (txn : Transaction) (tab : TabName) : Bool :=
  if db.usesSiFastPath txn then false
  else if txn.txnMode then true
  else if db.activeExplicitCount > 0 then true
  else if !db.anyMvccDirty then false
  else db.tableIsDirty tab

def isSer (txn : Transaction) : Bool :=
  txn.txnMode && decide (txn.isolation = .serializable)

/-- `mvcc_dirty_.insert(tab)`. -/
def markDirty (tab : TabName) : Db :=
  { db with anyMvccDirty := true, mvccDirty := Function.update db.mvccDirty tab true }

/-- `note_table_write` and `recent_writes_add`. -/
def noteWrite (t : TxnId) (r : RowId) : Db :=
  let db := { db with recentWrites := db.recentWrites.insert r }
  if (db.txn t).writtenTabs.contains r.tab then db
  else
    let wa := db.writeActivity r.tab
    { db.modifyTxn t fun x => { x with writtenTabs := x.writtenTabs ++ [r.tab] } with
      writeActivity := Function.update db.writeActivity r.tab { wa with writers := wa.writers + 1 } }

/-! ## Reading -/

/-- The newest version with `commit_ts <= rts`. -/
def visibleVer (hist : List MvccVer) (rts : Ts) : Option MvccVer :=
  hist.reverse.find? fun v => decide (v.commitTs ≤ rts)

/-- The bytes of a version, unless there is none or it is a tombstone. -/
def verImage : Option MvccVer → Option Image
  | none => none
  | some v => if v.isDeleted then none else some v.data

/-- The version of a chain that a transaction without an overlay sees. -/
def chainRead (c : MvccChain) (me : TxnId) (rts : Ts) : Option Image :=
  if c.writer = some me then (if c.writerDel then none else some c.writerData)
  else if c.writer = none ∧ c.hist.getLast?.any (fun v => decide (v.commitTs ≤ rts)) then
    verImage c.hist.getLast?
  else verImage (visibleVer c.hist rts)

def mvccRead (t : TxnId) (r : RowId) : Option Image :=
  if !db.anyMvccDirty then some (db.rows r).slot.data
  else
    match (db.txn t).overlay r with
    | some ov => if ov.isDeleted then none else some ov.data
    | none =>
        match (db.rows r).chain with
        | none => some (db.rows r).slot.data
        | some c => chainRead c t (db.txn t).readTs

/-- `mvcc_other_writer`. -/
def mvccOtherWriter (r : RowId) (me : TxnId) : Bool :=
  ((db.rows r).pending.isSome && decide ((db.rows r).pending ≠ some me)) ||
    match (db.rows r).chain with
    | none => false
    | some c => c.writer.isSome && decide (c.writer ≠ some me)

def mvccInsertKeyConflict (t : TxnId) (tab : TabName) (key : Bytes) : Bool :=
  match (db.delKeys tab).lookup key with
  | none => false
  | some st => st.writers.any (fun w => w ≠ t) || decide (st.lastDelCts > (db.txn t).readTs)

end Db

/-! ## Column patches -/

/-- `assign(b, len)`; bytes past the end of `b` are unspecified. -/
def readRec (b : Bytes) (len : Nat) : Bytes := (b ++ List.replicate len 0).take len

/-- The value of `l + (n - o)` in one `INT` or `FLOAT` word. -/
def rebaseInt (o n l : BitVec 32) : BitVec 32 := l + (n - o)
def rebaseFloat (o n l : BitVec 32) : BitVec 32 := fadd l (fsub n o)

/-- `rebase_write_delta`: the write `old → new` on top of `latest`; `none` if no column
changes. -/
def rebaseWriteDelta (m : TabMeta) (old new latest : Bytes) (len : Nat) : Option Bytes :=
  if old = new then none
  else
    let changed := m.cols.filter fun c =>
      decide (c.offset + c.len ≤ len) &&
        decide (getBytes old c.offset c.len ≠ getBytes new c.offset c.len)
    if changed.isEmpty then none
    else some (changed.foldl (fun out c =>
      if c.type = .int ∧ c.len = 4 then
        putWord out c.offset
          (rebaseInt (getWord old c.offset) (getWord new c.offset) (getWord latest c.offset))
      else if c.type = .float ∧ c.len = 4 then
        putWord out c.offset
          (rebaseFloat (getWord old c.offset) (getWord new c.offset) (getWord latest c.offset))
      else putBytes out c.offset (getBytes new c.offset c.len)) latest)

structure MvccColPatch where
  offset : Nat
  len : Nat
  type : ColType
  isArith : Bool
  arithNeg : Bool := false
  rhsCol : String := ""
  absValue : Bytes := []
  arithRhsI : BitVec 32 := 0
  arithRhsF : BitVec 32 := 0

namespace MvccColPatch

variable (p : MvccColPatch)

def deltaI : BitVec 32 := if p.arithNeg then -p.arithRhsI else p.arithRhsI
def deltaF : BitVec 32 := if p.arithNeg then fneg p.arithRhsF else p.arithRhsF

/-- `apply_col_patch_abs`. -/
def applyAbs (dest : Bytes) : Bytes :=
  if p.absValue.length ≥ p.len then putBytes dest p.offset (p.absValue.take p.len) else dest

/-- `apply_col_patch_from_visible`. -/
def applyFromVisible (visible dest : Bytes) (len : Nat) (m : TabMeta) : Option Bytes :=
  if p.offset + p.len > len then none
  else if !p.isArith then some (p.applyAbs dest)
  else
    match m.findCol p.rhsCol with
    | none => none
    | some rcol =>
        if p.type = .float ∧ rcol.type = .float ∧ p.len = 4 ∧ rcol.len = 4 then
          some (putWord dest p.offset (fadd (getWord visible rcol.offset) p.deltaF))
        else if p.type = .int ∧ rcol.type = .int ∧ p.len = 4 ∧ rcol.len = 4 then
          some (putWord dest p.offset (getWord visible rcol.offset + p.deltaI))
        else none

/-- `apply_col_patch_rebase`. -/
def applyRebase (visible latest dest : Bytes) (len : Nat) : Option Bytes :=
  let o := getWord visible p.offset
  let l := getWord latest p.offset
  if p.offset + p.len > len then none
  else if !p.isArith then
    if p.type = .int ∧ p.len = 4 ∧ p.absValue.length ≥ p.len then
      some (putWord dest p.offset (rebaseInt o (getWord p.absValue 0) l))
    else if p.type = .float ∧ p.len = 4 ∧ p.absValue.length ≥ p.len then
      some (putWord dest p.offset (rebaseFloat o (getWord p.absValue 0) l))
    else some (p.applyAbs dest)
  else if p.type = .int ∧ p.len = 4 then
    some (putWord dest p.offset (rebaseInt o (o + p.deltaI) l))
  else if p.type = .float ∧ p.len = 4 then
    some (putWord dest p.offset (rebaseFloat o (fadd o p.deltaF) l))
  else none

end MvccColPatch

/-- The patches one after another on `dest`; `(dest, false)` where one fails. -/
def applyPatches (f : MvccColPatch → Bytes → Option Bytes) : List MvccColPatch → Bytes → Bytes × Bool
  | [], dest => (dest, true)
  | p :: ps, dest =>
      match f p dest with
      | none => (dest, false)
      | some dest => applyPatches f ps dest

/-! ## Versioned writes -/

/-- The end of a versioned write: `refused` is the return value false, `nullRead` a read
through the null `new_data`. -/
inductive WriteOutcome where
  | written (db : Db) (effective : Image)
  | refused (db : Db)
  | nullRead

namespace Db

variable (db : Db)

/-- The chain of a row, an empty one if it has none. -/
def chainOf (r : RowId) : MvccChain := (db.rows r).chain.getD {}

/-- Note the write and make the chain of the row. -/
def touchChain (t : TxnId) (r : RowId) : Db :=
  ((db.noteWrite t r).markDirty r.tab).setChain r (db.chainOf r)

def mvccInsert (t : TxnId) (r : RowId) (data : Bytes) : Db :=
  let db' := (db.touchChain t r).setChain r
    { db.chainOf r with hist := [], writer := some t, writerDel := false, writerData := ⟨data, some t⟩ }
  db'.modifyTxn t fun x => { x with writeSet := x.writeSet ++ [⟨.insertTuple, r, .empty⟩] }

/-- Is the row held by an uncommitted write of another transaction? -/
def heldByOther (t : TxnId) (r : RowId) (ch : MvccChain) : Bool :=
  ((db.rows r).pending.isSome && decide ((db.rows r).pending ≠ some t)) ||
    (ch.writer.isSome && decide (ch.writer ≠ some t))

/-- The newest committed version, when it is newer than the snapshot of `t`. -/
def newerVer (t : TxnId) (ch : MvccChain) : Option MvccVer :=
  ch.hist.getLast?.filter fun v => decide (v.commitTs > (db.txn t).readTs)

/-- A row touched for the first time gets the bytes read as its committed base version. -/
def withBase (t : TxnId) (r : RowId) (ch : MvccChain) (old : Image) : MvccChain :=
  if ch.hist = [] ∧ ch.writer = none ∧ (db.txn t).overlay r = none then
    { ch with hist := [⟨old, 0, false, none⟩] }
  else ch

def firstTouch (t : TxnId) (r : RowId) (ch : MvccChain) : Bool :=
  decide (ch.writer ≠ some t) && ((db.txn t).overlay r).isNone && !(db.txn t).touches r

def addWriteRecord (t : TxnId) (w : WriteRecord) (first : Bool) : Db :=
  if first then db.modifyTxn t fun x => { x with writeSet := x.writeSet ++ [w] } else db

/-- Register the first column of a deleted row. -/
def noteDelKey (t : TxnId) (tab : TabName) (old : Bytes) : Db :=
  match (db.tabs tab).cols with
  | [] => db
  | c :: _ =>
      let key := getBytes old c.offset c.len
      let st := ((db.delKeys tab).lookup key).getD {}
      { db.modifyTxn t fun x => { x with delKeys := x.delKeys ++ [(tab, key)] } with
        delKeys := Function.update db.delKeys tab
          ((db.delKeys tab).insert key { st with writers := st.writers.insert t }) }

/-- Make `data` the uncommitted version of the row. -/
def putVersion (t : TxnId) (r : RowId) (ch : MvccChain) (old : Image) (del : Bool) (data : Image) :
    Db :=
  let first := db.firstTouch t r ch
  let db' := db.setChain r
    { db.withBase t r ch old with writer := some t, writerDel := del, writerData := data }
  let db' := if del then db'.noteDelKey t r.tab old.bytes else db'
  db'.addWriteRecord t ⟨if del then .deleteTuple else .updateTuple, r, old⟩ first

/-- The image a version holds; a delete has none. -/
def newImage (t : TxnId) : Option Bytes → Image
  | none => .empty
  | some b => ⟨b, some t⟩

/-- `mvcc_write`; a delete passes `new = none`. -/
def mvccWrite (t : TxnId) (r : RowId) (old : Image) (new : Option Bytes) : WriteOutcome :=
  let m := db.tabs r.tab
  let ch := db.chainOf r
  let db := db.touchChain t r
  let finish := fun (target : Option Bytes) =>
    WriteOutcome.written (db.putVersion t r ch old new.isNone (newImage t target)) (newImage t target)
  if db.heldByOther t r ch then .refused db
  else
    match if ch.writer = none then db.newerVer t ch else none with
    | none => finish new
    | some last =>
        if last.isDeleted ∨ last.data.bytes.length ≠ m.recordSize then .refused db
        else
          match new with
          | none => .nullRead
          | some n =>
              match rebaseWriteDelta m old.bytes n last.data.bytes m.recordSize with
              | none => .refused db
              | some b => finish (some b)

/-- The bytes a column write starts from: the transaction's own uncommitted version, else
the newest committed version. -/
def writeBase (t : TxnId) (ch : MvccChain) (visible : Bytes) (newer : Option MvccVer) (len : Nat) :
    Bytes :=
  if ch.writer = some t ∧ ch.writerData.bytes ≠ [] then ch.writerData.bytes
  else readRec ((newer.map fun v => v.data.bytes).getD visible) len

/-- `mvcc_write_col_delta`. -/
def mvccWriteColDelta (t : TxnId) (r : RowId) (visible : Image) (off : Nat) (type : ColType)
    (deltaF deltaI : BitVec 32) : WriteOutcome :=
  let len := (db.tabs r.tab).recordSize
  let ch := db.chainOf r
  let db := db.touchChain t r
  if db.heldByOther t r ch then .refused db
  else
    let first := db.firstTouch t r ch
    let based := db.withBase t r ch visible
    let newer := if ch.writer = some t then none else db.newerVer t based
    let dest := writeBase t ch visible.bytes newer len
    let held := { based with writer := some t, writerDel := false, holdWriterToCommit := true }
    if type = .string ∨ off + 4 > len then .refused (db.setChain r held)
    else
      let w := if type = .float then fadd (getWord dest off) deltaF else getWord dest off + deltaI
      let data : Image := ⟨putWord dest off w, some t⟩
      let db := db.setChain r { held with writerData := data }
      .written (db.addWriteRecord t ⟨.updateTuple, r, visible⟩ first) data

/-- `mvcc_write_col_patch`. -/
def mvccWriteColPatch (t : TxnId) (r : RowId) (visible : Image) (patches : List MvccColPatch) :
    WriteOutcome :=
  let m := db.tabs r.tab
  let len := m.recordSize
  if patches.isEmpty then .refused db
  else
    let ch := db.chainOf r
    let db := db.touchChain t r
    if db.heldByOther t r ch then .refused db
    else
      let first := db.firstTouch t r ch
      let based := db.withBase t r ch visible
      let newer := if ch.writer = some t then none else db.newerVer t based
      if newer.any (fun last => last.isDeleted || decide (last.data.bytes.length ≠ len)) then
        .refused (db.setChain r based)
      else
        let patch := fun (p : MvccColPatch) d =>
          match newer with
          | none => p.applyFromVisible visible.bytes d len m
          | some last => p.applyRebase visible.bytes last.data.bytes d len
        let out := applyPatches patch patches (writeBase t ch visible.bytes newer len)
        let data : Image := ⟨out.1, some t⟩
        let db := db.setChain r { based with writer := some t, writerDel := false, writerData := data }
        if out.2 then .written (db.addWriteRecord t ⟨.updateTuple, r, visible⟩ first) data
        else .refused db

end Db

end Rmdb.Txn
