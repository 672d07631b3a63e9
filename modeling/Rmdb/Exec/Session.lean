import Rmdb.Exec.Select

/-!
# Sessions

The steps of the system: statements of explicit transactions, autocommit statements (each a
transaction of its own), `BEGIN`, `COMMIT`, `ABORT` and `CREATE INDEX`, as `client_handler` runs them.
A statement that throws `TransactionAbortException` aborts its transaction; the others end
with `release_statement_writes`.
-/

namespace Rmdb.Txn

open Rmdb.Index (Rid)

/-- A statement.  `rows` of an insert are the records with the slots the heap gives them. -/
inductive Stmt where
  | insert (tab : TabName) (rows : List (Bytes × Rid))
  | update (tab : TabName) (sets : List SetClause) (conds : List Condition) (path : Db.Path)
  | delete (tab : TabName) (conds : List Condition) (path : Db.Path)
  | select (tab : TabName) (conds : List Condition) (path : Db.Path)

/-- The order in which the update and delete executors visit the rids. -/
def ridLe (a b : Rid) : Prop := a.pageNo < b.pageNo ∨ (a.pageNo = b.pageNo ∧ a.slotNo ≤ b.slotNo)

instance : DecidableRel ridLe := fun _ _ => inferInstanceAs (Decidable (_ ∨ _))

def ordered (rids : List Rid) : List Rid := rids.insertionSort ridLe

namespace Db

variable (db : Db)

/-- The rids an update or a delete works on. -/
def targets (t : TxnId) (tab : TabName) (conds : List Condition) (path : Path) : List Rid :=
  ordered ((db.scan t tab conds path).map Prod.fst)

def exec (t : TxnId) : Stmt → RowResult
  | .insert tab rows => rowLoop (insertRow t tab) rows db
  | .update tab sets conds path => rowLoop (updateRow t tab sets) (db.targets t tab conds path) db
  | .delete tab conds path =>
      rowLoop (deleteRow t tab (db.needsVersioning (db.txn t) tab)) (db.targets t tab conds path) db
  | .select tab conds path => db.select t tab conds path

/-- `create_index`: every record of the heap file gets an entry. -/
def createIndex (tab : TabName) (cols : List ColMeta) : Db :=
  let es := (db.rmScan tab).foldl (fun es rid =>
    let key := indexKey cols (db.rows ⟨tab, rid⟩).slot.data.bytes
    if (es.lookup key).isSome then es else IndexMap.insertAt cols key rid es) ([] : IndexMap)
  { db with
    index := Function.update db.index (indexId tab cols) es
    tabs := Function.update db.tabs tab ((db.tabs tab).addIndex cols) }

/-- The state after start-up over the tables, heap files and indexes on disk. -/
def boot (tabs : TabName → TabMeta) (files : TabName → RmFileHdr) (heap : RowId → Slot)
    (index : IndexId → IndexMap) : Db where
  tabs := tabs
  files := files
  rows := fun r => ⟨heap r, none, none⟩
  index := index
  txns := fun _ => none
  nextTxnId := 0
  lastCommitTs := 0
  activeRts := []
  activeExplicitCount := 0
  anyMvccDirty := false
  mvccDirty := fun _ => false
  delKeys := fun _ => ∅
  writeActivity := fun _ => {}
  recentWrites := []
  ser := {}
  log := []

/-- Is `t` an explicit transaction that has not ended? -/
def open? (t : TxnId) : Bool := (db.txns t).any fun x => x.txnMode && x.live

end Db

inductive Action where
  | begin (iso : IsolationLevel)
  | stmt (t : TxnId) (s : Stmt)
  | auto (iso : IsolationLevel) (s : Stmt)
  | commit (t : TxnId)
  | abort (t : TxnId)
  | createIndex (tab : TabName) (cols : List String)

/-- Who acts. -/
def Action.actor (db : Db) : Action → Option TxnId
  | .begin _ | .auto _ _ => some db.nextTxnId
  | .stmt t _ | .commit t | .abort t => some t
  | .createIndex _ _ => none

/-- One step; `none` when the action is not possible, or when the code reads through a null
pointer or throws out of `commit`. -/
def step (db : Db) : Action → Option Db
  | .begin iso => some (db.begin true iso)
  | .stmt t s =>
      if !db.open? t then none
      else
        match db.exec t s with
        | .next db | .done db => some (db.releaseStatementWrites t)
        | .abort db => some (db.abort t)
        | .stop => none
  | .auto iso s =>
      let t := db.nextTxnId
      match (db.begin false iso).exec t s with
      | .next db | .done db => db.commit t
      | .abort db => some (db.abort t)
      | .stop => none
  | .commit t => if db.open? t then db.commit t else none
  | .abort t => if db.open? t then some (db.abort t) else none
  | .createIndex tab names =>
      match names.mapM (db.tabs tab).findCol with
      | none => none
      | some cols => if cols ∈ (db.tabs tab).indexes then none else some (db.createIndex tab cols)

end Rmdb.Txn
