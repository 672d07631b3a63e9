import Rmdb.Exec.Session

/-!
# LOAD

`QlManager::run_load`: the lines of a CSV file become records, and each goes into the heap and the
log on a path of its own that enters nothing into the write set of the transaction.  The loop over
the indexes runs over a copy of the table's metadata (`TabMeta.copy`).  The slots are those the heap
gives; each call that may throw is named by the `LoadFault` of its record.  `std::atof` with the cast
to `float` is the parameter `atof`.
-/

namespace Rmdb.Txn

open Rmdb.Index (Rid)

/-! ## Lines -/

/-- `std::getline` up to the end of the file. -/
def fileLines (file : Bytes) : List Bytes :=
  let ls := file.splitOn 10
  if ls.getLast? = some [] then ls.dropLast else ls

/-- `if (line.back() == '\r') line.pop_back()` -/
def stripCr (line : Bytes) : Bytes := if line.getLast? = some 13 then line.dropLast else line

def splitCsvLine (line : Bytes) : List Bytes := line.splitOn 44

def isSpace (c : UInt8) : Bool := c = 32 || (9 ≤ c && c ≤ 13)

def isDigit (c : UInt8) : Bool := 48 ≤ c && c ≤ 57

def digitsVal (ds : Bytes) : Nat := ds.foldl (fun n c => n * 10 + (c.toNat - 48)) 0

/-- `std::atoi`: `strtol` of a 64-bit `long`, cast to `int`. -/
def atoi (s : Bytes) : BitVec 32 :=
  let s := s.dropWhile isSpace
  let (neg, s) :=
    match s with
    | 45 :: s => (true, s)
    | 43 :: s => (false, s)
    | s => (false, s)
  let n := digitsVal (s.takeWhile isDigit)
  BitVec.ofInt 32 (if neg then -(min n (2 ^ 63) : Nat) else (min n (2 ^ 63 - 1) : Nat))

/-- A field under the name of its column. -/
def colName (c : ColMeta) : Bytes := c.name.toUTF8.data.toList

/-- What is copied into the record for a field. -/
def fieldBytes (atof : Bytes → BitVec 32) (c : ColMeta) (field : Bytes) : Bytes :=
  match c.type with
  | .int => wordBytes (atoi field)
  | .float => wordBytes (atof field)
  | .string => field.take c.len

def loadRecord (atof : Bytes → BitVec 32) (m : TabMeta) (fields : List Bytes) : Bytes :=
  (m.cols.zip fields).foldl (fun rec p => putBytes rec p.1.offset (fieldBytes atof p.1 p.2))
    (List.replicate m.recordSize 0)

/-- A line is passed over (empty, or the names of the columns), has the wrong number of fields, or
is a record. -/
inductive LoadLine where
  | skip
  | mismatch
  | record (data : Bytes)
deriving DecidableEq, Repr

def loadLine (atof : Bytes → BitVec 32) (m : TabMeta) (line : Bytes) : LoadLine :=
  let line := stripCr line
  if line = [] then .skip
  else
    let fields := splitCsvLine line
    if fields.length ≠ m.cols.length then .mismatch
    else if fields = m.cols.map colName then .skip
    else .record (loadRecord atof m fields)

/-! ## The loop -/

/-- The copy constructor of `TabMeta` takes the columns and leaves the indexes out. -/
def TabMeta.copy (other : TabMeta) : TabMeta where
  cols := other.cols
  indexes := []
  layout := other.layout
  indexed := fun _ h => absurd h List.not_mem_nil

/-- The call that throws: `insert_record`, `add_log_to_buffer`, or `insert_entry` after `n` indexes
have their entry. -/
inductive LoadFault where
  | heap
  | log
  | index (n : Nat)
deriving DecidableEq, Repr

inductive LoadResult where
  | done (db : Db)
  | throws (db : Db)
  /-- there is no such slot to give -/
  | stop

namespace Db

variable (atof : Bytes → BitVec 32) (t : TxnId) (tab : TabName)

def logInsert (db : Db) (r : RowId) (data : Bytes) : Db := db.writeLog t (.insert t r data)

/-- The loop over the indexes of a record in slot `r`. -/
def loadKeys (m : TabMeta) (db : Db) (r : RowId) (data : Bytes) (fault : Option LoadFault) : LoadResult :=
  match fault with
  | some (.index n) =>
      if n < m.indexes.length then .throws (db.insertKeys r (m.indexes.take n) data)
      else .done (db.insertKeys r m.indexes data)
  | _ => .done (db.insertKeys r m.indexes data)

/-- The body of the loop from `insert_record` on. -/
def loadRow (m : TabMeta) (db : Db) (data : Bytes) (rid : Rid) (fault : Option LoadFault) : LoadResult :=
  let r : RowId := ⟨tab, rid⟩
  if fault = some .heap then .throws db
  else if !db.slotFree tab rid then .stop
  else
    let db := db.fillSlot r ⟨data, some t⟩
    if fault = some .log then .throws db else loadKeys m (db.logInsert t r data) r data fault

/-- `supply`: for each record the slot it gets, and what throws on the way. -/
def loadLines (m : TabMeta) (db : Db) (supply : List (Rid × Option LoadFault)) : List Bytes → LoadResult
  | [] => .done db
  | line :: lines =>
      match loadLine atof m line with
      | .skip => loadLines m db supply lines
      | .mismatch => .throws db
      | .record data =>
          match supply with
          | [] => .stop
          | (rid, fault) :: supply =>
              match loadRow t tab m db data rid fault with
              | .done db => loadLines m db supply lines
              | out => out

/-- `run_load`, with `TabMeta tab = get_table(tab_name)`; `none` for a file that cannot be opened. -/
def runLoad (db : Db) (file : Option Bytes) (supply : List (Rid × Option LoadFault)) : LoadResult :=
  match file with
  | none => .throws db
  | some file => loadLines atof t tab (db.tabs tab).copy db supply (fileLines file)

end Db

end Rmdb.Txn
