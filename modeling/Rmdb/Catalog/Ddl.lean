import Rmdb.Catalog.Meta
import Rmdb.Lib.Throws

/-!
# Tables, indexes and their files

`SmManager` (src/system/sm_manager.cpp) with what `RmManager`, `IxManager` and `DiskManager` do for it: the files of
the database, the open ones, the handles of tables and indexes, and the catalog with its copy in db.meta.  A file
descriptor is the path it was opened for, and a handle is the name it is kept under.  The disks that a call passes
are recorded, so that a crash may come between any two of its writes, and anywhere in the writing of db.meta.  Of the
pages of a file only the first counts here, which `open_file` reads.
-/

namespace Rmdb.Catalog

open Rmdb.Lib (Throws SortedMap)
open Rmdb.Txn (Bytes ColType)

/-! ## State -/

/-- The directory of the database: its files, the files whose first page is written, and the bytes of db.meta. -/
structure Disk where
  files : List Bytes
  headed : List Bytes
  dbMeta : Bytes
deriving DecidableEq, Repr

structure SmManager where
  disk : Disk
  /-- The disks since the statement began.  No operation reads them. -/
  passed : List Disk
  /-- `path2fd_` -/
  opened : List Bytes
  fhs : List Bytes
  ihs : List Bytes
  db : DbMeta

inductive SmError where
  | tableExists (tab : Bytes)
  | tableNotFound (tab : Bytes)
  | columnNotFound (col : Bytes)
  | indexExists (tab : Bytes) (cols : List Bytes)
  | indexNotFound (tab : Bytes) (cols : List Bytes)
  | invalidRecordSize (size : Int)
  | invalidColLength (len : Int)
  | fileExists (path : Bytes)
  | fileNotFound (path : Bytes)
  | fileNotOpen (path : Bytes)
  | fileNotClosed (path : Bytes)
  /-- `read_page`, or a catalog that does not read. -/
  | unreadable (path : Bytes)
  /-- An exception while the records are entered into a new index. -/
  | notFilled
  /-- A failed assertion, a division by zero or a null pointer: the process ends. -/
  | died
deriving DecidableEq, Repr

abbrev Sm (α : Type) := Throws SmManager SmError α

/-- The entry is put unless there is one. -/
def emplace (p : Bytes) (ps : List Bytes) : List Bytes := if ps.contains p then ps else p :: ps

def erased (p : Bytes) (ps : List Bytes) : List Bytes := ps.filter fun q => q != p

def onDisk (f : Disk → Disk) : Sm Unit :=
  Throws.modify fun s => { s with disk := f s.disk, passed := s.passed ++ [f s.disk] }

/-- The disks while `ofs << text` is under way: the file is truncated when it is opened, and the stream writes its buffer out
in pieces, wherever they end. -/
def Disk.writing (d : Disk) (text : Bytes) : List Disk := text.inits.map fun part => { d with dbMeta := part }

def writeMeta (text : Bytes) : Sm Unit :=
  Throws.modify fun s => { s with disk := { s.disk with dbMeta := text }, passed := s.passed ++ s.disk.writing text }

/-! ## Files -/

namespace DiskManager

def createFile (path : Bytes) : Sm Unit := do
  let s ← Throws.get
  if s.disk.files.contains path then Throws.throw (.fileExists path)
  else onDisk fun d => { d with files := path :: d.files }

def destroyFile (path : Bytes) : Sm Unit := do
  let s ← Throws.get
  if s.opened.contains path then Throws.throw (.fileNotClosed path)
  else if !s.disk.files.contains path then Throws.throw (.fileNotFound path)
  else onDisk fun d => { d with files := erased path d.files, headed := erased path d.headed }

def openFile (path : Bytes) : Sm Unit := do
  let s ← Throws.get
  if !s.disk.files.contains path then Throws.throw (.fileNotFound path)
  else Throws.modify fun s => { s with opened := emplace path s.opened }

def closeFile (path : Bytes) : Sm Unit := do
  let s ← Throws.get
  if !s.opened.contains path then Throws.throw (.fileNotOpen path)
  else Throws.modify fun s => { s with opened := erased path s.opened }

/-- `write_page` of the file header. -/
def writeHeader (path : Bytes) : Sm Unit := onDisk fun d => { d with headed := emplace path d.headed }

/-- `read_page` of the file header. -/
def readHeader (path : Bytes) : Sm Unit := do
  let s ← Throws.get
  if !s.disk.headed.contains path then Throws.throw (.unreadable path) else pure ()

end DiskManager

open DiskManager

namespace RmManager

def maxRecordSize : Int := 512

def createFile (filename : Bytes) (recordSize : Int) : Sm Unit :=
  if recordSize < 1 ∨ recordSize > maxRecordSize then Throws.throw (.invalidRecordSize recordSize)
  else do
    DiskManager.createFile filename
    DiskManager.openFile filename
    writeHeader filename
    DiskManager.closeFile filename

def openFile (filename : Bytes) : Sm Unit := do
  DiskManager.openFile filename
  readHeader filename

def closeFile (filename : Bytes) : Sm Unit := do
  writeHeader filename
  DiskManager.closeFile filename

end RmManager

namespace IxManager

def maxColLen : Int := 512

/-- `get_index_name`: the names of table and columns with `_` between them, and `.idx`. -/
def indexName (filename : Bytes) (cols : List Bytes) : Bytes := filename ++ cols.flatMap (fun c => 95 :: c) ++ [46, 105, 100, 120]

/-- `(PAGE_SIZE - sizeof(IxPageHdr)) / (col_tot_len + sizeof(Rid)) - 1`, where the sum is a `size_t`; none for the division
by zero. -/
def btreeOrder (colTotLen : BitVec 32) : Option Int :=
  let entry : BitVec 64 := colTotLen.signExtend 64 + 8
  if entry = 0 then none else some (((4096 - 24 : BitVec 64) / entry - 1).setWidth 32).toInt

/-- The file stays open when it throws. -/
def createIndex (path : Bytes) (colTotLen : BitVec 32) : Sm Unit := do
  DiskManager.createFile path
  DiskManager.openFile path
  if colTotLen.toInt > maxColLen then Throws.throw (.invalidColLength colTotLen.toInt)
  else if (btreeOrder colTotLen).any fun order => order > 2 then do
    writeHeader path
    DiskManager.closeFile path
  else Throws.throw .died

def openIndex (path : Bytes) : Sm Unit := do
  DiskManager.openFile path
  readHeader path

def closeIndex (path : Bytes) : Sm Unit := do
  writeHeader path
  DiskManager.closeFile path

end IxManager

/-! ## The catalog in memory -/

def totalLen (lens : List (BitVec 32)) : BitVec 32 := lens.foldl (fun n len => n + len) 0

structure ColDef where
  name : Bytes
  type : ColType
  len : BitVec 32
deriving DecidableEq, Repr

def placeCols (tabName : Bytes) (offset : BitVec 32) : List ColDef → List ColMeta
  | [] => []
  | d :: ds => ⟨tabName, d.name, d.type, d.len, offset, false⟩ :: placeCols tabName (offset + d.len) ds

namespace TabMeta

def getCol (tab : TabMeta) (name : Bytes) : Option ColMeta := tab.cols.find? fun c => c.name == name

/-- `get_index_meta`: the number of columns first, then their names. -/
def isIndexOn (colNames : List Bytes) (index : IndexMeta) : Bool :=
  index.colNum.toInt == colNames.length && (index.cols.map ColMeta.name).take colNames.length == colNames

/-- The first column of the name. -/
def markCol (name : Bytes) : List ColMeta → List ColMeta
  | [] => []
  | c :: cs => if c.name == name then { c with index := true } :: cs else c :: markCol name cs

/-- `get_col(name)->index = true` -/
def setIndexed (name : Bytes) : Throws TabMeta SmError Unit := do
  let tab ← Throws.get
  match tab.getCol name with
  | none => Throws.throw (.columnNotFound name)
  | some _ => Throws.modify fun tab => { tab with cols := markCol name tab.cols }

def addIndex (index : IndexMeta) : Throws TabMeta SmError Unit := do
  Throws.modify fun tab => { tab with indexes := tab.indexes ++ [index] }
  Throws.each setIndexed (index.cols.map ColMeta.name)

def removeIndex (colNames : List Bytes) : Throws TabMeta SmError Unit := do
  Throws.modify fun tab => { tab with
    indexes := tab.indexes.eraseP (isIndexOn colNames)
    cols := tab.cols.map fun c => { c with index := false } }
  let tab ← Throws.get
  Throws.each setIndexed (tab.indexes.flatMap fun index => index.cols.map ColMeta.name)

end TabMeta

/-- A call on the entry of a table, in place. -/
def onTable (tabName : Bytes) (m : Throws TabMeta SmError Unit) : Sm Unit := fun s =>
  match s.db.tabs.find? tabName with
  | none => (.error (.tableNotFound tabName), s)
  | some tab => ((m tab).1, { s with db := { s.db with tabs := s.db.tabs.set tabName (m tab).2 } })

/-- The columns of an index, as `create_index` finds them. -/
def findCols (tab : TabMeta) : List Bytes → Sm (List ColMeta)
  | [] => pure []
  | name :: names =>
      match tab.getCol name with
      | none => Throws.throw (.columnNotFound name)
      | some col => do
          let cols ← findCols tab names
          pure (col :: cols)

/-! ## Statements -/

namespace SmManager

def flushMeta : Sm Unit := do
  let s ← Throws.get
  writeMeta s.db.write

def createTable (tabName : Bytes) (colDefs : List ColDef) : Sm Unit := do
  let s ← Throws.get
  if (s.db.tabs.find? tabName).isSome then Throws.throw (.tableExists tabName)
  else do
    RmManager.createFile tabName (totalLen (colDefs.map ColDef.len)).toInt
    Throws.modify fun s =>
      { s with db := { s.db with tabs := s.db.tabs.set tabName ⟨tabName, placeCols tabName 0 colDefs, []⟩ } }
    RmManager.openFile tabName
    Throws.modify fun s => { s with fhs := emplace tabName s.fhs }
    flushMeta

def dropIndex (tabName : Bytes) (colNames : List Bytes) : Sm Unit := do
  let s ← Throws.get
  match s.db.tabs.find? tabName with
  | none => Throws.throw (.tableNotFound tabName)
  | some tab =>
      match tab.indexes.find? (TabMeta.isIndexOn colNames) with
      | none => Throws.throw (.indexNotFound tabName colNames)
      | some index => do
          let path := IxManager.indexName tabName (index.cols.map ColMeta.name)
          if s.ihs.contains path then do
            IxManager.closeIndex path
            Throws.modify fun s => { s with ihs := erased path s.ihs }
          else pure ()
          DiskManager.destroyFile path
          onTable tabName (TabMeta.removeIndex colNames)
          flushMeta

def dropTable (tabName : Bytes) : Sm Unit := do
  let s ← Throws.get
  match s.db.tabs.find? tabName with
  | none => Throws.throw (.tableNotFound tabName)
  | some tab => do
      Throws.each (fun index : IndexMeta => dropIndex tabName (index.cols.map ColMeta.name)) tab.indexes
      let s ← Throws.get
      if !s.fhs.contains tabName then Throws.throw .died
      else do
        RmManager.closeFile tabName
        Throws.modify fun s => { s with fhs := erased tabName s.fhs }
        DiskManager.destroyFile tabName
        Throws.modify fun s => { s with db := { s.db with tabs := s.db.tabs.erase tabName } }
        flushMeta

/-- `filled`: no call throws while the records of the table are entered. -/
def createIndex (tabName : Bytes) (colNames : List Bytes) (filled : Bool) : Sm Unit := do
  let s ← Throws.get
  match s.db.tabs.find? tabName with
  | none => Throws.throw (.tableNotFound tabName)
  | some tab => do
      let cols ← findCols tab colNames
      let path := IxManager.indexName tabName (cols.map ColMeta.name)
      if s.disk.files.contains path then Throws.throw (.indexExists tabName colNames)
      else do
        let colTotLen := totalLen (cols.map ColMeta.len)
        IxManager.createIndex path colTotLen
        IxManager.openIndex path
        if !s.fhs.contains tabName then Throws.throw .died
        else if !filled then Throws.throw .notFilled
        else do
          Throws.modify fun s => { s with ihs := emplace path s.ihs }
          onTable tabName (TabMeta.addIndex ⟨tabName, colTotLen, BitVec.ofNat 32 colNames.length, cols⟩)
          flushMeta

def openIndex (tabName : Bytes) (index : IndexMeta) : Sm Unit := do
  let path := IxManager.indexName tabName (index.cols.map ColMeta.name)
  IxManager.openIndex path
  Throws.modify fun s => { s with ihs := emplace path s.ihs }

def openTable (entry : Bytes × TabMeta) : Sm Unit := do
  RmManager.openFile entry.1
  Throws.modify fun s => { s with fhs := emplace entry.1 s.fhs }
  Throws.each (openIndex entry.1) entry.2.indexes

def openDb : Sm Unit := do
  let s ← Throws.get
  match DbMeta.read s.db s.disk.dbMeta with
  | none => Throws.throw (.unreadable [])
  | some (db, _) => do
      Throws.modify fun s => { s with db := db }
      Throws.each openTable db.tabs.entries

def closeDb : Sm Unit := do
  flushMeta
  let s ← Throws.get
  Throws.each RmManager.closeFile s.fhs
  Throws.modify fun s => { s with fhs := [] }
  Throws.each IxManager.closeIndex s.ihs
  Throws.modify fun s => { s with ihs := [], db := .empty }

end SmManager

inductive Ddl where
  | createTable (tabName : Bytes) (colDefs : List ColDef)
  | dropTable (tabName : Bytes)
  | createIndex (tabName : Bytes) (colNames : List Bytes) (filled : Bool)
  | dropIndex (tabName : Bytes) (colNames : List Bytes)
deriving DecidableEq, Repr

def Ddl.run : Ddl → Sm Unit
  | .createTable tabName colDefs => SmManager.createTable tabName colDefs
  | .dropTable tabName => SmManager.dropTable tabName
  | .createIndex tabName colNames filled => SmManager.createIndex tabName colNames filled
  | .dropIndex tabName colNames => SmManager.dropIndex tabName colNames

/-! ## Runs -/

namespace SmManager

/-- A new process, and `open_db`. -/
def reopen (disk : Disk) : Except SmError Unit × SmManager := openDb ⟨disk, [disk], [], [], [], .empty⟩

def exec (stmt : Ddl) (s : SmManager) : Except SmError Unit × SmManager := stmt.run { s with passed := [s.disk] }

inductive Event where
  | run (stmt : Ddl)
  /-- `flush_meta` of `do_checkpoint` -/
  | checkpoint
  | restart
  | crash
deriving DecidableEq, Repr

def reopened (disk : Disk) : Option SmManager :=
  match reopen disk with
  | (.ok (), s) => some s
  | (.error _, _) => none

/-- `none` when the database does not open any more. -/
def step (s : SmManager) : Event → Option SmManager
  | .run stmt =>
      match exec stmt s with
      | (.error .died, s) => reopened s.disk
      | (_, s) => some s
  | .checkpoint => some (flushMeta s).2
  | .restart => reopened (closeDb s).2.disk
  | .crash => reopened s.disk

/-- What `create_db` leaves in the directory. -/
def createDb (name : Bytes) : Disk := ⟨[], [], (DbMeta.mk name .empty).write⟩

end SmManager

end Rmdb.Catalog
