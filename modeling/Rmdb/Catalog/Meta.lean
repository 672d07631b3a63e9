import Rmdb.Catalog.Stream
import Rmdb.Lib.SortedMap

/-!
# The catalog

The metadata of src/system/sm_meta.h with `operator<<` and `operator>>`.  `tabs_` is a map sorted by the
bytes of the names.  A catalog that is written comes back when it is read (`read_write`): each
class is read where it was written, the classes inside it first, and the tables enter the empty
map in the order of the map they come from.  `operator>>` of `DbMeta` assigns each table to its
entry, and assignment copies the indexes, which the copy constructor of `TabMeta` does not.
-/

namespace Rmdb.Catalog

open Rmdb.Txn (Bytes ColType isSpace)
open Rmdb.Lib (SortedMap)

/-- `char_traits<char>::compare` is that of unsigned bytes. -/
scoped instance byteOrder : LinearOrder UInt8 where
  le_refl := UInt8.le_refl
  le_trans _ _ _ := UInt8.le_trans
  le_antisymm _ _ := UInt8.le_antisymm
  le_total := UInt8.le_total
  lt_iff_le_not_ge a b := by
    rw [UInt8.lt_iff_toNat_lt, UInt8.le_iff_toNat_le, UInt8.le_iff_toNat_le]
    omega
  toDecidableLE := inferInstance
  toDecidableLT := inferInstance
  toDecidableEq := inferInstance

/-! ## Enumerations -/

/-- `static_cast<int>` of a `ColType`. -/
def colTypeCode : ColType → BitVec 32
  | .int => 0
  | .float => 1
  | .string => 2

def writeColType (type : ColType) : Bytes := writeInt (colTypeCode type)

/-- The source casts a number that is no enumerator too; here it is not read. -/
def readColType : Reader ColType :=
  readInt.bind fun i s =>
    if i = 0 then some (.int, s) else if i = 1 then some (.float, s) else if i = 2 then some (.string, s) else none

/-! ## Columns -/

structure ColMeta where
  tabName : Bytes
  name : Bytes
  type : ColType
  len : BitVec 32
  offset : BitVec 32
  index : Bool
deriving DecidableEq, Repr

namespace ColMeta

def write (col : ColMeta) : Bytes :=
  col.tabName ++ 32 :: (col.name ++ 32 :: (writeColType col.type ++ 32 :: (writeInt col.len ++
    32 :: (writeInt col.offset ++ 32 :: writeBool col.index))))

def read : Reader ColMeta :=
  readString.bind fun tabName => readString.bind fun name => readColType.bind fun type =>
    readInt.bind fun len => readInt.bind fun offset => readBool.bind fun index =>
      .pure ⟨tabName, name, type, len, offset, index⟩

end ColMeta

/-! ## Indexes -/

structure IndexMeta where
  tabName : Bytes
  colTotLen : BitVec 32
  colNum : BitVec 32
  cols : List ColMeta
deriving DecidableEq, Repr

namespace IndexMeta

def write (index : IndexMeta) : Bytes :=
  index.tabName ++ 32 :: (writeInt index.colTotLen ++ 32 :: (writeInt index.colNum ++
    index.cols.flatMap fun col => 10 :: col.write))

def read : Reader IndexMeta :=
  readString.bind fun tabName => readInt.bind fun colTotLen => readInt.bind fun colNum =>
    (ColMeta.read.many colNum.toInt.toNat).map fun cols => ⟨tabName, colTotLen, colNum, cols⟩

end IndexMeta

/-! ## Tables -/

structure TabMeta where
  name : Bytes
  cols : List ColMeta
  indexes : List IndexMeta
deriving DecidableEq, Repr

namespace TabMeta

def write (tab : TabMeta) : Bytes :=
  tab.name ++ 10 :: (writeSize tab.cols.length ++ 10 :: ((tab.cols.flatMap fun col => col.write ++ [10]) ++
    (writeSize tab.indexes.length ++ 10 :: tab.indexes.flatMap fun index => index.write ++ [10])))

def read : Reader TabMeta :=
  readString.bind fun name => readSize.bind fun n => (ColMeta.read.many n).bind fun cols =>
    readSize.bind fun n => (IndexMeta.read.many n).map fun indexes => ⟨name, cols, indexes⟩

end TabMeta

/-! ## Databases -/

structure DbMeta where
  name : Bytes
  tabs : SortedMap Bytes TabMeta

namespace DbMeta

def empty : DbMeta := ⟨[], .empty⟩

def write (db : DbMeta) : Bytes :=
  db.name ++ 10 :: (writeSize db.tabs.entries.length ++ 10 ::
    db.tabs.entries.flatMap fun entry => entry.2.write ++ [10])

/-- `operator>>` into `db`. -/
def read (db : DbMeta) : Reader DbMeta :=
  readString.bind fun name => readSize.bind fun n =>
    (TabMeta.read.many n).map fun tabs => ⟨name, tabs.foldl (fun m tab => m.set tab.name tab) db.tabs⟩

end DbMeta

/-! ## Catalogs that can be written -/

structure ColMeta.Ok (col : ColMeta) : Prop where
  tabName : IsName col.tabName
  name : IsName col.name

structure IndexMeta.Ok (index : IndexMeta) : Prop where
  tabName : IsName index.tabName
  colNum : index.colNum.toInt = index.cols.length
  cols : ∀ col ∈ index.cols, col.Ok

/-- No vector has 2^64 elements. -/
structure TabMeta.Ok (tab : TabMeta) : Prop where
  name : IsName tab.name
  cols : ∀ col ∈ tab.cols, col.Ok
  indexes : ∀ index ∈ tab.indexes, index.Ok
  colsSize : tab.cols.length < 2 ^ 64
  indexesSize : tab.indexes.length < 2 ^ 64

/-- The names are names, each table is under its own, and each index has as many columns as it
says. -/
structure DbMeta.Ok (db : DbMeta) : Prop where
  name : IsName db.name
  tabs : ∀ entry ∈ db.tabs.entries, entry.2.Ok
  own : ∀ entry ∈ db.tabs.entries, entry.1 = entry.2.name
  size : db.tabs.entries.length < 2 ^ 64

/-! ## The round trip -/

theorem readColType_writeColType (type : ColType) : Reads readColType (writeColType type) type := by
  intro rest hrest ws hws
  obtain ⟨ws', hws', hread⟩ := readInt_writeInt (colTypeCode type) rest hrest ws hws
  refine ⟨ws', hws', ?_⟩
  unfold readColType Reader.bind writeColType
  rw [hread]
  cases type with
  | int => rfl
  | float => rfl
  | string => rfl

/-- The last field of a structure. -/
theorem Reads.pure {α β : Type} {r : Reader α} {text : Bytes} {a : α} (h : Reads r text a) (g : α → β) :
    Reads (r.bind fun a => Reader.pure (g a)) text (g a) := fun rest hrest => (h rest hrest).map g

theorem ColMeta.Ok.reads {col : ColMeta} (h : col.Ok) : Reads ColMeta.read col.write col :=
  (readString_name h.tabName).bind (by decide) <| (readString_name h.name).bind (by decide) <|
    (readColType_writeColType col.type).bind (by decide) <| (readInt_writeInt col.len).bind (by decide) <|
      (readInt_writeInt col.offset).bind (by decide) <|
        (readBool_writeBool col.index).pure fun index => ColMeta.mk col.tabName col.name col.type col.len col.offset index

theorem IndexMeta.Ok.reads {index : IndexMeta} (h : index.Ok) : Reads IndexMeta.read index.write index := by
  have hcols : Reads ((ColMeta.read.many index.colNum.toInt.toNat).map
      fun cols => IndexMeta.mk index.tabName index.colTotLen index.colNum cols)
      (index.cols.flatMap fun col => 10 :: col.write) index := by
    have hlen : index.colNum.toInt.toNat = index.cols.length := by
      rw [h.colNum]
      rfl
    rw [hlen]
    exact fun rest hrest => (reads_many (by decide) (fun col hcol => (h.cols col hcol).reads) rest hrest).map _
  exact (readString_name h.tabName).bind (by decide) <| (readInt_writeInt index.colTotLen).bind (by decide) <|
    (readInt_writeInt index.colNum).bindMany (by decide) hcols

theorem TabMeta.Ok.reads {tab : TabMeta} (h : tab.Ok) : ReadsAny TabMeta.read tab.write tab := by
  have hnl : Spaces [10] := spaces_singleton (by decide)
  have hindexes : ReadsAny ((IndexMeta.read.many tab.indexes.length).map fun indexes => TabMeta.mk tab.name tab.cols indexes)
      (tab.indexes.flatMap fun index => index.write ++ [10]) tab := fun rest =>
    (readsAny_many hnl (by decide) (fun index hindex => (h.indexes index hindex).reads) rest).map _
  exact (readString_name h.name).bindAny (by decide) <| (readSize_writeSize h.colsSize).bindAny (by decide) <|
    (readsAny_many hnl (by decide) fun col hcol => (h.cols col hcol).reads).bind <|
      (readSize_writeSize h.indexesSize).bindAny (by decide) hindexes

theorem DbMeta.Ok.reads {db : DbMeta} (h : db.Ok) : ReadsAny (DbMeta.read .empty) db.write db := by
  have hset : (db.tabs.entries.map Prod.snd).foldl (fun m tab => m.set tab.name tab) SortedMap.empty = db.tabs := by
    rw [List.foldl_map]
    refine (List.foldl_ext _ _ _ fun m entry hentry => ?_).trans (SortedMap.foldl_set db.tabs)
    rw [h.own entry hentry]
  have htabs : ReadsAny ((TabMeta.read.many db.tabs.entries.length).map fun tabs =>
      DbMeta.mk db.name (tabs.foldl (fun m tab => m.set tab.name tab) SortedMap.empty))
      (db.tabs.entries.flatMap fun entry => entry.2.write ++ [10]) db := by
    intro rest
    have hread : ∀ tab ∈ db.tabs.entries.map Prod.snd, Reads TabMeta.read tab.write tab := by
      intro tab htab
      obtain ⟨entry, hentry, rfl⟩ := List.mem_map.1 htab
      exact fun rest _ => (h.tabs entry hentry).reads rest
    have hmany := readsAny_many (spaces_singleton (c := 10) (by decide)) (by decide) hread rest
    rw [List.length_map, List.flatMap_map] at hmany
    have hmap := hmany.map fun tabs => DbMeta.mk db.name (tabs.foldl (fun m tab => m.set tab.name tab) SortedMap.empty)
    rw [hset] at hmap
    exact hmap
  exact (readString_name h.name).bindAny (by decide) <| (readSize_writeSize h.size).bindAny (by decide) htabs

/-- What `operator<<` writes of a catalog, `operator>>` reads into an empty one as the same catalog,
with white space left at most. -/
theorem read_write {db : DbMeta} (h : db.Ok) : ∃ rest, Spaces rest ∧ DbMeta.read .empty db.write = some (db, rest) := by
  obtain ⟨ws, hws, hread⟩ := h.reads [] [] spaces_nil
  refine ⟨ws, hws, ?_⟩
  rw [List.append_nil, List.append_nil] at hread
  exact hread

/-- The database `d` with the table `t(a INT, b CHAR(4))` and an index on `a`. -/
def tableT : TabMeta :=
  let a : ColMeta := ⟨[116], [97], .int, 4, 0, true⟩
  ⟨[116], [a, ⟨[116], [98], .string, 4, 4, false⟩], [⟨[116], 4, 1, [a]⟩]⟩

theorem tableT_ok : tableT.Ok := by
  have hcol : ∀ col ∈ tableT.cols, col.Ok := fun col hcol =>
    ⟨(by decide +kernel : ∀ col ∈ tableT.cols, IsName col.tabName) col hcol,
      (by decide +kernel : ∀ col ∈ tableT.cols, IsName col.name) col hcol⟩
  refine ⟨by decide +kernel, hcol, ?_, by decide +kernel, by decide +kernel⟩
  intro index hindex
  obtain rfl := List.mem_singleton.1 hindex
  refine ⟨by decide +kernel, rfl, ?_⟩
  intro col hc
  obtain rfl := List.mem_singleton.1 hc
  exact hcol _ List.mem_cons_self

def databaseD : DbMeta := ⟨[100], SortedMap.empty.set [116] tableT⟩

theorem databaseD_entries : databaseD.tabs.entries = [([116], tableT)] := rfl

theorem databaseD_ok : databaseD.Ok := by
  refine ⟨by decide +kernel, ?_, ?_, ?_⟩
  · rw [databaseD_entries]
    intro entry hentry
    rw [List.mem_singleton.1 hentry]
    exact tableT_ok
  · rw [databaseD_entries]
    intro entry hentry
    rw [List.mem_singleton.1 hentry]
    rfl
  · rw [databaseD_entries]
    decide +kernel

theorem read_write_t : ∃ rest, Spaces rest ∧ DbMeta.read .empty databaseD.write = some (databaseD, rest) :=
  read_write databaseD_ok

end Rmdb.Catalog
