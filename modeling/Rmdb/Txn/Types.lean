import Rmdb.Index.Node

/-!
# Records, version chains and the state of the transaction manager

The data of src/transaction/transaction_manager.h, transaction.h and the heap files as far
as the executors use them.  `store`, `pending` and the heap are kept together by row
(`Row`): the sharding by `mvcc_shard_idx` only spreads the rows over mutexes, and every
operation here is one step under its latches.  `INVALID_TXN_ID` is `none`, an empty
`std::string` of record bytes is `[]`.
-/

namespace Rmdb.Txn

open Rmdb.Index (Rid)

abbrev Bytes := List UInt8
abbrev TabName := String
abbrev TxnId := Nat
abbrev Ts := Nat

/-! ## Record bytes -/

/-- `len` bytes from `off`. -/
def getBytes (b : Bytes) (off len : Nat) : Bytes := (b.drop off).take len

/-- `memcpy(b + off, v, v.size())`. -/
def putBytes (b : Bytes) (off : Nat) (v : Bytes) : Bytes :=
  b.take off ++ v ++ b.drop (off + v.length)

/-- `*(int *)(b + off)`, also the bits of `*(float *)(b + off)`. -/
def getWord (b : Bytes) (off : Nat) : BitVec 32 :=
  (b.getD (off + 3) 0).toBitVec ++ (b.getD (off + 2) 0).toBitVec ++ (b.getD (off + 1) 0).toBitVec ++
    (b.getD off 0).toBitVec

def wordBytes (w : BitVec 32) : Bytes :=
  [⟨w.extractLsb' 0 8⟩, ⟨w.extractLsb' 8 8⟩, ⟨w.extractLsb' 16 8⟩, ⟨w.extractLsb' 24 8⟩]

def putWord (b : Bytes) (off : Nat) (w : BitVec 32) : Bytes := putBytes b off (wordBytes w)

/-- `float` arithmetic on the bits. -/
def fadd (a b : BitVec 32) : BitVec 32 :=
  (Float32.ofBits ⟨a⟩ + Float32.ofBits ⟨b⟩).toBits.toBitVec
def fsub (a b : BitVec 32) : BitVec 32 :=
  (Float32.ofBits ⟨a⟩ - Float32.ofBits ⟨b⟩).toBits.toBitVec
def fneg (a : BitVec 32) : BitVec 32 := (-Float32.ofBits ⟨a⟩).toBits.toBitVec

inductive ColType where
  | int
  | float
  | string
deriving DecidableEq, Repr

structure ColMeta where
  name : String
  type : ColType
  len : Nat
  offset : Nat
deriving DecidableEq, Repr

/-- The columns lie one after another from `off` on. -/
def ColsAt : Nat → List ColMeta → Prop
  | _, [] => True
  | off, c :: cs => c.offset = off ∧ ColsAt (off + c.len) cs

instance instDecidableColsAt : (off : Nat) → (cols : List ColMeta) → Decidable (ColsAt off cols)
  | _, [] => inferInstanceAs (Decidable True)
  | off, c :: cs =>
      have := instDecidableColsAt (off + c.len) cs
      inferInstanceAs (Decidable (c.offset = off ∧ ColsAt (off + c.len) cs))

/-- A table with the columns of each of its indexes. -/
structure TabMeta where
  cols : List ColMeta
  indexes : List (List ColMeta)
  layout : ColsAt 0 cols
  indexed : ∀ ix ∈ indexes, ∀ c ∈ ix, c ∈ cols

def TabMeta.findCol (m : TabMeta) (name : String) : Option ColMeta :=
  m.cols.find? fun c => c.name = name

/-- `file_hdr.record_size`. -/
def TabMeta.recordSize (m : TabMeta) : Nat := (m.cols.map ColMeta.len).sum

/-- One more index, over columns of the table. -/
def TabMeta.addIndex (m : TabMeta) (cols : List ColMeta) : TabMeta :=
  if h : ∀ c ∈ cols, c ∈ m.cols then
    { m with
      indexes := m.indexes ++ [cols]
      indexed := by
        intro ix hix
        rcases List.mem_append.1 hix with hix | hix
        · exact m.indexed ix hix
        · rw [List.mem_singleton.1 hix]
          exact h }
  else m

structure RowId where
  tab : TabName
  rid : Rid
deriving DecidableEq, Repr

/-- Record bytes, with the transaction whose write produced them (`none` for data that was
there before).  No operation reads `origin`. -/
structure Image where
  bytes : Bytes
  origin : Option TxnId
deriving DecidableEq, Repr

def Image.empty : Image := ⟨[], none⟩

/-! ## Version chains -/

structure MvccVer where
  data : Image
  commitTs : Ts
  isDeleted : Bool
  writerTxn : Option TxnId
deriving DecidableEq, Repr

structure MvccChain where
  hist : List MvccVer := []
  writer : Option TxnId := none
  writerDel : Bool := false
  writerData : Image := .empty
  holdWriterToCommit : Bool := false
deriving DecidableEq, Repr

/-- A heap slot: its bitmap bit and its bytes. -/
structure Slot where
  isRecord : Bool
  data : Image
deriving DecidableEq, Repr

/-- The part of `RmFileHdr` a scan reads. -/
structure RmFileHdr where
  numPages : Nat
  numRecordsPerPage : Nat
deriving DecidableEq, Repr

/-- What the heap, `store` and `pending` hold for one `(tab, rid)`. -/
structure Row where
  slot : Slot
  chain : Option MvccChain
  pending : Option TxnId
deriving DecidableEq, Repr

/-! ## Transactions -/

inductive IsolationLevel where
  | serializable
  | snapshotIsolation
deriving DecidableEq, Repr

inductive TransactionState where
  | default
  | committed
  | aborted
deriving DecidableEq, Repr

inductive WType where
  | insertTuple
  | deleteTuple
  | updateTuple
deriving DecidableEq, Repr

structure WriteRecord where
  wtype : WType
  row : RowId
  record : Image
deriving DecidableEq, Repr

structure SiOverlay where
  data : Image
  isDeleted : Bool
deriving DecidableEq, Repr

structure Transaction where
  txnMode : Bool
  state : TransactionState := .default
  isolation : IsolationLevel
  readTs : Ts
  commitTs : Ts := 0
  wroteLog : Bool := false
  writeSet : List WriteRecord := []
  overlay : RowId → Option SiOverlay := fun _ => none
  delKeys : List (TabName × Bytes) := []
  writtenTabs : List TabName := []

instance : Inhabited Transaction := ⟨{ txnMode := false, isolation := .serializable, readTs := 0 }⟩

def Transaction.live (t : Transaction) : Bool := t.state = .default

def Transaction.touches (t : Transaction) (r : RowId) : Bool := t.writeSet.any fun w => w.row = r

end Rmdb.Txn
