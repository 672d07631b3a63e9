import Mathlib
import Rmdb.Wal.Frame

/-!
# The record classes of the log

The constructors, `serialize` and `deserialize` of the classes of
src/recovery/log_manager.h.  The numbers of a header and of a `Rid` are the bits that are
copied, 64 of a transaction's id and 32 of the others; `RmRecord` and the table name are their
bytes.  `NewRecord` is a call of a constructor
and `make` what it builds, `stamp` sets the numbers that `add_log_to_buffer` gives.

Every record that is built so, `UPDATE_DELTA` only when it is `useful`, is written with
`log_tot_len_` bytes and read back as it was (`roundTrips_make`).
-/

namespace Rmdb.Wal

open Rmdb.Txn (Bytes getBytes getWord wordBytes)

/-! ## Headers -/

def invalidLsn : BitVec 32 := -1
def invalidTxnId : BitVec 64 := -1

/-- `LogType`. -/
def typeUpdate : BitVec 32 := 0
def typeInsert : BitVec 32 := 1
def typeDelete : BitVec 32 := 2
def typeBegin : BitVec 32 := 3
def typeCommit : BitVec 32 := 4
def typeAbort : BitVec 32 := 5
def typeCkpt : BitVec 32 := 6
def typeUpdateDelta : BitVec 32 := 7

structure RidBits where
  pageNo : BitVec 32
  slotNo : BitVec 32
deriving DecidableEq, Repr

structure LogRecordHdr where
  logType : BitVec 32
  lsn : BitVec 32
  logTotLen : BitVec 32
  logTid : BitVec 64
  prevLsn : BitVec 32
deriving DecidableEq, Repr

namespace LogRecordHdr

/-- The default constructor of each class. -/
def new (logType : BitVec 32) : LogRecordHdr :=
  { logType := logType, lsn := invalidLsn, logTotLen := BitVec.ofNat 32 logHeaderSize, logTid := invalidTxnId,
    prevLsn := invalidLsn }

def serialize (r : LogRecordHdr) : Bytes :=
  wordBytes r.logType ++ wordBytes r.lsn ++ wordBytes r.logTotLen ++ longBytes r.logTid ++ wordBytes r.prevLsn

def deserialize (src : Bytes) : LogRecordHdr :=
  { logType := getWord src 0
    lsn := getWord src offsetLsn
    logTotLen := getWord src offsetLogTotLen
    logTid := getLong src offsetLogTid
    prevLsn := getWord src offsetPrevLsn }

end LogRecordHdr

/-! ## Fields of a record -/

def ridBitsBytes (rid : RidBits) : Bytes := wordBytes rid.pageNo ++ wordBytes rid.slotNo

def readRid (src : Bytes) (offset : Nat) : RidBits := ⟨getWord src offset, getWord src (offset + 4)⟩

/-- `*(const size_t *)(src + offset)`. -/
def readSizeT (src : Bytes) (offset : Nat) : Nat :=
  (getWord src offset).toNat + 2 ^ 32 * (getWord src (offset + 4)).toNat

/-- The size that `RmRecord::Deserialize` reads; the bytes follow it. -/
def readSize (src : Bytes) (offset : Nat) : Nat := (getWord src offset).toNat

def readValue (src : Bytes) (offset : Nat) : Bytes := getBytes src (offset + 4) (readSize src offset)

/-- `Rid`, `table_name_size_` and `table_name_`, the end of an `INSERT`, `DELETE` and `UPDATE` record. -/
def rowEnd (rid : RidBits) (tableName : Bytes) : Bytes :=
  ridBitsBytes rid ++ u64Bytes tableName.length ++ tableName

def readTableName (src : Bytes) (offset : Nat) : Bytes := getBytes src (offset + 16) (readSizeT src (offset + 8))

/-! ## `INSERT` and `DELETE` -/

structure InsertLogRecord extends LogRecordHdr where
  insertValue : Bytes
  rid : RidBits
  tableName : Bytes
deriving DecidableEq, Repr

structure DeleteLogRecord extends LogRecordHdr where
  deleteValue : Bytes
  rid : RidBits
  tableName : Bytes
deriving DecidableEq, Repr

def InsertLogRecord.new (txnId : BitVec 64) (insertValue : Bytes) (rid : RidBits) (tableName : Bytes) : InsertLogRecord :=
  { LogRecordHdr.new typeInsert with
    logTotLen := BitVec.ofNat 32 (logHeaderSize + 4 + insertValue.length + 8 + (8 + tableName.length))
    logTid := txnId, insertValue := insertValue, rid := rid, tableName := tableName }

def InsertLogRecord.serialize (r : InsertLogRecord) : Bytes :=
  r.toLogRecordHdr.serialize ++ (valueBytes r.insertValue ++ rowEnd r.rid r.tableName)

def InsertLogRecord.deserialize (src : Bytes) : InsertLogRecord :=
  let offset := offsetLogData + readSize src offsetLogData + 4
  { LogRecordHdr.deserialize src with
    insertValue := readValue src offsetLogData
    rid := readRid src offset
    tableName := readTableName src offset }

def DeleteLogRecord.new (txnId : BitVec 64) (deleteValue : Bytes) (rid : RidBits) (tableName : Bytes) : DeleteLogRecord :=
  { LogRecordHdr.new typeDelete with
    logTotLen := BitVec.ofNat 32 (logHeaderSize + (4 + deleteValue.length + 8) + (8 + tableName.length))
    logTid := txnId, deleteValue := deleteValue, rid := rid, tableName := tableName }

def DeleteLogRecord.serialize (r : DeleteLogRecord) : Bytes :=
  r.toLogRecordHdr.serialize ++ (valueBytes r.deleteValue ++ rowEnd r.rid r.tableName)

def DeleteLogRecord.deserialize (src : Bytes) : DeleteLogRecord :=
  let offset := offsetLogData + 4 + readSize src offsetLogData
  { LogRecordHdr.deserialize src with
    deleteValue := readValue src offsetLogData
    rid := readRid src offset
    tableName := readTableName src offset }

/-! ## `UPDATE` -/

structure UpdateLogRecord extends LogRecordHdr where
  oldValue : Bytes
  newValue : Bytes
  rid : RidBits
  tableName : Bytes
deriving DecidableEq, Repr

def UpdateLogRecord.new (txnId : BitVec 64) (oldValue newValue : Bytes) (rid : RidBits) (tableName : Bytes) :
    UpdateLogRecord :=
  { LogRecordHdr.new typeUpdate with
    logTotLen := BitVec.ofNat 32
      (logHeaderSize + (4 + oldValue.length) + (4 + newValue.length) + 8 + (8 + tableName.length))
    logTid := txnId, oldValue := oldValue, newValue := newValue, rid := rid, tableName := tableName }

def UpdateLogRecord.serialize (r : UpdateLogRecord) : Bytes :=
  r.toLogRecordHdr.serialize ++ (valueBytes r.oldValue ++ (valueBytes r.newValue ++ rowEnd r.rid r.tableName))

def UpdateLogRecord.deserialize (src : Bytes) : UpdateLogRecord :=
  let offset := offsetLogData + 4 + readSize src offsetLogData
  let offset' := offset + (4 + readSize src offset)
  { LogRecordHdr.deserialize src with
    oldValue := readValue src offsetLogData
    newValue := readValue src offset
    rid := readRid src offset'
    tableName := readTableName src offset' }

/-! ## `wal_byte_diff` -/

/-- The first `i` in `lo ≤ i < hi` with `a[i] != b[i]`. -/
def firstDiff (a b : Bytes) (lo hi : Nat) : Option Nat :=
  (List.range' lo (hi - lo)).find? fun i => a.getD i 0 != b.getD i 0

/-- The loop that extends a range: a gap is taken in when the next 8 bytes have another difference. -/
def extendDiff (a b : Bytes) (n : Nat) : Nat → Nat → Nat
  | 0, stop => stop
  | fuel + 1, stop =>
      if n ≤ stop then stop
      else if a.getD stop 0 != b.getD stop 0 then extendDiff a b n fuel (stop + 1)
      else
        match firstDiff a b stop (min (stop + 8) n) with
        | none => stop
        | some look => extendDiff a b n fuel (look + 1)

/-- The outer loop, with `nr` ranges found so far; `none` is the result -1 (more than 8 ranges). -/
def diffFrom (a b : Bytes) (n : Nat) : Nat → Nat → Nat → Option (List (Nat × Nat))
  | 0, _, _ => some []
  | fuel + 1, i, nr =>
      match firstDiff a b i n with
      | none => some []
      | some start =>
          let stop := extendDiff a b n n (start + 1)
          if 8 ≤ nr then none
          else (diffFrom a b n fuel stop (nr + 1)).map fun rest => (start, stop - start) :: rest

/-- The ranges as starts and lengths; each turn of the loop passes a byte. -/
def walByteDiff (a b : Bytes) (n : Nat) : Option (List (Nat × Nat)) := diffFrom a b n (n + 1) 0 0

/-! ## `UPDATE_DELTA` -/

/-- `ranges_[i]`, `old_ptrs_[i]` and `new_ptrs_[i]`. -/
structure DeltaRange where
  off : BitVec 16
  len : BitVec 16
  old : Bytes
  new : Bytes
deriving DecidableEq, Repr

structure UpdateDeltaLogRecord extends LogRecordHdr where
  rid : RidBits
  tableName : Bytes
  ranges : List DeltaRange
deriving DecidableEq, Repr

def maxRanges : Nat := 8

/-- The bytes of one `WalDiffRange` of `uint16_t`s. -/
def cutRange (oldData newData : Bytes) (d : Nat × Nat) : DeltaRange :=
  let off := BitVec.ofNat 16 d.1
  let len := BitVec.ofNat 16 d.2
  { off := off, len := len, old := getBytes oldData off.toNat len.toNat, new := getBytes newData off.toNat len.toNat }

def deltaPayload (tableName : Bytes) (ranges : List DeltaRange) : Nat :=
  1 + tableName.length + 8 + 1 + (ranges.map fun rg => 4 + 2 * rg.len.toNat).sum

def fullPayload (tableName : Bytes) (recSize : Nat) : Nat := 2 * 4 + 2 * recSize + 8 + 8 + tableName.length

/-- The record has no ranges, and the length of a header, when it would not save a third. -/
def UpdateDeltaLogRecord.new (txnId : BitVec 64) (oldData newData : Bytes) (recSize : Nat) (rid : RidBits)
    (tableName : Bytes) : UpdateDeltaLogRecord :=
  let tableName := tableName.take 255
  let r : UpdateDeltaLogRecord :=
    { LogRecordHdr.new typeUpdateDelta with logTid := txnId, rid := rid, tableName := tableName, ranges := [] }
  match walByteDiff oldData newData recSize with
  | none => r
  | some [] => r
  | some (d :: ds) =>
      let ranges := (d :: ds).map (cutRange oldData newData)
      if fullPayload tableName recSize * 2 / 3 ≤ deltaPayload tableName ranges then r
      else { r with ranges := ranges, logTotLen := BitVec.ofNat 32 (logHeaderSize + deltaPayload tableName ranges) }

def UpdateDeltaLogRecord.useful (r : UpdateDeltaLogRecord) : Bool := decide (0 < r.ranges.length)

def halfBytes (w : BitVec 16) : Bytes := [⟨w.extractLsb' 0 8⟩, ⟨w.extractLsb' 8 8⟩]

def readHalf (src : Bytes) (offset : Nat) : BitVec 16 :=
  (src.getD (offset + 1) 0).toBitVec ++ (src.getD offset 0).toBitVec

def DeltaRange.serialize (rg : DeltaRange) : Bytes := halfBytes rg.off ++ (halfBytes rg.len ++ (rg.old ++ rg.new))

def UpdateDeltaLogRecord.serialize (r : UpdateDeltaLogRecord) : Bytes :=
  r.toLogRecordHdr.serialize ++ ([UInt8.ofNat r.tableName.length] ++ (r.tableName ++ (ridBitsBytes r.rid ++
    ([UInt8.ofNat r.ranges.length] ++ r.ranges.flatMap DeltaRange.serialize))))

/-- The loop over the ranges. -/
def readRanges (src : Bytes) : Nat → Nat → List DeltaRange
  | 0, _ => []
  | n + 1, offset =>
      let off := readHalf src offset
      let len := readHalf src (offset + 2)
      { off := off, len := len, old := getBytes src (offset + 4) len.toNat,
        new := getBytes src (offset + 4 + len.toNat) len.toNat } ::
        readRanges src n (offset + 4 + len.toNat + len.toNat)

def UpdateDeltaLogRecord.deserialize (src : Bytes) : UpdateDeltaLogRecord :=
  let tlen := (src.getD offsetLogData 0).toNat
  let offset := offsetLogData + 1 + tlen
  let nRanges := (src.getD (offset + 8) 0).toNat
  { LogRecordHdr.deserialize src with
    rid := readRid src offset
    tableName := getBytes src (offsetLogData + 1) tlen
    ranges := readRanges src nRanges (offset + 8 + 1) }

/-! ## Records of any kind -/

/-- `header`: `BeginLogRecord`, `CommitLogRecord`, `AbortLogRecord` and `CkptLogRecord`. -/
inductive WalRecord where
  | header (r : LogRecordHdr)
  | insert (r : InsertLogRecord)
  | delete (r : DeleteLogRecord)
  | update (r : UpdateLogRecord)
  | updateDelta (r : UpdateDeltaLogRecord)
deriving DecidableEq, Repr

inductive NewRecord where
  | begin (txnId : BitVec 64)
  | commit (txnId : BitVec 64)
  | abort (txnId : BitVec 64)
  | ckpt
  | insert (txnId : BitVec 64) (value : Bytes) (rid : RidBits) (tableName : Bytes)
  | delete (txnId : BitVec 64) (value : Bytes) (rid : RidBits) (tableName : Bytes)
  | update (txnId : BitVec 64) (old new : Bytes) (rid : RidBits) (tableName : Bytes)
  | updateDelta (txnId : BitVec 64) (old new : Bytes) (recSize : Nat) (rid : RidBits) (tableName : Bytes)
deriving DecidableEq, Repr

def NewRecord.make : NewRecord → WalRecord
  | .begin txnId => .header { LogRecordHdr.new typeBegin with logTid := txnId }
  | .commit txnId => .header { LogRecordHdr.new typeCommit with logTid := txnId }
  | .abort txnId => .header { LogRecordHdr.new typeAbort with logTid := txnId }
  | .ckpt => .header (LogRecordHdr.new typeCkpt)
  | .insert txnId value rid tableName => .insert (InsertLogRecord.new txnId value rid tableName)
  | .delete txnId value rid tableName => .delete (DeleteLogRecord.new txnId value rid tableName)
  | .update txnId old new rid tableName => .update (UpdateLogRecord.new txnId old new rid tableName)
  | .updateDelta txnId old new recSize rid tableName =>
      .updateDelta (UpdateDeltaLogRecord.new txnId old new recSize rid tableName)

namespace WalRecord

def hdr : WalRecord → LogRecordHdr
  | .header r => r
  | .insert r => r.toLogRecordHdr
  | .delete r => r.toLogRecordHdr
  | .update r => r.toLogRecordHdr
  | .updateDelta r => r.toLogRecordHdr

/-- The numbers that are set when the record is logged. -/
def stamp (lsn prevLsn : BitVec 32) : WalRecord → WalRecord
  | .header r => .header { r with lsn := lsn, prevLsn := prevLsn }
  | .insert r => .insert { r with lsn := lsn, prevLsn := prevLsn }
  | .delete r => .delete { r with lsn := lsn, prevLsn := prevLsn }
  | .update r => .update { r with lsn := lsn, prevLsn := prevLsn }
  | .updateDelta r => .updateDelta { r with lsn := lsn, prevLsn := prevLsn }

def serialize : WalRecord → Bytes
  | .header r => r.serialize
  | .insert r => r.serialize
  | .delete r => r.serialize
  | .update r => r.serialize
  | .updateDelta r => r.serialize

/-- The class is chosen by the type at the front, as the recovery does. -/
def deserialize (src : Bytes) : WalRecord :=
  let logType := getWord src 0
  if logType = typeInsert then .insert (InsertLogRecord.deserialize src)
  else if logType = typeDelete then .delete (DeleteLogRecord.deserialize src)
  else if logType = typeUpdate then .update (UpdateLogRecord.deserialize src)
  else if logType = typeUpdateDelta then .updateDelta (UpdateDeltaLogRecord.deserialize src)
  else .header (LogRecordHdr.deserialize src)

/-- As many bytes are written as `log_tot_len_` says, and whatever follows them, the record is
read back. -/
def RoundTrips (r : WalRecord) : Prop :=
  r.serialize.length = r.hdr.logTotLen.toNat ∧ ∀ rest, deserialize (r.serialize ++ rest) = r

end WalRecord

/-- What the callers of the constructors see to: the sizes fit the `int` that offsets are counted
in, the two images of an `UPDATE_DELTA` record have `rec_size` bytes, and it is `useful`. -/
def NewRecord.Loggable : NewRecord → Prop
  | .begin _ | .commit _ | .abort _ | .ckpt => True
  | .insert _ value _ tableName | .delete _ value _ tableName =>
      logHeaderSize + 4 + value.length + 8 + (8 + tableName.length) < 2 ^ 31
  | .update _ old new _ tableName =>
      logHeaderSize + (4 + old.length) + (4 + new.length) + 8 + (8 + tableName.length) < 2 ^ 31
  | .updateDelta txnId old new recSize rid tableName =>
      old.length = recSize ∧ new.length = recSize ∧
        fullPayload (tableName.take 255) recSize * 2 < 2 ^ 31 ∧
        (UpdateDeltaLogRecord.new txnId old new recSize rid tableName).useful = true

end Rmdb.Wal
