import Rmdb.Txn.Manager
import Rmdb.Txn.Words

/-!
# Log records and batches as bytes

`LogRecord::serialize` of each kind of record (src/recovery/log_manager.h), the checksum
`wal_crc32` (src/recovery/log_defs.h) and the batch frame that `flush_worker` writes.
Integers are little endian.
-/

namespace Rmdb.Wal

open Rmdb.Txn
open Rmdb.Index (Rid)

/-! ## Sizes and offsets -/

def offsetLsn : Nat := 4
def offsetLogTotLen : Nat := 8
def offsetLogTid : Nat := 12
/-- `log_tid_` is an `int64_t`. -/
def offsetPrevLsn : Nat := 20
def offsetLogData : Nat := 24
def logHeaderSize : Nat := 24
def walBatchHdrSize : Nat := 12
def walBatchMagic : BitVec 32 := 0x574C4247

/-! ## `wal_crc32` -/

/-- One of the eight rounds that fill the table. -/
def crcRound (c : BitVec 32) : BitVec 32 :=
  if c &&& 1 = 1 then 0xEDB88320 ^^^ (c >>> 1) else c >>> 1

def crcTable (i : BitVec 32) : BitVec 32 := crcRound^[8] i

def walCrc32 (data : Bytes) : BitVec 32 :=
  (data.foldl (fun crc b => crcTable ((crc ^^^ b.toBitVec.zeroExtend 32) &&& 0xFF) ^^^ (crc >>> 8))
    0xFFFFFFFF) ^^^ 0xFFFFFFFF

-- the check value of the IEEE polynomial
example : walCrc32 [0x31, 0x32, 0x33, 0x34, 0x35, 0x36, 0x37, 0x38, 0x39] = 0xCBF43926 := by
  decide +kernel

/-! ## Records -/

/-- A record with the numbers of its header: its own lsn and `prev_lsn_`. -/
structure Entry where
  lsn : Int
  prevLsn : Int
  record : LogRecord
deriving DecidableEq, Repr

def logType : LogRecord → Nat
  | .update _ _ _ _ => 0
  | .insert _ _ _ => 1
  | .delete _ _ _ => 2
  | .begin _ => 3
  | .commit _ => 4
  | .abort _ => 5
  | .ckpt => 6
  | .updateDelta _ _ _ => 7

/-- `log_tid_`; a `CKPT` record has `INVALID_TXN_ID`. -/
def logTid : LogRecord → Int
  | .update t _ _ _ | .insert t _ _ | .delete t _ _ | .begin t | .commit t | .abort t
  | .updateDelta t _ _ => t
  | .ckpt => -1

def nameBytes (tab : TabName) : Bytes := tab.toUTF8.data.toList

/-- An `UPDATE_DELTA` record keeps at most 255 bytes of the name. -/
def shortName (tab : TabName) : Bytes := (nameBytes tab).take 255

def u16Bytes (n : Nat) : Bytes := [UInt8.ofNat n, UInt8.ofNat (n / 256)]
def u32Bytes (n : Nat) : Bytes := wordBytes (BitVec.ofNat 32 n)
def i32Bytes (n : Int) : Bytes := wordBytes (BitVec.ofInt 32 n)
def u64Bytes (n : Nat) : Bytes := u32Bytes n ++ u32Bytes (n / 2 ^ 32)

/-- The eight bytes of an `int64_t`: the low word comes first. -/
def longBytes (w : BitVec 64) : Bytes := wordBytes (w.extractLsb' 0 32) ++ wordBytes (w.extractLsb' 32 32)

/-- `*(const int64_t *)(src + off)`. -/
def getLong (src : Bytes) (off : Nat) : BitVec 64 := getWord src (off + 4) ++ getWord src off

def i64Bytes (n : Int) : Bytes := longBytes (BitVec.ofInt 64 n)

def ridBytes (rid : Rid) : Bytes := i32Bytes rid.pageNo ++ i32Bytes rid.slotNo

/-- `RmRecord`: its size and its bytes. -/
def valueBytes (value : Bytes) : Bytes := u32Bytes value.length ++ value

/-- The row of a record: `Rid`, the size of the name and the name. -/
def rowBytes (r : RowId) : Bytes :=
  ridBytes r.rid ++ u64Bytes (nameBytes r.tab).length ++ nameBytes r.tab

def rangeBytes (rg : Nat × Bytes × Bytes) : Bytes :=
  u16Bytes rg.1 ++ u16Bytes rg.2.1.length ++ rg.2.1 ++ rg.2.2

def payload : LogRecord → Bytes
  | .insert _ r value => valueBytes value ++ rowBytes r
  | .delete _ r value => valueBytes value ++ rowBytes r
  | .update _ r old new => valueBytes old ++ valueBytes new ++ rowBytes r
  | .updateDelta _ r ranges =>
      [UInt8.ofNat (shortName r.tab).length] ++ shortName r.tab ++ ridBytes r.rid ++
        [UInt8.ofNat ranges.length] ++ ranges.flatMap rangeBytes
  | .begin _ | .commit _ | .abort _ | .ckpt => []

/-- `log_tot_len_` as the constructors add it up. -/
def logTotLen : LogRecord → Nat
  | .insert _ r value => logHeaderSize + 4 + value.length + 8 + (8 + (nameBytes r.tab).length)
  | .delete _ r value => logHeaderSize + (4 + value.length + 8) + (8 + (nameBytes r.tab).length)
  | .update _ r old new =>
      logHeaderSize + (4 + old.length) + (4 + new.length) + 8 + (8 + (nameBytes r.tab).length)
  | .updateDelta _ r ranges =>
      logHeaderSize + (1 + (shortName r.tab).length + 8 + 1 +
        (ranges.map fun rg => 4 + rg.2.1.length + rg.2.2.length).sum)
  | .begin _ | .commit _ | .abort _ | .ckpt => logHeaderSize

def Entry.serialize (e : Entry) : Bytes :=
  u32Bytes (logType e.record) ++ i32Bytes e.lsn ++ u32Bytes (logTotLen e.record) ++
    i64Bytes (logTid e.record) ++ i32Bytes e.prevLsn ++ payload e.record

/-! ## Batches -/

/-- The buffer that is swapped out: the records one after another. -/
def batchBody (es : List Entry) : Bytes := es.flatMap Entry.serialize

/-- A batch in the file: magic, length and checksum of the body, then the body. -/
def frame (body : Bytes) : Bytes :=
  wordBytes walBatchMagic ++ u32Bytes body.length ++ wordBytes (walCrc32 body) ++ body

/-! ## Lengths -/

@[simp] theorem wordBytes_length (w : BitVec 32) : (wordBytes w).length = 4 := rfl
@[simp] theorem u32Bytes_length (n : Nat) : (u32Bytes n).length = 4 := rfl
@[simp] theorem i32Bytes_length (n : Int) : (i32Bytes n).length = 4 := rfl
@[simp] theorem longBytes_length (w : BitVec 64) : (longBytes w).length = 8 := rfl
@[simp] theorem i64Bytes_length (n : Int) : (i64Bytes n).length = 8 := rfl

theorem ranges_length (ranges : List (Nat × Bytes × Bytes)) : (ranges.flatMap rangeBytes).length =
    (ranges.map fun rg => 4 + rg.2.1.length + rg.2.2.length).sum := by
  rw [List.length_flatMap]
  congr 2
  funext rg
  simp only [rangeBytes, u16Bytes, List.length_append, List.length_cons, List.length_nil]

theorem payload_length (l : LogRecord) : logHeaderSize + (payload l).length = logTotLen l := by
  cases l with
  | begin | commit | abort | ckpt => rfl
  | insert t r value =>
      simp only [payload, logTotLen, valueBytes, rowBytes, ridBytes, u64Bytes, List.length_append,
        u32Bytes_length, i32Bytes_length]
      omega
  | delete t r value =>
      simp only [payload, logTotLen, valueBytes, rowBytes, ridBytes, u64Bytes, List.length_append,
        u32Bytes_length, i32Bytes_length]
      omega
  | update t r old new =>
      simp only [payload, logTotLen, valueBytes, rowBytes, ridBytes, u64Bytes, List.length_append,
        u32Bytes_length, i32Bytes_length]
      omega
  | updateDelta t r ranges =>
      simp only [payload, logTotLen, ridBytes, List.length_append, i32Bytes_length, ranges_length,
        List.length_singleton]

/-- A record is as long as its header says. -/
theorem serialize_length (e : Entry) : e.serialize.length = logTotLen e.record := by
  have h := payload_length e.record
  simp only [logHeaderSize] at h
  simp only [Entry.serialize, List.length_append, u32Bytes_length, i32Bytes_length, i64Bytes_length]
  omega

theorem logTotLen_ge (l : LogRecord) : logHeaderSize ≤ logTotLen l := by
  have h := payload_length l
  omega

/-- The two words of an `int64_t` make it up again. -/
theorem getLong_longBytes (w : BitVec 64) (b : Bytes) : getLong (longBytes w ++ b) 0 = w := by
  have hlo : getWord (longBytes w ++ b) 0 = w.extractLsb' 0 32 := by
    rw [longBytes, List.append_assoc]
    exact getWord_wordBytes _ _
  have hhi : getWord (longBytes w ++ b) (0 + 4) = w.extractLsb' 32 32 := by
    have h4 : (wordBytes (w.extractLsb' 0 32)).length = 0 + 4 := rfl
    rw [longBytes, List.append_assoc, ← Nat.add_zero (0 + 4), getWord_append_right h4]
    exact getWord_wordBytes _ _
  rw [getLong, hlo, hhi]
  apply BitVec.eq_of_getLsbD_eq
  intro i hi
  simp only [BitVec.getLsbD_append, BitVec.getLsbD_extractLsb']
  by_cases h : i < 32
  · simp [h]
  · rw [if_neg h, decide_eq_true (by omega : i - 32 < 32), Bool.true_and]
    congr 1
    omega

theorem getLong_drop (b : Bytes) (off k : Nat) : getLong (b.drop off) k = getLong b (off + k) := by
  rw [getLong, getLong, getWord_drop, getWord_drop, Nat.add_assoc]

theorem frame_length (body : Bytes) : (frame body).length = walBatchHdrSize + body.length := by
  simp only [frame, walBatchHdrSize, List.length_append, wordBytes_length, u32Bytes_length]

end Rmdb.Wal
