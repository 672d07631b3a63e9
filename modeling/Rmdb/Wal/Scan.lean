import Rmdb.Wal.Frame

/-!
# The log scan of recovery

`ensure_bytes`, `read_one`, `read_batch` and the loops of `analyze` and `redo`
(src/recovery/log_recovery.cpp) over `DiskManager::read_log`.  Offsets are `long`, sizes
handed to the disk manager are cut to `int`.  An outer `none` is an assertion that fails or
an exception.  The loops return the records they hand out, in order.

Below 2 GiB the rolling buffer is invisible: `read_one` and `read_batch` are functions of
the file (`oneAt`, `batchAt`).
-/

namespace Rmdb.Wal

open Rmdb.Txn

/-- Conversion to `int`. -/
def toInt32 (x : Int) : Int := x.bmod (2 ^ 32)

/-- `get_file_size`, an `int`. -/
def getFileSize (file : Bytes) : Int := toInt32 file.length

/-- `DiskManager::read_log`: the number of bytes read and the bytes. -/
def readLog (file : Bytes) (size offset : Int) : Option (Int × Bytes) :=
  if offset > getFileSize file then some (-1, [])
  else
    let size := min size (getFileSize file - offset)
    if size = 0 then some (0, [])
    -- `lseek` or `read` fails, and with it the assertion on the bytes read
    else if offset < 0 ∨ size < 0 ∨ offset + size > file.length then none
    else some (size, getBytes file offset.toNat size.toNat)

/-- The members of `RecoveryManager` that the scan uses. -/
structure Scanner where
  rdbuf : Bytes := []
  rdbufStart : Int := 0
  rdbufLen : Int := 0
  logEnd : Int

/-- The `need` bytes at `offset` of the file, from the buffer. -/
def Scanner.bytesAt (s : Scanner) (offset need : Int) : Bytes :=
  getBytes s.rdbuf (offset - s.rdbufStart).toNat need.toNat

/-- `ensure_bytes`; an inner `none` is `nullptr`. -/
def ensureBytes (file : Bytes) (s : Scanner) (offset need : Int) : Option (Scanner × Option Bytes) :=
  -- as a `size_t` it is too large for `resize`
  if need < 0 then none
  else if offset < s.rdbufStart ∨ offset + need > s.rdbufStart + s.rdbufLen then
    let cap := max (max s.rdbuf.length (2 ^ 20)) need.toNat
    let s := { s with rdbuf := s.rdbuf ++ List.replicate (cap - s.rdbuf.length) 0 }
    let take := min (s.logEnd - offset) s.rdbuf.length
    if take < need then some (s, none)
    else
      (readLog file (toInt32 take) (toInt32 offset)).bind fun (n, bytes) =>
        let s := { s with
          rdbuf := bytes ++ s.rdbuf.drop bytes.length
          rdbufStart := offset
          rdbufLen := n }
        if n < need then some (s, none) else some (s, some (s.bytesAt offset need))
  else some (s, some (s.bytesAt offset need))

/-- `read_one`: the bytes of the record, `none` for the return value 0. -/
def readOne (file : Bytes) (s : Scanner) (offset : Int) : Option (Scanner × Option Bytes) :=
  if offset + logHeaderSize > s.logEnd then some (s, none)
  else
    (ensureBytes file s offset logHeaderSize).bind fun (s, hdr) =>
      match hdr with
      | none => some (s, none)
      | some hdr =>
          let tot := (getWord hdr offsetLogTotLen).toNat
          if tot < logHeaderSize ∨ offset + tot > s.logEnd then some (s, none)
          else ensureBytes file s offset (toInt32 tot)

/-- `read_batch`: the span, `body_off` and `body_len`; `none` for the return value 0. -/
def readBatch (file : Bytes) (s : Scanner) (offset : Int) :
    Option (Scanner × Option (Int × Int × Nat)) :=
  if offset + walBatchHdrSize > s.logEnd then some (s, none)
  else
    (ensureBytes file s offset walBatchHdrSize).bind fun (s, hdr) =>
      match hdr with
      | none => some (s, none)
      | some hdr =>
          let blen := (getWord hdr 4).toNat
          if getWord hdr 0 ≠ walBatchMagic ∨ blen = 0 then some (s, none)
          else if offset + walBatchHdrSize + blen > s.logEnd then some (s, none)
          else
            (ensureBytes file s (offset + walBatchHdrSize) (toInt32 blen)).bind fun (s, body) =>
              match body with
              | none => some (s, none)
              | some body =>
                  if walCrc32 body ≠ getWord hdr 8 then some (s, none)
                  else
                    some (s, some (toInt32 (walBatchHdrSize + toInt32 blen),
                      offset + walBatchHdrSize, blen))

/-- The records from `pos` on, one after another; also the position behind them. -/
def scanRecords (file : Bytes) : Nat → Scanner → Int → Option (Scanner × Int × List Bytes)
  | 0, s, pos => some (s, pos, [])
  | fuel + 1, s, pos =>
      (readOne file s pos).bind fun (s, rec?) =>
        match rec? with
        | none => some (s, pos, [])
        | some r =>
            (scanRecords file fuel s (pos + r.length)).bind fun (s, pos, rs) => some (s, pos, r :: rs)

/-- The records of one batch, with `log_end_` set to the end of its body for the time being. -/
def scanBody (file : Bytes) (s : Scanner) (bodyOff : Int) (bodyLen : Nat) :
    Option (Scanner × List Bytes) :=
  (scanRecords file (bodyLen + 1) { s with logEnd := bodyOff + bodyLen } bodyOff).bind
    fun (s', _, rs) => some ({ s' with logEnd := s.logEnd }, rs)

/-- The batches from `pos` on; `redo` only looks at positions before `bound`. -/
def scanBatches (file : Bytes) (bound : Option Int) :
    Nat → Scanner → Int → Option (Scanner × Int × List Bytes)
  | 0, s, pos => some (s, pos, [])
  | fuel + 1, s, pos =>
      if bound.any fun e => decide (e ≤ pos) then some (s, pos, [])
      else
        (readBatch file s pos).bind fun (s, batch) =>
          match batch with
          | none => some (s, pos, [])
          | some (span, bodyOff, bodyLen) =>
              if span ≤ 0 then some (s, pos, [])
              else
                (scanBody file s bodyOff bodyLen).bind fun (s, rs) =>
                  (scanBatches file bound fuel s (pos + span)).bind fun (s, pos, rest) =>
                    some (s, pos, rs ++ rest)

/-- What `analyze` leaves, and the records it handed to `handle_rec`. -/
structure Analyzed where
  scanner : Scanner
  startOffset : Int
  useBatch : Bool
  visited : List Bytes

/-- Where the scan starts: the number in db.restart, if it has one that is in the log. -/
def startOffset (restart : Option Int) (logEnd : Int) : Int :=
  match restart with
  | some off => if 0 ≤ off ∧ off ≤ logEnd then off else 0
  | none => 0

/-- Is there the header of a batch at `start`? -/
def probe (file : Bytes) (s : Scanner) (start : Int) : Option (Scanner × Bool) :=
  if start + walBatchHdrSize ≤ s.logEnd then
    (ensureBytes file s start walBatchHdrSize).map fun (s, peek) =>
      (s, peek.any fun hdr => decide (getWord hdr 0 = walBatchMagic))
  else some (s, false)

def scanFrom (file : Bytes) (s : Scanner) (start : Int) : Option Analyzed :=
  (probe file s start).bind fun (s, useBatch) =>
    let fuel := (s.logEnd - start).toNat + 1
    let scan := if useBatch then scanBatches file none fuel s start
      else scanRecords file fuel s start
    scan.map fun (s, pos, visited) => ⟨{ s with logEnd := pos }, start, useBatch, visited⟩

/-- The scan of `analyze`; `restart` is the number in db.restart. -/
def analyzeScan (file : Option Bytes) (restart : Option Int) : Option Analyzed :=
  match file with
  | none => some ⟨{ logEnd := 0 }, 0, false, []⟩
  | some file =>
      let logEnd := getFileSize file
      scanFrom file { logEnd := logEnd } (startOffset restart logEnd)

/-- The scan of `redo`, after `analyze`: the records it hands to `redo_one`. -/
def redoScan (file : Bytes) (a : Analyzed) : Option (Scanner × List Bytes) :=
  let s := a.scanner
  let fuel := (s.logEnd - a.startOffset).toNat + 1
  if a.useBatch then
    (scanBatches file (some s.logEnd) fuel s a.startOffset).map fun (s, _, rs) => (s, rs)
  else if a.startOffset < s.logEnd then
    (scanRecords file fuel s a.startOffset).map fun (s, _, rs) => (s, rs)
  else some (s, [])

/-! ## The rolling buffer -/

/-- The buffer holds the bytes of the file that it says it holds. -/
structure Scanner.Ok (file : Bytes) (s : Scanner) : Prop where
  start : 0 ≤ s.rdbufStart
  len : 0 ≤ s.rdbufLen
  bytes : s.rdbuf.take s.rdbufLen.toNat = getBytes file s.rdbufStart.toNat s.rdbufLen.toNat

theorem Scanner.ok_fresh (file : Bytes) (logEnd : Int) : Scanner.Ok file { logEnd := logEnd } where
  start := Int.le_refl 0
  len := Int.le_refl 0
  bytes := by simp [getBytes]

variable {file : Bytes} {s : Scanner} {lim pos : Nat}

theorem toInt32_eq {x : Int} (h1 : -2 ^ 31 ≤ x) (h2 : x < 2 ^ 31) : toInt32 x = x := by
  apply Int.bmod_eq_of_le
  · omega
  · omega

theorem toInt32_of_lt {n : Nat} (h : n < 2 ^ 31) : toInt32 n = n :=
  toInt32_eq (by omega) (by omega)

theorem getFileSize_eq (h : file.length < 2 ^ 31) : getFileSize file = file.length := toInt32_of_lt h

theorem Scanner.Ok.bytesAt (hs : s.Ok file) {off need : Nat} (hstart : s.rdbufStart ≤ off)
    (hlen : (off + need : Int) ≤ s.rdbufStart + s.rdbufLen) :
    s.bytesAt off need = getBytes file off need := by
  have hs1 := hs.start
  have hs2 := hs.len
  have hin : ((off : Int) - s.rdbufStart).toNat + need ≤ s.rdbufLen.toNat := by omega
  calc s.bytesAt off need
      = getBytes (s.rdbuf.take s.rdbufLen.toNat) ((off : Int) - s.rdbufStart).toNat need := by
        unfold Scanner.bytesAt getBytes
        rw [List.drop_take, List.take_take]
        congr 1
        omega
    _ = getBytes file (s.rdbufStart.toNat + ((off : Int) - s.rdbufStart).toNat) need := by
        rw [hs.bytes, getBytes_getBytes hin]
    _ = getBytes file off need := by
        congr 1
        omega

theorem readLog_eq (hfile : file.length < 2 ^ 31) {size off : Nat} (h : off + size ≤ file.length) :
    readLog file size off = some ((size : Int), getBytes file off size) := by
  unfold readLog
  rw [getFileSize_eq hfile, if_neg (by omega)]
  have hmin : min (size : Int) ((file.length : Int) - off) = size := by omega
  simp only [hmin]
  split
  · rename_i h0
    have hz : size = 0 := by omega
    subst hz
    rfl
  · rw [if_neg (by omega)]
    rfl

/-- What `ensure_bytes` gives inside `log_end_`: the bytes of the file. -/
theorem ensureBytes_eq (hs : s.Ok file) (hfile : file.length < 2 ^ 31) (hend : s.logEnd ≤ file.length)
    (off need : Nat) (h : (off + need : Int) ≤ s.logEnd) :
    ∃ s', ensureBytes file s off need = some (s', some (getBytes file off need)) ∧ s'.Ok file ∧
      s'.logEnd = s.logEnd := by
  unfold ensureBytes
  rw [if_neg (by omega)]
  split
  · -- a refill
    dsimp only
    generalize hbuf : s.rdbuf ++
      List.replicate (max (max s.rdbuf.length (2 ^ 20)) (need : Int).toNat - s.rdbuf.length) 0 = buf
    have hcap : need ≤ buf.length := by
      rw [← hbuf, List.length_append, List.length_replicate]
      omega
    obtain ⟨size, hsize⟩ : ∃ size : Nat, min (s.logEnd - off) (buf.length : Int) = size :=
      Int.eq_ofNat_of_zero_le (by omega)
    have hfits : off + size ≤ file.length := by omega
    rw [hsize, if_neg (by omega), toInt32_of_lt (by omega), toInt32_of_lt (by omega),
      readLog_eq hfile hfits, Option.bind_some]
    dsimp only
    rw [if_neg (by omega)]
    have hlen := getBytes_length hfits
    have hok : Scanner.Ok file { s with
        rdbuf := getBytes file off size ++ buf.drop (getBytes file off size).length
        rdbufStart := off
        rdbufLen := size } := by
      refine ⟨by dsimp only; omega, by dsimp only; omega, ?_⟩
      dsimp only
      rw [Int.toNat_natCast, Int.toNat_natCast, List.take_append_of_le_length (by omega),
        List.take_of_length_le (by omega)]
    refine ⟨_, ?_, hok, rfl⟩
    rw [hok.bytesAt (by dsimp only; omega) (by dsimp only; omega)]
  · rename_i hhit
    rw [not_or, not_lt, not_lt] at hhit
    exact ⟨s, by rw [hs.bytesAt hhit.1 hhit.2], hs, rfl⟩

/-! ## Records and batches as functions of the file -/

/-- The record at `pos`, when it ends before `lim`. -/
def oneAt (file : Bytes) (lim pos : Nat) : Option Bytes :=
  if pos + logHeaderSize > lim then none
  else
    let tot := (getWord file (pos + offsetLogTotLen)).toNat
    if tot < logHeaderSize ∨ pos + tot > lim then none else some (getBytes file pos tot)

/-- The length of the body of the batch at `pos`, when it is complete. -/
def batchAt (file : Bytes) (lim pos : Nat) : Option Nat :=
  if pos + walBatchHdrSize > lim then none
  else
    let blen := (getWord file (pos + 4)).toNat
    if getWord file pos ≠ walBatchMagic ∨ blen = 0 then none
    else if pos + walBatchHdrSize + blen > lim then none
    else if walCrc32 (getBytes file (pos + walBatchHdrSize) blen) ≠ getWord file (pos + 8) then none
    else some blen

theorem readOne_eq (hs : s.Ok file) (hfile : file.length < 2 ^ 31) (hlim : s.logEnd = lim)
    (hend : lim ≤ file.length) (pos : Nat) :
    ∃ s', readOne file s pos = some (s', oneAt file lim pos) ∧ s'.Ok file ∧ s'.logEnd = lim := by
  unfold readOne oneAt
  rw [hlim]
  by_cases h : pos + logHeaderSize > lim
  · rw [if_pos h, if_pos (by omega)]
    exact ⟨s, rfl, hs, hlim⟩
  rw [if_neg h, if_neg (by omega)]
  obtain ⟨s1, h1, hs1, hl1⟩ := ensureBytes_eq hs hfile (by omega) pos logHeaderSize (by omega)
  rw [h1, Option.bind_some]
  dsimp only
  rw [getWord_getBytes (by decide), hl1, hlim]
  generalize (getWord file (pos + offsetLogTotLen)).toNat = tot
  by_cases htot : tot < logHeaderSize ∨ pos + tot > lim
  · rw [if_pos htot, if_pos (by omega)]
    exact ⟨s1, rfl, hs1, hl1.trans hlim⟩
  · rw [if_neg htot, if_neg (by omega), toInt32_of_lt (by omega)]
    obtain ⟨s2, h2, hs2, hl2⟩ := ensureBytes_eq hs1 hfile (by omega) pos tot (by omega)
    exact ⟨s2, h2, hs2, by omega⟩

theorem readBatch_eq (hs : s.Ok file) (hfile : file.length < 2 ^ 31) (hlim : s.logEnd = lim)
    (hend : lim ≤ file.length) (pos : Nat) :
    ∃ s', readBatch file s pos = some (s', (batchAt file lim pos).map fun blen =>
        (((walBatchHdrSize + blen : Nat) : Int), ((pos + walBatchHdrSize : Nat) : Int), blen)) ∧
      s'.Ok file ∧ s'.logEnd = lim := by
  unfold readBatch batchAt
  rw [hlim]
  by_cases h : pos + walBatchHdrSize > lim
  · rw [if_pos h, if_pos (by omega)]
    exact ⟨s, rfl, hs, hlim⟩
  rw [if_neg h, if_neg (by omega)]
  obtain ⟨s1, h1, hs1, hl1⟩ := ensureBytes_eq hs hfile (by omega) pos walBatchHdrSize (by omega)
  rw [h1, Option.bind_some]
  dsimp only
  rw [getWord_getBytes (by decide), getWord_getBytes (by decide), getWord_getBytes (by decide), hl1,
    hlim, Nat.add_zero]
  generalize (getWord file (pos + 4)).toNat = blen
  by_cases hmagic : getWord file pos ≠ walBatchMagic ∨ blen = 0
  · rw [if_pos hmagic, if_pos hmagic]
    exact ⟨s1, rfl, hs1, hl1.trans hlim⟩
  rw [if_neg hmagic, if_neg hmagic]
  by_cases hfits : pos + walBatchHdrSize + blen > lim
  · rw [if_pos hfits, if_pos (by omega)]
    exact ⟨s1, rfl, hs1, hl1.trans hlim⟩
  rw [if_neg hfits, if_neg (by omega), toInt32_of_lt (by omega)]
  obtain ⟨s2, h2, hs2, hl2⟩ := ensureBytes_eq hs1 hfile (by omega) (pos + walBatchHdrSize) blen
    (by omega)
  rw [Nat.cast_add] at h2
  rw [h2, Option.bind_some]
  dsimp only
  by_cases hcrc : walCrc32 (getBytes file (pos + walBatchHdrSize) blen) ≠ getWord file (pos + 8)
  · rw [if_pos hcrc, if_pos hcrc]
    exact ⟨s2, rfl, hs2, by omega⟩
  · rw [if_neg hcrc, if_neg hcrc]
    refine ⟨s2, ?_, hs2, by omega⟩
    have hspan : toInt32 (walBatchHdrSize + (blen : Int)) = ((walBatchHdrSize + blen : Nat) : Int) := by
      rw [← Nat.cast_add, toInt32_of_lt (by omega)]
    rw [hspan, Option.map_some, Nat.cast_add pos]

end Rmdb.Wal
