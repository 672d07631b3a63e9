import Rmdb.Txn.Manager

/-!
# Update records of the write-ahead log

`wal_byte_diff` and the choice of `UpdateExecutor` between an `UPDATE_DELTA` record, which
holds the changed byte ranges, and a full `UPDATE` record.
-/

namespace Rmdb.Txn

/-- The first position in `[i, i + len)` where the bytes differ. -/
def firstDiff (a b : Bytes) (i len : Nat) : Option Nat :=
  (List.range' i len).find? fun j => decide (a.getD j 0 ≠ b.getD j 0)

/-- The end of the range that reaches `e`: gaps of up to 8 equal bytes are part of it. -/
def rangeEnd (a b : Bytes) (n : Nat) : Nat → Nat → Nat
  | 0, e => e
  | fuel + 1, e =>
      if e < n then
        match firstDiff a b e (min (e + 8) n - e) with
        | none => e
        | some look => rangeEnd a b n fuel (look + 1)
      else e

/-- The ranges from position `i` on, as offset and length. -/
def diffRanges (a b : Bytes) (n : Nat) : Nat → Nat → List (Nat × Nat)
  | 0, _ => []
  | fuel + 1, i =>
      match firstDiff a b i (n - i) with
      | none => []
      | some start =>
          let e := rangeEnd a b n n (start + 1)
          (start, e - start) :: diffRanges a b n fuel e

/-- `wal_byte_diff`; `none` for more than 8 ranges. -/
def walByteDiff (a b : Bytes) (n : Nat) : Option (List (Nat × Nat)) :=
  let rs := diffRanges a b n n 0
  if rs.length > 8 then none else some rs

/-- The ranges of an `UpdateDeltaLogRecord`, or `none` when it is not `useful()`. -/
def updateDelta (tab : TabName) (old new : Bytes) (recSize : Nat) :
    Option (List (Nat × Bytes × Bytes)) :=
  match walByteDiff old new recSize with
  | none => none
  | some rs =>
      let nameSize := min tab.utf8ByteSize 255
      let deltaPayload := 1 + nameSize + 8 + 1 + (rs.map fun p => 4 + 2 * p.2).sum
      let fullPayload := 2 * 4 + 2 * recSize + 8 + 8 + nameSize
      if rs = [] ∨ deltaPayload ≥ fullPayload * 2 / 3 then none
      else some (rs.map fun p => (p.1, getBytes old p.1 p.2, getBytes new p.1 p.2))

/-- The log record of an update. -/
def updateLog (t : TxnId) (r : RowId) (old new : Bytes) (recSize : Nat) : LogRecord :=
  match updateDelta r.tab old new recSize with
  | some ranges => .updateDelta t r ranges
  | none => .update t r old new

end Rmdb.Txn
