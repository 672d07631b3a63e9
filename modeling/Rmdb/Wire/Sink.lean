import Rmdb.Lib.BigEndian
import Rmdb.Sql.Value

/-!
# Result sinks

`WireResultSink` of src/common/context.h, which a query hands its columns, its rows and their number, and
`BufferSink` of src/rmdb.cpp, which keeps the cells of the rows for the reply to an EXEC_BATCH: its payload is the
rows it was handed, one after another (`bufferSink_calls`).
-/

namespace Rmdb.Wire

open Rmdb.Lib (bigEndianBytes)
open Rmdb.Txn (Bytes ColType)

/-- A cell has a type and its value. -/
abbrev WireCell := Sql.Value

/-- Names and types of the columns of a result. -/
abbrev OutCols := List (Bytes × ColType)

/-- `wire_put_cell`; `put_u32` takes the low four bytes of a number. -/
def wirePutCell : WireCell → Bytes
  | .int v => 1 :: bigEndianBytes 4 v.toNat
  | .float bits => 1 :: bigEndianBytes 4 bits.toNat
  | .str s => 1 :: (bigEndianBytes 4 s.length ++ s)

def rowPayload (cells : List WireCell) : Bytes := cells.flatMap wirePutCell

/-- A `WireResultSink` with states `ω`. -/
structure WireResultSink (ω : Type) where
  onMeta : OutCols → ω → ω
  onRow : List WireCell → ω → ω
  onEnd : Nat → ω → ω
  failed : ω → Bool

inductive SinkCall where
  | onMeta (cols : OutCols)
  | onRow (cells : List WireCell)
  | onEnd (rowCount : Nat)
deriving DecidableEq, Repr

def WireResultSink.call {ω : Type} (sink : WireResultSink ω) (w : ω) : SinkCall → ω
  | .onMeta cols => sink.onMeta cols w
  | .onRow cells => sink.onRow cells w
  | .onEnd rowCount => sink.onEnd rowCount w

structure BufferSink where
  payload : Bytes := []
  rowCount : Nat := 0
deriving DecidableEq, Repr

def bufferSink : WireResultSink BufferSink where
  onMeta _ w := w
  onRow cells w := ⟨w.payload ++ rowPayload cells, w.rowCount + 1⟩
  onEnd _ w := w
  failed _ := false

/-- The rows among the calls on a sink. -/
def handedRows : List SinkCall → List (List WireCell)
  | [] => []
  | .onRow cells :: calls => cells :: handedRows calls
  | _ :: calls => handedRows calls

theorem bufferSink_calls (calls : List SinkCall) (w : BufferSink) : calls.foldl bufferSink.call w =
    ⟨w.payload ++ (handedRows calls).flatMap rowPayload, w.rowCount + (handedRows calls).length⟩ := by
  induction calls generalizing w with
  | nil => rw [handedRows, List.flatMap_nil, List.append_nil]; rfl
  | cons call calls ih =>
      rw [List.foldl_cons, ih]
      cases call with
      | onMeta cols => rfl
      | onRow cells =>
          show (⟨w.payload ++ rowPayload cells ++ _, w.rowCount + 1 + _⟩ : BufferSink) = _
          rw [handedRows, List.flatMap_cons, List.append_assoc, List.length_cons, Nat.add_assoc, Nat.add_comm 1]
      | onEnd rowCount => rfl

/-- Every cell has its present byte. -/
theorem length_le_rowPayload (cells : List WireCell) : cells.length ≤ (rowPayload cells).length := by
  induction cells with
  | nil => exact le_rfl
  | cons c cells ih =>
      have hcell : 1 ≤ (wirePutCell c).length := by
        cases c <;> exact Nat.succ_le_succ (Nat.zero_le _)
      have hcons : rowPayload (c :: cells) = wirePutCell c ++ rowPayload cells := rfl
      rw [hcons, List.length_append, List.length_cons]
      omega

end Rmdb.Wire
