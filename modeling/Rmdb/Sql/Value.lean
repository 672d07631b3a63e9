import Rmdb.Query.Keys
import Rmdb.Txn.Words

/-!
# Values of statements

`Value` (src/common/common.h) and the comparison the aggregation uses, with the plain values
they stand for (`Datum`): integers instead of 32-bit words, text without the zeros behind it.
A field of a record is read as the datum of its type (`fieldDatum`), and for INT and CHAR
fields the datum tells their bytes apart (`fieldDatum_inj`).
-/

namespace Rmdb.Sql

open Rmdb.Txn
open Rmdb.Query (TabCol Cols findCol)

scoped instance lawfulBytes : LawfulBEq Bytes := inferInstance

/-! ## Values -/

inductive Value where
  | int (v : BitVec 32)
  | float (bits : BitVec 32)
  | str (s : Bytes)
deriving DecidableEq, Repr

namespace Value

def type : Value → ColType
  | int _ => .int
  | float _ => .float
  | str _ => .string

/-- `Value()`: all zero. -/
def empty : Value := int 0

end Value

/-- The enumerators of `ColType` in order. -/
def typeCode : ColType → Int
  | .int => 0
  | .float => 1
  | .string => 2

def compareFloats (a b : Float32) : Int := if a < b then -1 else if a > b then 1 else 0

/-- The sign of `a.compare(b)`. -/
def compareStrings (a b : Bytes) : Int := if a < b then -1 else if b < a then 1 else 0

def compareInts (a b : Int) : Int := if a < b then -1 else if a > b then 1 else 0

def compareValueByVal : Value → Value → Int
  | .int a, .int b => compareInts a.toInt b.toInt
  | .float a, .float b => compareFloats (Float32.ofBits ⟨a⟩) (Float32.ofBits ⟨b⟩)
  | .str a, .str b => compareStrings a b
  | .int a, .float b => compareFloats (Float32.ofInt a.toInt) (Float32.ofBits ⟨b⟩)
  | .float a, .int b => compareFloats (Float32.ofBits ⟨a⟩) (Float32.ofInt b.toInt)
  | a, b => typeCode a.type - typeCode b.type

def evaluateCondition (lhs rhs : Value) (op : CompOp) : Bool := op.holds (compareValueByVal lhs rhs)

/-! ## Data -/

inductive Datum where
  | int (v : Int)
  | float (bits : BitVec 32)
  | str (s : Bytes)
deriving DecidableEq, Repr

namespace Datum

def type : Datum → ColType
  | int _ => .int
  | float _ => .float
  | str _ => .string

/-- Integers by size, text by its bytes, an integer beside a float as a float, and otherwise
the type decides. -/
def compare : Datum → Datum → Int
  | int a, int b => compareInts a b
  | float a, float b => compareFloats (Float32.ofBits ⟨a⟩) (Float32.ofBits ⟨b⟩)
  | str a, str b => compareStrings a b
  | int a, float b => compareFloats (Float32.ofInt a) (Float32.ofBits ⟨b⟩)
  | float a, int b => compareFloats (Float32.ofBits ⟨a⟩) (Float32.ofInt b)
  | a, b => typeCode a.type - typeCode b.type

def lt (a b : Datum) : Bool := decide (compare a b < 0)

/-- What a slot nothing was written to shows. -/
def blank : ColType → Datum
  | .int => int 0
  | .float => float 0
  | .string => str []

end Datum

def Value.datum : Value → Datum
  | int v => .int v.toInt
  | float b => .float b
  | str s => .str s

theorem compareValueByVal_eq (a b : Value) : compareValueByVal a b = a.datum.compare b.datum := by
  cases a <;> cases b <;> rfl

theorem compareInts_lt (a b : Int) : compareInts a b < 0 ↔ a < b := by
  unfold compareInts
  by_cases h : a < b
  · simp [h]
  · rw [if_neg h]
    by_cases h' : a > b <;> simp [h, h']

theorem compareStrings_lt (a b : Bytes) : compareStrings a b < 0 ↔ a < b := by
  unfold compareStrings
  by_cases h : a < b
  · simp [h]
  · rw [if_neg h]
    by_cases h' : b < a <;> simp [h, h']

/-! ## Fields -/

/-- The bytes of a `char` field up to the first zero. -/
def text (b : Bytes) : Bytes := b.takeWhile (· ≠ 0)

/-- Text with zeros behind it. -/
def Padded (b : Bytes) : Prop := b = text b ++ List.replicate (b.length - (text b).length) 0

instance (b : Bytes) : Decidable (Padded b) := inferInstanceAs (Decidable (_ = _))

def fieldDatum (type : ColType) (b : Bytes) : Datum :=
  match type with
  | .int => .int (getWord b 0).toInt
  | .float => .float (getWord b 0)
  | .string => .str (text b)

/-- A field of `len` bytes as the storage layer keeps it. -/
structure FieldOk (type : ColType) (len : Nat) (b : Bytes) : Prop where
  length : b.length = len
  word : type ≠ .string → len = 4
  padded : type = .string → Padded b

theorem text_length_le (b : Bytes) : (text b).length ≤ b.length :=
  (List.takeWhile_prefix _).length_le

theorem text_of_pad {s : Bytes} (h : ∀ c ∈ s, c ≠ 0) (n : Nat) :
    text (s ++ List.replicate n 0) = s := by
  unfold text
  rw [List.takeWhile_append_of_pos (by simpa using h)]
  cases n with
  | zero => simp
  | succ n => simp [List.replicate_succ]

theorem text_ne_zero (b : Bytes) : ∀ c ∈ text b, c ≠ 0 := by
  intro c hc
  have h := List.mem_takeWhile_imp hc
  simpa using h

theorem padded_pad {s : Bytes} (h : ∀ c ∈ s, c ≠ 0) (n : Nat) : Padded (s ++ List.replicate n 0) := by
  unfold Padded
  rw [text_of_pad h, List.length_append, List.length_replicate, Nat.add_sub_cancel_left]

theorem padded_inj {a b : Bytes} (ha : Padded a) (hb : Padded b) (hlen : a.length = b.length)
    (h : text a = text b) : a = b := by
  rw [ha, hb, hlen, h]

theorem fieldDatum_inj {type : ColType} {len : Nat} {a b : Bytes} (ha : FieldOk type len a)
    (hb : FieldOk type len b) (h : fieldDatum type a = fieldDatum type b) : a = b := by
  have hlen : a.length = b.length := ha.length.trans hb.length.symm
  cases type with
  | int =>
      have h4 := ha.word (by simp)
      have hw : getWord a 0 = getWord b 0 := BitVec.eq_of_toInt_eq (by simpa [fieldDatum] using h)
      rw [← Query.wordBytes_getWord (ha.length.trans h4), hw, Query.wordBytes_getWord (hb.length.trans h4)]
  | float =>
      have h4 := ha.word (by simp)
      have hw : getWord a 0 = getWord b 0 := by simpa [fieldDatum] using h
      rw [← Query.wordBytes_getWord (ha.length.trans h4), hw, Query.wordBytes_getWord (hb.length.trans h4)]
  | string =>
      have ht : text a = text b := by simpa [fieldDatum] using h
      exact padded_inj (ha.padded rfl) (hb.padded rfl) hlen ht

/-- The column of a record. -/
def colBytes (c : ColMeta) (data : Bytes) : Bytes := getBytes data c.offset c.len

def colDatum (c : ColMeta) (data : Bytes) : Datum := fieldDatum c.type (colBytes c data)

/-- The records of an executor whose columns are `cols`. -/
def RecordOk (cols : Cols) (data : Bytes) : Prop :=
  ∀ e ∈ cols, FieldOk e.2.type e.2.len (colBytes e.2 data)

theorem mem_of_findCol {cols : Cols} {c : TabCol} {m : ColMeta} (h : findCol cols c = some m) :
    ∃ tab, (tab, m) ∈ cols := by
  obtain ⟨e, he, rfl⟩ := Option.map_eq_some_iff.1 h
  exact ⟨e.1, List.mem_of_find?_eq_some he⟩

theorem RecordOk.field {cols : Cols} {data : Bytes} (h : RecordOk cols data) {c : TabCol} {m : ColMeta}
    (hm : findCol cols c = some m) : FieldOk m.type m.len (colBytes m data) := by
  obtain ⟨tab, hmem⟩ := mem_of_findCol hm
  exact h _ hmem

theorem getWord_colBytes {m : ColMeta} (h : 4 ≤ m.len) (data : Bytes) :
    getWord (colBytes m data) 0 = getWord data m.offset := getWord_getBytes h

end Rmdb.Sql
