import Rmdb.Sql.Value

/-!
# INSERT

From the value lists of src/parser/yacc.y over `do_analyze` to the rows of `InsertExecutor`.  The tuples of
a statement without a column list arrive as one list of values.  What the executor does with a
record is a parameter; a value position that does not exist is an error of its own (`overrun`).
`InsertSyntax.rows` says what a statement asks for: the records of its tuples, if the values fit.
-/

namespace Rmdb.Sql

open Rmdb.Txn

/-! ## Statements -/

/-- `ast::Value`. -/
inductive SvValue where
  | int (val : BitVec 32)
  | float (val : BitVec 32)
  | str (val : Bytes)
  | bool (val : Bool)
deriving DecidableEq, Repr

/-- What the grammar accepts behind the name of the table. -/
inductive InsertSyntax where
  | values (tuples : List (List SvValue))
  | columns (cols : List String) (tuple : List SvValue)
deriving DecidableEq, Repr

namespace InsertSyntax

def tuples : InsertSyntax → List (List SvValue)
  | values tuples => tuples
  | columns _ tuple => [tuple]

/-- The lists of the grammar have an element. -/
structure Ok (x : InsertSyntax) : Prop where
  tuples : x.tuples ≠ []
  tuple : ∀ t ∈ x.tuples, t ≠ []
  cols : ∀ cols t, x = columns cols t → cols ≠ []

end InsertSyntax

structure InsertStmt where
  cols : List String := []
  vals : List SvValue
deriving DecidableEq, Repr

/-- The actions of the grammar. -/
def InsertSyntax.stmt : InsertSyntax → InsertStmt
  | values tuples => { vals := tuples.flatten }
  | columns cols tuple => { cols, vals := tuple }

/-! ## Analysis -/

inductive InsertError where
  | internal (msg : String)
  | invalidValueCount
  | columnNotFound (name : String)
  | incompatibleType (lhs rhs : ColType)
  | stringOverflow
  | overrun
deriving DecidableEq, Repr

def convertSvValue : SvValue → Except InsertError Value
  | .int v => .ok (.int v)
  | .float v => .ok (.float v)
  | .str s => .ok (.str s)
  | .bool _ => .error (.internal "Unexpected sv value type")

/-- An integer for a FLOAT column. -/
def Value.promote (type : ColType) : Value → Value
  | .int v => if type = .float then .float (Float32.ofInt v.toInt).toBits.toBitVec else .int v
  | v => v

/-- The values in the order of the table's columns. -/
def rawVals (cols : List ColMeta) (x : InsertStmt) : Except InsertError (List Value) :=
  if x.cols = [] then x.vals.mapM convertSvValue
  else if x.cols.length ≠ x.vals.length then .error .invalidValueCount
  else cols.mapM fun col =>
    match x.cols.idxOf? col.name with
    | none => .error (.columnNotFound col.name)
    | some k =>
      match x.vals[k]? with
      | none => .error .overrun
      | some v => convertSvValue v

/-- The loop over the columns, with what is left of the values. -/
def checkVals : List ColMeta → List Value → Except InsertError (List Value)
  | [], _ => .ok []
  | _ :: _, [] => .error .overrun
  | col :: cols, v :: vs =>
    if col.type ≠ (v.promote col.type).type then .error (.incompatibleType col.type (v.promote col.type).type)
    else (checkVals cols vs).map (v.promote col.type :: ·)

def analyzeInsert (tab : TabMeta) (x : InsertStmt) : Except InsertError (List Value) :=
  (rawVals tab.cols x).bind (checkVals tab.cols)

/-! ## The executor -/

/-- `init_raw`. -/
def initRaw (v : Value) (len : Nat) : Except InsertError Bytes :=
  match v with
  | .int v => .ok (wordBytes v)
  | .float v => .ok (wordBytes v)
  | .str s => if len < s.length then .error .stringOverflow else .ok (s ++ List.replicate (len - s.length) 0)

/-- The record of a row of values. -/
def insertRecord : List (ColMeta × Value) → Bytes → Except InsertError Bytes
  | [], rec => .ok rec
  | (col, v) :: ps, rec =>
    if col.type ≠ v.type then .error (.incompatibleType col.type v.type)
    else (initRaw v col.len).bind fun raw => insertRecord ps (putBytes rec col.offset (raw.take col.len))

/-- What becomes of a record: its key is taken, or the transaction has to abort. -/
inductive RowResult where
  | inserted
  | failure
  | aborted
deriving DecidableEq, Repr

inductive InsertResult where
  | done
  | failure
  | aborted
  | error (e : InsertError)
deriving DecidableEq, Repr

section

variable {σ : Type} (insertRow : σ → Bytes → σ × RowResult)

/-- The rows of `Next`. -/
def nextRows (tab : TabMeta) : Nat → List Value → σ → σ × InsertResult
  | 0, _, s => (s, .done)
  | n + 1, values, s =>
    match insertRecord (tab.cols.zip values) (List.replicate tab.recordSize 0) with
    | .error e => (s, .error e)
    | .ok rec =>
      match insertRow s rec with
      | (s, .inserted) => nextRows tab n (values.drop tab.cols.length) s
      | (s, .failure) => (s, .failure)
      | (s, .aborted) => (s, .aborted)

def execInsert (tab : TabMeta) (values : List Value) (s : σ) : σ × InsertResult :=
  if tab.cols = [] ∨ values.length % tab.cols.length ≠ 0 then (s, .error .invalidValueCount)
  else nextRows insertRow tab (values.length / tab.cols.length) values s

def runInsert (tab : TabMeta) (x : InsertStmt) (s : σ) : σ × InsertResult :=
  match analyzeInsert tab x with
  | .error e => (s, .error e)
  | .ok values => execInsert insertRow tab values s

end

/-! ## What a statement asks for -/

/-- The field of a value that fits a column. -/
def fieldOf (col : ColMeta) (v : SvValue) : Option Bytes :=
  match col.type, v with
  | .int, .int v => some (wordBytes v)
  | .float, .float v => some (wordBytes v)
  | .float, .int v => some (wordBytes (Float32.ofInt v.toInt).toBits.toBitVec)
  | .string, .str s => if s.length ≤ col.len then some (s ++ List.replicate (col.len - s.length) 0) else none
  | _, _ => none

/-- The record of a tuple with a value that fits for each column. -/
def rowOf : List ColMeta → List SvValue → Option Bytes
  | [], [] => some []
  | col :: cols, v :: vs => (fieldOf col v).bind fun field => (rowOf cols vs).map (field ++ ·)
  | _, _ => none

/-- The value listed for a column. -/
def listed (names : List String) (tuple : List SvValue) (col : ColMeta) : Option SvValue :=
  (names.idxOf? col.name).bind fun k => tuple[k]?

/-- The records of a statement whose tuples all have a value that fits for each column. -/
def InsertSyntax.rows (cols : List ColMeta) : InsertSyntax → Option (List Bytes)
  | values tuples => tuples.mapM (rowOf cols)
  | columns names tuple =>
    if names.length = tuple.length ∧ tuple.length = cols.length then
      ((cols.mapM (listed names tuple)).bind (rowOf cols)).map fun row => [row]
    else none

/-- Every record is taken. -/
def Takes {σ : Type} (insertRow : σ → Bytes → σ × RowResult) : Prop := ∀ s row, (insertRow s row).2 = .inserted

/-- The records of fitting tuples are inserted in order, and a statement with a tuple of another length is refused
with an error: nothing is inserted, and no value is read that does not exist. -/
structure ArityOk (tab : TabMeta) (x : InsertSyntax) : Prop where
  inserts : ∀ rows, x.rows tab.cols = some rows → ∀ {σ : Type} (insertRow : σ → Bytes → σ × RowResult) (s : σ),
    Takes insertRow → runInsert insertRow tab x.stmt s = (rows.foldl (fun s row => (insertRow s row).1) s, .done)
  refuses : (∃ t ∈ x.tuples, t.length ≠ tab.cols.length) → ∀ {σ : Type} (insertRow : σ → Bytes → σ × RowResult) (s : σ),
    ∃ e, runInsert insertRow tab x.stmt s = (s, .error e) ∧ e ≠ .overrun

/-! ## When the code does it -/

/-- The value is of a type that the column takes. -/
def typeFits (col : ColMeta) (v : SvValue) : Prop :=
  match col.type, v with
  | .int, .int _ => True
  | .float, .float _ => True
  | .float, .int _ => True
  | .string, .str _ => True
  | _, _ => False

/-- With `m` columns: one tuple, or a value that does not fit; if some tuple is of another length, a BOOL value
anywhere or a value among the first `m` that does not fit, by its type where there are fewer than `m`
values.  With a column list: `m` values, or as many names as values do not stand there, a column is
missing, or the value listed for one does not fit. -/
def InsertSyntax.Checked (cols : List ColMeta) : InsertSyntax → Prop
  | values tuples =>
    if ∀ t ∈ tuples, t.length = cols.length then tuples.length = 1 ∨ ∃ t ∈ tuples, rowOf cols t = none
    else (∃ b, .bool b ∈ tuples.flatten) ∨
      if cols.length ≤ tuples.flatten.length then rowOf cols (tuples.flatten.take cols.length) = none
      else ∃ p ∈ cols.zip tuples.flatten, ¬typeFits p.1 p.2
  | columns names tuple =>
    tuple.length = cols.length ∨ names.length ≠ tuple.length ∨ (cols.mapM (listed names tuple)).bind (rowOf cols) = none

/-- The columns of CREATE TABLE: one at least, and words for numbers. -/
structure Created (tab : TabMeta) : Prop where
  nonempty : tab.cols ≠ []
  words : ∀ c ∈ tab.cols, c.type ≠ .string → c.len = 4

end Rmdb.Sql
