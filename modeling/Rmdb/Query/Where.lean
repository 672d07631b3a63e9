import Rmdb.Query.Joins
import Rmdb.Sql.Insert

/-!
# The analysis of WHERE

`get_clause`, `check_clause` and the constant propagation of `do_analyze` (src/analyze/analyze.cpp).  A literal is
the raw buffer `init_raw` makes for the column beside it, and a derived condition has the buffer of another column.
Scans and joins compare in the records themselves: as many bytes as the column on the left has, behind the offset of
either column.
-/

namespace Rmdb.Query

open Rmdb.Txn
open Rmdb.Sql (SvValue Value InsertError convertSvValue initRaw)

/-! ## Statements -/

/-- `ast::BinaryExpr`, a column beside a value or another column. -/
structure Comparison (α : Type) where
  lhs : TabCol
  op : CompOp
  rhs : α ⊕ TabCol
deriving DecidableEq, Repr

inductive WhereError where
  | tableNotFound (name : TabName)
  | columnNotFound (name : String)
  | ambiguousColumn (name : String)
  | incompatibleType (lhs rhs : ColType)
  | value (e : InsertError)
deriving DecidableEq, Repr

def getClause (conds : List (Comparison SvValue)) : Except WhereError (List (Comparison Value)) :=
  conds.mapM fun c =>
    match c.rhs with
    | .inl v => ((convertSvValue v).mapError .value).map fun v => ⟨c.lhs, c.op, .inl v⟩
    | .inr rhs => .ok ⟨c.lhs, c.op, .inr rhs⟩

section

variable (tabs : TabName → Option TabMeta) (alias2real : TabName → Option TabName)

def realTab (c : TabCol) : TabCol :=
  if c.tabName = "" then c else { c with tabName := (alias2real c.tabName).getD c.tabName }

def realTabs {α : Type} (c : Comparison α) : Comparison α :=
  { c with lhs := realTab alias2real c.lhs, rhs := c.rhs.map id (realTab alias2real) }

/-! ## Names and types -/

def getTable (name : TabName) : Except WhereError TabMeta :=
  match tabs name with
  | some m => .ok m
  | none => .error (.tableNotFound name)

def getAllCols : List TabName → Except WhereError Cols
  | [] => .ok []
  | tab :: tables => do
    let m ← getTable tabs tab
    let cols ← getAllCols tables
    .ok (tabCols m tab ++ cols)

/-- The loop of `check_column`, with the table found so far. -/
def findTab (name : String) : Cols → TabName → Except WhereError TabName
  | [], tab => if tab = "" then .error (.columnNotFound name) else .ok tab
  | e :: cols, tab =>
    if e.2.name = name then
      if tab ≠ "" then .error (.ambiguousColumn name) else findTab name cols e.1
    else findTab name cols tab

def checkColumn (allCols : Cols) (target : TabCol) : Except WhereError TabCol :=
  if target.tabName = "" then
    (findTab target.colName allCols "").map fun tab => { target with tabName := tab }
  else .ok target

/-- `get_col` of the table of a column. -/
def getCol (c : TabCol) : Except WhereError ColMeta :=
  (getTable tabs c.tabName).bind fun m =>
    match m.findCol c.colName with
    | some col => .ok col
    | none => .error (.columnNotFound c.colName)

def checkCond (allCols : Cols) (c : Comparison Value) : Except WhereError Condition :=
  (checkColumn allCols c.lhs).bind fun lhsCol =>
    match c.rhs with
    | .inl v =>
      (getCol tabs lhsCol).bind fun lhs =>
        ((initRaw (v.promote lhs.type) lhs.len).mapError .value).bind fun raw =>
          if lhs.type ≠ (v.promote lhs.type).type then .error (.incompatibleType lhs.type (v.promote lhs.type).type)
          else .ok { lhsCol, op := c.op, rhsVal := some raw }
    | .inr rhs =>
      (checkColumn allCols rhs).bind fun rhsCol =>
        (getCol tabs lhsCol).bind fun lhs =>
          (getCol tabs rhsCol).bind fun rhs =>
            if lhs.type ≠ rhs.type then .error (.incompatibleType lhs.type rhs.type)
            else .ok { lhsCol, op := c.op, rhsVal := none, rhsCol }

def checkClause (tables : List TabName) (conds : List (Comparison Value)) : Except WhereError (List Condition) :=
  (getAllCols tabs tables).bind fun allCols => conds.mapM (checkCond tabs allCols)

/-- The conditions of a clause before the propagation. -/
def whereConds (tables : List TabName) (clause : List (Comparison SvValue)) : Except WhereError (List Condition) :=
  (getClause clause).bind fun conds => checkClause tabs tables (conds.map (realTabs alias2real))

end

/-! ## Constant propagation -/

/-- `column = column`. -/
def isLink (j : Condition) : Bool := decide (j.op = .eq) && j.rhsVal.isNone

/-- `column = constant`. -/
def isBound (cc : Condition) : Bool := decide (cc.op = .eq) && cc.rhsVal.isSome

/-- `dst`, the column on the other side of the link. -/
def dstOf (j cc : Condition) : Option TabCol :=
  if cc.lhsCol = j.lhsCol then some j.rhsCol
  else if cc.lhsCol = j.rhsCol then some j.lhsCol
  else none

/-- `exists`. -/
def alreadyBound (conds derived : List Condition) (dst : TabCol) : Bool :=
  (conds.any fun e => isBound e && decide (e.lhsCol = dst)) || derived.any fun e => decide (e.lhsCol = dst)

/-- The condition one turn of the inner loop adds. -/
def derive (conds derived : List Condition) (j cc : Condition) : Option Condition :=
  if isLink j && isBound cc then
    match dstOf j cc with
    | none => none
    | some dst => if alreadyBound conds derived dst then none else some { lhsCol := dst, op := .eq, rhsVal := cc.rhsVal }
  else none

/-- `derived` after one pass. -/
def pass (conds : List Condition) : List Condition :=
  conds.foldl (fun derived j =>
    conds.foldl (fun derived cc => derived ++ (derive conds derived j cc).toList) derived) []

/-- At most `n` passes, the last of them without a change. -/
def propagate : Nat → List Condition → List Condition
  | 0, conds => conds
  | n + 1, conds => if pass conds = [] then conds else propagate n (conds ++ pass conds)

/-- `query->conds`. -/
def analyzeWhere (tabs : TabName → Option TabMeta) (alias2real : TabName → Option TabName) (tables : List TabName)
    (isExplain : Bool) (clause : List (Comparison SvValue)) : Except WhereError (List Condition) :=
  (whereConds tabs alias2real tables clause).map fun conds => if isExplain then conds else propagate 3 conds

/-! ## The rows of a clause -/

/-- The row chosen for a table, its first occurrence. -/
def tabRow : List TabName → List Bytes → TabName → Option Bytes
  | tab :: tables, b :: row, name => if tab = name then some b else tabRow tables row name
  | _, _, _ => none

section

variable (tabs : TabName → Option TabMeta) (tables : List TabName)

def colOf (c : TabCol) : Option ColMeta := (tabs c.tabName).bind fun m => m.findCol c.colName

/-- A column and the record from there on. -/
def operand (row : List Bytes) (c : TabCol) : Option (ColMeta × Bytes) :=
  (tabRow tables row c.tabName).bind fun b => (colOf tabs c).map fun col => (col, b.drop col.offset)

/-- Does the choice of records pass the condition?  No node of a plan has a condition on a table that is not in
the query. -/
def passes (row : List Bytes) (c : Condition) : Bool :=
  match operand tabs tables row c.lhsCol with
  | none => true
  | some (col, lhs) =>
    match c.rhsVal with
    | some v => serCmp lhs v col.len col.type c.op
    | none =>
      match operand tabs tables row c.rhsCol with
      | none => true
      | some (_, rhs) => serCmp lhs rhs col.len col.type c.op

/-- Every choice of one record of each table. -/
def choices (store : TabName → List Bytes) : List TabName → List (List Bytes)
  | [] => [[]]
  | tab :: tables => (store tab).flatMap fun b => (choices store tables).map fun row => b :: row

/-- The rows of a clause, each condition evaluated with one of its sides on the left. -/
def resultRows (side : Condition → Condition) (store : TabName → List Bytes) (conds : List Condition) :
    List (List Bytes) :=
  (choices store tables).filter fun row => conds.all fun c => passes tabs tables row (side c)

/-- The planner may exchange the columns of a condition, and never moves a literal. -/
def Sides (side : Condition → Condition) : Prop := ∀ c, side c = c ∨ (c.rhsVal = none ∧ side c = c.swap)

/-- The records of a table have the size of its columns. -/
def Sized (store : TabName → List Bytes) : Prop :=
  ∀ tab m, tabs tab = some m → ∀ b ∈ store tab, b.length = m.recordSize

def colLen (c : TabCol) : Nat := ((colOf tabs c).map ColMeta.len).getD 0

/-- The comparison stays in the buffer of the literal. -/
def InBuffer (c : Condition) : Prop := ∀ v, c.rhsVal = some v → colLen tabs c.lhsCol ≤ v.length

/-- The conditions behind `conds` change no result and are read in their buffers. -/
structure Preserves (conds conds' : List Condition) : Prop where
  rows : ∀ side, Sides side → ∀ store, Sized tabs store →
    resultRows tabs tables side store conds' = resultRows tabs tables side store conds
  inBuffer : ∀ d ∈ conds'.drop conds.length, InBuffer tabs d

end

end Rmdb.Query
