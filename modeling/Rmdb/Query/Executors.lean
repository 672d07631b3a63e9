import Rmdb.Query.Planner

/-!
# The executors of a plan

`SeqScanExecutor`, `IndexScanExecutor`, `NestedLoopJoinExecutor` and
`IndexNestedLoopJoinExecutor` (src/execution) as the lists of rows they return to a
transaction.  A joined row is the left row followed by the right one, and the columns of the
right side are shifted by the length of the left.
-/

namespace Rmdb.Query

open Rmdb.Index (Rid)
open Rmdb.Txn

inductive ExecError where
  | columnNotFound
  | indexNotFound
  | recordNotFound
  | assertFailed
  | unexpectedPlan
deriving DecidableEq, Repr

/-! ## Columns -/

/-- The columns of an executor with the tables they come from. -/
abbrev Cols := List (TabName × ColMeta)

def tabCols (m : TabMeta) (tab : TabName) : Cols := m.cols.map fun c => (tab, c)

def shiftCols (n : Nat) (cols : Cols) : Cols :=
  cols.map fun e => (e.1, { e.2 with offset := e.2.offset + n })

/-- `find_if` by name, and by table unless the column names none. -/
def findCol (cols : Cols) (c : TabCol) : Option ColMeta :=
  (cols.find? fun e => decide (e.2.name = c.colName) &&
    (decide (c.tabName = "") || decide (e.1 = c.tabName))).map Prod.snd

/-- `find_if` of the nested loop join, by table and name. -/
def findJoinCol (cols : Cols) (c : TabCol) : Option ColMeta :=
  (cols.find? fun e => decide (e.1 = c.tabName) && decide (e.2.name = c.colName)).map Prod.snd

/-! ## Sequential scan -/

/-- `compile_conds`: conditions on columns the scan does not have are skipped. -/
def compileConds (cols : Cols) (conds : List Condition) : List SerCompiledCond :=
  conds.filterMap fun c => do
    let col ← findCol cols c.lhsCol
    match c.rhsVal with
    | some v => some ⟨col.offset, col.len, col.type, c.op, some v, 0⟩
    | none =>
        let rcol ← findCol cols c.rhsCol
        some ⟨col.offset, col.len, col.type, c.op, none, rcol.offset⟩

def seqScan (db : Db) (t : TxnId) (tab : TabName) (conds : List Condition) : List (Rid × Bytes) :=
  (db.rmScan tab).filterMap fun rid =>
    ((db.readRow t ⟨tab, rid⟩).filter fun img =>
      serCompiledMatch img.bytes (compileConds (tabCols (db.tabs tab) tab) conds)).map
        fun img => (rid, img.bytes)

/-! ## Index scan -/

/-- The conditions as the constructor leaves them: the left side is on the scanned table. -/
def fedConds (tab : TabName) (conds : List Condition) : Except ExecError (List Condition) :=
  conds.mapM fun c =>
    if c.lhsCol.tabName = tab then .ok c
    else if c.rhsVal.isNone ∧ c.rhsCol.tabName = tab then .ok c.swap
    else .error .assertFailed

/-- The rest of the scan looks up columns by name only. -/
def Condition.bare (c : Condition) : Txn.Condition :=
  ⟨c.lhsCol.colName, c.op, c.rhsVal, c.rhsCol.colName, ""⟩

def getIndexMeta (m : TabMeta) (names : List String) : Except ExecError (List ColMeta) :=
  match m.indexes.find? fun ix => ix.map ColMeta.name = names with
  | some ix => .ok ix
  | none => .error .indexNotFound

def indexScan (db : Db) (t : TxnId) (tab : TabName) (conds : List Condition)
    (names : List String) : Except ExecError (List (Rid × Bytes)) := do
  let cols ← getIndexMeta (db.tabs tab) names
  let conds ← fedConds tab conds
  let conds := conds.map Condition.bare
  let es := Db.scanRange cols conds (db.index (Db.indexId tab cols))
  pure ((db.indexScanFrom t tab cols conds es).map fun e => (e.1, e.2.bytes))

def scanRows (db : Db) (t : TxnId) (s : ScanPlan) : Except ExecError (List (Rid × Bytes)) :=
  if s.tag = .indexScan then indexScan db t s.tabName s.conds s.indexColNames
  else .ok (seqScan db t s.tabName s.conds)

/-! ## Nested loop join -/

/-- A column of the pair of rows: its metadata and the bytes from it on. -/
def joinOperand (lcols rcols : Cols) (l r : Bytes) (c : TabCol) : Option (ColMeta × Bytes) :=
  match findJoinCol lcols c with
  | some col => some (col, l.drop col.offset)
  | none => (findJoinCol rcols c).map fun col => (col, r.drop col.offset)

def evalJoinCond (lcols rcols : Cols) (l r : Bytes) (c : Condition) : Bool :=
  match joinOperand lcols rcols l r c.lhsCol with
  | none => false
  | some (col, lhs) =>
      match c.rhsVal with
      | some v => serCmp lhs v col.len col.type c.op
      | none =>
          match joinOperand lcols rcols l r c.rhsCol with
          | none => false
          | some (_, rhs) => serCmp lhs rhs col.len col.type c.op

def evalJoinConds (lcols rcols : Cols) (conds : List Condition) (l r : Bytes) : Bool :=
  conds.all (evalJoinCond lcols rcols l r)

/-- Every left row with the right rows that match it, in the order of the right side. -/
def nestedLoopJoin (lcols rcols : Cols) (conds : List Condition) (ls rs : List Bytes) : List Bytes :=
  ls.flatMap fun l => (rs.filter (evalJoinConds lcols rcols conds l)).map fun r => l ++ r

/-! ## Index nested loop join -/

/-- The left column of the first equality with a column of the right table. -/
def joinKeyCol (tab : TabName) (name : String) : List Condition → Option TabCol
  | [] => none
  | c :: conds =>
      if c.op ≠ .eq ∨ c.rhsVal.isSome then joinKeyCol tab name conds
      else if c.lhsCol = ⟨tab, name⟩ then some c.rhsCol
      else if c.rhsCol = ⟨tab, name⟩ then some c.lhsCol
      else joinKeyCol tab name conds

/-- The literal of the first equality with a column of the right table. -/
def literalKey (tab : TabName) (name : String) (conds : List Condition) : Option Bytes :=
  (conds.find? fun c => decide (c.op = .eq) && c.rhsVal.isSome &&
    decide (c.lhsCol = ⟨tab, name⟩)).bind Condition.rhsVal

/-- The bytes `build_lookup_key` copies under an index column; `none` when no equality binds
it. -/
def keyPart (lcols : Cols) (tab : TabName) (rightConds joinConds : List Condition) (l : Bytes)
    (c : ColMeta) : Except ExecError (Option Bytes) :=
  match literalKey tab c.name rightConds with
  | some v => .ok (some (v.take c.len))
  | none =>
      match joinKeyCol tab c.name joinConds with
      | none => .ok none
      | some lcol =>
          match findCol lcols lcol with
          | none => .error .columnNotFound
          | some col => .ok (some (getBytes l col.offset c.len))

def buildLookupKey (lcols : Cols) (tab : TabName) (rightConds joinConds : List Condition)
    (l : Bytes) : List ColMeta → Except ExecError (Option Bytes)
  | [] => .ok (some [])
  | c :: cs => do
      match ← keyPart lcols tab rightConds joinConds l c with
      | none => pure none
      | some part =>
          match ← buildLookupKey lcols tab rightConds joinConds l cs with
          | none => pure none
          | some key => pure (some (part ++ key))

/-- `get_value`: the entry whose key compares equal. -/
def getValue (cols : List ColMeta) (es : IndexMap) (key : Bytes) : Option Rid :=
  (es.find? fun e => decide (ixCompare cols e.1 key = 0)).map Prod.snd

/-- `eval_cond` on the joined row. -/
def evalCond (cols : Cols) (data : Bytes) (c : Condition) : Bool :=
  match findCol cols c.lhsCol with
  | none => false
  | some col =>
      match c.rhsVal with
      | some v => serCmp (data.drop col.offset) v col.len col.type c.op
      | none =>
          match findCol cols c.rhsCol with
          | none => false
          | some rcol => serCmp (data.drop col.offset) (data.drop rcol.offset) col.len col.type c.op

/-- The rows of one probe. -/
def probeRight (db : Db) (t : TxnId) (lcols : Cols) (llen : Nat) (tab : TabName)
    (ix : List ColMeta) (rightConds joinConds : List Condition) (l : Bytes) :
    Except ExecError (List Bytes) := do
  match ← buildLookupKey lcols tab rightConds joinConds l ix with
  | none => pure []
  | some key =>
      match getValue ix (db.index (Db.indexId tab ix)) key with
      | none => pure []
      | some rid =>
          if !(db.rows ⟨tab, rid⟩).slot.isRecord then .error .recordNotFound
          else
            let cols := lcols ++ shiftCols llen (tabCols (db.tabs tab) tab)
            match db.readRow t ⟨tab, rid⟩ with
            | none => pure []
            | some img =>
                if (rightConds ++ joinConds).all (evalCond cols (l ++ img.bytes)) then
                  pure [l ++ img.bytes]
                else pure []

def indexNestedLoopJoin (db : Db) (t : TxnId) (lcols : Cols) (llen : Nat) (s : ScanPlan)
    (joinConds : List Condition) (ls : List Bytes) : Except ExecError (List Bytes) := do
  let ix ← getIndexMeta (db.tabs s.tabName) s.indexColNames
  let rows ← ls.mapM (probeRight db t lcols llen s.tabName ix s.conds joinConds)
  pure rows.flatten

/-! ## Plans -/

namespace Plan

def tupleLen (tabs : TabName → TabMeta) : Plan → Nat
  | .scan s => (tabs s.tabName).recordSize
  | .join _ left right _ => left.tupleLen tabs + right.tupleLen tabs

def cols (tabs : TabName → TabMeta) : Plan → Cols
  | .scan s => tabCols (tabs s.tabName) s.tabName
  | .join _ left right _ => left.cols tabs ++ shiftCols (left.tupleLen tabs) (right.cols tabs)

/-- The rows of a plan. -/
def exec (db : Db) (t : TxnId) : Plan → Except ExecError (List Bytes)
  | .scan s => (scanRows db t s).map fun rows => rows.map Prod.snd
  | .join tag left right conds => do
      let ls ← left.exec db t
      match tag, right with
      | .indexNestLoop, .scan s =>
          indexNestedLoopJoin db t (left.cols db.tabs) (left.tupleLen db.tabs) s conds ls
      | .indexNestLoop, .join .. => .error .unexpectedPlan
      | _, right => do
          let rs ← right.exec db t
          pure (nestedLoopJoin (left.cols db.tabs) (right.cols db.tabs) conds ls rs)

end Plan

end Rmdb.Query
