import Rmdb.Exec.Select

/-!
# Join plans

`make_join_plan` of src/optimizer/planner.cpp: a scan is joined through an index whose columns are bound by
equalities, as many from the front as any index has, and by nested loops where there is none.  Conditions name the
tables of their columns here, as the analyser leaves them; the columns of a scan without index are
`index_col_names_` all the same.
-/

namespace Rmdb.Query

open Rmdb.Txn

structure TabCol where
  tabName : TabName
  colName : String
deriving DecidableEq, Repr

/-- `rhsVal` is the literal, or `none` when the right side is the column `rhsCol`. -/
structure Condition where
  lhsCol : TabCol
  op : CompOp
  rhsVal : Option Bytes
  rhsCol : TabCol := ⟨"", ""⟩
deriving DecidableEq, Repr

/-- `swap_op`. -/
def swapOp : CompOp → CompOp
  | .eq => .eq
  | .ne => .ne
  | .lt => .gt
  | .gt => .lt
  | .le => .ge
  | .ge => .le

/-- The condition with its sides exchanged. -/
def Condition.swap (c : Condition) : Condition :=
  { c with lhsCol := c.rhsCol, rhsCol := c.lhsCol, op := swapOp c.op }

inductive PlanTag where
  | seqScan
  | indexScan
  | nestLoop
  | indexNestLoop
deriving DecidableEq, Repr

structure ScanPlan where
  tag : PlanTag
  tabName : TabName
  conds : List Condition
  indexColNames : List String
deriving DecidableEq, Repr

inductive Plan where
  | scan (s : ScanPlan)
  | join (tag : PlanTag) (left right : Plan) (conds : List Condition)
deriving DecidableEq, Repr

/-! ## The choice of an index -/

/-- Does a condition compare the column with a literal under one of `ops`? -/
def hasLit (conds : List Condition) (tab : TabName) (col : String) (ops : List CompOp) : Bool :=
  conds.any fun c => c.rhsVal.isSome && decide (c.lhsCol = ⟨tab, col⟩) && decide (c.op ∈ ops)

/-- The first index with the longest match, if any column matches. -/
def bestIndex (len : List ColMeta → Nat) (indexes : List (List ColMeta)) : Option (List ColMeta) :=
  (indexes.foldl (fun best ix => if best.1 < len ix then (len ix, some ix) else best) (0, none)).2

/-- `is_join_eq_on_col`. -/
def isJoinEqOnCol (conds : List Condition) (tab : TabName) (col : String) : Bool :=
  conds.any fun c => decide (c.op = .eq) && c.rhsVal.isNone &&
    (decide (c.lhsCol = ⟨tab, col⟩) || decide (c.rhsCol = ⟨tab, col⟩))

def joinMatchLen (scanConds joinConds : List Condition) (tab : TabName) (ix : List ColMeta) : Nat :=
  (ix.takeWhile fun c =>
    hasLit scanConds tab c.name [.eq] || isJoinEqOnCol joinConds tab c.name).length

def getJoinIndexCols (m : TabMeta) (tab : TabName) (scanConds joinConds : List Condition) :
    Option (List String) :=
  match bestIndex (joinMatchLen scanConds joinConds tab) m.indexes with
  | none => none
  | some ix =>
      if ix.any fun c => isJoinEqOnCol joinConds tab c.name then some (ix.map ColMeta.name) else none

def makeJoinPlan (tabs : TabName → TabMeta) (left right : Plan) (joinConds : List Condition) : Plan :=
  match right with
  | .scan s =>
      match getJoinIndexCols (tabs s.tabName) s.tabName s.conds joinConds with
      | some cols =>
          .join .indexNestLoop left (.scan { s with tag := .indexScan, indexColNames := cols }) joinConds
      | none => .join .nestLoop left right joinConds
  | .join .. => .join .nestLoop left right joinConds

end Rmdb.Query
