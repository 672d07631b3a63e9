import Rmdb.Lib.Grammar
import Rmdb.Parser.Lexer
import Rmdb.Sql.Aggregate
import Rmdb.Sql.Insert

/-!
# The grammar

The syntax trees of src/parser/ast.h, and the rules of src/parser/yacc.y with their actions, one relation for
each nonterminal.  `Parses` is what `yyparse` accepts: the action behind the semicolon ends it, so what follows
is never read.  `atof` gives the bits of the `float`.
-/

namespace Rmdb.Parser

open Rmdb.Lib (Nonterminal ListOf)
open Rmdb.Txn (Bytes CompOp fneg)
open Rmdb.Sql (SvValue AggType)

/-! ## Syntax trees -/

structure Col where
  tabName : Bytes
  colName : Bytes
deriving DecidableEq, Repr

structure AggExpr where
  aggType : AggType
  col : Option Col
  aliasName : Bytes
  isStar : Bool := false
  distinct : Bool := false
deriving DecidableEq, Repr

inductive Expr where
  | value (v : SvValue)
  | col (c : Col)
deriving DecidableEq, Repr

structure BinaryExpr where
  lhs : Col
  op : CompOp
  rhs : Expr
deriving DecidableEq, Repr

structure SetClause where
  colName : Bytes
  val : SvValue
  isArith : Bool := false
  rhsCol : Bytes := []
  arithNeg : Bool := false
deriving DecidableEq, Repr

inductive OrderByDir where
  | default
  | asc
  | desc
deriving DecidableEq, Repr

structure OrderBy where
  cols : Col
  orderbyDir : OrderByDir
deriving DecidableEq, Repr

structure TableListInfo where
  tabs : List Bytes
  joinConds : List BinaryExpr := []

structure SelectStmt where
  cols : List Col
  aggs : List AggExpr
  tabs : List Bytes
  conds : List BinaryExpr
  groupByCols : List Col := []
  havingConds : List BinaryExpr := []
  orders : List OrderBy := []
  hasLimit : Bool := false
  limitCount : BitVec 32 := 0
deriving DecidableEq, Repr

inductive SvType where
  | int
  | float
  | string
deriving DecidableEq, Repr

structure TypeLen where
  type : SvType
  len : BitVec 32
deriving DecidableEq, Repr

structure ColDef where
  colName : Bytes
  typeLen : TypeLen
deriving DecidableEq, Repr

inductive SetKnobType where
  | enableNestLoop
  | enableSortMerge
deriving DecidableEq, Repr

inductive TreeNode where
  | help
  | showTables
  | showIndex (tabName : Bytes)
  | txnBegin
  | txnCommit
  | txnAbort
  | txnRollback
  | createTable (tabName : Bytes) (fields : List ColDef)
  | dropTable (tabName : Bytes)
  | descTable (tabName : Bytes)
  | createIndex (tabName : Bytes) (colNames : List Bytes)
  | dropIndex (tabName : Bytes) (colNames : List Bytes)
  | insertStmt (tabName : Bytes) (vals : List SvValue) (cols : List Bytes)
  | deleteStmt (tabName : Bytes) (conds : List BinaryExpr)
  | updateStmt (tabName : Bytes) (setClauses : List SetClause) (conds : List BinaryExpr)
  | selectStmt (select : SelectStmt)
  | explainStmt (select : SelectStmt) (analyze : Bool)
  | unionStmt (selects : List SelectStmt) (aliasName : Bytes) (orders : List OrderBy) (hasLimit : Bool) (limitCount : BitVec 32)
  | setStmt (setKnobType : SetKnobType) (boolVal : Bool)
deriving DecidableEq, Repr

/-! ## Rules -/

abbrev Toks := List Token

def kw (word : String) : Token := .keyword (bytesOf word)

def op (text : String) : Token := .op (bytesOf text)

section
variable (atof : Bytes → BitVec 32)

/-- `tbName: IDENTIFIER` and `colName: IDENTIFIER`. -/
inductive Name : Nonterminal Token Bytes where
  | identifier (w : Bytes) (r : Toks) : Name (.identifier w :: r) w r

inductive ValueRule : Nonterminal Token SvValue where
  | int (v : BitVec 32) (r : Toks) : ValueRule (.int v :: r) (.int v) r
  | float (text : Bytes) (r : Toks) : ValueRule (.float text :: r) (.float (atof text)) r
  | string (s : Bytes) (r : Toks) : ValueRule (.string s :: r) (.str s) r
  | bool (b : Bool) (r : Toks) : ValueRule (.bool b :: r) (.bool b) r

inductive ColRule : Nonterminal Token Col where
  | qualified {s t r : Toks} {tab col : Bytes} (htab : Name s tab (op "." :: t)) (hcol : Name t col r) :
      ColRule s ⟨tab, col⟩ r
  | plain {s r : Toks} {col : Bytes} (hcol : Name s col r) : ColRule s ⟨[], col⟩ r

inductive OpRule : Nonterminal Token CompOp where
  | eq (r : Toks) : OpRule (op "=" :: r) .eq r
  | lt (r : Toks) : OpRule (op "<" :: r) .lt r
  | gt (r : Toks) : OpRule (op ">" :: r) .gt r
  | ne (r : Toks) : OpRule (op "<>" :: r) .ne r
  | le (r : Toks) : OpRule (op "<=" :: r) .le r
  | ge (r : Toks) : OpRule (op ">=" :: r) .ge r

inductive ExprRule : Nonterminal Token Expr where
  | value {s r : Toks} {v : SvValue} (h : ValueRule atof s v r) : ExprRule s (.value v) r
  | col {s r : Toks} {c : Col} (h : ColRule s c r) : ExprRule s (.col c) r

inductive Condition : Nonterminal Token BinaryExpr where
  | mk {s t u r : Toks} {lhs : Col} {o : CompOp} {rhs : Expr} (hlhs : ColRule s lhs t) (hop : OpRule t o u)
      (hrhs : ExprRule atof u rhs r) : Condition s ⟨lhs, o, rhs⟩ r

abbrev WhereClause : Nonterminal Token (List BinaryExpr) := ListOf (Condition atof) (kw "AND")

/-- The empty rule has no value of its own; in a statement without `UNION` nothing has had conditions at that
place of the stack. -/
inductive OptWhereClause : Nonterminal Token (List BinaryExpr) where
  | empty (s : Toks) : OptWhereClause s [] s
  | conds {s r : Toks} {conds : List BinaryExpr} (h : WhereClause atof s conds r) : OptWhereClause (kw "WHERE" :: s) conds r

abbrev ColList : Nonterminal Token (List Col) := ListOf ColRule (op ",")

inductive OptAlias : Nonterminal Token Bytes where
  | empty (s : Toks) : OptAlias s [] s
  | named (w : Bytes) (r : Toks) : OptAlias (kw "AS" :: .identifier w :: r) w r
  | identifier (w : Bytes) (r : Toks) : OptAlias (.identifier w :: r) w r

/-- The keyword of a function. -/
def aggName : AggType → Token
  | .count => kw "COUNT"
  | .max => kw "MAX"
  | .min => kw "MIN"
  | .sum => kw "SUM"
  | .avg => kw "AVG"

inductive AggFunc : Nonterminal Token AggExpr where
  | countStar {s r : Toks} {aliasName : Bytes} (h : OptAlias s aliasName r) :
      AggFunc (kw "COUNT" :: op "(" :: op "*" :: op ")" :: s) ⟨.count, none, aliasName, true, false⟩ r
  | of (f : AggType) {s t r : Toks} {c : Col} {aliasName : Bytes} (hcol : ColRule s c (op ")" :: t)) (h : OptAlias t aliasName r) :
      AggFunc (aggName f :: op "(" :: s) ⟨f, some c, aliasName, false, false⟩ r
  | distinct {s t r : Toks} {c : Col} {aliasName : Bytes} (hcol : ColRule s c (op ")" :: t)) (h : OptAlias t aliasName r) :
      AggFunc (kw "COUNT" :: op "(" :: kw "DISTINCT" :: s) ⟨.count, some c, aliasName, false, true⟩ r
  | distinctParen {s t r : Toks} {c : Col} {aliasName : Bytes} (hcol : ColRule s c (op ")" :: op ")" :: t)) (h : OptAlias t aliasName r) :
      AggFunc (kw "COUNT" :: op "(" :: kw "DISTINCT" :: op "(" :: s) ⟨.count, some c, aliasName, false, true⟩ r

abbrev AggList : Nonterminal Token (List AggExpr) := ListOf AggFunc (op ",")

inductive TableList : Nonterminal Token TableListInfo where
  | one {s r : Toks} {tab : Bytes} (h : Name s tab r) : TableList s { tabs := [tab] } r
  | comma {s t r : Toks} {info : TableListInfo} {tab : Bytes} (init : TableList s info (op "," :: t)) (h : Name t tab r) :
      TableList s { info with tabs := info.tabs ++ [tab] } r
  | join {s t r : Toks} {info : TableListInfo} {tab : Bytes} (init : TableList s info (kw "JOIN" :: t)) (h : Name t tab r) :
      TableList s { info with tabs := info.tabs ++ [tab] } r
  | joinOn {s t u r : Toks} {info : TableListInfo} {tab : Bytes} {conds : List BinaryExpr}
      (init : TableList s info (kw "JOIN" :: t)) (h : Name t tab (kw "ON" :: u)) (hconds : WhereClause atof u conds r) :
      TableList s { tabs := info.tabs ++ [tab], joinConds := info.joinConds ++ conds } r

inductive OptGroupBy : Nonterminal Token (List Col) where
  | empty (s : Toks) : OptGroupBy s [] s
  | groupBy {s r : Toks} {cols : List Col} (h : ListOf ColRule (op ",") s cols r) : OptGroupBy (kw "GROUP" :: kw "BY" :: s) cols r

/-- `AggExpr::to_string`. -/
def AggExpr.toString (e : AggExpr) : Bytes :=
  bytesOf (match e.aggType with
    | .count => "count"
    | .max => "max"
    | .min => "min"
    | .sum => "sum"
    | .avg => "avg") ++ bytesOf "(" ++ (if e.isStar then bytesOf "*" else (e.col.map Col.colName).getD []) ++ bytesOf ")"

inductive HavingCondition : Nonterminal Token BinaryExpr where
  | col {s t u r : Toks} {lhs : Col} {o : CompOp} {rhs : Expr} (hlhs : ColRule s lhs t) (hop : OpRule t o u)
      (hrhs : ExprRule atof u rhs r) : HavingCondition s ⟨lhs, o, rhs⟩ r
  | agg {s t u r : Toks} {e : AggExpr} {o : CompOp} {rhs : Expr} (hlhs : AggFunc s e t) (hop : OpRule t o u)
      (hrhs : ExprRule atof u rhs r) : HavingCondition s ⟨⟨[], e.toString⟩, o, rhs⟩ r

inductive OptHaving : Nonterminal Token (List BinaryExpr) where
  | empty (s : Toks) : OptHaving s [] s
  | having {s r : Toks} {conds : List BinaryExpr} (h : ListOf (HavingCondition atof) (kw "AND") s conds r) :
      OptHaving (kw "HAVING" :: s) conds r

inductive OptAscDesc : Nonterminal Token OrderByDir where
  | asc (r : Toks) : OptAscDesc (kw "ASC" :: r) .asc r
  | desc (r : Toks) : OptAscDesc (kw "DESC" :: r) .desc r
  | default (s : Toks) : OptAscDesc s .default s

inductive OrderClause : Nonterminal Token OrderBy where
  | mk {s t r : Toks} {c : Col} {dir : OrderByDir} (hcol : ColRule s c t) (h : OptAscDesc t dir r) : OrderClause s ⟨c, dir⟩ r

inductive OptOrderClause : Nonterminal Token (List OrderBy) where
  | orderBy {s r : Toks} {orders : List OrderBy} (h : ListOf OrderClause (op ",") s orders r) :
      OptOrderClause (kw "ORDER" :: kw "BY" :: s) orders r
  | empty (s : Toks) : OptOrderClause s [] s

inductive OptLimit : Nonterminal Token (BitVec 32) where
  | empty (s : Toks) : OptLimit s (-1) s
  | limit (v : BitVec 32) (r : Toks) : OptLimit (kw "LIMIT" :: .int v :: r) v r

/-- What stands between `SELECT` and `FROM`. -/
inductive SelectList : Nonterminal Token (List Col × List AggExpr) where
  | star (r : Toks) : SelectList (op "*" :: r) ([], []) r
  | cols {s r : Toks} {cols : List Col} (h : ColList s cols r) : SelectList s (cols, []) r
  | aggs {s r : Toks} {aggs : List AggExpr} (h : AggList s aggs r) : SelectList s ([], aggs) r
  | both {s t r : Toks} {cols : List Col} {aggs : List AggExpr} (hcols : ColList s cols (op "," :: t)) (haggs : AggList t aggs r) :
      SelectList s (cols, aggs) r

def hasLimit (limit : BitVec 32) : Bool := decide (0 ≤ limit.toInt)

def limitCount (limit : BitVec 32) : BitVec 32 := if limit.toInt < 0 then 0 else limit

inductive SelectRule : Nonterminal Token SelectStmt where
  | mk {s t u v w x y r : Toks} {cols : List Col} {aggs : List AggExpr} {info : TableListInfo} {conds having : List BinaryExpr}
      {group : List Col} {orders : List OrderBy} {limit : BitVec 32} (hlist : SelectList s (cols, aggs) (kw "FROM" :: t))
      (htabs : TableList atof t info u) (hwhere : OptWhereClause atof u conds v) (hgroup : OptGroupBy v group w)
      (hhaving : OptHaving atof w having x) (horder : OptOrderClause x orders y) (hlimit : OptLimit y limit r) :
      SelectRule (kw "SELECT" :: s)
        ⟨cols, aggs, info.tabs, info.joinConds ++ conds, group, having, orders, hasLimit limit, limitCount limit⟩ r

/-- A branch without `WHERE` may have conditions that the stack has kept from the branch in front of it. -/
inductive UnionBranch : Nonterminal Token SelectStmt where
  | mk {s t u v w x r : Toks} {cols : List Col} {aggs : List AggExpr} {info : TableListInfo} {conds having : List BinaryExpr}
      {group : List Col} {limit : BitVec 32} (hlist : SelectList s (cols, aggs) (kw "FROM" :: t)) (htabs : TableList atof t info u)
      (hwhere : OptWhereClause atof u conds v ∨ v = u) (hgroup : OptGroupBy v group w) (hhaving : OptHaving atof w having x)
      (hlimit : OptLimit x limit r) :
      UnionBranch (kw "SELECT" :: s)
        ⟨cols, aggs, info.tabs, info.joinConds ++ conds, group, having, [], hasLimit limit, limitCount limit⟩ r

inductive SetClauseRule : Nonterminal Token SetClause where
  | value {s t r : Toks} {col : Bytes} {v : SvValue} (hcol : Name s col (op "=" :: t)) (hval : ValueRule atof t v r) :
      SetClauseRule s { colName := col, val := v } r
  | signed {s t u r : Toks} {col rhs : Bytes} {v : SvValue} (hcol : Name s col (op "=" :: t)) (hrhs : Name t rhs u)
      (hval : ValueRule atof u v r) : SetClauseRule s ⟨col, v, true, rhs, false⟩ r
  | plus {s t u r : Toks} {col rhs : Bytes} {v : SvValue} (hcol : Name s col (op "=" :: t)) (hrhs : Name t rhs (op "+" :: u))
      (hval : ValueRule atof u v r) : SetClauseRule s ⟨col, v, true, rhs, false⟩ r
  | minus {s t u r : Toks} {col rhs : Bytes} {v : SvValue} (hcol : Name s col (op "=" :: t)) (hrhs : Name t rhs (op "-" :: u))
      (hval : ValueRule atof u v r) : SetClauseRule s ⟨col, v, true, rhs, true⟩ r

abbrev ValueList : Nonterminal Token (List SvValue) := ListOf (ValueRule atof) (op ",")

inductive ValueRows : Nonterminal Token (List SvValue) where
  | one {s r : Toks} {vals : List SvValue} (h : ValueList atof s vals (op ")" :: r)) : ValueRows (op "(" :: s) vals r
  | more {s t r : Toks} {init vals : List SvValue} (hinit : ValueRows s init (op "," :: op "(" :: t))
      (h : ValueList atof t vals (op ")" :: r)) : ValueRows s (init ++ vals) r

inductive TypeRule : Nonterminal Token TypeLen where
  | int (r : Toks) : TypeRule (kw "INT" :: r) ⟨.int, 4⟩ r
  | char (v : BitVec 32) (r : Toks) : TypeRule (kw "CHAR" :: op "(" :: .int v :: op ")" :: r) ⟨.string, v⟩ r
  | float (r : Toks) : TypeRule (kw "FLOAT" :: r) ⟨.float, 4⟩ r

inductive FieldRule : Nonterminal Token ColDef where
  | mk {s t r : Toks} {col : Bytes} {type : TypeLen} (hcol : Name s col t) (htype : TypeRule t type r) : FieldRule s ⟨col, type⟩ r

abbrev ColNameList : Nonterminal Token (List Bytes) := ListOf Name (op ",")

inductive StmtRule : Nonterminal Token TreeNode where
  | txnBegin (r : Toks) : StmtRule (kw "BEGIN" :: r) .txnBegin r
  | txnCommit (r : Toks) : StmtRule (kw "COMMIT" :: r) .txnCommit r
  | txnAbort (r : Toks) : StmtRule (kw "ABORT" :: r) .txnAbort r
  | txnRollback (r : Toks) : StmtRule (kw "ROLLBACK" :: r) .txnRollback r
  | showTables (r : Toks) : StmtRule (kw "SHOW" :: kw "TABLES" :: r) .showTables r
  | showIndex {s r : Toks} {tab : Bytes} (h : Name s tab r) : StmtRule (kw "SHOW" :: kw "INDEX" :: kw "FROM" :: s) (.showIndex tab) r
  | enableNestloop (b : Bool) (r : Toks) :
      StmtRule (kw "SET" :: kw "ENABLE_NESTLOOP" :: op "=" :: .bool b :: r) (.setStmt .enableNestLoop b) r
  | enableSortmerge (b : Bool) (r : Toks) :
      StmtRule (kw "SET" :: kw "ENABLE_SORTMERGE" :: op "=" :: .bool b :: r) (.setStmt .enableSortMerge b) r
  | createTable {s t r : Toks} {tab : Bytes} {fields : List ColDef} (htab : Name s tab (op "(" :: t))
      (h : ListOf FieldRule (op ",") t fields (op ")" :: r)) : StmtRule (kw "CREATE" :: kw "TABLE" :: s) (.createTable tab fields) r
  | dropTable {s r : Toks} {tab : Bytes} (h : Name s tab r) : StmtRule (kw "DROP" :: kw "TABLE" :: s) (.dropTable tab) r
  | descTable {s r : Toks} {tab : Bytes} (h : Name s tab r) : StmtRule (kw "DESC" :: s) (.descTable tab) r
  | createIndex {s t r : Toks} {tab : Bytes} {cols : List Bytes} (htab : Name s tab (op "(" :: t))
      (h : ColNameList t cols (op ")" :: r)) : StmtRule (kw "CREATE" :: kw "INDEX" :: s) (.createIndex tab cols) r
  | dropIndex {s t r : Toks} {tab : Bytes} {cols : List Bytes} (htab : Name s tab (op "(" :: t))
      (h : ColNameList t cols (op ")" :: r)) : StmtRule (kw "DROP" :: kw "INDEX" :: s) (.dropIndex tab cols) r
  | insertRows {s t r : Toks} {tab : Bytes} {vals : List SvValue} (htab : Name s tab (kw "VALUES" :: t))
      (h : ValueRows atof t vals r) : StmtRule (kw "INSERT" :: kw "INTO" :: s) (.insertStmt tab vals []) r
  | insertCols {s t u r : Toks} {tab : Bytes} {cols : List Bytes} {vals : List SvValue} (htab : Name s tab (op "(" :: t))
      (hcols : ColNameList t cols (op ")" :: kw "VALUES" :: op "(" :: u)) (h : ValueList atof u vals (op ")" :: r)) :
      StmtRule (kw "INSERT" :: kw "INTO" :: s) (.insertStmt tab vals cols) r
  | delete {s t r : Toks} {tab : Bytes} {conds : List BinaryExpr} (htab : Name s tab t) (h : OptWhereClause atof t conds r) :
      StmtRule (kw "DELETE" :: kw "FROM" :: s) (.deleteStmt tab conds) r
  | update {s t u r : Toks} {tab : Bytes} {sets : List SetClause} {conds : List BinaryExpr} (htab : Name s tab (kw "SET" :: t))
      (hsets : ListOf (SetClauseRule atof) (op ",") t sets u) (h : OptWhereClause atof u conds r) :
      StmtRule (kw "UPDATE" :: s) (.updateStmt tab sets conds) r
  | select {s r : Toks} {stmt : SelectStmt} (h : SelectRule atof s stmt r) : StmtRule s (.selectStmt stmt) r
  | explain {s r : Toks} {stmt : SelectStmt} (h : SelectRule atof s stmt r) : StmtRule (kw "EXPLAIN" :: s) (.explainStmt stmt false) r
  | explainAnalyze {s r : Toks} {stmt : SelectStmt} (h : SelectRule atof s stmt r) :
      StmtRule (kw "EXPLAIN" :: kw "ANALYZE" :: s) (.explainStmt stmt true) r
  | union {s t u v r : Toks} {selects : List SelectStmt} {aliasName : Bytes} {orders : List OrderBy} {limit : BitVec 32}
      (hselects : ListOf (UnionBranch atof) (kw "UNION") s selects (op ")" :: kw "AS" :: t)) (htwo : 2 ≤ selects.length)
      (halias : Name t aliasName u) (horder : OptOrderClause u orders v) (hlimit : OptLimit v limit r) :
      StmtRule (kw "SELECT" :: op "*" :: kw "FROM" :: op "(" :: s)
        (.unionStmt selects aliasName orders (hasLimit limit) (limitCount limit)) r

/-- `yyparse` accepts the text and leaves this tree. -/
inductive Parses (sql : Bytes) : Option TreeNode → Prop where
  | stmt {tree : TreeNode} {rest : Toks} (h : StmtRule atof (lex sql) tree (op ";" :: rest)) : Parses sql (some tree)
  | help {rest : Toks} (h : lex sql = kw "HELP" :: rest) : Parses sql (some .help)
  | exit {rest : Toks} (h : lex sql = kw "EXIT" :: rest) : Parses sql none
  | eof (h : lex sql = []) : Parses sql none

end

end Rmdb.Parser
