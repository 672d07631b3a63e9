import Rmdb.Txn.Types
import Rmdb.Wire.Params
import Rmdb.Wire.Sink

/-!
# PREPARE_SET and EXEC_BATCH

The handlers of src/rmdb.cpp for requests on prepared statements.  The probing and the execution of a
statement are parameters.  An EXEC_BATCH is decoded operation by operation, each executed before the next is read.
The texts of requests are those of `Statement` and `Operation`.
-/

namespace Rmdb.Wire

open Rmdb.Lib (bigEndianBytes)
open Rmdb.Txn (Bytes ColType)

structure WirePreparedStmt where
  sqlTemplate : Bytes
  paramTypes : List UInt8
  isQuery : Bool := false
  outCols : List (Bytes × ColType) := []
deriving DecidableEq, Repr

/-- Statements under their ids. -/
abbrev Prepared := List (Nat × WirePreparedStmt)

/-! ## PREPARE_SET -/

def readStmt (fresh : Prepared) : Read (Nat × WirePreparedStmt) := do
  let id ← Read.u16
  if id = 0 then throw (.protocol "statement id must be nonzero")
  else if id ∈ fresh.map Prod.fst then throw (.protocol "duplicate statement id in request")
  else do
    let resultKind ← Read.u8
    let paramCount ← Read.u16
    let paramTypes ← (List.range paramCount).mapM fun _ => Read.u8
    let sqlBytes ← Read.u32
    let sqlTemplate ← Read.bytes sqlBytes
    pure (id, { sqlTemplate, paramTypes, isQuery := decide (resultKind = 1) })

def readStmts : Nat → Prepared → Read Prepared
  | 0, fresh => pure fresh
  | n + 1, fresh => do
    let entry ← readStmt fresh
    readStmts n (fresh ++ [entry])

def readPrepareSet : Read Prepared := do
  let stmtCount ← Read.u16
  if stmtCount < 1 ∨ 256 < stmtCount then throw (.protocol "statement_count out of range")
  else readStmts stmtCount []

def decodePrepareSet (payload : Bytes) : Except Fault Prepared :=
  match readPrepareSet { data := payload } with
  | .error e => .error e
  | .ok (fresh, r) =>
    if r.pos = r.data.length then .ok fresh else .error (.protocol "trailing bytes in PREPARE_SET payload")

inductive PrepareReply where
  | prepareOk (outCols : List (Nat × List (Bytes × ColType)))
  | error (msg : String)
deriving DecidableEq, Repr

def probeSql (st : WirePreparedStmt) : Bytes :=
  wireSubstituteParams st.sqlTemplate (st.paramTypes.map zeroLiteral)

def probeStmts (probePrepareSchema : Bytes → Bool → Except String (List (Bytes × ColType))) (fresh : Prepared) :
    Except String Prepared :=
  fresh.mapM fun entry =>
    match probePrepareSchema (probeSql entry.2) entry.2.isQuery with
    | .ok cols => .ok (entry.1, { entry.2 with outCols := cols })
    | .error diag => .error ("PREPARE_SET failed for statement " ++ toString entry.1 ++ ": " ++ diag)

/-- The reply and the dictionary, which is replaced when every statement is probed. -/
def handlePrepareSet (probePrepareSchema : Bytes → Bool → Except String (List (Bytes × ColType))) (payload : Bytes)
    (prepared : Prepared) : Except Fault (PrepareReply × Prepared) :=
  match decodePrepareSet payload with
  | .error e => .error e
  | .ok fresh =>
    match probeStmts probePrepareSchema fresh with
    | .ok fresh => .ok (.prepareOk (fresh.map fun entry => (entry.1, if entry.2.isQuery then entry.2.outCols else [])), fresh)
    | .error msg => .ok (.error msg, prepared)

/-! ## EXEC_BATCH -/

inductive ExecOutcome where
  | ok
  | abort
  | error
deriving DecidableEq, Repr

inductive BatchStatus where
  | ok
  | transactionAbort
  | error
deriving DecidableEq, Repr

structure OpResult where
  opIndex : Nat
  rowCount : Nat
  rowsPayload : Bytes
deriving DecidableEq, Repr

/-- What `run_sql_statement` returns, the calls on the sink it is given, and its diagnostics. -/
structure SqlRun where
  outcome : ExecOutcome
  calls : List SinkCall := []
  diag : String := ""
deriving DecidableEq, Repr

structure BatchResult (σ : Type) where
  state : σ
  executed : Nat := 0
  status : BatchStatus := .ok
  failedOp : Nat := 0xffff
  diag : String := ""
  results : List OpResult := []
deriving DecidableEq, Repr

section

variable {σ : Type} (g9 : BitVec 32 → Bytes) (runSqlStatement : σ → Bytes → Bool → SqlRun × σ) (autoAbort : σ → σ)
  (prepared : Prepared)

def readOp : Read (WirePreparedStmt × List Bytes) := do
  let stmtId ← Read.u16
  match prepared.lookup stmtId with
  | none => throw (.protocol ("unknown statement id " ++ toString stmtId))
  | some st => do
    let literals ← st.paramTypes.mapM (wireParamLiteral g9)
    pure (st, literals)

/-- The operation `op`, decoded.  A query has a `BufferSink` of its own. -/
def execOp (op : Nat) (stmt : WirePreparedStmt × List Bytes) (b : BatchResult σ) : BatchResult σ :=
  let run := runSqlStatement b.state (wireSubstituteParams stmt.1.sqlTemplate stmt.2) stmt.1.isQuery
  let sink := run.1.calls.foldl bufferSink.call {}
  let b := { b with state := run.2, diag := run.1.diag }
  match run.1.outcome with
  | .ok =>
    { b with
      executed := b.executed + 1
      results := if stmt.1.isQuery then b.results ++ [⟨op, sink.rowCount, sink.payload⟩] else b.results }
  | .abort => { b with status := .transactionAbort, failedOp := op }
  | .error => { b with status := .error, failedOp := op }

/-- `n` operations from `op` on. -/
def execOps : Nat → Nat → Reader → BatchResult σ → Except Fault (BatchResult σ)
  | 0, _, _, b => .ok b
  | n + 1, op, r, b =>
    match readOp g9 prepared r with
    | .error (.protocol msg) => .ok { b with status := .error, failedOp := op, diag := msg }
    | .error .overrun => .error .overrun
    | .ok (stmt, r) =>
      let b := execOp runSqlStatement op stmt b
      if b.status = .ok then execOps n (op + 1) r b else .ok b

/-- A failure rolls back an explicit transaction. -/
def finishBatch (b : BatchResult σ) : BatchResult σ :=
  if b.status = .ok then b else { b with state := autoAbort b.state }

def handleExecBatch (payload : Bytes) (state : σ) : Except Fault (BatchResult σ) :=
  match Read.u16 { data := payload } with
  | .error e => .error e
  | .ok (opCount, r) =>
    if opCount < 1 ∨ 256 < opCount then .error (.protocol "operation_count out of range")
    else
      match execOps g9 runSqlStatement prepared opCount 0 r { state } with
      | .error e => .error e
      | .ok b => .ok (finishBatch autoAbort b)

end

/-! ## Requests on the wire -/

structure Statement where
  id : Nat
  resultKind : UInt8
  paramTypes : List UInt8
  sql : Bytes
deriving DecidableEq, Repr

namespace Statement

def encode (st : Statement) : Bytes :=
  bigEndianBytes 2 st.id ++ (st.resultKind :: (bigEndianBytes 2 st.paramTypes.length ++ (st.paramTypes ++
    (bigEndianBytes 4 st.sql.length ++ st.sql))))

/-- The id is one, and the lengths fit. -/
structure Ok (st : Statement) : Prop where
  nonzero : st.id ≠ 0
  id : st.id < 2 ^ 16
  paramTypes : st.paramTypes.length < 2 ^ 16
  sql : st.sql.length < 2 ^ 32

/-- The result kind and the type tags are those of the protocol. -/
def Tagged (st : Statement) : Prop :=
  st.resultKind ≤ 1 ∧ ∀ t ∈ st.paramTypes, t = sqltypeInt32 ∨ t = sqltypeFloat32 ∨ t = sqltypeChar

def prepared (st : Statement) : Nat × WirePreparedStmt :=
  (st.id, { sqlTemplate := st.sql, paramTypes := st.paramTypes, isQuery := decide (st.resultKind = 1) })

end Statement

structure PrepareSet (stmts : List Statement) : Prop where
  count : 1 ≤ stmts.length ∧ stmts.length ≤ 256
  ok : ∀ st ∈ stmts, st.Ok
  nodup : (stmts.map Statement.id).Nodup

def encodePrepareSet (stmts : List Statement) : Bytes := bigEndianBytes 2 stmts.length ++ stmts.flatMap Statement.encode

structure Operation where
  stmtId : Nat
  params : List Param
deriving DecidableEq, Repr

namespace Operation

def encode (op : Operation) : Bytes := bigEndianBytes 2 op.stmtId ++ op.params.flatMap Param.encode

/-- The statement is known, and there is a parameter for each of its types. -/
structure Ok (prepared : Prepared) (op : Operation) (st : WirePreparedStmt) : Prop where
  id : op.stmtId < 2 ^ 16
  known : prepared.lookup op.stmtId = some st
  params : List.Forall₂ Param.Fits st.paramTypes op.params

def NoQuote (op : Operation) : Prop := ∀ p ∈ op.params, p.NoQuote

instance (op : Operation) : Decidable op.NoQuote := inferInstanceAs (Decidable (∀ p ∈ op.params, p.NoQuote))

end Operation

/-- Operations on the statements `sts`. -/
structure ExecBatch (prepared : Prepared) (ops : List Operation) (sts : List WirePreparedStmt) : Prop where
  count : 1 ≤ ops.length ∧ ops.length ≤ 256
  ok : List.Forall₂ (Operation.Ok prepared) ops sts

def encodeExecBatch (ops : List Operation) : Bytes := bigEndianBytes 2 ops.length ++ ops.flatMap Operation.encode

/-- The literals of the parameters. -/
def Operation.literals (g9 : BitVec 32 → Bytes) (st : WirePreparedStmt) (op : Operation) : List Bytes :=
  List.zipWith (Param.literal g9) st.paramTypes op.params

/-- The statements one after another, until one fails. -/
def execAll {σ : Type} (runSqlStatement : σ → Bytes → Bool → SqlRun × σ) :
    Nat → List (WirePreparedStmt × List Bytes) → BatchResult σ → BatchResult σ
  | _, [], b => b
  | op, stmt :: stmts, b =>
    let b := execOp runSqlStatement op stmt b
    if b.status = .ok then execAll runSqlStatement (op + 1) stmts b else b

end Rmdb.Wire
