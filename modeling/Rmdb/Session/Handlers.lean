import Rmdb.Lib.Run
import Rmdb.Txn.Types

/-!
# Connection handlers

`client_handler`, `handle_wire_connection` and the functions they call for a statement
(src/rmdb.cpp) over the part of the transaction manager they work on: `txn_map` with the mode and
the state of each transaction, and `active_explicit_count_`.  What a statement other than the
transaction commands does to the tables is left open, only how it ends is given (`ExecOutcome`).
A command is one step.
-/

namespace Rmdb.Session

open Rmdb.Txn (TxnId IsolationLevel TransactionState)

abbrev ConnId := Nat

/-- What the handlers use of a `Transaction`. -/
structure Transaction where
  txnMode : Bool := false
  state : TransactionState := .default
  isolation : IsolationLevel
deriving DecidableEq, Repr

def Transaction.live (x : Transaction) : Bool := x.state ≠ .committed && x.state ≠ .aborted

/-- A handler's locals: the id of the connection's transaction and the session's isolation. -/
structure Conn where
  txnId : Option TxnId := none
  sessIso : IsolationLevel := .serializable
deriving DecidableEq, Repr

structure Server where
  txnMap : TxnId → Option Transaction := fun _ => none
  nextTxnId : TxnId := 0
  activeExplicitCount : Nat := 0
  conns : ConnId → Option Conn := fun _ => none

inductive ExecOutcome where
  | ok
  | abort
  | error
deriving DecidableEq, Repr

/-- A statement, and how it ends: `COMMIT`, `ROLLBACK` and `ABORT` may throw before they change
the transaction's state. -/
inductive Sql where
  | begin
  | commit (throws : Bool)
  | rollback (throws : Bool)
  | abort (throws : Bool)
  | other (outcome : ExecOutcome)
deriving DecidableEq, Repr

namespace Server

variable (s : Server)

/-! ## The transaction manager -/

/-- `begin(nullptr)`, then the mode and the isolation level that `SetTransaction` sets. -/
def begin (iso : IsolationLevel) : Server :=
  { s with
    txnMap := Function.update s.txnMap s.nextTxnId (some { isolation := iso })
    nextTxnId := s.nextTxnId + 1 }

/-- The end of `commit` and of `abort`; both return early for a transaction that has ended. -/
def endTxn (t : TxnId) (state : TransactionState) : Server :=
  match s.txnMap t with
  | none => s
  | some x =>
      if x.live then
        { s with
          txnMap := Function.update s.txnMap t (some { x with state := state })
          activeExplicitCount :=
            if x.txnMode && decide (s.activeExplicitCount > 0) then s.activeExplicitCount - 1
            else s.activeExplicitCount }
      else s

def commit (t : TxnId) : Server := s.endTxn t .committed

def abort (t : TxnId) : Server := s.endTxn t .aborted

/-- An ended transaction leaves `txn_map`. -/
def reap (t : TxnId) : Server :=
  match s.txnMap t with
  | none => s
  | some x => if x.live then s else { s with txnMap := Function.update s.txnMap t none }

/-- `T_Transaction_begin`: `set_txn_mode(true)` and `inc_explicit()`. -/
def beginExplicit (t : TxnId) : Server :=
  match s.txnMap t with
  | none => s
  | some x =>
      { s with
        txnMap := Function.update s.txnMap t (some { x with txnMode := true })
        activeExplicitCount := s.activeExplicitCount + 1 }

/-! ## One statement -/

def isLive (t : TxnId) : Bool := (s.txnMap t).any Transaction.live

def isExplicit (t : TxnId) : Bool := (s.txnMap t).any fun x => x.txnMode && x.live

/-- The live transaction behind a handler's `txn_id`. -/
def current (txnId : Option TxnId) : Option TxnId := txnId.filter s.isLive

/-- `SetTransaction`: the connection's transaction, a new one where it has none that is live. -/
def setTransaction (conn : Conn) : TxnId × Server :=
  match s.current conn.txnId with
  | some t => (t, s)
  | none => (s.nextTxnId, s.begin conn.sessIso)

/-- Parse, analyze, plan and run; the transaction commands are `run_cmd_utility`. -/
def execSql (t : TxnId) : Sql → ExecOutcome × Server
  | .begin => (.ok, s.beginExplicit t)
  | .commit throws => if throws then (.error, s) else (.ok, s.commit t)
  | .rollback throws => if throws then (.error, s) else (.ok, s.abort t)
  | .abort throws => if throws then (.error, s) else (.ok, s.abort t)
  | .other .abort => (.abort, s.abort t)
  | .other outcome => (outcome, s)

/-- The end of a statement outside an explicit transaction. -/
def autocommit (t : TxnId) : Server :=
  if (s.txnMap t).any Transaction.txnMode then s else s.commit t

def setTxnId (c : ConnId) (conn : Conn) (t : TxnId) : Server :=
  { s with conns := Function.update s.conns c (some { conn with txnId := some t }) }

/-- `run_sql_statement`, also the loop body of `client_handler`. -/
def runSqlStatement (c : ConnId) (conn : Conn) (sql : Sql) : ExecOutcome × Server :=
  let (t, s1) := s.setTransaction conn
  let (outcome, s2) := s1.execSql t sql
  (outcome, ((s2.autocommit t).reap t).setTxnId c conn t)

/-! ## Frames -/

/-- `LOAD`: a failure aborts the transaction; only the wire protocol reaps it, and only after a
`LOAD` that succeeds. -/
def load (c : ConnId) (conn : Conn) (throws wire : Bool) : Server :=
  let (t, s1) := s.setTransaction conn
  let s2 := if throws then s1.abort t else if wire then (s1.autocommit t).reap t else s1.autocommit t
  s2.setTxnId c conn t

/-- `probe_prepare_schema`, with a transaction of its own. -/
def probe : Server :=
  let (t, s1) := s.setTransaction {}
  (if (s1.txnMap t).any Transaction.txnMode then s1 else s1.abort t).reap t

/-- An operation of a batch: one that cannot be decoded or names no statement, or a statement. -/
inductive Op where
  | undecodable
  | run (sql : Sql)
deriving DecidableEq, Repr

/-- The operations of `handle_exec_batch` up to the first that fails. -/
def runOps (c : ConnId) : Server → List Op → ExecOutcome × Server
  | s, [] => (.ok, s)
  | s, .undecodable :: _ => (.error, s)
  | s, .run sql :: ops =>
      match s.conns c with
      | none => (.error, s)
      | some conn =>
          match s.runSqlStatement c conn sql with
          | (.ok, s') => runOps c s' ops
          | (outcome, s') => (outcome, s')

/-- The transaction `txn_id` names is aborted if it is explicit and live. -/
def abortExplicit (c : ConnId) : Server :=
  match (s.conns c).bind Conn.txnId with
  | none => s
  | some t => if s.isExplicit t then s.abort t else s

/-- `handle_exec_batch` (flag AUTO_ABORT). -/
def execBatch (c : ConnId) (ops : List Op) : Server :=
  let (outcome, s1) := runOps c s ops
  if outcome = .ok then s1 else s1.abortExplicit c

/-- The end of a handler: the client is gone or broke the protocol, or an answer was not written. -/
def disconnect (c : ConnId) : Server :=
  let s1 :=
    match (s.conns c).bind Conn.txnId with
    | none => s
    | some t => if s.isExplicit t then s.abort t else s.reap t
  { s1 with conns := Function.update s1.conns c none }

end Server

/-- What arrives on a connection, of either protocol. -/
inductive Frame where
  | connect
  | sql (sql : Sql)
  | load (throws wire : Bool)
  | setIsolation (iso : IsolationLevel)
  | prepareSet (probes : Nat)
  | execBatch (ops : List Server.Op)
  | disconnect
deriving Repr

/-- One frame; `none` on a connection that is not open. -/
def step (s : Server) : ConnId × Frame → Option Server
  | (c, .connect) =>
      match s.conns c with
      | some _ => none
      | none => some { s with conns := Function.update s.conns c (some {}) }
  | (c, frame) =>
      match s.conns c, frame with
      | none, _ | _, .connect => none
      | some conn, .sql sql => some (s.runSqlStatement c conn sql).2
      | some conn, .load throws wire => some (s.load c conn throws wire)
      | some conn, .setIsolation iso =>
          some { s with conns := Function.update s.conns c (some { conn with sessIso := iso }) }
      | some _, .prepareSet probes => some (Nat.repeat Server.probe probes s)
      | some _, .execBatch ops => some (s.execBatch c ops)
      | some _, .disconnect => some (s.disconnect c)

end Rmdb.Session
