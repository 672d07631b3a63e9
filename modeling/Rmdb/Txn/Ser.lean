import Rmdb.Index.Key
import Rmdb.Txn.Types

/-!
# Conditions and the SSI bookkeeping

Conditions of a `WHERE` clause compiled to offsets (`ser_compile_pred`, `compile_conds`), and
the `ser_` state of the transaction manager: what SERIALIZABLE transactions have read, the
rw edges between them and the check for a dangerous structure.  The sets `in_rw`, `out_rw`
and the reader sets are lists; `ser_` is the list of its entries.
-/

namespace Rmdb.Txn

inductive CompOp where
  | eq
  | ne
  | lt
  | gt
  | le
  | ge
deriving DecidableEq, Repr

/-- `rhsVal` is the literal, or `none` when the right side is the column `rhsCol`; `lhsTab` is
empty when the left column is not qualified. -/
structure Condition where
  lhsCol : String
  op : CompOp
  rhsVal : Option Bytes
  rhsCol : String := ""
  lhsTab : TabName := ""
deriving DecidableEq, Repr

structure SerCompiledCond where
  lhsOff : Nat
  lhsLen : Nat
  type : ColType
  op : CompOp
  rhsVal : Option Bytes
  rhsOff : Nat
deriving DecidableEq, Repr

def CompOp.holds (op : CompOp) (cmp : Int) : Bool :=
  match op with
  | eq => cmp = 0
  | ne => cmp ≠ 0
  | lt => cmp < 0
  | gt => cmp > 0
  | le => cmp ≤ 0
  | ge => cmp ≥ 0

/-- The three-way comparison of two column values. -/
def cmpBytes (a b : Bytes) (len : Nat) : ColType → Int
  | .int =>
      if (getWord a 0).toInt < (getWord b 0).toInt then -1
      else if (getWord a 0).toInt > (getWord b 0).toInt then 1 else 0
  | .float =>
      if Float32.ofBits ⟨getWord a 0⟩ < Float32.ofBits ⟨getWord b 0⟩ then -1
      else if Float32.ofBits ⟨getWord a 0⟩ > Float32.ofBits ⟨getWord b 0⟩ then 1 else 0
  | .string => Index.memcmp len a b

def serCmp (a b : Bytes) (len : Nat) (type : ColType) (op : CompOp) : Bool :=
  op.holds (cmpBytes a b len type)

/-- `find_if` for the left column, by name, and by table if it is qualified. -/
def findLhs (tab : TabName) (m : TabMeta) (c : Condition) : Option ColMeta :=
  m.cols.find? fun col => col.name = c.lhsCol && (c.lhsTab = "" || tab = c.lhsTab)

/-- `none` when a condition names an unknown column. -/
def serCompilePred (tab : TabName) (m : TabMeta) (conds : List Condition) :
    Option (List SerCompiledCond) :=
  conds.mapM fun c => do
    let col ← findLhs tab m c
    match c.rhsVal with
    | some v => some ⟨col.offset, col.len, col.type, c.op, some (v.take col.len), 0⟩
    | none =>
        let rcol ← m.findCol c.rhsCol
        some ⟨col.offset, col.len, col.type, c.op, none, rcol.offset⟩

def SerCompiledCond.matches (c : SerCompiledCond) (data : Bytes) : Bool :=
  serCmp (data.drop c.lhsOff) (c.rhsVal.getD (data.drop c.rhsOff)) c.lhsLen c.type c.op

def serCompiledMatch (data : Bytes) (cs : List SerCompiledCond) : Bool := cs.all (·.matches data)

/-! ## The graph -/

structure SerInfo where
  readTs : Ts := 0
  commitTs : Ts := 0
  committed : Bool := false
  readRids : List RowId := []
  readPreds : List (TabName × List Condition) := []
  inRw : List TxnId := []
  outRw : List TxnId := []

structure SerState where
  /-- the entries of `ser_` -/
  infos : List (TxnId × SerInfo) := []
  ridReaders : RowId → List TxnId := fun _ => []
  predReaders : TabName → List (TxnId × List (List SerCompiledCond)) := fun _ => []

namespace SerState

def find (s : SerState) (t : TxnId) : Option SerInfo := s.infos.lookup t

/-- `ser_[t] = f(ser_[t])`, which makes the entry if it is missing. -/
def modify (s : SerState) (t : TxnId) (f : SerInfo → SerInfo) : SerState :=
  { s with
    infos :=
      if (s.find t).isSome then s.infos.map fun e => if e.1 = t then (e.1, f e.2) else e
      else s.infos ++ [(t, f {})] }

/-- Change the entry of `t` if there is one. -/
def modifyIf (s : SerState) (t : TxnId) (f : SerInfo → SerInfo) : SerState :=
  if (s.find t).isSome then s.modify t f else s

def recordRead (s : SerState) (t : TxnId) (readTs : Ts) (r : RowId) : SerState :=
  let s := s.modify t fun i => { i with readTs := readTs, readRids := i.readRids ++ [r] }
  { s with ridReaders := Function.update s.ridReaders r ((s.ridReaders r).insert t) }

def recordPred (s : SerState) (m : TabMeta) (t : TxnId) (readTs : Ts) (tab : TabName)
    (conds : List Condition) : SerState :=
  let s := s.modify t fun i =>
    { i with readTs := readTs, readPreds := i.readPreds ++ [(tab, conds)] }
  match serCompilePred tab m conds with
  | none => s
  | some cc =>
      let old := ((s.predReaders tab).lookup t).getD []
      { s with
        predReaders := Function.update s.predReaders tab
          ((s.predReaders tab).filter (fun e => e.1 ≠ t) ++ [(t, old ++ [cc])]) }

/-- `ser_unindex`. -/
def unindex (s : SerState) (t : TxnId) (info : SerInfo) : SerState :=
  { s with
    ridReaders := fun r => if r ∈ info.readRids then (s.ridReaders r).erase t else s.ridReaders r
    predReaders := fun tab =>
      if info.readPreds.any (fun p => p.1 = tab) then (s.predReaders tab).filter fun e => e.1 ≠ t
      else s.predReaders tab }

/-- Take the entry of `t`, its edges and its reads out. -/
def drop (s : SerState) (t : TxnId) : SerState :=
  match s.find t with
  | none => s
  | some info =>
      let s := info.inRw.foldl (fun s o => s.modifyIf o fun i => { i with outRw := i.outRw.erase t }) s
      let s := info.outRw.foldl (fun s o => s.modifyIf o fun i => { i with inRw := i.inRw.erase t }) s
      let s := s.unindex t info
      { s with infos := s.infos.filter fun e => e.1 ≠ t }

/-- `ser_finish`; `wm` is the lowest active `read_ts`, or `last_commit_ts_`. -/
def finish (s : SerState) (t : TxnId) (committed : Bool) (commitTs wm : Ts) : SerState :=
  if (s.find t).isNone then s
  else
    let s :=
      if committed then s.modify t fun i => { i with committed := true, commitTs := commitTs }
      else s.drop t
    if s.infos.length > 512 then
      (s.infos.filter fun e => e.2.committed && decide (e.2.commitTs ≤ wm)).foldl
        (fun s e => s.drop e.1) s
    else s

def overlap (s : SerState) (a b : TxnId) : Bool :=
  match s.find a, s.find b with
  | some A, some B =>
      if A.committed ∧ A.commitTs ≤ B.readTs then false
      else if B.committed ∧ B.commitTs ≤ A.readTs then false else true
  | _, _ => true

def dangerous (s : SerState) (tin tpiv tout : TxnId) : Bool :=
  if ¬ s.overlap tin tpiv ∨ ¬ s.overlap tpiv tout then false
  else if tin = tout then true
  else
    match s.find tout with
    | none => false
    | some io =>
        if ¬ io.committed then false
        else
          match s.find tin with
          | none => true
          | some ii => if ¬ ii.committed then true else decide (io.commitTs < ii.commitTs)

/-- Add the edge `reader →rw writer`; true when it closes a dangerous structure. -/
def addEdge (s : SerState) (reader writer : TxnId) : SerState × Bool :=
  if reader = writer then (s, false)
  else
    let s := s.modify writer fun i => { i with inRw := i.inRw.insert reader }
    let s := s.modify reader fun i => { i with outRw := i.outRw.insert writer }
    let outs := ((s.find writer).map SerInfo.outRw).getD []
    let ins := ((s.find reader).map SerInfo.inRw).getD []
    (s, outs.any (fun y => s.dangerous reader writer y) ||
      ins.any (fun x => s.dangerous x reader writer))

/-- `ser_add_edge` for every transaction of the list that passes the check, with `me` as the
reader or as the writer. -/
def addEdges (s : SerState) (ok : SerState → TxnId → Bool) (edge : TxnId → TxnId × TxnId) :
    List TxnId → SerState × Bool
  | [] => (s, false)
  | o :: os =>
      if ok s o then
        let (s, d) := s.addEdge (edge o).1 (edge o).2
        let (s, d') := addEdges s ok edge os
        (s, d || d')
      else addEdges s ok edge os

/-- The other transactions that read row `r`, or whose predicate the bytes match. -/
def readersHit (s : SerState) (me : TxnId) (r : RowId) (data : Option Bytes) : List TxnId :=
  let hits := (s.ridReaders r).filter fun o => o ≠ me
  match data with
  | none => hits
  | some d =>
      hits ++ ((s.predReaders r.tab).filter fun e =>
        e.1 ≠ me && !hits.contains e.1 && e.2.any fun cc => serCompiledMatch d cc).map Prod.fst

def writeCheck (s : SerState) (me : TxnId) (readTs : Ts) (r : RowId) (data : Option Bytes) :
    SerState × Bool :=
  let s := s.modify me fun i => { i with readTs := readTs }
  s.addEdges (fun s o => s.overlap o me) (fun o => (o, me)) (s.readersHit me r data)

end SerState

end Rmdb.Txn
