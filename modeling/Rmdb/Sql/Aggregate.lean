import Rmdb.Lib.Group
import Rmdb.Sql.Value

/-!
# The aggregation executor

`AggExecutor` (src/execution/executor_aggregation.h) and the columns the planner gives it
(`generate_select_plan`).  The records of the child are a list, `groups_` and `group_order_`
are a `Lib.Groups`, and `is_null` is constantly false in the source, so that no bit of the null
bitmap is ever set.  Sums are kept in 64 bits; floats are their bits.
-/

namespace Rmdb.Sql

open Rmdb.Txn
open Rmdb.Query (TabCol Cols findCol)
open Rmdb.Lib (Groups)

inductive AggType where
  | count
  | max
  | min
  | sum
  | avg
deriving DecidableEq, Repr

def getAggFuncName : AggType → String
  | .count => "count"
  | .max => "max"
  | .min => "min"
  | .sum => "sum"
  | .avg => "avg"

structure AggregateInfo where
  type : AggType
  col : TabCol := ⟨"", ""⟩
  aliasName : String := ""
  isStar : Bool := false
  argType : ColType := .int
  inOutput : Bool := true
  distinct : Bool := false
deriving DecidableEq, Repr

/-- `to_string`; the constructor of the executor builds the same name. -/
def AggregateInfo.toString (a : AggregateInfo) : String :=
  getAggFuncName a.type ++ "(" ++ (if a.isStar then "*" else a.col.colName) ++ ")"

structure HavingCond where
  lhsCol : TabCol
  op : CompOp
  rhsVal : Value
deriving DecidableEq, Repr

/-! ## The columns of the output -/

/-- Columns one after another from `off` on. -/
def placeCols : Nat → List ColMeta → List ColMeta
  | _, [] => []
  | off, c :: cs => { c with offset := off } :: placeCols (off + c.len) cs

def getCol (tabs : TabName → TabMeta) (c : TabCol) : Option ColMeta :=
  (tabs c.tabName).cols.find? fun m => m.name = c.colName

/-- `none` is the `ColumnNotFoundError` of `get_col`. -/
def aggColumn (tabs : TabName → TabMeta) (a : AggregateInfo) : Option ColMeta :=
  let name := if a.aliasName = "" then a.toString else a.aliasName
  match a.type with
  | .count => some ⟨name, .int, 4, 0⟩
  | .avg => some ⟨name, .float, 4, 0⟩
  | _ =>
      match a.argType with
      | .int => some ⟨name, .int, 4, 0⟩
      | .float => some ⟨name, .float, 4, 0⟩
      | .string => (getCol tabs a.col).map fun m => ⟨name, .string, m.len, 0⟩

def outputCols (tabs : TabName → TabMeta) (groupCols : List TabCol) (aggs : List AggregateInfo) :
    Option (List ColMeta) := do
  let gs ← groupCols.mapM (getCol tabs)
  let as ← aggs.mapM (aggColumn tabs)
  some (placeCols 0 (gs ++ as))

/-! ## The state of an aggregate -/

structure AggState where
  count : BitVec 64 := 0
  intSum : BitVec 64 := 0
  floatSum : BitVec 64 := 0
  intMax : BitVec 32 := 0x80000000
  floatMax : BitVec 32 := 0xff7fffff
  intMin : BitVec 32 := 0x7fffffff
  floatMin : BitVec 32 := 0x7f7fffff
  strMax : Bytes := []
  strMin : Bytes := []
  sumCnt : BitVec 64 := 0
  hasValue : Bool := false
  distinctSeen : List Bytes := []

namespace AggState

def addInt (st : AggState) (v : BitVec 32) : AggState :=
  { st with
    intMax := if st.hasValue then (if st.intMax.toInt < v.toInt then v else st.intMax) else v
    intMin := if st.hasValue then (if v.toInt < st.intMin.toInt then v else st.intMin) else v
    hasValue := true
    intSum := st.intSum + v.signExtend 64 }

def addFloat (st : AggState) (v : BitVec 32) : AggState :=
  let f := Float32.ofBits ⟨v⟩
  { st with
    floatMax := if st.hasValue then (if Float32.ofBits ⟨st.floatMax⟩ < f then v else st.floatMax) else v
    floatMin := if st.hasValue then (if f < Float32.ofBits ⟨st.floatMin⟩ then v else st.floatMin) else v
    hasValue := true
    floatSum := (Float.ofBits ⟨st.floatSum⟩ + f.toFloat).toBits.toBitVec }

def addString (st : AggState) (s : Bytes) : AggState :=
  { st with
    strMax := if st.hasValue then (if st.strMax < s then s else st.strMax) else s
    strMin := if st.hasValue then (if s < st.strMin then s else st.strMin) else s
    hasValue := true }

def addValue (st : AggState) (c : ColMeta) (data : Bytes) : AggState :=
  match c.type with
  | .int => st.addInt (getWord data c.offset)
  | .float => st.addFloat (getWord data c.offset)
  | .string => st.addString (text (colBytes c data))

/-- One record of the group. -/
def add (prevCols : Cols) (a : AggregateInfo) (st : AggState) (data : Bytes) : AggState :=
  match a.type with
  | .count =>
      if a.isStar then { st with count := st.count + 1 }
      else
        match findCol prevCols a.col with
        | none => st
        | some c =>
            if a.distinct then
              { st with
                distinctSeen := Lib.pushNew st.distinctSeen (colBytes c data)
                count := if colBytes c data ∈ st.distinctSeen then st.count else st.count + 1 }
            else { st with count := st.count + 1 }
  | _ =>
      match findCol prevCols a.col with
      | none => st
      | some c => { st.addValue c data with sumCnt := st.sumCnt + 1 }

end AggState

def average (a : AggregateInfo) (st : AggState) : BitVec 32 :=
  if 0 < st.sumCnt.toInt then
    let total := if a.argType = .int then Float.ofInt st.intSum.toInt else Float.ofBits ⟨st.floatSum⟩
    (total / Float.ofInt st.sumCnt.toInt).toFloat32.toBits.toBitVec
  else 0

def roundSum (st : AggState) : BitVec 32 := (Float.ofBits ⟨st.floatSum⟩).toFloat32.toBits.toBitVec

/-- `static_cast<int>` of a 64-bit number. -/
def castInt (v : BitVec 64) : BitVec 32 := v.setWidth 32

def getAggValue (a : AggregateInfo) (st : AggState) : Value :=
  match a.type with
  | .count => .int (castInt st.count)
  | .sum => if a.argType = .int then .int (castInt st.intSum) else .float (roundSum st)
  | .max =>
      if st.hasValue then
        match a.argType with
        | .int => .int st.intMax
        | .float => .float st.floatMax
        | .string => .str st.strMax
      else .empty
  | .min =>
      if st.hasValue then
        match a.argType with
        | .int => .int st.intMin
        | .float => .float st.floatMin
        | .string => .str st.strMin
      else .empty
  | .avg => .float (average a st)

/-! ## The executor -/

/-- What the constructor is given: the columns of the child, the lists of the query and the
output columns. -/
structure AggExecutor where
  prevCols : Cols
  groupCols : List TabCol
  aggExprs : List AggregateInfo
  havingConds : List HavingCond
  cols : List ColMeta

/-- Where `satisfy_having` finds the left side of a condition. -/
inductive Source where
  | group (i : Nat)
  | agg (i : Nat)
deriving DecidableEq, Repr

namespace AggExecutor

variable (e : AggExecutor)

def len : Nat :=
  match e.cols.getLast? with
  | none => 0
  | some c => c.offset + c.len

def plainAgg : Bool := e.groupCols.isEmpty

/-- A later aggregate of the same alias takes the entry over. -/
def aliasToIdx : String → Option Nat :=
  e.aggExprs.zipIdx.foldl
    (fun m a => if a.1.aliasName = "" then m else Function.update m a.1.aliasName (some a.2)) fun _ => none

def nameToIdx : String → Option Nat :=
  e.aggExprs.zipIdx.foldl (fun m a => Function.update m a.1.toString (some a.2)) fun _ => none

/-- The size of the null bitmap in front of a key. -/
def bitmapLen : Nat := (e.groupCols.length + 7) / 8

def makeGroupKey (data : Bytes) : Bytes :=
  if e.plainAgg then []
  else List.replicate e.bitmapLen 0 ++
    (e.groupCols.filterMap (findCol e.prevCols)).flatMap fun c => colBytes c data

def getGroupColValue (i : Nat) (key : Bytes) : Value :=
  match e.cols[i]? with
  | none => .empty
  | some c =>
      let keyOff := e.bitmapLen + ((e.cols.take i).map ColMeta.len).sum
      if (key.getD (i / 8) 0).toNat.testBit (i % 8) then .empty
      else
        match c.type with
        | .int => .int (getWord key keyOff)
        | .float => .float (getWord key keyOff)
        | .string => .str (text (getBytes key keyOff c.len))

/-- A group column of that name, else an alias, else the name of an aggregate. -/
def havingSource (c : TabCol) : Option Source :=
  match e.groupCols.findIdx? fun g =>
      decide (g.colName = c.colName) && (decide (c.tabName = "") || decide (g.tabName = c.tabName)) with
  | some i => some (.group i)
  | none => ((e.aliasToIdx c.colName).or (e.nameToIdx c.colName)).map .agg

def sourceValue (states : List AggState) (key : Bytes) : Source → Value
  | .group i => e.getGroupColValue i key
  | .agg i =>
      match e.aggExprs[i]?, states[i]? with
      | some a, some st => getAggValue a st
      | _, _ => .empty

def satisfyHaving (states : List AggState) (key : Bytes) : Bool :=
  e.havingConds.all fun cond =>
    match e.havingSource cond.lhsCol with
    | none => false
    | some s => evaluateCondition (e.sourceValue states key s) cond.rhsVal cond.op

def newStates : List AggState := List.replicate e.aggExprs.length {}

def addRecord (states : List AggState) (data : Bytes) : List AggState :=
  List.zipWith (fun a st => st.add e.prevCols a data) e.aggExprs states

/-! ## The rows -/

/-- The group columns of the row. -/
def writeGroup (key : Bytes) : Nat → List ColMeta → Bytes → Bytes
  | _, [], dst => dst
  | keyOff, c :: cs, dst =>
      writeGroup key (keyOff + c.len) cs (putBytes dst c.offset (getBytes key keyOff c.len))

/-- `memset` and `memcpy` of a string. -/
def writeString (c : ColMeta) (s dst : Bytes) : Bytes :=
  putBytes (putBytes dst c.offset (List.replicate c.len 0)) c.offset (s.take c.len)

def writeAgg (c : ColMeta) (a : AggregateInfo) (st : AggState) (dst : Bytes) : Bytes :=
  match a.type with
  | .count => putWord dst c.offset (castInt st.count)
  | .sum =>
      if c.type = .int then putWord dst c.offset (castInt st.intSum)
      else if a.argType = .int then
        putWord dst c.offset (Float32.ofInt st.intSum.toInt).toBits.toBitVec
      else putWord dst c.offset (roundSum st)
  | .max =>
      if st.hasValue then
        match c.type with
        | .int => putWord dst c.offset st.intMax
        | .float => putWord dst c.offset st.floatMax
        | .string => writeString c st.strMax dst
      else dst
  | .min =>
      if st.hasValue then
        match c.type with
        | .int => putWord dst c.offset st.intMin
        | .float => putWord dst c.offset st.floatMin
        | .string => writeString c st.strMin dst
      else dst
  | .avg => putWord dst c.offset (average a st)

/-- The aggregate columns of the row. -/
def writeAggs : List ColMeta → List AggregateInfo → List AggState → Bytes → Bytes
  | c :: cs, a :: as, st :: sts, dst => writeAggs cs as sts (writeAgg c a st dst)
  | _, _, _, dst => dst

def buildRow (states : List AggState) (key : Bytes) : Bytes :=
  let dst := writeGroup key e.bitmapLen (e.cols.take e.groupCols.length) (List.replicate e.len 0)
  writeAggs (e.cols.drop e.groupCols.length) e.aggExprs states dst

/-! ## The iterator -/

end AggExecutor

/-- `groups_` with `group_order_`, `iter_idx_` and `cur_rec_`. -/
structure AggRun where
  groups : Groups Bytes (List AggState)
  iterIdx : Nat
  curRec : Option Bytes

namespace AggExecutor

variable (e : AggExecutor)

/-- The first of the keys, counted from `i`, whose group passes `HAVING`. -/
def advance (ok : Bytes → Bool) : List Bytes → Nat → Nat
  | [], i => i
  | k :: ks, i => if ok k then i else advance ok ks (i + 1)

def groupOk (g : Groups Bytes (List AggState)) (key : Bytes) : Bool :=
  e.satisfyHaving ((g.get key).getD []) key

def advanceToValid (r : AggRun) : AggRun :=
  { r with iterIdx := advance (e.groupOk r.groups) (r.groups.order.drop r.iterIdx) r.iterIdx }

def buildCur (r : AggRun) : AggRun :=
  { r with curRec := (r.groups.order[r.iterIdx]?).map fun key =>
      e.buildRow ((r.groups.get key).getD []) key }

def collect (recs : List Bytes) : Groups Bytes (List AggState) :=
  recs.foldl (Groups.add e.makeGroupKey e.newStates e.addRecord) Groups.empty

/-- A query without `GROUP BY` has one group even when there are no records. -/
def groupsOf (recs : List Bytes) : Groups Bytes (List AggState) :=
  let g := e.collect recs
  if g.order.isEmpty && e.plainAgg then
    ⟨[[]], Function.update g.get [] (some e.newStates)⟩
  else g

def beginTuple (recs : List Bytes) : AggRun :=
  e.buildCur (e.advanceToValid ⟨e.groupsOf recs, 0, none⟩)

def nextTuple (r : AggRun) : AggRun :=
  e.buildCur (e.advanceToValid
    (if r.iterIdx < r.groups.order.length then { r with iterIdx := r.iterIdx + 1 } else r))

def isEnd (r : AggRun) : Bool := decide (r.groups.order.length ≤ r.iterIdx)

/-- `for (; !is_end(); nextTuple()) Next()`, for at most `fuel` rows. -/
def drain : Nat → AggRun → Option (List Bytes)
  | 0, r => if isEnd r then some [] else none
  | fuel + 1, r =>
      if isEnd r then some []
      else (drain fuel (e.nextTuple r)).map (r.curRec.toList ++ ·)

end AggExecutor

end Rmdb.Sql
