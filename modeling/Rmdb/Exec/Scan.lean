import Rmdb.Txn.Finish

/-!
# Scans

`RmScan`, `SeqScanExecutor` and `IndexScanExecutor` as one pass over a table by a
transaction, and the read tracking a `SELECT` of a SERIALIZABLE transaction does on the way.
The sequential scan walks the heap bitmap; the index scan walks a range of entries and looks
at no bitmap.
-/

namespace Rmdb.Txn

open Rmdb.Index (Rid)

/-- `compile_conds`: conditions on unknown columns are skipped. -/
def compileConds (m : TabMeta) (conds : List Condition) : List SerCompiledCond :=
  conds.filterMap fun c => do
    let col ← m.findCol c.lhsCol
    match c.rhsVal with
    | some v => some ⟨col.offset, col.len, col.type, c.op, some v, 0⟩
    | none =>
        let rcol ← m.findCol c.rhsCol
        some ⟨col.offset, col.len, col.type, c.op, none, rcol.offset⟩

def evalCompiled (m : TabMeta) (conds : List Condition) (data : Bytes) : Bool :=
  serCompiledMatch data (compileConds m conds)

/-- `ix_compare`, which compares each column like a condition does, `FLOAT` columns as floats. -/
def ixCompare : List ColMeta → Bytes → Bytes → Int
  | [], _, _ => 0
  | c :: cs, a, b =>
      let res := cmpBytes a b c.len c.type
      if res ≠ 0 then res else ixCompare cs (a.drop c.len) (b.drop c.len)

namespace Db

variable (db : Db)

/-- The slots of a file in page order. -/
def slots (tab : TabName) : List Rid :=
  (List.range' 1 ((db.files tab).numPages - 1)).flatMap fun p =>
    (List.range (db.files tab).numRecordsPerPage).map fun s => ⟨p, s⟩

/-- The rids `RmScan` visits. -/
def rmScan (tab : TabName) : List Rid :=
  (db.slots tab).filter fun rid => (db.rows ⟨tab, rid⟩).slot.isRecord

/-- What a scan by `t` reads at a rid: the visible version once the table is dirty, else the
heap bytes. -/
def readRow (t : TxnId) (r : RowId) : Option Image :=
  if db.tableIsDirty r.tab then db.mvccRead t r else some (db.rows r).slot.data

def matchRow (t : TxnId) (r : RowId) (conds : List Condition) : Option Image :=
  (db.readRow t r).filter fun img => evalCompiled (db.tabs r.tab) conds img.bytes

def seqScan (t : TxnId) (tab : TabName) (conds : List Condition) : List (Rid × Image) :=
  (db.rmScan tab).filterMap fun rid => (db.matchRow t ⟨tab, rid⟩ conds).map fun img => (rid, img)

/-! ## Index scans -/

/-- The literal of the first equality on a column. -/
def eqCond (conds : List Condition) (name : String) : Option Bytes :=
  (conds.find? fun c => c.rhsVal.isSome && decide (c.op = .eq) && decide (c.lhsCol = name)).bind
    Condition.rhsVal

/-- `analyze_conditions`: the literals of the longest prefix of index columns with an
equality. -/
def eqPrefix (conds : List Condition) : List ColMeta → List Bytes
  | [] => []
  | c :: cs =>
      match eqCond conds c.name with
      | none => []
      | some v => v.take c.len :: eqPrefix conds cs

/-- One end of the range on the first column without equality: its bytes and whether it is
inclusive. -/
structure RangeEnd where
  val : Bytes
  inclusive : Bool

/-- The tightest end among the conditions under one of `ops`, `.gt` and `.ge` for the lower
end: the first literal, then each one that `tighter` prefers. -/
def rangeEnd (ops : List CompOp) (tighter : Int → Bool) (c : ColMeta)
    (conds : List Condition) : Option RangeEnd :=
  conds.foldl (fun acc cond =>
    match cond.rhsVal with
    | none => acc
    | some v =>
        if cond.lhsCol = c.name ∧ cond.op ∈ ops then
          match acc with
          | none => some ⟨v.take c.len, decide (cond.op ∈ [CompOp.ge, .le])⟩
          | some e =>
              if tighter (cmpBytes v e.val c.len c.type) then
                some ⟨v.take c.len, decide (cond.op ∈ [CompOp.ge, .le])⟩
              else acc
        else acc) none

def lowerEnd (c : ColMeta) (conds : List Condition) : Option RangeEnd :=
  rangeEnd [.gt, .ge] (fun cmp => decide (cmp > 0)) c conds
def upperEnd (c : ColMeta) (conds : List Condition) : Option RangeEnd :=
  rangeEnd [.lt, .le] (fun cmp => decide (cmp < 0)) c conds

/-- `fill_extreme_from`: the greatest or least value of every column. -/
def fillExtreme (wantMax : Bool) (cols : List ColMeta) : Bytes :=
  cols.flatMap fun c =>
    match c.type with
    | .int => wordBytes (if wantMax then BitVec.intMax 32 else BitVec.intMin 32)
    | .float => wordBytes (if wantMax then 0x7f7fffff else 0xff7fffff)
    | .string => List.replicate c.len (if wantMax then 0xff else 0)

/-- The position of the first entry whose key is not less than (`lower_bound`) or greater
than (`upper_bound`) `key`. -/
def lowerBound (cols : List ColMeta) (key : Bytes) (es : IndexMap) : Nat :=
  (es.takeWhile fun e => decide (ixCompare cols e.1 key < 0)).length
def upperBound (cols : List ColMeta) (key : Bytes) (es : IndexMap) : Nat :=
  (es.takeWhile fun e => decide (ixCompare cols e.1 key ≤ 0)).length

/-- The columns after the equality prefix, and the ends of the range on the first of them. -/
def suffixCols (cols : List ColMeta) (conds : List Condition) : List ColMeta :=
  cols.drop (eqPrefix conds cols).length
def lowerOf (cols : List ColMeta) (conds : List Condition) : Option RangeEnd :=
  (suffixCols cols conds).head?.bind fun c => lowerEnd c conds
def upperOf (cols : List ColMeta) (conds : List Condition) : Option RangeEnd :=
  (suffixCols cols conds).head?.bind fun c => upperEnd c conds

/-- `start_key` and `end_key` behind the equality prefix. -/
def startSuffix (cols : List ColMeta) (conds : List Condition) : Bytes :=
  match lowerOf cols conds with
  | some e => e.val ++ fillExtreme (!e.inclusive) (suffixCols cols conds).tail
  | none => fillExtreme false (suffixCols cols conds)
def endSuffix (cols : List ColMeta) (conds : List Condition) : Bytes :=
  match upperOf cols conds with
  | some e => e.val ++ fillExtreme e.inclusive (suffixCols cols conds).tail
  | none => fillExtreme false (suffixCols cols conds)

def startKey (cols : List ColMeta) (conds : List Condition) : Bytes :=
  (eqPrefix conds cols).flatten ++ startSuffix cols conds
def endKey (cols : List ColMeta) (conds : List Condition) : Bytes :=
  (eqPrefix conds cols).flatten ++ endSuffix cols conds

/-- The positions `lo` and `hi` of `beginTuple`. -/
def scanLo (cols : List ColMeta) (conds : List Condition) (es : IndexMap) : Nat :=
  match lowerOf cols conds with
  | some e =>
      if e.inclusive then lowerBound cols (startKey cols conds) es
      else upperBound cols (startKey cols conds) es
  | none =>
      if (eqPrefix conds cols).flatten ≠ [] then lowerBound cols (startKey cols conds) es else 0
def scanHi (cols : List ColMeta) (conds : List Condition) (es : IndexMap) : Nat :=
  match upperOf cols conds with
  | some e =>
      if e.inclusive then upperBound cols (endKey cols conds) es
      else lowerBound cols (endKey cols conds) es
  | none =>
      if (eqPrefix conds cols).length = cols.length then upperBound cols (startKey cols conds) es
      else es.length

/-- Do the bounds cross? -/
def crossed (cols : List ColMeta) (conds : List Condition) : Bool :=
  match lowerOf cols conds, upperOf cols conds with
  | some l, some u =>
      let kc := ixCompare cols (startKey cols conds) (endKey cols conds)
      decide (kc > 0 ∨ (kc = 0 ∧ ¬ (l.inclusive ∧ u.inclusive)))
  | _, _ => false

/-- The entries from `lo` to `hi`; none when the bounds cross. -/
def scanRange (cols : List ColMeta) (conds : List Condition) (es : IndexMap) : IndexMap :=
  if crossed cols conds then []
  else (es.take (scanHi cols conds es)).drop (scanLo cols conds es)

/-- Do the columns of the equality prefix hold its literals? -/
def eqPrefixMatches (cols : List ColMeta) (eqs : List Bytes) (data : Bytes) : Bool :=
  (cols.zip eqs).all fun p => decide (getBytes data p.1.offset p.1.len = p.2)

/-- `position_to_match` over the entries: a visible record off the equality prefix ends the
scan. -/
def indexScanFrom (t : TxnId) (tab : TabName) (cols : List ColMeta) (conds : List Condition) :
    IndexMap → List (Rid × Image)
  | [] => []
  | (_, rid) :: es =>
      match db.readRow t ⟨tab, rid⟩ with
      | none => indexScanFrom t tab cols conds es
      | some img =>
          if ¬ eqPrefixMatches cols (eqPrefix conds cols) img.bytes then []
          else if evalCompiled (db.tabs tab) conds img.bytes then
            (rid, img) :: indexScanFrom t tab cols conds es
          else indexScanFrom t tab cols conds es

def indexScan (t : TxnId) (tab : TabName) (cols : List ColMeta) (conds : List Condition) :
    List (Rid × Image) :=
  db.indexScanFrom t tab cols conds (scanRange cols conds (db.index (indexId tab cols)))

/-- The access path of a plan: the index scan needs an index of the table. -/
inductive Path where
  | seq
  | index (cols : List ColMeta)

def scan (t : TxnId) (tab : TabName) (conds : List Condition) : Path → List (Rid × Image)
  | .seq => db.seqScan t tab conds
  | .index cols => db.indexScan t tab cols conds

end Db

end Rmdb.Txn
