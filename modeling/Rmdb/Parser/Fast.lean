import Rmdb.Parser.Grammar
import Rmdb.Parser.Lexemes

/-!
# The fast parser

`try_fast_parse_sql` of src/rmdb.cpp and the functions it is made of.  Each reads from a position of the text and
leaves another; a keyword that is not there leaves the position behind white space, which every reader skips
anyway.  The loops have a round for each character in front of them, and each round reads one
(`rounds_enough`).  `LIMIT` counts in an `int`.
-/

namespace Rmdb.Parser

open Rmdb.Lib (isDigit digitsValue listLoop)
open Rmdb.Txn (Bytes)
open Rmdb.Sql (SvValue)

def lower (c : UInt8) : UInt8 := if 65 ≤ c ∧ c ≤ 90 then c + 32 else c

def fpSkipws (p : Bytes) : Bytes := p.dropWhile isWs

/-- The loop of `fp_kw`. -/
def kwFrom : Bytes → Bytes → Option Bytes
  | [], q => some q
  | _ :: _, [] => none
  | k :: ks, c :: q => if lower c = k then kwFrom ks q else none

def fpKw (k : String) (p : Bytes) : Option Bytes := kwFrom (bytesOf k) (fpSkipws p)

/-- One character, behind white space; `fp_kw` with a character for a keyword does the same. -/
def fpChar (c : UInt8) (p : Bytes) : Option Bytes :=
  match fpSkipws p with
  | [] => none
  | d :: q => if d = c then some q else none

def fpIdent (p : Bytes) : Option (Bytes × Bytes) :=
  match fpSkipws p with
  | [] => none
  | c :: q => if isAlpha c || c = 95 then some (c :: q.takeWhile isWordChar, q.dropWhile isWordChar) else none

def fpTrailingOk (p : Bytes) : Bool := (fpSkipws ((fpChar 59 p).getD (fpSkipws p))).isEmpty

/-- The digits behind a point, if there is one; `least` says whether it needs them. -/
def fpFraction (least : Bool) (r : Bytes) : Option (Option Bytes × Bytes) :=
  if r.head? = some 46 then
    if least && ((r.drop 1).takeWhile isDigit).isEmpty then none
    else some (some ((r.drop 1).takeWhile isDigit), (r.drop 1).dropWhile isDigit)
  else some (none, r)

section
variable (atof : Bytes → BitVec 32)

/-- The literal of a numeral in front of its fraction. -/
def numberLit (num : Bytes) : Option Bytes → SvValue
  | none => .int (atoi num)
  | some fs => .float (atof (num ++ 46 :: fs))

/-- Whether a sign is read, as a length. -/
def signLen (q : Bytes) : Nat := if q.head? = some 45 ∨ q.head? = some 43 then 1 else 0

/-- A sign and digits. -/
def fpDigits (q : Bytes) : Option (Bytes × Bytes × Bytes) :=
  let s := q.drop (signLen q)
  if (s.takeWhile isDigit).isEmpty then none else some (q.take (signLen q), s.takeWhile isDigit, s.dropWhile isDigit)

/-- The numeral that is converted has no plus sign, and a point needs digits behind it. -/
def fpParseNumber (p : Bytes) : Option (SvValue × Bytes) := do
  let (sign, ds, r) ← fpDigits (fpSkipws p)
  let (fs, r) ← fpFraction true r
  some (numberLit atof ((if sign = [45] then [45] else []) ++ ds) fs, r)

def fpParseString (p : Bytes) : Option (SvValue × Bytes) := do
  let s ← fpChar 39 p
  let q ← fpChar 39 (s.dropWhile (· ≠ 39))
  some (.str (s.takeWhile (· ≠ 39)), q)

def fpParseValue (p : Bytes) : Option (SvValue × Bytes) :=
  if (fpSkipws p).head? = some 39 then fpParseString p else fpParseNumber atof p

def fpParseUint (p : Bytes) : Option (BitVec 32 × Bytes) :=
  let q := fpSkipws p
  if (q.takeWhile isDigit).isEmpty then none
  else some (BitVec.ofNat 32 (digitsValue (q.takeWhile isDigit)), q.dropWhile isDigit)

def fpCond (p : Bytes) : Option (BinaryExpr × Bytes) := do
  let (col, p) ← fpIdent p
  let p ← fpChar 61 p
  let (val, p) ← fpParseValue atof p
  some (⟨⟨[], col⟩, .eq, .value val⟩, p)

def fpParseWhereEq (p : Bytes) : Option (List BinaryExpr × Bytes) :=
  match fpKw "where" p with
  | none => some ([], p)
  | some p => listLoop (fpCond atof) (fpKw "and") p.length p

def tryFastParseTxn (s : Bytes) : Option TreeNode :=
  if ((fpKw "begin" s).map fpTrailingOk).getD false then some .txnBegin
  else if ((fpKw "commit" s).map fpTrailingOk).getD false then some .txnCommit
  else if ((fpKw "abort" s).map fpTrailingOk).getD false then some .txnAbort
  else none

def fpSelectList (p : Bytes) : Option ((List Col × List AggExpr) × Bytes) :=
  match fpKw "count" p with
  | some p => do
    let p ← fpChar 40 p
    let p ← fpChar 42 p
    let p ← fpChar 41 p
    some (([], [⟨.count, none, [], true, false⟩]), p)
  | none => (listLoop fpIdent (fpChar 44) p.length p).map fun x => ((x.1.map (Col.mk []), []), x.2)

def fpDir (p : Bytes) : OrderByDir × Bytes :=
  match fpKw "asc" p with
  | some p => (.asc, p)
  | none =>
    match fpKw "desc" p with
    | some p => (.desc, p)
    | none => (.default, p)

def fpOrder (p : Bytes) : Option (List OrderBy × Bytes) :=
  match fpKw "order" p with
  | none => some ([], p)
  | some p => do
    let p ← fpKw "by" p
    let (col, p) ← fpIdent p
    some ([⟨⟨[], col⟩, (fpDir p).1⟩], (fpDir p).2)

/-- `has_limit` and `limit_count`. -/
def fpLimit (p : Bytes) : Option ((Bool × BitVec 32) × Bytes) :=
  match fpKw "limit" p with
  | none => some ((false, 0), p)
  | some p => (fpParseUint p).map fun x => ((true, x.1), x.2)

def tryFastParseSelect (s : Bytes) : Option TreeNode := do
  let p ← fpKw "select" s
  let (list, p) ← fpSelectList p
  let p ← fpKw "from" p
  let (tab, p) ← fpIdent p
  let (conds, p) ← fpParseWhereEq atof p
  let (orders, p) ← fpOrder p
  let (limit, p) ← fpLimit p
  if fpTrailingOk p then some (.selectStmt ⟨list.1, list.2, [tab], conds, [], [], orders, limit.1, limit.2⟩) else none

/-- Behind `col =`: another column with a sign and a number, or a value. -/
def fpSetRhs (col : Bytes) (p : Bytes) : Option (SetClause × Bytes) :=
  match fpIdent p with
  | none => (fpParseValue atof p).map fun x => ({ colName := col, val := x.1 }, x.2)
  | some (rhsCol, q) =>
    match fpSkipws q with
    | [] => (fpParseValue atof p).map fun x => ({ colName := col, val := x.1 }, x.2)
    | c :: q =>
      if c = 43 ∨ c = 45 then (fpParseNumber atof q).map fun x => (⟨col, x.1, true, rhsCol, decide (c = 45)⟩, x.2)
      else (fpParseValue atof p).map fun x => ({ colName := col, val := x.1 }, x.2)

def fpSetClause (p : Bytes) : Option (SetClause × Bytes) := do
  let (col, p) ← fpIdent p
  let p ← fpChar 61 p
  fpSetRhs atof col p

def tryFastParseUpdate (s : Bytes) : Option TreeNode := do
  let p ← fpKw "update" s
  let (tab, p) ← fpIdent p
  let p ← fpKw "set" p
  let (sets, p) ← listLoop (fpSetClause atof) (fpChar 44) p.length p
  let (conds, p) ← fpParseWhereEq atof p
  if fpTrailingOk p then some (.updateStmt tab sets conds) else none

def tryFastParseDelete (s : Bytes) : Option TreeNode := do
  let p ← fpKw "delete" s
  let p ← fpKw "from" p
  let (tab, p) ← fpIdent p
  let (conds, p) ← fpParseWhereEq atof p
  if fpTrailingOk p then some (.deleteStmt tab conds) else none

/-- The values of `INSERT` are read as the lexer reads them: with the plus sign, and a point needs no digits. -/
def fpInsertValue (p : Bytes) : Option (SvValue × Bytes) :=
  if (fpSkipws p).head? = some 39 then fpParseString p
  else do
    let (sign, ds, r) ← fpDigits (fpSkipws p)
    let (fs, r) ← fpFraction false r
    some (numberLit atof (sign ++ ds) fs, r)

def tryFastParseInsert (s : Bytes) : Option TreeNode := do
  let p ← fpKw "insert" s
  let p ← fpKw "into" p
  let (tab, p) ← fpIdent p
  if (fpChar 40 p).isSome then none
  else do
    let p ← fpKw "values" p
    let p ← fpChar 40 p
    let (vals, p) ← listLoop (fpInsertValue atof) (fpChar 44) p.length p
    let p ← fpChar 41 p
    if fpTrailingOk p then some (.insertStmt tab vals []) else none

def tryFastParseSql (sql : Bytes) : Option TreeNode :=
  let s := cStr sql
  (tryFastParseTxn s).or ((tryFastParseSelect atof s).or ((tryFastParseUpdate atof s).or
    ((tryFastParseDelete atof s).or (tryFastParseInsert atof s))))

end

end Rmdb.Parser
