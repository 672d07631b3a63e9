import Rmdb.Lib.Munch
import Rmdb.Lib.Decimal
import Rmdb.Txn.Types

/-!
# The lexer

The automaton of src/parser/lex.l, with the states named after the rules that they belong to; a comment is
one lexeme.  A quote begins a string where another quote follows, and is an unexpected character
otherwise.  With `marker`, which looks at what is behind a `$`, the automaton reads statement templates:
there `$` and the digits behind it are a lexeme.
-/

namespace Rmdb.Parser

open Rmdb.Lib (Munch isDigit digitsValue)
open Rmdb.Txn (Bytes)

/-! ## Characters -/

def isAlpha (c : UInt8) : Bool := (65 ≤ c && c ≤ 90) || (97 ≤ c && c ≤ 122)

def isWordChar (c : UInt8) : Bool := c = 95 || isAlpha c || isDigit c

def isBlank (c : UInt8) : Bool := c = 32 || c = 9

/-! ## The automaton -/

inductive State where
  | idle
  | blank
  | cr
  | newline
  | word
  | plus
  | minus
  | int
  | float
  | string
  | closed
  | less
  | greater
  | slash
  | op
  | lineComment
  | blockComment
  | blockStar
  | blockClosed
  | bad
  | marker
deriving DecidableEq, Repr

/-- The state behind the first character of a lexeme, with the text that follows. -/
def start (marker : Bytes → Bool) (c : UInt8) (s : Bytes) : State :=
  if isBlank c then .blank
  else if isAlpha c then .word
  else if isDigit c then .int
  else if c = 10 then .newline
  else if c = 13 then .cr
  else if c = 43 then .plus
  else if c = 45 then .minus
  else if c = 39 then if 39 ∈ s then .string else .bad
  else if c = 60 then .less
  else if c = 62 then .greater
  else if c = 47 then .slash
  else if c = 59 ∨ c = 40 ∨ c = 41 ∨ c = 44 ∨ c = 42 ∨ c = 61 ∨ c = 46 then .op
  else if c = 36 then if marker s then .marker else .bad
  else .bad

/-- The state behind one more character of a lexeme, if it has one. -/
def next : State → UInt8 → Option State
  | .blank, c => if isBlank c then some .blank else none
  | .cr, c => if c = 10 then some .newline else none
  | .word, c => if isWordChar c then some .word else none
  | .plus, c => if isDigit c then some .int else none
  | .minus, c => if isDigit c then some .int else if c = 45 then some .lineComment else none
  | .int, c => if isDigit c then some .int else if c = 46 then some .float else none
  | .float, c => if isDigit c then some .float else none
  | .string, c => if c = 39 then some .closed else some .string
  | .less, c => if c = 61 ∨ c = 62 then some .op else none
  | .greater, c => if c = 61 then some .op else none
  | .slash, c => if c = 42 then some .blockComment else none
  | .lineComment, c => if c = 10 then none else some .lineComment
  | .blockComment, c => if c = 42 then some .blockStar else some .blockComment
  | .blockStar, c => if c = 47 then some .blockClosed else if c = 42 then some .blockStar else some .blockComment
  | .marker, c => if isDigit c then some .marker else none
  | .idle, _ => none
  | .newline, _ => none
  | .closed, _ => none
  | .op, _ => none
  | .blockClosed, _ => none
  | .bad, _ => none

def lexer (marker : Bytes → Bool) : Munch State UInt8 := ⟨start marker, next⟩

/-! ## Tokens -/

inductive Token where
  | keyword (word : Bytes)
  | bool (b : Bool)
  | identifier (word : Bytes)
  | int (v : BitVec 32)
  | float (text : Bytes)
  | string (s : Bytes)
  | op (text : Bytes)
deriving DecidableEq, Repr

def upper (c : UInt8) : UInt8 := if 97 ≤ c ∧ c ≤ 122 then c - 32 else c

def keywords : List String :=
  ["SHOW", "BEGIN", "COMMIT", "ABORT", "ROLLBACK", "TABLES", "CREATE", "TABLE", "DROP", "DESC", "INSERT", "INTO", "VALUES",
    "DELETE", "FROM", "WHERE", "UPDATE", "SET", "SELECT", "COUNT", "MAX", "MIN", "SUM", "AVG", "DISTINCT", "AS", "GROUP",
    "HAVING", "UNION", "INT", "CHAR", "FLOAT", "INDEX", "AND", "JOIN", "ON", "EXPLAIN", "ANALYZE", "EXIT", "HELP", "ORDER",
    "LIMIT", "BY", "ASC", "ENABLE_NESTLOOP", "ENABLE_SORTMERGE"]

def bytesOf (s : String) : Bytes := s.toList.map fun c => UInt8.ofNat c.toNat

/-- A keyword and an identifier of the same length: the rule of the keyword is the first. -/
def wordToken (w : Bytes) : Token :=
  let u := w.map upper
  if keywords.any fun k => u = bytesOf k then .keyword u
  else if u = bytesOf "TRUE" then .bool true
  else if u = bytesOf "FALSE" then .bool false
  else .identifier w

/-- `strtol`, which stops at the ends of a `long`, made an `int`. -/
def atoi (w : Bytes) : BitVec 32 :=
  let i : Int := if w.head? = some 45 then -digitsValue (w.drop 1)
    else if w.head? = some 43 then digitsValue (w.drop 1) else digitsValue w
  BitVec.ofInt 32 (max (-2 ^ 63) (min (2 ^ 63 - 1) i))

/-- The token of a lexeme.  White space, comments and unexpected characters have none; the value of a `float` is
`atof` of its text. -/
def token : State → Bytes → Option Token
  | .word, w => some (wordToken w)
  | .int, w => some (.int (atoi w))
  | .float, w => some (.float w)
  | .closed, w => some (.string (w.drop 1).dropLast)
  | .plus, w => some (.op w)
  | .minus, w => some (.op w)
  | .less, w => some (.op w)
  | .greater, w => some (.op w)
  | .op, w => some (.op w)
  | _, _ => none

/-- `c_str()`: what stands before the first NUL. -/
def cStr (s : Bytes) : Bytes := s.takeWhile (· ≠ 0)

/-- The tokens of a text that the scanner begins in `INITIAL`, before the end of the text.
(`yy_scan_string` does not reset the start condition: behind a text that ends in an open comment the
scanner is in `STATE_COMMENT` still.) -/
def lex (sql : Bytes) : List Token :=
  ((lexer fun _ => false).lexemesFrom .idle [] (cStr sql)).filterMap fun l => token l.1 l.2

end Rmdb.Parser
