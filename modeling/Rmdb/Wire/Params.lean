import Rmdb.Lib.Decimal
import Rmdb.Wire.Reader

/-!
# Parameters of prepared statements

`wire_substitute_params` and `wire_param_literal` of src/rmdb.cpp.  The text `%.9g` of a `float` is a
parameter.  A literal is read exactly from the text of a parameter of its type whose characters are
no quotes (`exact_wireParamLiteral`).
-/

namespace Rmdb.Wire

open Rmdb.Lib (Exact Refuses exact_pure bigEndianBytes isDigit decimalInt)
open Rmdb.Txn (Bytes)

def sqltypeInt32 : UInt8 := 1
def sqltypeFloat32 : UInt8 := 2
def sqltypeChar : UInt8 := 3

/-- `'`. -/
def quote : UInt8 := 39
/-- `$`. -/
def dollar : UInt8 := 36

/-- The `int` that the digits of a marker accumulate to. -/
def markerNum (ds : Bytes) : BitVec 32 := ds.foldl (fun num c => num * 10 + BitVec.ofNat 32 (c.toNat - 48)) 0

/-- The literal that the digits of a marker stand for. -/
def markerLiteral (literals : List Bytes) (ds : Bytes) : Option Bytes :=
  if ds = [] then none
  else if 1 ≤ (markerNum ds).toInt then literals[(markerNum ds).toNat - 1]? else none

/-- The loop of `wire_substitute_params`: `inStr` inside quotes, and `skip` characters of a marker are
passed over. -/
def substituteFrom (literals : List Bytes) : Bool → Nat → Bytes → Bytes
  | _, _, [] => []
  | inStr, skip + 1, _ :: s => substituteFrom literals inStr skip s
  | true, 0, c :: s => c :: substituteFrom literals (decide (c ≠ quote)) 0 s
  | false, 0, c :: s =>
    if c = quote then c :: substituteFrom literals true 0 s
    else if c = dollar then
      match markerLiteral literals (s.takeWhile isDigit) with
      | some literal => literal ++ substituteFrom literals false (s.takeWhile isDigit).length s
      | none => c :: substituteFrom literals false 0 s
    else c :: substituteFrom literals false 0 s

def wireSubstituteParams (tmpl : Bytes) (literals : List Bytes) : Bytes := substituteFrom literals false 0 tmpl

/-- The `snprintf` text of a `float` with a decimal point, if it is a number without one. -/
def floatLiteral (g9 : BitVec 32 → Bytes) (bits : BitVec 32) : Bytes :=
  let s := g9 bits
  if 46 ∉ s ∧ 101 ∉ s ∧ ¬[105, 110, 102] <:+: s ∧ ¬[110, 97, 110] <:+: s then s ++ [46, 48] else s

/-- The literal of an absent parameter. -/
def zeroLiteral (sqlType : UInt8) : Bytes :=
  if sqlType = sqltypeInt32 then [48] else if sqlType = sqltypeFloat32 then [48, 46, 48] else [quote, quote]

def charLiteral : Read Bytes := do
  let n ← Read.u32
  let s ← Read.bytes n
  if quote ∈ s then throw (.protocol "CHAR parameter contains ' which cannot be safely embedded")
  else pure (quote :: (s ++ [quote]))

/-- The literal of a parameter that is present. -/
def presentLiteral (g9 : BitVec 32 → Bytes) (sqlType : UInt8) : Read Bytes :=
  if sqlType = sqltypeInt32 then (fun v : BitVec 32 => decimalInt v.toInt) <$> Read.i32
  else if sqlType = sqltypeFloat32 then floatLiteral g9 <$> (BitVec.ofNat 32 <$> Read.u32)
  else charLiteral

def wireParamLiteral (g9 : BitVec 32 → Bytes) (sqlType : UInt8) : Read Bytes := do
  let present ← Read.u8
  if 1 < present then throw (.protocol "invalid present byte")
  else if present = 0 then pure (zeroLiteral sqlType)
  else presentLiteral g9 sqlType

/-! ## Parameters on the wire -/

inductive Param where
  | absent
  | int (v : BitVec 32)
  | float (bits : BitVec 32)
  | char (s : Bytes)
deriving DecidableEq, Repr

namespace Param

def encode : Param → Bytes
  | absent => [0]
  | int v => 1 :: bigEndianBytes 4 v.toNat
  | float bits => 1 :: bigEndianBytes 4 bits.toNat
  | char s => 1 :: (bigEndianBytes 4 s.length ++ s)

def literal (g9 : BitVec 32 → Bytes) (sqlType : UInt8) : Param → Bytes
  | absent => zeroLiteral sqlType
  | int v => decimalInt v.toInt
  | float bits => floatLiteral g9 bits
  | char s => quote :: (s ++ [quote])

/-- A parameter of the type; one of any type but INT32 and FLOAT32 has characters. -/
def Fits (sqlType : UInt8) : Param → Prop
  | absent => True
  | int _ => sqlType = sqltypeInt32
  | float _ => sqlType = sqltypeFloat32
  | char s => sqlType ≠ sqltypeInt32 ∧ sqlType ≠ sqltypeFloat32 ∧ s.length < 2 ^ 32

def NoQuote : Param → Prop
  | char s => quote ∉ s
  | _ => True

instance : DecidablePred NoQuote
  | absent => .isTrue trivial
  | int _ => .isTrue trivial
  | float _ => .isTrue trivial
  | char s => inferInstanceAs (Decidable (quote ∉ s))

end Param

/-- What `wire_param_literal` reads. -/
def paramFormat (g9 : BitVec 32 → Bytes) (sqlType : UInt8) : Lib.Format UInt8 Bytes := fun literal t =>
  ∃ p : Param, p.Fits sqlType ∧ p.NoQuote ∧ literal = p.literal g9 sqlType ∧ t = p.encode

theorem exact_charLiteral : Exact At Bad charLiteral fun literal t =>
    ∃ s : Bytes, s.length < 2 ^ 32 ∧ quote ∉ s ∧ literal = quote :: (s ++ [quote]) ∧
      t = bigEndianBytes 4 s.length ++ s := by
  refine (exact_u32.bind fun n t hn => (exact_bytes (by have := hn.1; omega)).bind fun s t hs =>
    Exact.unless Fault.noConfusion fun _ => exact_pure _).congr fun literal t => ?_
  constructor
  · rintro ⟨n, t1, t2, rfl, ⟨hn, rfl⟩, s, t3, t4, rfl, ⟨rfl, rfl⟩, hquote, rfl, rfl⟩
    exact ⟨t3, hn, hquote, rfl, by rw [List.append_nil]⟩
  · rintro ⟨s, hs, hquote, rfl, rfl⟩
    exact ⟨s.length, _, s, rfl, ⟨hs, rfl⟩, s, s, [], (List.append_nil s).symm, ⟨rfl, rfl⟩, hquote, rfl, rfl⟩

theorem charLiteral_refuses {s : Bytes} (hlen : s.length < 2 ^ 32) (hquote : quote ∈ s) :
    Refuses At charLiteral (bigEndianBytes 4 s.length ++ s) := by
  have hbytes : Refuses At (Read.bytes s.length >>= fun s =>
      if quote ∈ s then throw (.protocol "CHAR parameter contains ' which cannot be safely embedded")
      else pure (quote :: (s ++ [quote]))) (s ++ []) := by
    refine (exact_bytes (by omega)).bind_refuses ⟨rfl, rfl⟩ fun r rest _ => ?_
    rw [if_pos hquote]
    exact ⟨_, rfl⟩
  rw [List.append_nil] at hbytes
  exact exact_u32.bind_refuses ⟨hlen, rfl⟩ hbytes

/-- What stands behind the present byte 1. -/
theorem exact_presentLiteral (g9 : BitVec 32 → Bytes) (sqlType : UInt8) :
    Exact At Bad (presentLiteral g9 sqlType) fun literal t =>
      ∃ p : Param, p.Fits sqlType ∧ p.NoQuote ∧ p ≠ .absent ∧ literal = p.literal g9 sqlType ∧ 1 :: t = p.encode := by
  unfold presentLiteral
  by_cases hint : sqlType = sqltypeInt32
  · subst hint
    rw [if_pos rfl]
    refine (exact_i32.map _).congr fun literal t => ?_
    constructor
    · rintro ⟨v, rfl, rfl⟩
      exact ⟨.int v, rfl, trivial, Param.noConfusion, rfl, rfl⟩
    · rintro ⟨p, hfits, -, hpresent, rfl, ht⟩
      cases p with
      | absent => exact absurd rfl hpresent
      | int v => exact ⟨v, rfl, (List.cons.inj ht).2⟩
      | float bits => exact absurd hfits (by decide : ¬sqltypeInt32 = sqltypeFloat32)
      | char s => exact absurd rfl hfits.1
  · rw [if_neg hint]
    by_cases hfloat : sqlType = sqltypeFloat32
    · subst hfloat
      rw [if_pos rfl]
      refine (exact_i32.map _).congr fun literal t => ?_
      constructor
      · rintro ⟨v, rfl, rfl⟩
        exact ⟨.float v, rfl, trivial, Param.noConfusion, rfl, rfl⟩
      · rintro ⟨p, hfits, -, hpresent, rfl, ht⟩
        cases p with
        | absent => exact absurd rfl hpresent
        | int v => exact absurd hfits hint
        | float bits => exact ⟨bits, rfl, (List.cons.inj ht).2⟩
        | char s => exact absurd rfl hfits.2.1
    · rw [if_neg hfloat]
      refine exact_charLiteral.congr fun literal t => ?_
      constructor
      · rintro ⟨s, hs, hquote, rfl, rfl⟩
        exact ⟨.char s, ⟨hint, hfloat, hs⟩, hquote, Param.noConfusion, rfl, rfl⟩
      · rintro ⟨p, hfits, hquote, hpresent, rfl, ht⟩
        cases p with
        | absent => exact absurd rfl hpresent
        | int v => exact absurd hfits hint
        | float bits => exact absurd hfits hfloat
        | char s => exact ⟨s, hfits.2.2, hquote, rfl, (List.cons.inj ht).2⟩

theorem exact_wireParamLiteral (g9 : BitVec 32 → Bytes) (sqlType : UInt8) :
    Exact At Bad (wireParamLiteral g9 sqlType) (paramFormat g9 sqlType) := by
  have hbody : ∀ present : UInt8, Exact At Bad
      (if present = 0 then pure (zeroLiteral sqlType) else presentLiteral g9 sqlType : Read Bytes)
      fun literal t => if present = 0 then literal = zeroLiteral sqlType ∧ t = []
        else ∃ p : Param, p.Fits sqlType ∧ p.NoQuote ∧ p ≠ .absent ∧ literal = p.literal g9 sqlType ∧ 1 :: t = p.encode := by
    intro present
    by_cases h0 : present = 0
    · simp only [if_pos h0]
      exact exact_pure _
    · simp only [if_neg h0]
      exact exact_presentLiteral g9 sqlType
  refine (exact_u8.bind fun present _ _ => Exact.unless Fault.noConfusion fun _ => hbody present).congr fun literal t => ?_
  constructor
  · rintro ⟨present, t1, t2, rfl, rfl, hpresent, hbody⟩
    by_cases h0 : present = 0
    · subst h0
      rw [if_pos rfl] at hbody
      obtain ⟨rfl, rfl⟩ := hbody
      exact ⟨.absent, trivial, trivial, rfl, rfl⟩
    · rw [if_neg h0] at hbody
      obtain ⟨p, hfits, hquote, -, hliteral, ht⟩ := hbody
      have h1 : present = 1 := by
        apply UInt8.toNat_inj.1
        have hle := UInt8.le_iff_toNat_le.1 (UInt8.not_lt.1 hpresent)
        have hne : present.toNat ≠ 0 := fun h => h0 (UInt8.toNat_inj.1 h)
        have hone : (1 : UInt8).toNat = 1 := rfl
        omega
      subst h1
      exact ⟨p, hfits, hquote, hliteral, ht⟩
  · rintro ⟨p, hfits, hquote, rfl, rfl⟩
    by_cases habsent : p = .absent
    · subst habsent
      exact ⟨0, [0], [], rfl, rfl, by decide, rfl, rfl⟩
    · have hcons : ∃ t, p.encode = 1 :: t := by
        cases p with
        | absent => exact absurd rfl habsent
        | int v => exact ⟨_, rfl⟩
        | float bits => exact ⟨_, rfl⟩
        | char s => exact ⟨_, rfl⟩
      obtain ⟨t, ht⟩ := hcons
      refine ⟨1, [1], t, ht, rfl, by decide, ?_⟩
      rw [if_neg (by decide)]
      exact ⟨p, hfits, hquote, habsent, rfl, ht.symm⟩

/-- A CHAR parameter with a quote is not read. -/
theorem wireParamLiteral_refuses (g9 : BitVec 32 → Bytes) {sqlType : UInt8} {p : Param} (hfits : p.Fits sqlType) (hquote : ¬p.NoQuote) :
    Refuses At (wireParamLiteral g9 sqlType) p.encode := by
  cases p with
  | char s =>
      obtain ⟨hint, hfloat, hlen⟩ := hfits
      refine exact_u8.bind_refuses (a := 1) rfl ?_
      rw [if_neg (by decide), if_neg (by decide), presentLiteral, if_neg hint, if_neg hfloat]
      exact charLiteral_refuses hlen (not_not.1 hquote)
  | _ => exact absurd trivial hquote

end Rmdb.Wire
