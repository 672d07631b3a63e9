import Rmdb.Parser.Lexer
import Rmdb.Wire.Params

/-!
# Substitution as a typed bind

The tokens of a statement whose markers are replaced by literals, against the tokens of its template with
the values in the places of the markers.  `Binds` walks over the template with its lexer: a literal
that is put in joins neither the lexeme before it nor the one behind it, ends no comment, has no NUL,
and stands where the lexer sees a marker.
-/

namespace Rmdb.Wire

open Rmdb.Lib (Munch isDigit digitsValue decimal decimalInt)
open Rmdb.Parser (State Token lexer start next token cStr lex)
open Rmdb.Txn (Bytes)

/-! ## Markers -/

section

variable {α β : Type}

/-- The element that the digits of a marker number. -/
def markerAt (xs : List α) (ds : Bytes) : Option α :=
  if ds = [] ∨ digitsValue ds = 0 then none else xs[digitsValue ds - 1]?

theorem markerNum_eq (ds : Bytes) : markerNum ds = BitVec.ofNat 32 (digitsValue ds) := by
  induction ds using List.reverseRecOn with
  | nil => rfl
  | append_singleton ds c ih =>
      rw [Lib.digitsValue_concat]
      unfold markerNum at ih ⊢
      rw [List.foldl_append, ih]
      show BitVec.ofNat 32 (digitsValue ds) * 10 + _ = _
      rw [BitVec.ofNat_add, BitVec.ofNat_mul]
      rfl

/-- Without an overflow. -/
theorem markerLiteral_eq (literals : List Bytes) {ds : Bytes} (h : digitsValue ds < 2 ^ 31) :
    markerLiteral literals ds = markerAt literals ds := by
  have hnat : (markerNum ds).toNat = digitsValue ds := by
    rw [markerNum_eq, BitVec.toNat_ofNat, Nat.mod_eq_of_lt (by omega)]
  have hint : (markerNum ds).toInt = digitsValue ds := by
    rw [BitVec.toInt_eq_toNat_of_lt (by omega), hnat]
  unfold markerLiteral markerAt
  rw [hint, hnat]
  by_cases hds : ds = []
  · rw [if_pos hds, if_pos (.inl hds)]
  · rw [if_neg hds]
    by_cases h0 : digitsValue ds = 0
    · have hlow : ¬1 ≤ (digitsValue ds : Int) := by omega
      have hcond : ds = [] ∨ digitsValue ds = 0 := .inr h0
      rw [if_neg hlow, if_pos hcond]
    · have hlow : 1 ≤ (digitsValue ds : Int) := by omega
      rw [if_pos hlow, if_neg (not_or.2 ⟨hds, h0⟩)]

theorem markerAt_isSome {xs : List α} {ys : List β} (h : xs.length = ys.length) (ds : Bytes) :
    (markerAt xs ds).isSome = (markerAt ys ds).isSome := by
  unfold markerAt
  split
  · rfl
  · by_cases hlt : digitsValue ds - 1 < ys.length
    · rw [List.getElem?_eq_getElem hlt, List.getElem?_eq_getElem (h ▸ hlt)]
      rfl
    · have hge : ys.length ≤ digitsValue ds - 1 := Nat.le_of_not_lt hlt
      rw [List.getElem?_eq_none hge, List.getElem?_eq_none (h ▸ hge)]
      rfl

end

/-- What stands behind a `$` makes it a marker. -/
def isMarker (tokens : List Token) (s : Bytes) : Bool := (markerAt tokens (s.takeWhile isDigit)).isSome

/-! ## Typed bind -/

/-- The token of a lexeme of a template, whose parameters are `tokens`. -/
def boundToken (tokens : List Token) (l : State × Bytes) : Option Token :=
  if l.1 = .marker then markerAt tokens (l.2.drop 1) else token l.1 l.2

/-- The tokens of a template with those of the parameters for its markers. -/
def bindTokens (tmpl : Bytes) (tokens : List Token) : List Token :=
  ((lexer (isMarker tokens)).lexemesFrom .idle [] (cStr tmpl)).filterMap (boundToken tokens)

/-- The token of a parameter. -/
def Param.token (g9 : BitVec 32 → Bytes) (sqlType : UInt8) : Param → Token
  | absent =>
    if sqlType = sqltypeInt32 then .int 0
    else if sqlType = sqltypeFloat32 then .float (zeroLiteral sqltypeFloat32) else .string []
  | int v => .int v
  | float bits => .float (floatLiteral g9 bits)
  | char s => .string s

/-! ## Where substitution binds -/

def isComment (st : State) : Prop := st = .lineComment ∨ st = .blockComment ∨ st = .blockStar

/-- The literal does not end the comment. -/
def KeepsComment (st : State) (literal : Bytes) : Prop :=
  if st = .lineComment then 10 ∉ literal else ¬[42, 47] <:+: literal

/-- The state of the lexer behind a literal. -/
def literalState (literal : Bytes) : State := if literal.head? = some quote then .closed else .int

/-- No literal put in for a marker of the text has a quote. -/
def NoQuoteAfter (literals : List Bytes) (s : Bytes) : Prop :=
  ∀ u ∈ s.tails, u.head? = some dollar → ∀ literal ∈ markerLiteral literals ((u.drop 1).takeWhile isDigit), quote ∉ literal

/-- A character that is copied: it does not join the literal `put` in before it, and a quote that no quote
follows stands outside quotes, or none is put in behind it. -/
def CopyOk (literals : List Bytes) (st : State) (put : Option State) (inStr : Bool) (c : UInt8) (s : Bytes) : Prop :=
  next (put.getD st) c = next st c ∧
    (next st c = none → c = quote → quote ∉ s → inStr = false ∨ NoQuoteAfter literals s)

/-- A literal that is put in: it has no NUL, it does not join the lexeme before it, and it ends no comment that it
stands in. -/
def PutOk (st : State) (put : Option State) (literal : Bytes) : Prop :=
  0 ∉ literal ∧ (next st dollar = none → ∀ c ∈ literal.head?, next (put.getD st) c = none) ∧
    (next st dollar ≠ none → isComment st ∧ KeepsComment st literal)

/-- A marker inside quotes is left alone; there the lexer is in a string or a comment. -/
def BindOk (literals : List Bytes) (st : State) (put : Option State) (inStr : Bool) (c : UInt8) (s : Bytes) : Prop :=
  let ds := s.takeWhile isDigit
  (c = dollar → inStr = false → digitsValue ds < 2 ^ 31) ∧
    if c = dollar ∧ inStr = false ∧ (markerAt literals ds).isSome then PutOk st put ((markerAt literals ds).getD [])
    else (next st c = none → c = dollar → (markerAt literals ds).isNone) ∧ CopyOk literals st put inStr c s

/-- The lexer of the template, the state behind a literal put in, the quotes, and how many characters of a marker
are passed over, behind a character. -/
def bindStep (literals : List Bytes) (st : State) (inStr : Bool) (c : UInt8) (s : Bytes) : State × Option State × Bool × Nat :=
  let ds := s.takeWhile isDigit
  if c = dollar ∧ inStr = false ∧ (markerAt literals ds).isSome then
    match next st c with
    | none => (.marker, some (literalState ((markerAt literals ds).getD [])), false, ds.length)
    | some st' => (st', none, false, ds.length)
  else ((next st c).getD (start (fun _ => false) c s), none, if c = quote then !inStr else inStr, 0)

/-- The substitution, inside quotes or not, and the lexer of the template in `st`, from here on.  `put` is the
state behind the literal that has just been put in. -/
def Binds (literals : List Bytes) : State → Option State → Bool → Nat → Bytes → Prop
  | _, _, _, _, [] => True
  | st, put, inStr, skip + 1, _ :: s => Binds literals st put inStr skip s
  | st, put, inStr, 0, c :: s =>
    BindOk literals st put inStr c s ∧
      Binds literals (bindStep literals st inStr c s).1 (bindStep literals st inStr c s).2.1
        (bindStep literals st inStr c s).2.2.1 (bindStep literals st inStr c s).2.2.2 s

instance (st : State) : Decidable (isComment st) := inferInstanceAs (Decidable (_ ∨ _))

instance (st : State) (literal : Bytes) : Decidable (KeepsComment st literal) :=
  inferInstanceAs (Decidable (if st = .lineComment then 10 ∉ literal else ¬[42, 47] <:+: literal))

instance (literals : List Bytes) (s : Bytes) : Decidable (NoQuoteAfter literals s) :=
  inferInstanceAs (Decidable (∀ u ∈ s.tails, u.head? = some dollar →
    ∀ literal ∈ markerLiteral literals ((u.drop 1).takeWhile isDigit), quote ∉ literal))

instance (literals : List Bytes) (st : State) (put : Option State) (inStr : Bool) (c : UInt8) (s : Bytes) :
    Decidable (CopyOk literals st put inStr c s) := inferInstanceAs (Decidable (_ ∧ _))

instance (st : State) (put : Option State) (literal : Bytes) : Decidable (PutOk st put literal) :=
  inferInstanceAs (Decidable (_ ∧ _))

instance (literals : List Bytes) (st : State) (put : Option State) (inStr : Bool) (c : UInt8) (s : Bytes) :
    Decidable (BindOk literals st put inStr c s) := inferInstanceAs (Decidable (_ ∧ _))

def decBinds (literals : List Bytes) : (st : State) → (put : Option State) → (inStr : Bool) → (skip : Nat) → (s : Bytes) →
    Decidable (Binds literals st put inStr skip s)
  | _, _, _, _, [] => isTrue trivial
  | st, put, inStr, skip + 1, _ :: s => decBinds literals st put inStr skip s
  | _, _, _, 0, _ :: s => @instDecidableAnd _ _ inferInstance (decBinds literals _ _ _ _ s)

instance (literals : List Bytes) (st : State) (put : Option State) (inStr : Bool) (skip : Nat) (s : Bytes) :
    Decidable (Binds literals st put inStr skip s) := decBinds literals st put inStr skip s

/-! ## Literals -/

/-- What the lexers do on a literal: in a statement it is the lexeme of its token, and a comment that it does not
end goes on behind it. -/
structure LiteralOk (literal : Bytes) (tok : Token) : Prop where
  reads : ∃ c l, literal = c :: l ∧
    ∀ s, (lexer fun _ => false).run (start (fun _ => false) c (l ++ s)) l = some (literalState literal)
  token : token (literalState literal) literal = some tok
  comment : ∀ {st}, isComment st → KeepsComment st literal →
    (lexer fun _ => false).run st literal = some (if st = .lineComment then .lineComment else .blockComment)

theorem run_lineComment {l : Bytes} (h : 10 ∉ l) (marker : Bytes → Bool) :
    (lexer marker).run .lineComment l = some .lineComment := by
  apply Munch.run_of_stays
  intro c hc
  have hne : c ≠ 10 := fun heq => h (heq ▸ hc)
  exact if_neg hne

/-- A text without the end of a comment, whose last character is no star. -/
theorem run_blockComment {l l0 : Bytes} {x : UInt8} (hl : l = l0 ++ [x]) (hx : x ≠ 42) (h : ¬[42, 47] <:+: l)
    (marker : Bytes → Bool) : ∀ {st}, st = State.blockComment ∨ st = State.blockStar ∧ l.head? ≠ some 47 →
      (lexer marker).run st l = some .blockComment := by
  induction l generalizing l0 with
  | nil => exact absurd hl (by simp)
  | cons c l ih =>
      intro st hst
      have hinfix : ¬[42, 47] <:+: l := fun hin => h (hin.trans (List.infix_cons_iff.2 (.inr (List.infix_refl l))))
      have hc47 : st = .blockStar → c ≠ 47 := by
        rintro rfl rfl
        rcases hst with hst | hst
        · cases hst
        · exact hst.2 rfl
      cases l0 with
      | nil =>
          obtain ⟨rfl, rfl⟩ := List.cons.inj hl
          show (next st c).bind _ = _
          rcases hst with rfl | ⟨rfl, -⟩
          · rw [show next .blockComment c = some .blockComment from if_neg hx]
            rfl
          · rw [show next .blockStar c = some .blockComment from (if_neg (hc47 rfl)).trans (if_neg hx)]
            rfl
      | cons c0 l0 =>
          have hl' : l = l0 ++ [x] := (List.cons.inj hl).2
          have hrest := @ih l0 hl' hinfix
          show (next st c).bind _ = _
          by_cases hc : c = 42
          · subst hc
            have hnext : next st 42 = some .blockStar := by
              rcases hst with rfl | ⟨rfl, -⟩
              · rfl
              · rfl
            rw [hnext]
            refine hrest (.inr ⟨rfl, fun hhead => h ?_⟩)
            cases l with
            | nil => cases hhead
            | cons c1 l1 =>
                obtain rfl := Option.some.inj hhead
                exact ⟨[], l1, rfl⟩
          · have hnext : next st c = some .blockComment := by
              rcases hst with rfl | ⟨rfl, -⟩
              · exact if_neg hc
              · exact (if_neg (hc47 rfl)).trans (if_neg hc)
            rw [hnext]
            exact hrest (.inl rfl)

/-- A literal that begins with no slash and ends with no star. -/
theorem run_comment {l l0 : Bytes} {x : UInt8} (hl : l = l0 ++ [x]) (hx : x ≠ 42) (hhead : l.head? ≠ some 47) {st : State}
    (hst : isComment st) (hkeep : KeepsComment st l) :
    (lexer fun _ => false).run st l = some (if st = .lineComment then .lineComment else .blockComment) := by
  unfold KeepsComment at hkeep
  rcases hst with rfl | rfl | rfl
  · exact run_lineComment hkeep _
  · exact run_blockComment hl hx hkeep _ (.inl rfl)
  · exact run_blockComment hl hx hkeep _ (.inr ⟨rfl, hhead⟩)

theorem start_quote {marker : Bytes → Bool} {s : Bytes} : start marker quote s = if quote ∈ s then .string else .bad := rfl

theorem run_string {s : Bytes} (h : quote ∉ s) (marker : Bytes → Bool) :
    (lexer marker).run .string (s ++ [quote]) = some .closed := by
  have hstays : (lexer marker).run .string s = some .string := by
    apply Munch.run_of_stays
    intro c hc
    have hne : c ≠ quote := fun heq => h (heq ▸ hc)
    exact if_neg hne
  rw [Munch.run_append hstays]
  rfl

theorem literalOk_char {s : Bytes} (h : quote ∉ s) : LiteralOk (quote :: (s ++ [quote])) (.string s) := by
  constructor
  · refine ⟨quote, s ++ [quote], rfl, fun rest => ?_⟩
    have hmem : quote ∈ s ++ [quote] ++ rest :=
      List.mem_append_left _ (List.mem_append_right _ (List.mem_singleton.2 rfl))
    rw [start_quote, if_pos hmem]
    exact run_string h _
  · show some (Token.string ((quote :: (s ++ [quote])).drop 1).dropLast) = _
    rw [List.drop_one, List.tail_cons, List.dropLast_concat]
  · intro st hst hkeep
    have hhead : (quote :: (s ++ [quote])).head? ≠ some 47 := fun heq => absurd (Option.some.inj heq) (by decide)
    have hlast : quote :: (s ++ [quote]) = (quote :: s) ++ [quote] := rfl
    exact run_comment hlast (by decide) hhead hst hkeep

theorem isDigit_start : ∀ c : UInt8, isDigit c = true → Parser.isBlank c = false ∧ Parser.isAlpha c = false ∧ c ≠ 45 ∧ c ≠ 43 ∧
    c ≠ quote ∧ c ≠ 42 ∧ c ≠ 47 ∧ c ≠ 0 := by decide +kernel

theorem start_digit {c : UInt8} (hc : isDigit c = true) (marker : Bytes → Bool) (s : Bytes) : start marker c s = .int := by
  obtain ⟨hblank, halpha, -⟩ := isDigit_start c hc
  unfold start
  rw [if_neg (by rw [hblank]; exact Bool.false_ne_true), if_neg (by rw [halpha]; exact Bool.false_ne_true), if_pos hc]

theorem run_digits {st : State} (hst : ∀ c, isDigit c = true → next st c = some st) {ds : Bytes}
    (hds : ∀ c ∈ ds, isDigit c = true) (marker : Bytes → Bool) : (lexer marker).run st ds = some st :=
  Munch.run_of_stays fun c hc => hst c (hds c hc)

theorem next_int_digit (c : UInt8) (hc : isDigit c = true) : next .int c = some .int := if_pos hc

theorem next_marker_digit (c : UInt8) (hc : isDigit c = true) : next .marker c = some .marker := if_pos hc

/-- The digits of a number, behind its first character. -/
theorem decimal_cons (n : Nat) : ∃ c l, decimal n = c :: l ∧ isDigit c = true ∧ ∀ d ∈ l, isDigit d = true := by
  have hdigits := Lib.isDigit_of_mem_decimal (n := n)
  cases hd : decimal n with
  | nil => exact absurd hd (Lib.decimal_ne_nil n)
  | cons c l =>
      rw [hd] at hdigits
      exact ⟨c, l, rfl, hdigits c List.mem_cons_self, fun d hmem => hdigits d (List.mem_cons_of_mem _ hmem)⟩

theorem atoi_decimalInt (v : BitVec 32) : Parser.atoi (decimalInt v.toInt) = v := by
  have hlow := BitVec.le_toInt v
  have hhigh := BitVec.toInt_lt (x := v)
  have hclamp : ∀ i : Int, i = v.toInt → BitVec.ofInt 32 (max (-2 ^ 63) (min (2 ^ 63 - 1) i)) = v := by
    rintro i rfl
    rw [min_eq_right (by omega), max_eq_right (by omega), BitVec.ofInt_toInt]
  unfold Parser.atoi decimalInt
  by_cases hneg : v.toInt < 0
  · rw [if_pos hneg]
    apply hclamp
    have hminus : (45 :: decimal v.toInt.natAbs).head? = some 45 := rfl
    rw [if_pos hminus, List.drop_one, List.tail_cons, Lib.digitsValue_decimal]
    omega
  · rw [if_neg hneg]
    apply hclamp
    obtain ⟨c, l, hd, hc, -⟩ := decimal_cons v.toInt.natAbs
    obtain ⟨-, -, h45, h43, -⟩ := isDigit_start c hc
    have hvalue : digitsValue (decimal v.toInt.natAbs) = v.toInt.natAbs := Lib.digitsValue_decimal _
    rw [hd] at hvalue ⊢
    have hminus : ¬(c :: l).head? = some 45 := fun h => h45 (Option.some.inj h)
    have hplus : ¬(c :: l).head? = some 43 := fun h => h43 (Option.some.inj h)
    rw [if_neg hminus, if_neg hplus, hvalue]
    omega

theorem literalOk_int (v : BitVec 32) : LiteralOk (decimalInt v.toInt) (.int v) := by
  have hlast : ∃ l0 x, decimalInt v.toInt = l0 ++ [x] ∧ isDigit x = true := by
    obtain ⟨c, l, hd, hc, hl⟩ := decimal_cons v.toInt.natAbs
    have hall : ∀ d ∈ decimal v.toInt.natAbs, isDigit d = true := Lib.isDigit_of_mem_decimal
    have hne := Lib.decimal_ne_nil v.toInt.natAbs
    have hx := hall _ (List.getLast_mem hne)
    unfold decimalInt
    split
    · exact ⟨45 :: (decimal v.toInt.natAbs).dropLast, _, by rw [List.cons_append, List.dropLast_concat_getLast], hx⟩
    · exact ⟨_, _, (List.dropLast_concat_getLast hne).symm, hx⟩
  have hfirst : ∃ c l, decimalInt v.toInt = c :: l ∧ (c = 45 ∨ isDigit c = true) ∧
      ∀ s, (lexer fun _ => false).run (start (fun _ => false) c (l ++ s)) l = some .int := by
    obtain ⟨c, l, hd, hc, hl⟩ := decimal_cons v.toInt.natAbs
    unfold decimalInt
    split
    · refine ⟨45, decimal v.toInt.natAbs, rfl, .inl rfl, fun s => ?_⟩
      rw [hd]
      show (next .minus c).bind _ = _
      rw [show next .minus c = some .int from if_pos hc]
      exact run_digits next_int_digit hl _
    · refine ⟨c, l, hd, .inr hc, fun s => ?_⟩
      rw [start_digit hc]
      exact run_digits next_int_digit hl _
  obtain ⟨c, l, heq, hc, hrun⟩ := hfirst
  have hstate : literalState (decimalInt v.toInt) = .int := by
    unfold literalState
    rw [heq]
    refine if_neg fun h => ?_
    obtain rfl := Option.some.inj h
    rcases hc with hc | hc
    · cases hc
    · cases hc
  constructor
  · rw [hstate]
    exact ⟨c, l, heq, hrun⟩
  · rw [hstate]
    show some (Token.int (Parser.atoi _)) = _
    rw [atoi_decimalInt]
  · intro st hst hkeep
    obtain ⟨l0, x, hlast, hx⟩ := hlast
    refine run_comment hlast (isDigit_start x hx).2.2.2.2.2.1 ?_ hst hkeep
    rw [heq]
    intro h
    obtain rfl := Option.some.inj h
    rcases hc with hc | hc
    · cases hc
    · cases hc

end Rmdb.Wire
