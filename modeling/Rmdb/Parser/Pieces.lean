import Rmdb.Parser.Fast

/-!
# What the fast parser takes off the tokens

Each reader of the fast parser against the lexer, on plain text: a name is a word (`fpIdent_tokens`), a character
an operator, a value one token of that value (`fpParseValue_tokens`).  A keyword may be read off the front of a
longer word; where the grammar has the keyword, it is the whole word (`fpKw_tail`).  Every round of a loop reads
a character (`rounds_enough`).
-/

namespace Rmdb.Parser

open Rmdb.Lib (isDigit digitsValue listLoop listLoop_enough)
open Rmdb.Txn (Bytes fneg)
open Rmdb.Sql (SvValue)

variable {p q r w : Bytes} {t : Token} {u : Toks}

/-! ## Names and characters -/

theorem fpIdent_tokens (h : Plain p) (hf : fpIdent p = some (w, q)) :
    tokens p = wordToken w :: tokens q ∧ Plain q ∧ w ≠ [] ∧ ∀ d ∈ q.head?, isWordChar d = false := by
  have hplain := h.skipws
  rw [← tokens_skipws]
  unfold fpIdent fpSkipws at hf
  generalize p.dropWhile isWs = p' at hf hplain ⊢
  cases p' with
  | nil => cases hf
  | cons c s =>
      dsimp only at hf
      split at hf
      · next hc =>
          obtain ⟨rfl, rfl⟩ := Prod.mk.inj (Option.some.inj hf)
          cases halpha : isAlpha c with
          | true =>
              obtain ⟨h1, h2⟩ := tokens_word halpha s
              exact ⟨h1, h2 hplain, List.cons_ne_nil _ _, head?_dropWhile _ _⟩
          | false =>
              rw [halpha, Bool.false_or, decide_eq_true_eq] at hc
              rw [hc] at hplain
              exact absurd hplain (not_plain_underscore s)
      · cases hf

theorem fpChar_some {c : UInt8} (hf : fpChar c p = some q) : p.dropWhile isWs = c :: q := by
  unfold fpChar fpSkipws at hf
  generalize p.dropWhile isWs = p' at hf ⊢
  cases p' with
  | nil => cases hf
  | cons d s =>
      dsimp only at hf
      split at hf
      · next hd => rw [hd, Option.some.inj hf]
      · cases hf

theorem fpChar_none {c : UInt8} (hf : fpChar c p = none) (s : Bytes) : p.dropWhile isWs ≠ c :: s := by
  intro hs
  unfold fpChar fpSkipws at hf
  rw [hs] at hf
  dsimp only at hf
  rw [if_pos rfl] at hf
  cases hf

theorem fpChar_tokens {c : UInt8} (hc : ∀ s, start (fun _ => false) c s = .op) (h : Plain p) (hf : fpChar c p = some q) :
    tokens p = .op [c] :: tokens q ∧ Plain q := by
  have hs := fpChar_some hf
  have hplain := h.skipws
  rw [hs] at hplain
  rw [← tokens_skipws, hs]
  exact ⟨(tokens_op hc q).1, (tokens_op hc q).2 hplain⟩

theorem fpChar_none_tokens {c : UInt8} (h : Plain p) (hf : fpChar c p = none) : tokens p ≠ .op [c] :: u := by
  intro hs
  obtain ⟨l, r, st, hp, -, htok⟩ := first_text h hs
  rw [← op_of_token htok] at hp
  exact fpChar_none hf r hp

theorem fpTrailingOk_tokens (h : Plain p) (hf : fpTrailingOk p = true) :
    tokens p = [] ∨ tokens p = [.op [59]] := by
  unfold fpTrailingOk fpSkipws at hf
  cases hc : fpChar 59 p with
  | none =>
      rw [hc, Option.getD_none, List.isEmpty_iff] at hf
      refine .inl ?_
      rw [← tokens_skipws, ← tokens_skipws, hf]
      rfl
  | some q =>
      rw [hc, Option.getD_some, List.isEmpty_iff] at hf
      refine .inr ?_
      rw [(fpChar_tokens (fun _ => rfl) h hc).1, ← tokens_skipws, hf]
      rfl

/-! ## Keywords -/

/-- The keyword `k` as the fast parser has it, and `K` as the lexer has it. -/
def Spelled (k K : String) : Prop :=
  bytesOf k ≠ [] ∧ (∀ c ∈ bytesOf k, isAlpha c = true ∧ lower c = c) ∧ (bytesOf k).map upper = bytesOf K

/-- What the keywords of a token are compared with. -/
def Token.spelling : Token → Bytes
  | .keyword u => u
  | .bool true => bytesOf "TRUE"
  | .bool false => bytesOf "FALSE"
  | .identifier w => w.map upper
  | .op t => t
  | .int _ => []
  | .float _ => []
  | .string _ => []

theorem spelling_wordToken (w : Bytes) : (wordToken w).spelling = w.map upper := by
  unfold wordToken
  dsimp only
  split
  · rfl
  · split
    · next h => exact h.symm
    · split
      · next h => exact h.symm
      · rfl

theorem lower_upper_all : ∀ c : UInt8, upper (lower c) = upper c ∧ lower (upper c) = lower c ∧
    (isAlpha (lower c) = true → isAlpha c = true) := by
  decide +kernel

theorem kwFrom_some {ks : Bytes} (hf : kwFrom ks q = some r) : ∃ w, q = w ++ r ∧ w.map lower = ks := by
  induction ks generalizing q with
  | nil => exact ⟨[], Option.some.inj hf, rfl⟩
  | cons k ks ih =>
      cases q with
      | nil => cases hf
      | cons c q =>
          unfold kwFrom at hf
          split at hf
          · next hc =>
              obtain ⟨w, rfl, rfl⟩ := ih hf
              exact ⟨c :: w, rfl, by rw [List.map_cons, hc]⟩
          · cases hf

theorem kwFrom_append (w r : Bytes) : kwFrom (w.map lower) (w ++ r) = some r := by
  induction w with
  | nil => rfl
  | cons c w ih =>
      show (if lower c = lower c then _ else _) = _
      rw [if_pos rfl]
      exact ih

variable {k K : String}

/-- The word that a keyword was read off. -/
theorem fpKw_tokens (hk : Spelled k K) (h : Plain p) (hf : fpKw k p = some q) :
    ∃ w, w.map upper = bytesOf K ∧ tokens p = wordToken (w ++ q.takeWhile isWordChar) :: tokens (q.dropWhile isWordChar) ∧
      Plain (q.dropWhile isWordChar) := by
  obtain ⟨hne, hletters, hupper⟩ := hk
  obtain ⟨w, hp, hw⟩ := kwFrom_some hf
  have hplain := h.skipws
  unfold fpSkipws at hp
  have halpha : ∀ c ∈ w, isAlpha c = true := by
    intro c hc
    refine (lower_upper_all c).2.2 (hletters _ ?_).1
    rw [← hw]
    exact List.mem_map_of_mem hc
  refine ⟨w, ?_, ?_⟩
  · rw [← hupper, ← hw, List.map_map]
    exact List.map_congr_left fun c _ => (lower_upper_all c).1.symm
  · rw [← tokens_skipws, hp]
    rw [hp] at hplain
    cases w with
    | nil => exact absurd hw.symm hne
    | cons c w =>
        obtain ⟨h1, h2⟩ := tokens_word (halpha c List.mem_cons_self) (w ++ q)
        have hword : ∀ d ∈ w, isWordChar d = true := fun d hd => isWordChar_of_isAlpha (halpha d (List.mem_cons_of_mem _ hd))
        rw [List.takeWhile_append_of_pos hword, List.dropWhile_append_of_pos hword] at h1
        rw [List.dropWhile_append_of_pos hword] at h2
        exact ⟨h1, h2 hplain⟩

theorem fpKw_head (hk : Spelled k K) (h : Plain p) (hf : fpKw k p = some q) :
    ∃ t u, tokens p = t :: u ∧ bytesOf K <+: t.spelling := by
  obtain ⟨w, hw, htokens, -⟩ := fpKw_tokens hk h hf
  refine ⟨_, _, htokens, ?_⟩
  rw [spelling_wordToken, List.map_append, hw]
  exact List.prefix_append _ _

/-- Where the grammar has the keyword, the fast parser has read it. -/
theorem fpKw_tail (hk : Spelled k K) (h : Plain p) (hf : fpKw k p = some q) (ht : tokens p = kw K :: u) :
    u = tokens q ∧ Plain q := by
  obtain ⟨w, hw, htokens, hplain⟩ := fpKw_tokens hk h hf
  rw [ht] at htokens
  obtain ⟨hword, rfl⟩ := List.cons.inj htokens
  have hempty : q.takeWhile isWordChar = [] := by
    have hspell := congrArg Token.spelling hword
    rw [spelling_wordToken, List.map_append, hw] at hspell
    have hlen := congrArg List.length hspell
    rw [List.length_append, List.length_map] at hlen
    exact List.length_eq_zero_iff.1 (Nat.left_eq_add.1 hlen)
  have hq : q.dropWhile isWordChar = q := by
    have := List.takeWhile_append_dropWhile (p := isWordChar) (l := q)
    rwa [hempty, List.nil_append] at this
  rw [hq] at hplain ⊢
  exact ⟨rfl, hplain⟩

theorem keyword_of_token {st : State} {W l : Bytes} (h : token st l = some (.keyword W)) : l.map upper = W := by
  cases st with
  | word =>
      have hspell := congrArg Token.spelling (Option.some.inj h)
      rwa [spelling_wordToken] at hspell
  | _ => cases h

theorem fpKw_none (hk : Spelled k K) (h : Plain p) (hf : fpKw k p = none) : tokens p ≠ kw K :: u := by
  intro hs
  obtain ⟨l, r, st, hp, -, htok⟩ := first_text h hs
  have hl : l.map lower = bytesOf k := by
    have hupper : l.map upper = (bytesOf k).map upper := (keyword_of_token htok).trans hk.2.2.symm
    have hlower := congrArg (List.map lower) hupper
    rw [List.map_map, List.map_map] at hlower
    calc l.map lower = l.map (lower ∘ upper) := List.map_congr_left fun c _ => (lower_upper_all c).2.1.symm
      _ = (bytesOf k).map (lower ∘ upper) := hlower
      _ = (bytesOf k).map id := List.map_congr_left fun c hc => ((lower_upper_all c).2.1).trans (hk.2.1 c hc).2
      _ = bytesOf k := List.map_id _
  unfold fpKw fpSkipws at hf
  rw [hp, ← hl, kwFrom_append] at hf
  cases hf

/-! ## Values -/

def valueOf (atof : Bytes → BitVec 32) : Token → Option SvValue
  | .int v => some (.int v)
  | .float text => some (.float (atof text))
  | .string s => some (.str s)
  | .bool b => some (.bool b)
  | _ => none

/-- What `atof` makes of the sign in front of a numeral. -/
structure Signed (atof : Bytes → BitVec 32) : Prop where
  plus : ∀ c w, isDigit c = true → atof (43 :: c :: w) = atof (c :: w)
  minus : ∀ c w, isDigit c = true → atof (45 :: c :: w) = fneg (atof (c :: w))

/-- A numeral as the fast parser cuts it out of a text. -/
structure Numeral (sign ds r q : Bytes) : Prop where
  text : q = sign ++ ds ++ r
  sign : IsSign sign
  ne : ds ≠ []
  digits : ∀ d ∈ ds, isDigit d = true
  stop : ∀ d ∈ r.head?, isDigit d = false

theorem isSign_take (q : Bytes) : IsSign (q.take (signLen q)) := by
  unfold signLen
  split
  · next h =>
      rcases h with h | h
      · obtain ⟨s, rfl⟩ := List.head?_eq_some_iff.1 h
        exact .inr (.inr rfl)
      · obtain ⟨s, rfl⟩ := List.head?_eq_some_iff.1 h
        exact .inr (.inl rfl)
  · exact .inl rfl

theorem fpDigits_some {sign ds : Bytes} (hf : fpDigits q = some (sign, ds, r)) : Numeral sign ds r q := by
  unfold fpDigits at hf
  dsimp only at hf
  split at hf
  · cases hf
  · next hne =>
      obtain ⟨rfl, hrest⟩ := Prod.mk.inj (Option.some.inj hf)
      obtain ⟨rfl, rfl⟩ := Prod.mk.inj hrest
      refine ⟨?_, isSign_take q, fun h => hne (List.isEmpty_iff.2 h), fun d hd => List.mem_takeWhile_imp hd, head?_dropWhile _ _⟩
      rw [List.append_assoc, List.takeWhile_append_dropWhile, List.take_append_drop]

/-- What stands behind a numeral: digits behind a point, or anything but a point. -/
theorem fpFraction_some {least : Bool} {fs : Option Bytes} (hf : fpFraction least r = some (fs, q)) :
    (fs = none ∧ q = r ∧ r.head? ≠ some 46) ∨
      ∃ ds, fs = some ds ∧ r = 46 :: ds ++ q ∧ (∀ d ∈ ds, isDigit d = true) ∧ ∀ d ∈ q.head?, isDigit d = false := by
  unfold fpFraction at hf
  split at hf
  · next h =>
      obtain ⟨s, rfl⟩ := List.head?_eq_some_iff.1 h
      split at hf
      · cases hf
      · obtain ⟨rfl, rfl⟩ := Prod.mk.inj (Option.some.inj hf)
        refine .inr ⟨_, rfl, ?_, fun d hd => List.mem_takeWhile_imp hd, head?_dropWhile _ _⟩
        rw [List.cons_append, List.drop_one, List.tail_cons, List.takeWhile_append_dropWhile]
  · next h =>
      obtain ⟨rfl, rfl⟩ := Prod.mk.inj (Option.some.inj hf)
      exact .inl ⟨rfl, rfl, h⟩

/-- The token of a numeral with its fraction. -/
def numberToken (num : Bytes) : Option Bytes → Token
  | none => .int (atoi num)
  | some fs => .float (num ++ 46 :: fs)

theorem valueOf_numberToken (atof : Bytes → BitVec 32) (num : Bytes) (fs : Option Bytes) :
    valueOf atof (numberToken num fs) = some (numberLit atof num fs) := by
  cases fs with
  | none => rfl
  | some fs => rfl

theorem number_tokens {least : Bool} {sign ds s : Bytes} {fs : Option Bytes} (hn : Numeral sign ds r p) (h : Plain p)
    (hf : fpFraction least r = some (fs, s)) :
    tokens p = numberToken (sign ++ ds) fs :: tokens s ∧ Plain s ∧
      (fs = none → -2 ^ 31 ≤ intOf (sign ++ ds) ∧ intOf (sign ++ ds) < 2 ^ 31) := by
  obtain ⟨rfl, hsign, hne, hdigits, hstop⟩ := hn
  rcases fpFraction_some hf with ⟨rfl, rfl, hpoint⟩ | ⟨fs, rfl, rfl, hfs, hstop'⟩
  · obtain ⟨h1, h2, h3⟩ := tokens_int hsign hne hdigits (fun d hd => ⟨hstop d hd, fun h46 => hpoint (h46 ▸ hd)⟩) h
    exact ⟨h1, h3, fun _ => h2⟩
  · rw [← List.append_assoc] at h ⊢
    obtain ⟨h1, h2⟩ := tokens_float hsign hne hdigits hfs hstop' h
    exact ⟨h1, h2, fun h => nomatch h⟩

theorem digit_ne_sign_all : ∀ c : UInt8, isDigit c = true → c ≠ 45 ∧ c ≠ 43 ∧ c ≠ 46 ∧ isWs c = false := by decide +kernel

theorem intOf_digits {ds : Bytes} (hdigits : ∀ d ∈ ds, isDigit d = true) : intOf ds = digitsValue ds := by
  have hne : ∀ d ∈ ds.head?, d ≠ 45 ∧ d ≠ 43 := by
    intro d hd
    obtain ⟨h1, h2, -⟩ := digit_ne_sign_all d (hdigits d (List.mem_of_mem_head? hd))
    exact ⟨h1, h2⟩
  unfold intOf
  rw [if_neg fun h : ds.head? = some 45 => (hne 45 h).1 rfl, if_neg fun h : ds.head? = some 43 => (hne 43 h).2 rfl]

theorem atoi_eq (num : Bytes) : atoi num = BitVec.ofInt 32 (max (-2 ^ 63) (min (2 ^ 63 - 1) (intOf num))) := rfl

theorem atoi_plus {ds : Bytes} (hdigits : ∀ d ∈ ds, isDigit d = true) : atoi (43 :: ds) = atoi ds := by
  rw [atoi_eq, atoi_eq, intOf_digits hdigits]
  rfl

/-- The literal of a numeral does not depend on a plus sign. -/
theorem numberLit_plus {atof : Bytes → BitVec 32} (hatof : Signed atof) {ds : Bytes} (hne : ds ≠ [])
    (hdigits : ∀ d ∈ ds, isDigit d = true) (fs : Option Bytes) : numberLit atof (43 :: ds) fs = numberLit atof ds fs := by
  cases fs with
  | none => exact congrArg SvValue.int (atoi_plus hdigits)
  | some fs =>
      obtain ⟨d, ds, rfl⟩ := List.exists_cons_of_ne_nil hne
      exact congrArg SvValue.float (hatof.plus d _ (hdigits d List.mem_cons_self))

section
variable {atof : Bytes → BitVec 32} {v : SvValue}

theorem fpParseNumber_some (hf : fpParseNumber atof p = some (v, q)) :
    ∃ sign ds r fs, fpDigits (fpSkipws p) = some (sign, ds, r) ∧ fpFraction true r = some (fs, q) ∧
      v = numberLit atof ((if sign = [45] then [45] else []) ++ ds) fs := by
  obtain ⟨⟨sign, ds, r⟩, hdigits, hf⟩ := Option.bind_eq_some_iff.1 hf
  obtain ⟨⟨fs, s⟩, hfraction, hf⟩ := Option.bind_eq_some_iff.1 hf
  obtain ⟨rfl, rfl⟩ := Prod.mk.inj (Option.some.inj hf)
  exact ⟨sign, ds, r, fs, hdigits, hfraction, rfl⟩

theorem fpParseString_some (hf : fpParseString p = some (v, q)) :
    ∃ s, fpChar 39 p = some s ∧ fpChar 39 (s.dropWhile (· ≠ 39)) = some q ∧ v = .str (s.takeWhile (· ≠ 39)) := by
  obtain ⟨s, hopen, hf⟩ := Option.bind_eq_some_iff.1 hf
  obtain ⟨q', hclose, hf⟩ := Option.bind_eq_some_iff.1 hf
  obtain ⟨rfl, rfl⟩ := Prod.mk.inj (Option.some.inj hf)
  exact ⟨s, hopen, hclose, rfl⟩

theorem fpInsertValue_some (hf : fpInsertValue atof p = some (v, q)) :
    fpParseString p = some (v, q) ∨ ∃ sign ds r fs, fpDigits (fpSkipws p) = some (sign, ds, r) ∧
      fpFraction false r = some (fs, q) ∧ v = numberLit atof (sign ++ ds) fs := by
  unfold fpInsertValue at hf
  split at hf
  · exact .inl hf
  · obtain ⟨⟨sign, ds, r⟩, hdigits, hf⟩ := Option.bind_eq_some_iff.1 hf
    obtain ⟨⟨fs, s⟩, hfraction, hf⟩ := Option.bind_eq_some_iff.1 hf
    obtain ⟨rfl, rfl⟩ := Prod.mk.inj (Option.some.inj hf)
    exact .inr ⟨sign, ds, r, fs, hdigits, hfraction, rfl⟩

theorem fpCond_some {c : BinaryExpr} (hf : fpCond atof p = some (c, q)) :
    ∃ col p1 p2 v, fpIdent p = some (col, p1) ∧ fpChar 61 p1 = some p2 ∧ fpParseValue atof p2 = some (v, q) ∧
      c = ⟨⟨[], col⟩, .eq, .value v⟩ := by
  obtain ⟨⟨col, p1⟩, h1, hf⟩ := Option.bind_eq_some_iff.1 hf
  obtain ⟨p2, h2, hf⟩ := Option.bind_eq_some_iff.1 hf
  obtain ⟨⟨v, p3⟩, h3, hf⟩ := Option.bind_eq_some_iff.1 hf
  obtain ⟨rfl, rfl⟩ := Prod.mk.inj (Option.some.inj hf)
  exact ⟨col, p1, p2, v, h1, h2, h3, rfl⟩

/-- A value, or a column with a sign and a number. -/
theorem fpSetRhs_some {col : Bytes} {s : SetClause} (hf : fpSetRhs atof col p = some (s, q)) :
    (∃ v, fpParseValue atof p = some (v, q) ∧ s = { colName := col, val := v }) ∨
      ∃ rhs p1 c p2 v, fpIdent p = some (rhs, p1) ∧ fpSkipws p1 = c :: p2 ∧ (c = 43 ∨ c = 45) ∧
        fpParseNumber atof p2 = some (v, q) ∧ s = ⟨col, v, true, rhs, decide (c = 45)⟩ := by
  have hvalue : (fpParseValue atof p).map (fun x => (({ colName := col, val := x.1 } : SetClause), x.2)) = some (s, q) →
      ∃ v, fpParseValue atof p = some (v, q) ∧ s = { colName := col, val := v } := by
    intro hv
    obtain ⟨⟨v, q'⟩, hread, hx⟩ := Option.map_eq_some_iff.1 hv
    obtain ⟨rfl, rfl⟩ := Prod.mk.inj hx
    exact ⟨v, hread, rfl⟩
  unfold fpSetRhs at hf
  cases hident : fpIdent p with
  | none =>
      rw [hident] at hf
      exact .inl (hvalue hf)
  | some x =>
      obtain ⟨rhs, p1⟩ := x
      rw [hident] at hf
      dsimp only at hf
      cases hnext : fpSkipws p1 with
      | nil =>
          rw [hnext] at hf
          exact .inl (hvalue hf)
      | cons c p2 =>
          rw [hnext] at hf
          dsimp only at hf
          split at hf
          · next hc =>
              obtain ⟨⟨v, q'⟩, hread, hx⟩ := Option.map_eq_some_iff.1 hf
              obtain ⟨rfl, rfl⟩ := Prod.mk.inj hx
              exact .inr ⟨rhs, p1, c, p2, v, rfl, hnext, hc, hread, rfl⟩
          · exact .inl (hvalue hf)

theorem fpSetClause_some {s : SetClause} (hf : fpSetClause atof p = some (s, q)) :
    ∃ col p1 p2, fpIdent p = some (col, p1) ∧ fpChar 61 p1 = some p2 ∧ fpSetRhs atof col p2 = some (s, q) := by
  obtain ⟨⟨col, p1⟩, h1, hf⟩ := Option.bind_eq_some_iff.1 hf
  obtain ⟨p2, h2, hf⟩ := Option.bind_eq_some_iff.1 hf
  exact ⟨col, p1, p2, h1, h2, hf⟩

theorem fpParseNumber_tokens (hatof : Signed atof) (h : Plain p) (hf : fpParseNumber atof p = some (v, q)) :
    ∃ t, tokens p = t :: tokens q ∧ Plain q ∧ valueOf atof t = some v := by
  obtain ⟨sign, ds, r, fs, hdigits, hfraction, rfl⟩ := fpParseNumber_some hf
  have hn := fpDigits_some hdigits
  obtain ⟨h1, h2, -⟩ := number_tokens hn h.skipws hfraction
  rw [← tokens_skipws]
  refine ⟨_, h1, h2, ?_⟩
  rw [valueOf_numberToken]
  rcases hn.sign with rfl | rfl | rfl
  · rfl
  · exact congrArg some (numberLit_plus hatof hn.ne hn.digits fs)
  · rfl

theorem fpParseString_tokens (h : Plain p) (hf : fpParseString p = some (v, q)) :
    ∃ t, tokens p = t :: tokens q ∧ Plain q ∧ valueOf atof t = some v := by
  obtain ⟨s, hopen, hclose, rfl⟩ := fpParseString_some hf
  have hs : s = s.takeWhile (· ≠ 39) ++ 39 :: q := by
    have hrest := fpChar_some hclose
    cases hd : s.dropWhile (· ≠ 39) with
    | nil =>
        rw [hd] at hrest
        cases hrest
    | cons d s' =>
        have hquote : d = 39 := by
          have := head?_dropWhile (fun c => decide (c ≠ 39)) s d (by rw [hd]; rfl)
          exact of_not_not (of_decide_eq_false this)
        subst hquote
        rw [hd] at hrest
        rw [show q = s' from (List.cons.inj hrest).2.symm, ← hd, List.takeWhile_append_dropWhile]
  have hplain := h.skipws
  obtain ⟨h1, h2⟩ := tokens_string (r := q) fun d hd => of_decide_eq_true (List.mem_takeWhile_imp (p := fun c => decide (c ≠ 39)) hd)
  rw [← hs, ← fpChar_some hopen] at h1 h2
  rw [← tokens_skipws]
  exact ⟨_, h1, h2 hplain, rfl⟩

theorem fpParseValue_tokens (hatof : Signed atof) (h : Plain p) (hf : fpParseValue atof p = some (v, q)) :
    ∃ t, tokens p = t :: tokens q ∧ Plain q ∧ valueOf atof t = some v := by
  unfold fpParseValue at hf
  split at hf
  · exact fpParseString_tokens h hf
  · exact fpParseNumber_tokens hatof h hf

theorem fpInsertValue_tokens (h : Plain p) (hf : fpInsertValue atof p = some (v, q)) :
    ∃ t, tokens p = t :: tokens q ∧ Plain q ∧ valueOf atof t = some v := by
  rcases fpInsertValue_some hf with hf | ⟨sign, ds, r, fs, hdigits, hfraction, rfl⟩
  · exact fpParseString_tokens h hf
  · obtain ⟨h1, h2, -⟩ := number_tokens (fpDigits_some hdigits) h.skipws hfraction
    rw [← tokens_skipws]
    exact ⟨_, h1, h2, valueOf_numberToken atof _ fs⟩

/-- The count of `LIMIT`, which is of type `int`. -/
theorem fpParseUint_tokens {n : BitVec 32} (h : Plain p) (hf : fpParseUint p = some (n, q)) (hq : q.head? ≠ some 46) :
    tokens p = .int n :: tokens q ∧ Plain q ∧ 0 ≤ n.toInt := by
  unfold fpParseUint fpSkipws at hf
  dsimp only at hf
  split at hf
  · cases hf
  · next hne =>
      obtain ⟨rfl, rfl⟩ := Prod.mk.inj (Option.some.inj hf)
      have hplain := h.skipws
      rw [← tokens_skipws]
      generalize p.dropWhile isWs = p' at hne hq hplain ⊢
      have hdigits : ∀ d ∈ p'.takeWhile isDigit, isDigit d = true := fun d hd => List.mem_takeWhile_imp hd
      have hn : Numeral [] (p'.takeWhile isDigit) (p'.dropWhile isDigit) p' :=
        ⟨(List.takeWhile_append_dropWhile).symm, .inl rfl, fun h => hne (List.isEmpty_iff.2 h), hdigits, head?_dropWhile _ _⟩
      have hfraction : fpFraction true (p'.dropWhile isDigit) = some (none, p'.dropWhile isDigit) := if_neg hq
      obtain ⟨h1, h2, h3⟩ := number_tokens hn hplain hfraction
      obtain ⟨-, hlt⟩ := h3 rfl
      rw [List.nil_append, intOf_digits hdigits] at hlt
      have hatoi : atoi (p'.takeWhile isDigit) = BitVec.ofNat 32 (digitsValue (p'.takeWhile isDigit)) := by
        rw [atoi_eq, intOf_digits hdigits, min_eq_right (by omega), max_eq_right (by omega), BitVec.ofInt_natCast]
      refine ⟨?_, h2, ?_⟩
      · rw [h1]
        show Token.int (atoi ([] ++ _)) :: _ = _
        rw [List.nil_append, hatoi]
      · have hsmall : ((digitsValue (p'.takeWhile isDigit) : Nat) : Int).bmod (2 ^ 32) = digitsValue (p'.takeWhile isDigit) :=
          Int.bmod_eq_of_le (by omega) (by omega)
        rw [BitVec.toInt_ofNat', hsmall]
        omega

end

/-! ## Rounds -/

theorem fpIdent_shorter (hf : fpIdent p = some (w, q)) : q.length < p.length := by
  have hle : (p.dropWhile isWs).length ≤ p.length := List.length_dropWhile_le isWs p
  unfold fpIdent fpSkipws at hf
  generalize p.dropWhile isWs = p' at hf hle
  cases p' with
  | nil => cases hf
  | cons c s =>
      dsimp only at hf
      split at hf
      · obtain ⟨-, rfl⟩ := Prod.mk.inj (Option.some.inj hf)
        have := List.length_dropWhile_le isWordChar s
        rw [List.length_cons] at hle
        omega
      · cases hf

theorem fpChar_shorter {c : UInt8} (hf : fpChar c p = some q) : q.length < p.length := by
  have hle : (p.dropWhile isWs).length ≤ p.length := List.length_dropWhile_le isWs p
  rw [fpChar_some hf, List.length_cons] at hle
  omega

theorem fpKw_shorter {k : String} (hf : fpKw k p = some q) : q.length ≤ p.length := by
  obtain ⟨w, hp, -⟩ := kwFrom_some hf
  have hle : (fpSkipws p).length ≤ p.length := List.length_dropWhile_le isWs p
  rw [hp, List.length_append] at hle
  omega

theorem fpDigits_shorter {sign ds : Bytes} (hf : fpDigits q = some (sign, ds, r)) : r.length < q.length := by
  obtain ⟨rfl, -, hne, -⟩ := fpDigits_some hf
  have := List.length_pos_iff.2 hne
  rw [List.length_append, List.length_append]
  omega

theorem fpFraction_shorter {least : Bool} {fs : Option Bytes} (hf : fpFraction least r = some (fs, q)) : q.length ≤ r.length := by
  rcases fpFraction_some hf with ⟨-, rfl, -⟩ | ⟨ds, -, rfl, -⟩
  · exact le_rfl
  · rw [List.length_append]
    omega

section
variable {atof : Bytes → BitVec 32} {v : SvValue}

theorem fpParseNumber_shorter (hf : fpParseNumber atof p = some (v, q)) : q.length < p.length := by
  obtain ⟨sign, ds, r, fs, hdigits, hfraction, -⟩ := fpParseNumber_some hf
  exact (fpFraction_shorter hfraction).trans_lt ((fpDigits_shorter hdigits).trans_le (List.length_dropWhile_le isWs p))

theorem fpParseString_shorter (hf : fpParseString p = some (v, q)) : q.length < p.length := by
  obtain ⟨s, hopen, hclose, -⟩ := fpParseString_some hf
  exact (fpChar_shorter hclose).trans_le ((List.length_dropWhile_le _ s).trans (fpChar_shorter hopen).le)

theorem fpParseValue_shorter (hf : fpParseValue atof p = some (v, q)) : q.length < p.length := by
  unfold fpParseValue at hf
  split at hf
  · exact fpParseString_shorter hf
  · exact fpParseNumber_shorter hf

theorem fpCond_shorter {c : BinaryExpr} (hf : fpCond atof p = some (c, q)) : q.length < p.length := by
  obtain ⟨col, p1, p2, v, h1, h2, h3, -⟩ := fpCond_some hf
  exact (fpParseValue_shorter h3).trans ((fpChar_shorter h2).trans (fpIdent_shorter h1))

theorem fpSetRhs_shorter {col : Bytes} {s : SetClause} (hf : fpSetRhs atof col p = some (s, q)) : q.length < p.length := by
  rcases fpSetRhs_some hf with ⟨v, hread, -⟩ | ⟨rhs, p1, c, p2, v, hident, hnext, -, hread, -⟩
  · exact fpParseValue_shorter hread
  · have hle : (fpSkipws p1).length ≤ p1.length := List.length_dropWhile_le isWs p1
    have h1 := fpIdent_shorter hident
    have h2 := fpParseNumber_shorter hread
    rw [hnext, List.length_cons] at hle
    omega

theorem fpSetClause_shorter {s : SetClause} (hf : fpSetClause atof p = some (s, q)) : q.length < p.length := by
  obtain ⟨col, p1, p2, h1, h2, h3⟩ := fpSetClause_some hf
  exact (fpSetRhs_shorter h3).trans ((fpChar_shorter h2).trans (fpIdent_shorter h1))

theorem fpInsertValue_shorter (hf : fpInsertValue atof p = some (v, q)) : q.length < p.length := by
  rcases fpInsertValue_some hf with hf | ⟨sign, ds, r, fs, hdigits, hfraction, -⟩
  · exact fpParseString_shorter hf
  · exact (fpFraction_shorter hfraction).trans_lt ((fpDigits_shorter hdigits).trans_le (List.length_dropWhile_le isWs p))

/-- The loops of the source have no bound on their rounds; one for each character is enough. -/
theorem rounds_enough {n : Nat} (hn : p.length ≤ n) :
    listLoop fpIdent (fpChar 44) n p = listLoop fpIdent (fpChar 44) p.length p ∧
      listLoop (fpCond atof) (fpKw "and") n p = listLoop (fpCond atof) (fpKw "and") p.length p ∧
      listLoop (fpSetClause atof) (fpChar 44) n p = listLoop (fpSetClause atof) (fpChar 44) p.length p ∧
      listLoop (fpInsertValue atof) (fpChar 44) n p = listLoop (fpInsertValue atof) (fpChar 44) p.length p :=
  ⟨listLoop_enough (fun _ _ _ => fpIdent_shorter) (fun _ _ h => (fpChar_shorter h).le) hn le_rfl,
    listLoop_enough (fun _ _ _ => fpCond_shorter) (fun _ _ => fpKw_shorter) hn le_rfl,
    listLoop_enough (fun _ _ _ => fpSetClause_shorter) (fun _ _ h => (fpChar_shorter h).le) hn le_rfl,
    listLoop_enough (fun _ _ _ => fpInsertValue_shorter) (fun _ _ h => (fpChar_shorter h).le) hn le_rfl⟩

end

end Rmdb.Parser
