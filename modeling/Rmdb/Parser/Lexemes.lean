import Rmdb.Parser.Lexer

/-!
# Lexemes of a text

What the lexer makes of a text, taken off the front: white space leaves the tokens alone (`tokens_skipws`),
and words, numbers, strings and operators are a token each.  `Plain` is a text of which the lexer drops nothing
but white space, with numbers of type `int`.
-/

namespace Rmdb.Parser

open Rmdb.Lib (Munch isDigit digitsValue)
open Rmdb.Txn (Bytes)

/-- The lexer of statements. -/
abbrev sqlLexer : Munch State UInt8 := lexer fun _ => false

def tokens (p : Bytes) : List Token := (sqlLexer.lexemes p).filterMap fun l => token l.1 l.2

theorem lex_eq (sql : Bytes) : lex sql = tokens (cStr sql) := by
  have hrun : sqlLexer.run .idle [] = some .idle := rfl
  have hidle := Munch.lexemesFrom_lexeme (r := cStr sql) hrun (fun _ _ => rfl) []
  show (sqlLexer.lexemesFrom .idle [] ([] ++ cStr sql)).filterMap _ = _
  rw [hidle]
  rfl

/-- The number that a numeral stands for. -/
def intOf (w : Bytes) : Int :=
  if w.head? = some 45 then -digitsValue (w.drop 1) else if w.head? = some 43 then digitsValue (w.drop 1) else digitsValue w

/-- White space, or a token whose number is of type `int`. -/
def Clean (l : State × Bytes) : Bool :=
  match l.1 with
  | .blank => true
  | .cr => true
  | .newline => true
  | .int => decide (-2 ^ 31 ≤ intOf l.2 ∧ intOf l.2 < 2 ^ 31)
  | st => (token st l.2).isSome

def Plain (p : Bytes) : Prop := ∀ l ∈ sqlLexer.lexemes p, Clean l = true

instance decPlain (p : Bytes) : Decidable (Plain p) := inferInstanceAs (Decidable (∀ l ∈ sqlLexer.lexemes p, Clean l = true))

section
variable {c : UInt8} {l r p : Bytes} {a : State}

theorem tokens_cons (hrun : sqlLexer.run (start (fun _ => false) c (l ++ r)) l = some a)
    (hstop : ∀ d ∈ r.head?, next a d = none) : tokens (c :: (l ++ r)) = (token a (c :: l)).toList ++ tokens r := by
  unfold tokens
  rw [Munch.lexemes_cons (m := sqlLexer) hrun hstop]
  cases h : token a (c :: l) with
  | none => exact List.filterMap_cons_none h
  | some t => exact List.filterMap_cons_some h

theorem Plain.cons (h : Plain (c :: (l ++ r))) (hrun : sqlLexer.run (start (fun _ => false) c (l ++ r)) l = some a)
    (hstop : ∀ d ∈ r.head?, next a d = none) : Clean (a, c :: l) = true ∧ Plain r := by
  unfold Plain at h
  rw [Munch.lexemes_cons (m := sqlLexer) hrun hstop] at h
  exact ⟨h _ List.mem_cons_self, fun x hx => h x (List.mem_cons_of_mem _ hx)⟩

/-! ## White space -/

def isWs (c : UInt8) : Bool := c = 32 || c = 9 || c = 10 || c = 13

theorem isWs_of_isBlank (h : isBlank c = true) : isWs c = true := by
  unfold isBlank at h
  unfold isWs
  simp only [Bool.or_eq_true, decide_eq_true_eq] at h ⊢
  exact .inl (.inl h)

theorem start_of_isWs : ∀ c : UInt8, isWs c = true → ∀ s : Bytes,
    (isBlank c = true ∧ start (fun _ => false) c s = .blank) ∨ (c = 10 ∧ start (fun _ => false) c s = .newline) ∨
      (c = 13 ∧ start (fun _ => false) c s = .cr) := by
  intro c h s
  unfold isWs at h
  simp only [Bool.or_eq_true, decide_eq_true_eq] at h
  rcases h with ((rfl | rfl) | rfl) | rfl
  · exact .inl ⟨rfl, rfl⟩
  · exact .inl ⟨rfl, rfl⟩
  · exact .inr (.inl ⟨rfl, rfl⟩)
  · exact .inr (.inr ⟨rfl, rfl⟩)

theorem head?_dropWhile (f : UInt8 → Bool) (s : Bytes) : ∀ d ∈ (s.dropWhile f).head?, f d = false := by
  intro d hd
  have := List.head?_dropWhile_not f s
  rw [Option.mem_def.1 hd] at this
  exact this

/-- A lexeme of white space, in front of a text. -/
theorem exists_white (h : isWs c = true) (s : Bytes) :
    ∃ l r st, s = l ++ r ∧ sqlLexer.run (start (fun _ => false) c (l ++ r)) l = some st ∧
      (∀ d ∈ r.head?, next st d = none) ∧ token st (c :: l) = none ∧ ∀ d ∈ l, isWs d = true := by
  rcases start_of_isWs c h s with ⟨-, hst⟩ | ⟨-, hst⟩ | ⟨-, hst⟩
  · refine ⟨s.takeWhile isBlank, s.dropWhile isBlank, .blank, (List.takeWhile_append_dropWhile).symm, ?_, ?_, rfl,
      fun d hd => isWs_of_isBlank (List.mem_takeWhile_imp hd)⟩
    · rw [List.takeWhile_append_dropWhile, hst]
      exact Munch.run_of_stays fun d hd => if_pos (List.mem_takeWhile_imp hd)
    · intro d hd
      exact if_neg (by rw [head?_dropWhile _ _ d hd]; exact Bool.false_ne_true)
  · refine ⟨[], s, .newline, rfl, ?_, fun _ _ => rfl, rfl, fun _ hd => nomatch hd⟩
    rw [List.nil_append, hst]
    rfl
  · by_cases hn : s.head? = some 10
    · obtain ⟨s', rfl⟩ := List.head?_eq_some_iff.1 hn
      refine ⟨[10], s', .newline, rfl, ?_, fun _ _ => rfl, rfl, fun d hd => ?_⟩
      · rw [List.singleton_append, hst]
        rfl
      · rw [List.mem_singleton.1 hd]
        rfl
    · refine ⟨[], s, .cr, rfl, ?_, fun d hd => ?_, rfl, fun _ hd => nomatch hd⟩
      · rw [List.nil_append, hst]
        rfl
      · exact if_neg fun hd' => hn (by rw [Option.mem_def.1 hd, hd'])

theorem skipws_aux : ∀ (n : Nat) (p : Bytes), p.length ≤ n →
    tokens (p.dropWhile isWs) = tokens p ∧ (Plain p → Plain (p.dropWhile isWs)) := by
  intro n
  induction n with
  | zero =>
      intro p hp
      rw [List.length_eq_zero_iff.1 (Nat.le_zero.1 hp)]
      exact ⟨rfl, id⟩
  | succ n ih =>
      intro p hp
      cases p with
      | nil => exact ⟨rfl, id⟩
      | cons c s =>
          cases h : isWs c with
          | false =>
              rw [List.dropWhile_cons_of_neg (by rw [h]; exact Bool.false_ne_true)]
              exact ⟨rfl, id⟩
          | true =>
              obtain ⟨l, r, st, rfl, hrun, hstop, htok, hws⟩ := exists_white h s
              have hlen : r.length ≤ n := by
                rw [List.length_cons, List.length_append] at hp
                omega
              obtain ⟨h1, h2⟩ := ih r hlen
              rw [List.dropWhile_cons_of_pos h, List.dropWhile_append_of_pos hws, tokens_cons hrun hstop, htok]
              exact ⟨h1, fun hplain => h2 (hplain.cons hrun hstop).2⟩

@[simp] theorem tokens_skipws (p : Bytes) : tokens (p.dropWhile isWs) = tokens p := (skipws_aux p.length p (Nat.le_refl _)).1

theorem Plain.skipws (h : Plain p) : Plain (p.dropWhile isWs) := (skipws_aux p.length p (Nat.le_refl _)).2 h

/-! ## Words -/

theorem not_isBlank_of_isAlpha_all : ∀ c : UInt8, isAlpha c = true → isBlank c = false := by decide +kernel

theorem isWordChar_of_isAlpha (h : isAlpha c = true) : isWordChar c = true := by
  unfold isWordChar
  rw [h, Bool.or_true, Bool.true_or]

theorem start_of_isAlpha (h : isAlpha c = true) (s : Bytes) : start (fun _ => false) c s = .word := by
  unfold start
  rw [if_neg (by rw [not_isBlank_of_isAlpha_all c h]; exact Bool.false_ne_true), if_pos h]

theorem run_word {w : Bytes} (h : ∀ d ∈ w, isWordChar d = true) : sqlLexer.run .word w = some .word :=
  Munch.run_of_stays fun d hd => if_pos (h d hd)

theorem stop_word (h : ∀ d ∈ r.head?, isWordChar d = false) : ∀ d ∈ r.head?, next .word d = none :=
  fun d hd => if_neg (by rw [h d hd]; exact Bool.false_ne_true)

theorem tokens_word (hc : isAlpha c = true) (s : Bytes) :
    tokens (c :: s) = wordToken (c :: s.takeWhile isWordChar) :: tokens (s.dropWhile isWordChar) ∧
      (Plain (c :: s) → Plain (s.dropWhile isWordChar)) := by
  have hrun : sqlLexer.run (start (fun _ => false) c (s.takeWhile isWordChar ++ s.dropWhile isWordChar)) (s.takeWhile isWordChar) =
      some .word := by
    rw [start_of_isAlpha hc]
    exact run_word fun d hd => List.mem_takeWhile_imp hd
  have hstop := stop_word (head?_dropWhile isWordChar s)
  have htokens := tokens_cons hrun hstop
  rw [List.takeWhile_append_dropWhile] at htokens
  refine ⟨htokens, fun h => (Plain.cons (l := s.takeWhile isWordChar) ?_ hrun hstop).2⟩
  rwa [List.takeWhile_append_dropWhile]

/-- A name begins with a letter. -/
theorem not_plain_underscore (s : Bytes) : ¬ Plain (95 :: s) := fun h =>
  Bool.false_ne_true (Plain.cons (l := []) (a := .bad) h rfl fun _ _ => rfl).1

/-! ## Operators -/

theorem tokens_op (hc : ∀ s, start (fun _ => false) c s = .op) (s : Bytes) :
    tokens (c :: s) = .op [c] :: tokens s ∧ (Plain (c :: s) → Plain s) := by
  have hrun : sqlLexer.run (start (fun _ => false) c ([] ++ s)) [] = some .op := by
    rw [hc]
    rfl
  exact ⟨tokens_cons (l := []) hrun fun _ _ => rfl, fun h => (Plain.cons (l := []) h hrun fun _ _ => rfl).2⟩

theorem tokens_plus {s : Bytes} (hs : ∀ d ∈ s.head?, isDigit d = false) :
    tokens (43 :: s) = .op [43] :: tokens s ∧ (Plain (43 :: s) → Plain s) := by
  have hstop : ∀ d ∈ s.head?, next .plus d = none := fun d hd => if_neg (by rw [hs d hd]; exact Bool.false_ne_true)
  exact ⟨tokens_cons (l := []) (a := .plus) rfl hstop, fun h => (Plain.cons (l := []) (a := .plus) h rfl hstop).2⟩

/-- A minus sign; a second one behind it would begin a comment. -/
theorem tokens_minus {s : Bytes} (hs : ∀ d ∈ s.head?, isDigit d = false) (h : Plain (45 :: s)) :
    tokens (45 :: s) = .op [45] :: tokens s ∧ Plain s := by
  have hcomment : ∀ d ∈ s.head?, d ≠ 45 := by
    rintro d hd rfl
    obtain ⟨s', rfl⟩ := List.head?_eq_some_iff.1 hd
    have hrun : sqlLexer.run .lineComment (s'.takeWhile fun d => d ≠ 10) = some .lineComment :=
      Munch.run_of_stays fun d hd => if_neg (of_decide_eq_true (List.mem_takeWhile_imp (p := fun d => decide (d ≠ 10)) hd))
    have hclean := (Plain.cons (c := 45) (l := 45 :: s'.takeWhile fun d => d ≠ 10) (r := s'.dropWhile fun d => d ≠ 10)
      (a := .lineComment) (by rwa [List.cons_append, List.takeWhile_append_dropWhile]) hrun (fun d hd => if_pos (by
        have := head?_dropWhile (fun d => decide (d ≠ 10)) s' d hd
        exact of_not_not (of_decide_eq_false this)))).1
    exact Bool.false_ne_true hclean
  have hstop : ∀ d ∈ s.head?, next .minus d = none := by
    intro d hd
    show (if isDigit d = true then _ else _) = _
    rw [hs d hd, if_neg Bool.false_ne_true, if_neg (hcomment d hd)]
  exact ⟨tokens_cons (l := []) (a := .minus) rfl hstop, (Plain.cons (l := []) (a := .minus) h rfl hstop).2⟩

/-! ## Numbers and strings -/

/-- No sign, or one. -/
def IsSign (sg : Bytes) : Prop := sg = [] ∨ sg = [43] ∨ sg = [45]

theorem start_of_isDigit_all : ∀ c : UInt8, isDigit c = true → isBlank c = false ∧ isAlpha c = false := by decide +kernel

theorem start_of_isDigit (h : isDigit c = true) (s : Bytes) : start (fun _ => false) c s = .int := by
  obtain ⟨h1, h2⟩ := start_of_isDigit_all c h
  unfold start
  rw [h1, h2, h, if_neg Bool.false_ne_true, if_neg Bool.false_ne_true, if_pos rfl]

theorem run_int {ds : Bytes} (h : ∀ d ∈ ds, isDigit d = true) : sqlLexer.run .int ds = some .int :=
  Munch.run_of_stays fun d hd => if_pos (h d hd)

/-- The first character of a numeral, and what the automaton does on the others. -/
theorem numeral_run {sg ds : Bytes} (hsg : IsSign sg) (hne : ds ≠ []) (hds : ∀ d ∈ ds, isDigit d = true) :
    ∃ c l, sg ++ ds = c :: l ∧ ∀ s, sqlLexer.run (start (fun _ => false) c s) l = some .int := by
  obtain ⟨d, ds, rfl⟩ := List.exists_cons_of_ne_nil hne
  have hd : isDigit d = true := hds d List.mem_cons_self
  have hrest : sqlLexer.run .int ds = some .int := run_int fun c hc => hds c (List.mem_cons_of_mem _ hc)
  rcases hsg with rfl | rfl | rfl
  · exact ⟨d, ds, rfl, fun s => by rw [start_of_isDigit hd]; exact hrest⟩
  · refine ⟨43, d :: ds, rfl, fun s => ?_⟩
    show (next .plus d).bind _ = _
    rw [show next .plus d = some .int from if_pos hd]
    exact hrest
  · refine ⟨45, d :: ds, rfl, fun s => ?_⟩
    show (next .minus d).bind _ = _
    rw [show next .minus d = some .int from if_pos hd]
    exact hrest

theorem tokens_int {sg ds : Bytes} (hsg : IsSign sg) (hne : ds ≠ []) (hds : ∀ d ∈ ds, isDigit d = true)
    (hr : ∀ d ∈ r.head?, isDigit d = false ∧ d ≠ 46) (h : Plain (sg ++ ds ++ r)) :
    tokens (sg ++ ds ++ r) = .int (atoi (sg ++ ds)) :: tokens r ∧ (-2 ^ 31 ≤ intOf (sg ++ ds) ∧ intOf (sg ++ ds) < 2 ^ 31) ∧
      Plain r := by
  obtain ⟨c, l, hcl, hrun⟩ := numeral_run hsg hne hds
  have hstop : ∀ d ∈ r.head?, next .int d = none := by
    intro d hd
    obtain ⟨h1, h2⟩ := hr d hd
    show (if isDigit d = true then _ else _) = _
    rw [h1, if_neg Bool.false_ne_true, if_neg h2]
  rw [hcl] at h ⊢
  obtain ⟨h1, h2⟩ := Plain.cons h (hrun _) hstop
  exact ⟨tokens_cons (hrun _) hstop, of_decide_eq_true h1, h2⟩

theorem tokens_float {sg ds fs : Bytes} (hsg : IsSign sg) (hne : ds ≠ []) (hds : ∀ d ∈ ds, isDigit d = true)
    (hfs : ∀ d ∈ fs, isDigit d = true) (hr : ∀ d ∈ r.head?, isDigit d = false) (h : Plain (sg ++ ds ++ 46 :: fs ++ r)) :
    tokens (sg ++ ds ++ 46 :: fs ++ r) = .float (sg ++ ds ++ 46 :: fs) :: tokens r ∧ Plain r := by
  obtain ⟨c, l, hcl, hrun⟩ := numeral_run hsg hne hds
  have hstop : ∀ d ∈ r.head?, next .float d = none := fun d hd => if_neg (by rw [hr d hd]; exact Bool.false_ne_true)
  have hrun' : ∀ s, sqlLexer.run (start (fun _ => false) c s) (l ++ 46 :: fs) = some .float := by
    intro s
    rw [Munch.run_append (hrun s)]
    have hstay : sqlLexer.run .float fs = some .float := Munch.run_of_stays fun d hd => if_pos (hfs d hd)
    exact hstay
  rw [hcl, List.cons_append, List.cons_append] at h ⊢
  exact ⟨tokens_cons (hrun' _) hstop, (Plain.cons h (hrun' _) hstop).2⟩

theorem tokens_string {body : Bytes} (hbody : ∀ d ∈ body, d ≠ 39) :
    tokens (39 :: (body ++ 39 :: r)) = .string body :: tokens r ∧ (Plain (39 :: (body ++ 39 :: r)) → Plain r) := by
  have hrun : sqlLexer.run (start (fun _ => false) 39 (body ++ [39] ++ r)) (body ++ [39]) = some .closed := by
    have hquote : (39 : UInt8) ∈ body ++ [39] ++ r :=
      List.mem_append_left _ (List.mem_append_right _ (List.mem_singleton_self _))
    have hst : start (fun _ => false) 39 (body ++ [39] ++ r) = .string := if_pos hquote
    have hstay : sqlLexer.run .string body = some .string := Munch.run_of_stays fun d hd => if_neg (hbody d hd)
    rw [hst, Munch.run_append hstay]
    rfl
  have htokens := tokens_cons (r := r) hrun fun _ _ => rfl
  have htoken : token .closed (39 :: (body ++ [39])) = some (.string body) := by
    show some (Token.string (body ++ [39]).dropLast) = _
    rw [List.dropLast_concat]
  rw [htoken, List.append_assoc] at htokens
  refine ⟨htokens, fun h => (Plain.cons (l := body ++ [39]) ?_ hrun fun _ _ => rfl).2⟩
  rwa [List.append_assoc]

/-! ## The first token -/

def isWhite : State → Bool
  | .blank => true
  | .cr => true
  | .newline => true
  | _ => false

theorem isWhite_of_next {st st' : State} {d : UInt8} (h : next st d = some st') (hw : isWhite st' = true) : isWhite st = true := by
  cases st <;> first | rfl | (simp only [next] at h; try split_ifs at h) <;> cases h <;> cases hw

theorem isWhite_of_run {st st' : State} {l : Bytes} (h : sqlLexer.run st l = some st') (hw : isWhite st' = true) :
    isWhite st = true := by
  induction l generalizing st with
  | nil =>
      obtain rfl : st = st' := Option.some.inj h
      exact hw
  | cons d l ih =>
      obtain ⟨st1, hnext, hrun⟩ := Option.bind_eq_some_iff.1 h
      exact isWhite_of_next hnext (ih hrun)

theorem isWhite_start {s : Bytes} (h : isWs c = false) : isWhite (start (fun _ => false) c s) = false := by
  have hblank : ¬ isBlank c = true := fun hb => Bool.false_ne_true (h.symm.trans (isWs_of_isBlank hb))
  have h10 : c ≠ 10 := by
    rintro rfl
    cases h
  have h13 : c ≠ 13 := by
    rintro rfl
    cases h
  unfold start
  rw [if_neg hblank, if_neg h10, if_neg h13]
  repeat' split
  all_goals rfl

/-- The text of the first token. -/
theorem first_text {t : Token} {u : List Token} (hplain : Plain p) (h : tokens p = t :: u) :
    ∃ l r st, p.dropWhile isWs = l ++ r ∧ l ≠ [] ∧ token st l = some t := by
  have hq := hplain.skipws
  rw [← tokens_skipws] at h
  have hws := head?_dropWhile isWs p
  generalize p.dropWhile isWs = q at h hq hws ⊢
  cases q with
  | nil => cases h
  | cons c s =>
      obtain ⟨l, r, st, rfl, hrun, hstop⟩ := Munch.exists_lexeme (m := sqlLexer) (start (fun _ => false) c s) s
      refine ⟨c :: l, r, st, rfl, List.cons_ne_nil _ _, ?_⟩
      rw [tokens_cons hrun hstop] at h
      cases htok : token st (c :: l) with
      | some t' =>
          rw [htok] at h
          rw [(List.cons.inj h).1]
      | none =>
          -- a lexeme without a token is white space, and there is none in front of it
          have hclean := (hq.cons hrun hstop).1
          have hwhite : isWhite st = true := by
            cases st <;> first | rfl | exact absurd hclean Bool.false_ne_true | cases htok
          have hstart := isWhite_of_run hrun hwhite
          rw [isWhite_start (hws c rfl)] at hstart
          cases hstart

theorem op_of_token {w l : Bytes} (h : token st l = some (.op w)) : w = l := by
  cases st with
  | word =>
      have h := Option.some.inj h
      unfold wordToken at h
      dsimp only at h
      split_ifs at h
  | plus => exact (Token.op.inj (Option.some.inj h)).symm
  | minus => exact (Token.op.inj (Option.some.inj h)).symm
  | less => exact (Token.op.inj (Option.some.inj h)).symm
  | greater => exact (Token.op.inj (Option.some.inj h)).symm
  | op => exact (Token.op.inj (Option.some.inj h)).symm
  | _ => cases h

end

end Rmdb.Parser
