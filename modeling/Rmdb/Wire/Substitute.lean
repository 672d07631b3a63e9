import Rmdb.Wire.Bind

/-!
# The lexer on a substituted template

Substitution copies the characters that are in no marker and puts literals in for markers.  Where
`Binds` holds, the lexer of the statement and that of the template break their texts at the same
places, so that a marker of the one is the literal of the other (`tokens_substituteFrom`).
-/

namespace Rmdb.Wire

open Rmdb.Lib (Munch isDigit digitsValue)
open Rmdb.Parser (State Token lexer start next token cStr lex)
open Rmdb.Txn (Bytes)

/-! ## What substitution does -/

section

variable {literals : List Bytes}

theorem substituteFrom_nil (inStr : Bool) (skip : Nat) : substituteFrom literals inStr skip [] = [] := by
  cases skip with
  | zero => cases inStr with
    | false => rfl
    | true => rfl
  | succ skip => rfl

theorem substituteFrom_skip (literals : List Bytes) (inStr : Bool) (ds rest : Bytes) :
    substituteFrom literals inStr ds.length (ds ++ rest) = substituteFrom literals inStr 0 rest := by
  induction ds with
  | nil => rfl
  | cons d ds ih =>
      rw [← ih]
      cases inStr with
      | false => rfl
      | true => rfl

/-- Behind the digits of a marker. -/
theorem substituteFrom_digits (inStr : Bool) (s : Bytes) :
    substituteFrom literals inStr (s.takeWhile isDigit).length s = substituteFrom literals inStr 0 (s.dropWhile isDigit) := by
  have hskip := substituteFrom_skip literals inStr (s.takeWhile isDigit) (s.dropWhile isDigit)
  rw [List.takeWhile_append_dropWhile] at hskip
  exact hskip

/-- Inside quotes. -/
theorem substituteFrom_true (c : UInt8) (s : Bytes) :
    substituteFrom literals true 0 (c :: s) = c :: substituteFrom literals (decide (c ≠ quote)) 0 s := rfl

/-- A literal for a marker. -/
theorem substituteFrom_marker {s literal : Bytes} (h : markerLiteral literals (s.takeWhile isDigit) = some literal) :
    substituteFrom literals false 0 (dollar :: s) =
      literal ++ substituteFrom literals false 0 (s.dropWhile isDigit) := by
  conv => lhs; unfold substituteFrom
  rw [if_neg (by decide : ¬dollar = quote), if_pos rfl, h]
  show literal ++ substituteFrom literals false (s.takeWhile isDigit).length s = _
  rw [substituteFrom_digits]

/-- A character that is copied. -/
theorem substituteFrom_copy {inStr : Bool} {c : UInt8} {s : Bytes}
    (h : inStr = false → c = dollar → markerLiteral literals (s.takeWhile isDigit) = none) :
    substituteFrom literals inStr 0 (c :: s) =
      c :: substituteFrom literals (if c = quote then !inStr else inStr) 0 s := by
  cases inStr with
  | true =>
      rw [substituteFrom_true]
      by_cases hc : c = quote
      · rw [if_pos hc, decide_eq_false (fun h => h hc)]
        rfl
      · rw [if_neg hc, decide_eq_true hc]
  | false =>
      conv => lhs; unfold substituteFrom
      by_cases hc : c = quote
      · rw [if_pos hc, if_pos hc]
        rfl
      · rw [if_neg hc, if_neg hc]
        by_cases hd : c = dollar
        · rw [if_pos hd, h rfl hd]
        · rw [if_neg hd]

theorem length_dropWhile_digits (s : Bytes) : (s.dropWhile isDigit).length ≤ s.length :=
  (List.dropWhile_suffix isDigit).length_le

theorem mem_dropWhile_digits {c : UInt8} (hc : isDigit c = false) {s : Bytes} (hs : c ∈ s) : c ∈ s.dropWhile isDigit := by
  rw [← List.takeWhile_append_dropWhile (p := isDigit) (l := s)] at hs
  refine (List.mem_append.1 hs).resolve_left fun hmem => ?_
  rw [List.mem_takeWhile_imp hmem] at hc
  cases hc

/-- A marker that is replaced, or a character that is copied. -/
theorem marker_or_copy (literals : List Bytes) (inStr : Bool) (c : UInt8) (s : Bytes) :
    (∃ literal, inStr = false ∧ c = dollar ∧ markerLiteral literals (s.takeWhile isDigit) = some literal) ∨
      (inStr = false → c = dollar → markerLiteral literals (s.takeWhile isDigit) = none) := by
  cases inStr with
  | true => exact .inr Bool.noConfusion
  | false =>
      by_cases hc : c = dollar
      · cases hm : markerLiteral literals (s.takeWhile isDigit) with
        | none => exact .inr fun _ _ => rfl
        | some literal => exact .inl ⟨literal, rfl, hc, rfl⟩
      · exact .inr fun _ h => absurd h hc

/-- The quotes of a text are copied. -/
theorem quote_mem_substituteFrom {s : Bytes} (hs : quote ∈ s) (inStr : Bool) : quote ∈ substituteFrom literals inStr 0 s := by
  induction hn : s.length using Nat.strong_induction_on generalizing s inStr with
  | _ n ih =>
      cases s with
      | nil => cases hs
      | cons c s =>
          rw [List.length_cons] at hn
          rcases marker_or_copy literals inStr c s with ⟨literal, rfl, rfl, hm⟩ | hcopy
          · have hs' : quote ∈ s := (List.mem_cons.1 hs).resolve_left (by decide)
            have hlen := length_dropWhile_digits s
            rw [substituteFrom_marker hm]
            exact List.mem_append_right _ (ih _ (by omega) (mem_dropWhile_digits (by decide) hs') false rfl)
          · rw [substituteFrom_copy hcopy]
            rcases List.mem_cons.1 hs with heq | hs'
            · exact heq ▸ List.mem_cons_self
            · exact List.mem_cons_of_mem _ (ih _ (by omega) hs' _ rfl)

/-- A text without quotes has none put in, inside quotes, or when the literals of its markers have none. -/
theorem quote_notMem_substituteFrom {s : Bytes} (hs : quote ∉ s) {inStr : Bool} (h : inStr = true ∨ NoQuoteAfter literals s) :
    quote ∉ substituteFrom literals inStr 0 s := by
  induction hn : s.length using Nat.strong_induction_on generalizing s inStr with
  | _ n ih =>
      cases s with
      | nil =>
          rw [substituteFrom_nil]
          exact hs
      | cons c s =>
          rw [List.length_cons] at hn
          rw [List.mem_cons, not_or] at hs
          have hafter : ∀ {s'}, s' <:+ s → inStr = true ∨ NoQuoteAfter literals s' := fun hsuf =>
            h.imp_right fun hafter u hu =>
              hafter u ((List.mem_tails _ _).2 (((List.mem_tails _ _).1 hu).trans (hsuf.trans (List.suffix_cons c s))))
          rcases marker_or_copy literals inStr c s with ⟨literal, rfl, rfl, hm⟩ | hcopy
          · have hliteral : quote ∉ literal := by
              rcases h with h | h
              · cases h
              · exact h (dollar :: s) ((List.mem_tails _ _).2 (List.suffix_refl _)) rfl literal hm
            have hlen := length_dropWhile_digits s
            rw [substituteFrom_marker hm, List.mem_append, not_or]
            refine ⟨hliteral, ih _ (by omega) (fun hmem => hs.2 ((List.dropWhile_suffix isDigit).subset hmem)) ?_ rfl⟩
            exact hafter (List.dropWhile_suffix isDigit)
          · rw [substituteFrom_copy hcopy, if_neg fun heq => hs.1 heq.symm, List.mem_cons, not_or]
            exact ⟨hs.1, ih _ (by omega) hs.2 (hafter (List.suffix_refl s)) rfl⟩

end

/-! ## The two lexers -/

theorem start_dollar {marker : Bytes → Bool} {s : Bytes} : start marker dollar s = if marker s then .marker else .bad := rfl

theorem start_eq {marker marker' : Bytes → Bool} {c : UInt8} {s s' : Bytes} (hquote : c = quote → (quote ∈ s ↔ quote ∈ s'))
    (hdollar : c = dollar → marker s = marker' s') : start marker c s = start marker' c s' := by
  by_cases h39 : c = quote
  · rw [h39, start_quote, start_quote, if_congr (hquote h39) rfl rfl]
  · by_cases h36 : c = dollar
    · rw [h36, start_dollar, start_dollar, hdollar h36]
    · have hstring : ¬c = 39 := h39
      have hmark : ¬c = 36 := h36
      unfold start
      rw [if_neg hstring, if_neg hstring, if_neg hmark, if_neg hmark]

theorem start_ne_marker {marker : Bytes → Bool} {c : UInt8} {s : Bytes} (h : c = dollar → marker s = false) :
    start marker c s ≠ .marker := by
  have hite : ∀ {p : Prop} [Decidable p] {st st' : State}, st ≠ .marker → st' ≠ .marker → (if p then st else st') ≠ .marker := by
    intro p _ st st' hst hst'
    split
    · exact hst
    · exact hst'
  by_cases hc : c = dollar
  · rw [hc, start_dollar, h hc]
    exact State.noConfusion
  · have hdollar : ¬c = 36 := hc
    unfold start
    rw [if_neg hdollar]
    repeat' apply hite
    all_goals exact State.noConfusion

theorem next_ne_marker {st st' : State} (hst : st ≠ .marker) {c : UInt8} (h : next st c = some st') : st' ≠ .marker := by
  rintro rfl
  unfold next at h
  split at h
  all_goals first
    | exact hst rfl
    | cases h
    | (split_ifs at h <;> cases h)

theorem next_comment {st st' : State} (hst : isComment st) {c : UInt8} (h : next st c = some st') :
    isComment st' ∨ st' = .blockClosed := by
  rcases hst with rfl | rfl | rfl
  · unfold next at h
    dsimp only at h
    split at h
    · cases h
    · cases h
      exact .inl (.inl rfl)
  · unfold next at h
    dsimp only at h
    split at h
    · cases h
      exact .inl (.inr (.inr rfl))
    · cases h
      exact .inl (.inr (.inl rfl))
  · unfold next at h
    dsimp only at h
    split_ifs at h
    · cases h
      exact .inr rfl
    · cases h
      exact .inl (.inr (.inr rfl))
    · cases h
      exact .inl (.inr (.inl rfl))

/-- A lexeme without a token. -/
def Silent (st : State) : Prop := isComment st ∨ st = .blockClosed

theorem next_silent {st st' : State} (hst : Silent st) {c : UInt8} (h : next st c = some st') : Silent st' := by
  rcases hst with hst | rfl
  · exact next_comment hst h
  · cases h

theorem token_silent {st : State} (hst : Silent st) (w : Bytes) : token st w = none := by
  rcases hst with (rfl | rfl | rfl) | rfl
  · rfl
  · rfl
  · rfl
  · rfl

/-- The lexeme `w` of the template in `st` and the lexeme `w'` of the statement. -/
def SameLexeme (tokens : List Token) (st : State) (put : Option State) (w w' : Bytes) : Prop :=
  match put with
  | none => st ≠ .marker ∧ (w = w' ∨ Silent st)
  | some p => st = .marker ∧ p ≠ .marker ∧ markerAt tokens (w.drop 1) = token p w'

theorem SameLexeme.token {tokens : List Token} {st : State} {put : Option State} {w w' : Bytes}
    (h : SameLexeme tokens st put w w') : token (put.getD st) w' = boundToken tokens (st, w) := by
  cases put with
  | none =>
      obtain ⟨hst, rfl | hsilent⟩ := h
      · exact (if_neg hst).symm
      · show Parser.token st w' = _
        rw [token_silent hsilent]
        exact ((if_neg hst).trans (token_silent hsilent w)).symm
  | some p =>
      obtain ⟨rfl, -, htoken⟩ := h
      exact htoken.symm

/-- Both lexemes go on. -/
theorem SameLexeme.next {tokens : List Token} {st st' : State} {put : Option State} {w w' : Bytes} {c : UInt8}
    (h : SameLexeme tokens st put w w') (hput : next (put.getD st) c = next st c) (hnext : next st c = some st') :
    put = none ∧ SameLexeme tokens st' none (w ++ [c]) (w' ++ [c]) := by
  cases put with
  | none =>
      obtain ⟨hst, hw⟩ := h
      refine ⟨rfl, next_ne_marker hst hnext, ?_⟩
      rcases hw with rfl | hsilent
      · exact .inl rfl
      · exact .inr (next_silent hsilent hnext)
  | some p =>
      obtain ⟨rfl, hp, -⟩ := h
      have hmarker : st' = .marker := by
        unfold Parser.next at hnext
        dsimp only at hnext
        split at hnext
        · exact (Option.some.inj hnext).symm
        · cases hnext
      exact absurd hmarker (next_ne_marker hp (hput.trans hnext))

section

variable {literals : List Bytes} {tokens : List Token}

theorem binds_skip (st : State) (put : Option State) (inStr : Bool) (ds rest : Bytes) :
    Binds literals st put inStr ds.length (ds ++ rest) = Binds literals st put inStr 0 rest := by
  induction ds with
  | nil => rfl
  | cons d ds ih =>
      rw [← ih]
      rfl

theorem binds_digits (st : State) (put : Option State) (inStr : Bool) (s : Bytes) :
    Binds literals st put inStr (s.takeWhile isDigit).length s = Binds literals st put inStr 0 (s.dropWhile isDigit) := by
  have hskip : Binds literals st put inStr (s.takeWhile isDigit).length (s.takeWhile isDigit ++ s.dropWhile isDigit) =
      Binds literals st put inStr 0 (s.dropWhile isDigit) := binds_skip st put inStr _ _
  rw [List.takeWhile_append_dropWhile] at hskip
  exact hskip

/-- A literal is put in for a marker, which is a lexeme or stands in a comment, or a character is copied. -/
theorem binds_cons {st : State} {put : Option State} {inStr : Bool} {c : UInt8} {s : Bytes}
    (h : Binds literals st put inStr 0 (c :: s)) :
    (∃ literal, inStr = false ∧ c = dollar ∧ markerAt literals (s.takeWhile isDigit) = some literal ∧
      markerLiteral literals (s.takeWhile isDigit) = some literal ∧ 0 ∉ literal ∧
      ((next st dollar = none ∧ (∀ c' ∈ literal.head?, next (put.getD st) c' = none) ∧
          Binds literals .marker (some (literalState literal)) false 0 (s.dropWhile isDigit)) ∨
        ∃ st', next st dollar = some st' ∧ isComment st ∧ KeepsComment st literal ∧
          Binds literals st' none false 0 (s.dropWhile isDigit))) ∨
    ((inStr = false → c = dollar → markerLiteral literals (s.takeWhile isDigit) = none) ∧
      (next st c = none → c = dollar → markerAt literals (s.takeWhile isDigit) = none) ∧ CopyOk literals st put inStr c s ∧
      Binds literals ((next st c).getD (start (fun _ => false) c s)) none (if c = quote then !inStr else inStr) 0 s) := by
  obtain ⟨⟨hint, hok⟩, hbinds⟩ := h
  unfold bindStep at hbinds
  by_cases hm : c = dollar ∧ inStr = false ∧ (markerAt literals (s.takeWhile isDigit)).isSome
  · rw [if_pos hm] at hok hbinds
    obtain ⟨rfl, rfl, hsome⟩ := hm
    obtain ⟨literal, hliteral⟩ := Option.isSome_iff_exists.1 hsome
    rw [hliteral, Option.getD_some] at hok hbinds
    obtain ⟨hnul, hjoin, hcomment⟩ := hok
    refine .inl ⟨literal, rfl, rfl, hliteral, (markerLiteral_eq literals (hint rfl rfl)).trans hliteral, hnul, ?_⟩
    cases hst : next st dollar with
    | none =>
        rw [hst] at hbinds
        rw [← binds_digits]
        exact .inl ⟨rfl, hjoin hst, hbinds⟩
    | some st' =>
        rw [hst] at hbinds hcomment
        obtain ⟨hcomment, hkeep⟩ := hcomment (Option.some_ne_none st')
        refine .inr ⟨st', rfl, hcomment, hkeep, ?_⟩
        rw [← binds_digits]
        exact hbinds
  · rw [if_neg hm] at hok hbinds
    refine .inr ⟨fun hin hc => ?_, fun hst hc => Option.isNone_iff_eq_none.1 (hok.1 hst hc), hok.2, hbinds⟩
    rw [markerLiteral_eq literals (hint hc hin)]
    exact Option.not_isSome_iff_eq_none.1 fun hsome => hm ⟨hc, hin, hsome⟩

theorem markerAt_literal (hlits : List.Forall₂ LiteralOk literals tokens) {ds literal : Bytes}
    (h : markerAt literals ds = some literal) : ∃ tok, markerAt tokens ds = some tok ∧ LiteralOk literal tok := by
  have hget : ∀ {i : Nat}, literals[i]? = some literal → ∃ tok, tokens[i]? = some tok ∧ LiteralOk literal tok := by
    clear h
    induction hlits with
    | nil => exact fun h => by cases h
    | @cons l t ls ts hlt hrest ih =>
        intro i hi
        cases i with
        | zero =>
            obtain rfl := Option.some.inj hi
            exact ⟨t, rfl, hlt⟩
        | succ i => exact ih hi
  unfold markerAt at h ⊢
  split at h
  · cases h
  · next hds =>
      rw [if_neg hds]
      exact hget h

theorem filterMap_cons_congr {α β γ : Type} {f : α → Option γ} {g : β → Option γ} {a : α} {b : β} {as : List α} {bs : List β}
    (h : f a = g b) (hs : as.filterMap f = bs.filterMap g) : (a :: as).filterMap f = (b :: bs).filterMap g := by
  rw [List.filterMap_cons, List.filterMap_cons, h, hs]

/-- A literal for a marker that is a lexeme. -/
theorem lexemesFrom_marker {s literal : Bytes} {tok : Token} (hlit : LiteralOk literal tok)
    (htok : markerAt tokens (s.takeWhile isDigit) = some tok) {st st' : State} (hst : next st dollar = none)
    (hjoin : ∀ c ∈ literal.head?, next st' c = none) (w w' rest : Bytes) :
    (lexer fun _ => false).lexemesFrom st' w' (literal ++ rest) =
        (st', w') :: (lexer fun _ => false).lexemesFrom (literalState literal) literal rest ∧
      (lexer (isMarker tokens)).lexemesFrom st w (dollar :: s) =
        (st, w) :: (lexer (isMarker tokens)).lexemesFrom .marker (dollar :: s.takeWhile isDigit) (s.dropWhile isDigit) := by
  constructor
  · obtain ⟨c, l, heq, hrun⟩ := hlit.reads
    rw [heq] at hjoin
    have hrun' : (lexer fun _ => false).run ((lexer fun _ => false).start c (l ++ rest)) l = some (literalState literal) :=
      hrun rest
    conv => lhs; rw [heq]
    rw [List.cons_append, Munch.lexemesFrom_break (hjoin c rfl), Munch.lexemesFrom_run hrun', heq]
    rfl
  · have hmarker : start (isMarker tokens) dollar s = .marker := by
      rw [start_dollar]
      unfold isMarker
      rw [htok]
      rfl
    have hrun : (lexer (isMarker tokens)).run .marker (s.takeWhile isDigit) = some .marker :=
      run_digits next_marker_digit (fun c hc => List.mem_takeWhile_imp hc) _
    rw [Munch.lexemesFrom_break hst]
    show (st, w) :: (lexer (isMarker tokens)).lexemesFrom (start (isMarker tokens) dollar s) [dollar] s = _
    have hbehind := Munch.lexemesFrom_run hrun [dollar] (s.dropWhile isDigit)
    rw [List.takeWhile_append_dropWhile] at hbehind
    rw [hmarker, hbehind]
    rfl

/-- A marker in a comment. -/
theorem run_marker {st st' : State} (hst : isComment st) (hnext : next st dollar = some st') (s : Bytes) (marker : Bytes → Bool) :
    st' = (if st = .lineComment then .lineComment else .blockComment) ∧
      (lexer marker).run st (dollar :: s.takeWhile isDigit) = some st' := by
  have hstate : st' = (if st = .lineComment then .lineComment else .blockComment) := by
    rcases hst with rfl | rfl | rfl
    · exact (Option.some.inj hnext).symm
    · exact (Option.some.inj hnext).symm
    · exact (Option.some.inj hnext).symm
  refine ⟨hstate, ?_⟩
  show (next st dollar).bind _ = _
  rw [hnext]
  have hdigits : ∀ c, isDigit c = true → next st' c = some st' := by
    intro c hc
    obtain ⟨-, -, -, -, -, h42, -⟩ := isDigit_start c hc
    have h10 : c ≠ 10 := by
      rintro rfl
      cases hc
    rw [hstate]
    split
    · exact if_neg h10
    · exact if_neg h42
  exact run_digits hdigits (fun c hc => List.mem_takeWhile_imp hc) marker

/-- The lexer on the substituted text and the lexer on the template. -/
theorem tokens_substituteFrom (hlits : List.Forall₂ LiteralOk literals tokens) {s : Bytes} {st : State} {put : Option State}
    {inStr : Bool} {w w' : Bytes} (hsame : SameLexeme tokens st put w w') (h : Binds literals st put inStr 0 s) :
    ((lexer fun _ => false).lexemesFrom (put.getD st) w' (substituteFrom literals inStr 0 s)).filterMap
        (fun l => token l.1 l.2) =
      ((lexer (isMarker tokens)).lexemesFrom st w s).filterMap (boundToken tokens) := by
  induction hn : s.length using Nat.strong_induction_on generalizing s st put inStr w w' with
  | _ n ih =>
      cases s with
      | nil =>
          rw [substituteFrom_nil]
          exact filterMap_cons_congr hsame.token rfl
      | cons c s =>
          rw [List.length_cons] at hn
          have hdrop := length_dropWhile_digits s
          rcases binds_cons h with ⟨literal, rfl, rfl, hliteral, hput, -, hplace⟩ | ⟨hcopy, hmarker, ⟨hput, hquote⟩, hbinds⟩
          · obtain ⟨tok, htok, hlit⟩ := markerAt_literal hlits hliteral
            rw [substituteFrom_marker hput]
            rcases hplace with ⟨hst, hjoin, hbinds⟩ | ⟨st', hst, hcomment, hkeep, hbinds⟩
            · -- the marker is a lexeme
              obtain ⟨hbound, htmpl⟩ := lexemesFrom_marker hlit htok hst hjoin w w'
                (substituteFrom literals false 0 (s.dropWhile isDigit))
              rw [hbound, htmpl]
              have hmark : SameLexeme tokens .marker (some (literalState literal)) (dollar :: s.takeWhile isDigit) literal := by
                refine ⟨rfl, ?_, htok.trans hlit.token.symm⟩
                unfold literalState
                split
                · exact State.noConfusion
                · exact State.noConfusion
              exact filterMap_cons_congr hsame.token (ih _ (by omega) hmark hbinds rfl)
            · -- the marker stands in a comment
              obtain ⟨hstate, hrun⟩ := run_marker hcomment hst s (isMarker tokens)
              have hnone : put = none := by
                cases put with
                | none => rfl
                | some p =>
                    obtain ⟨rfl, -⟩ := hsame
                    cases hst
              subst hnone
              have hlitrun := hlit.comment hcomment hkeep
              rw [← hstate] at hlitrun
              have hsplit : dollar :: s = (dollar :: s.takeWhile isDigit) ++ s.dropWhile isDigit := by
                rw [List.cons_append, List.takeWhile_append_dropWhile]
              show ((lexer fun _ => false).lexemesFrom st w' _).filterMap _ = _
              rw [Munch.lexemesFrom_run hlitrun, hsplit, Munch.lexemesFrom_run hrun]
              have hsame' : SameLexeme tokens st' none (w ++ (dollar :: s.takeWhile isDigit)) (w' ++ literal) :=
                ⟨next_ne_marker hsame.1 hst, .inr (next_silent (.inl hcomment) hst)⟩
              exact ih _ (by omega) hsame' hbinds rfl
          · rw [substituteFrom_copy hcopy]
            cases hst : next st c with
            | some st' =>
                obtain ⟨rfl, hsame'⟩ := hsame.next hput hst
                rw [hst] at hbinds
                rw [Munch.lexemesFrom_next hst, Munch.lexemesFrom_next hst]
                exact ih _ (by omega) hsame' hbinds rfl
            | none =>
                have hnone : c = dollar → isMarker tokens s = false := by
                  intro hc
                  unfold isMarker
                  rw [markerAt_isSome hlits.length_eq.symm, hmarker hst hc]
                  rfl
                have htmpl : start (isMarker tokens) c s = start (fun _ => false) c s := start_eq (fun _ => Iff.rfl) hnone
                have hbound : start (fun _ => false) c (substituteFrom literals (if c = quote then !inStr else inStr) 0 s) =
                    start (fun _ => false) c s := by
                  refine start_eq (fun hc => ⟨fun hmem => ?_, fun hmem => quote_mem_substituteFrom hmem _⟩) fun _ => rfl
                  by_contra hs
                  refine quote_notMem_substituteFrom hs ?_ hmem
                  rw [if_pos hc]
                  exact (hquote hst hc hs).imp_left fun hin => by rw [hin]; rfl
                rw [hst] at hbinds hput
                rw [Munch.lexemesFrom_break hput, Munch.lexemesFrom_break hst]
                refine filterMap_cons_congr hsame.token ?_
                show ((lexer fun _ => false).lexemesFrom (start (fun _ => false) c _) [c] _).filterMap _ =
                  ((lexer (isMarker tokens)).lexemesFrom (start (isMarker tokens) c s) [c] s).filterMap _
                rw [htmpl, hbound]
                have hsame' : SameLexeme tokens (start (fun _ => false) c s) none [c] [c] :=
                  ⟨start_ne_marker fun _ => rfl, .inl rfl⟩
                exact ih _ (by omega) hsame' hbinds rfl

/-! ## C strings -/

theorem digits_append_nul (a b : Bytes) : (a ++ 0 :: b).takeWhile isDigit = a.takeWhile isDigit ∧
    (a ++ 0 :: b).dropWhile isDigit = a.dropWhile isDigit ++ 0 :: b := by
  induction a with
  | nil => exact ⟨rfl, rfl⟩
  | cons c a ih =>
      rw [List.cons_append, List.takeWhile_cons, List.takeWhile_cons, List.dropWhile_cons, List.dropWhile_cons, ih.1, ih.2]
      split
      · exact ⟨rfl, rfl⟩
      · exact ⟨rfl, rfl⟩

/-- What stands before a NUL is substituted as it is alone. -/
theorem substituteFrom_append_nul (literals : List Bytes) (a b : Bytes) (inStr : Bool) :
    ∃ more, substituteFrom literals inStr 0 (a ++ 0 :: b) = substituteFrom literals inStr 0 a ++ 0 :: more := by
  induction hn : a.length using Nat.strong_induction_on generalizing a inStr with
  | _ n ih =>
      cases a with
      | nil =>
          rw [List.nil_append, substituteFrom_copy (fun _ h => absurd h (by decide)), substituteFrom_nil]
          exact ⟨_, rfl⟩
      | cons c a =>
          rw [List.length_cons] at hn
          obtain ⟨htake, hdrop⟩ := digits_append_nul a b
          rw [List.cons_append]
          rcases marker_or_copy literals inStr c a with ⟨literal, rfl, rfl, hm⟩ | hcopy
          · have hlen := length_dropWhile_digits a
            obtain ⟨more, hmore⟩ := ih _ (by omega) (a.dropWhile isDigit) false rfl
            refine ⟨more, ?_⟩
            rw [substituteFrom_marker hm, substituteFrom_marker (by rw [htake]; exact hm), hdrop, hmore, List.append_assoc]
          · obtain ⟨more, hmore⟩ := ih _ (by omega) a (if c = quote then !inStr else inStr) rfl
            refine ⟨more, ?_⟩
            rw [substituteFrom_copy hcopy, substituteFrom_copy (by rw [htake]; exact hcopy), hmore]
            rfl

theorem nul_notMem_substituteFrom {s : Bytes} (hs : 0 ∉ s) {st : State} {put : Option State} {inStr : Bool}
    (h : Binds literals st put inStr 0 s) : 0 ∉ substituteFrom literals inStr 0 s := by
  induction hn : s.length using Nat.strong_induction_on generalizing s st put inStr with
  | _ n ih =>
      cases s with
      | nil =>
          rw [substituteFrom_nil]
          exact hs
      | cons c s =>
          rw [List.length_cons] at hn
          rw [List.mem_cons, not_or] at hs
          have hdrop := length_dropWhile_digits s
          have hs' : 0 ∉ s.dropWhile isDigit := fun hmem => hs.2 ((List.dropWhile_suffix isDigit).subset hmem)
          rcases binds_cons h with ⟨literal, rfl, rfl, -, hput, hnul, hplace⟩ | ⟨hcopy, -, -, hbinds⟩
          · rw [substituteFrom_marker hput, List.mem_append, not_or]
            refine ⟨hnul, ?_⟩
            rcases hplace with ⟨-, -, hbinds⟩ | ⟨st', -, -, -, hbinds⟩
            · exact ih _ (by omega) hs' hbinds rfl
            · exact ih _ (by omega) hs' hbinds rfl
          · rw [substituteFrom_copy hcopy, List.mem_cons, not_or]
            exact ⟨hs.1, ih _ (by omega) hs.2 hbinds rfl⟩

theorem cStr_of_notMem {s : Bytes} (h : 0 ∉ s) : cStr s = s := by
  apply List.takeWhile_eq_self_iff.2
  intro c hc
  have hne : c ≠ 0 := fun heq => h (heq ▸ hc)
  exact decide_eq_true hne

theorem cStr_append_nul {a : Bytes} (h : 0 ∉ a) (b : Bytes) : cStr (a ++ 0 :: b) = a := by
  unfold cStr
  rw [List.takeWhile_append_of_pos]
  · exact List.append_nil a
  · intro c hc
    have hne : c ≠ 0 := fun heq => h (heq ▸ hc)
    exact decide_eq_true hne

theorem cStr_or (s : Bytes) : 0 ∉ cStr s ∧ (s = cStr s ∨ ∃ b, s = cStr s ++ 0 :: b) := by
  constructor
  · intro hmem
    have := List.mem_takeWhile_imp hmem
    simp at this
  · have hsplit := List.takeWhile_append_dropWhile (p := fun c : UInt8 => decide (c ≠ 0)) (l := s)
    cases hd : s.dropWhile fun c : UInt8 => decide (c ≠ 0) with
    | nil =>
        rw [hd, List.append_nil] at hsplit
        exact .inl hsplit.symm
    | cons c b =>
        have hc := List.head_dropWhile_not (fun c : UInt8 => decide (c ≠ 0)) (by rw [hd]; exact List.cons_ne_nil c b)
        simp only [hd, List.head_cons, decide_eq_false_iff_not, not_not] at hc
        rw [hd, hc] at hsplit
        exact .inr ⟨b, hsplit.symm⟩

/-- Substitution before `c_str()`. -/
theorem cStr_substitute {tmpl : Bytes} {st : State} {put : Option State} {inStr : Bool}
    (h : Binds literals st put inStr 0 (cStr tmpl)) :
    cStr (substituteFrom literals inStr 0 tmpl) = substituteFrom literals inStr 0 (cStr tmpl) := by
  obtain ⟨hnul, htmpl⟩ := cStr_or tmpl
  have hsub := nul_notMem_substituteFrom hnul h
  rcases htmpl with heq | ⟨b, heq⟩
  · rw [← heq] at hsub ⊢
    exact cStr_of_notMem hsub
  · obtain ⟨more, hmore⟩ := substituteFrom_append_nul literals (cStr tmpl) b inStr
    rw [← heq] at hmore
    rw [hmore, cStr_append_nul hsub]

end

/-! ## Typed bind -/

theorem literalOk {g9 : BitVec 32 → Bytes} {type : UInt8} (htype : type = sqltypeInt32 ∨ type = sqltypeChar) {p : Param}
    (hfits : p.Fits type) (hquote : p.NoQuote) : LiteralOk (p.literal g9 type) (p.token g9 type) := by
  cases p with
  | absent =>
      rcases htype with rfl | rfl
      · exact literalOk_int 0
      · exact literalOk_char List.not_mem_nil
  | int v => exact literalOk_int v
  | float bits =>
      obtain rfl : type = sqltypeFloat32 := hfits
      rcases htype with h | h
      · cases h
      · cases h
  | char s => exact literalOk_char hquote

/-- The tokens of a statement with INT32 and CHAR parameters are those of its template with the tokens of the
parameters for the markers. -/
theorem lex_substitute (g9 : BitVec 32 → Bytes) {types : List UInt8} (htypes : ∀ t ∈ types, t = sqltypeInt32 ∨ t = sqltypeChar)
    {params : List Param} (hfits : List.Forall₂ Param.Fits types params) (hquotes : ∀ p ∈ params, p.NoQuote) {tmpl : Bytes}
    (h : Binds (List.zipWith (Param.literal g9) types params) .idle none false 0 (cStr tmpl)) :
    lex (wireSubstituteParams tmpl (List.zipWith (Param.literal g9) types params)) =
      bindTokens tmpl (List.zipWith (Param.token g9) types params) := by
  have hlits : List.Forall₂ LiteralOk (List.zipWith (Param.literal g9) types params)
      (List.zipWith (Param.token g9) types params) := by
    clear h
    induction hfits with
    | nil => exact .nil
    | cons hfit hrest ih =>
        exact .cons (literalOk (htypes _ List.mem_cons_self) hfit (hquotes _ List.mem_cons_self))
          (ih (fun t ht => htypes t (List.mem_cons_of_mem _ ht)) fun p hp => hquotes p (List.mem_cons_of_mem _ hp))
  have hstart : SameLexeme (List.zipWith (Param.token g9) types params) .idle none [] [] :=
    ⟨State.noConfusion, .inl rfl⟩
  unfold lex wireSubstituteParams bindTokens
  rw [cStr_substitute h]
  exact tokens_substituteFrom hlits hstart h

/-- `a = $1` with -5. -/
theorem lex_substitute_minus : lex (wireSubstituteParams (Parser.bytesOf "a = $1") [Lib.decimalInt (-5)]) =
    [.identifier [97], .op [61], .int (-5)] := by
  have htypes : ∀ t ∈ [sqltypeInt32], t = sqltypeInt32 ∨ t = sqltypeChar := by simp
  have hfits : List.Forall₂ Param.Fits [sqltypeInt32] [.int (-5)] := .cons rfl .nil
  refine (lex_substitute (fun _ => []) htypes hfits ?_ ?_).trans ?_
  · intro p hp
    obtain rfl := List.mem_singleton.1 hp
    trivial
  · decide +kernel
  · decide +kernel

/-- `a-$1` with -5: a comment. -/
theorem lex_substitute_comment : lex (wireSubstituteParams (Parser.bytesOf "a-$1") [Lib.decimalInt (-5)]) = [.identifier [97]] ∧
    bindTokens (Parser.bytesOf "a-$1") [.int (-5)] = [.identifier [97], .op [45], .int (-5)] := by
  decide +kernel

/-- Not every text that `Binds` leaves out goes wrong: the quote of the comment hides the marker, and what is left of
it is lexed as its number, here the parameter. -/
example : ¬Binds [[49]] .idle none false 0 (Parser.bytesOf "--'\n$1") ∧
    lex (wireSubstituteParams (Parser.bytesOf "--'\n$1") [[49]]) = bindTokens (Parser.bytesOf "--'\n$1") [.int 1] := by
  decide +kernel

end Rmdb.Wire
