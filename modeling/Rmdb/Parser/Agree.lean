import Rmdb.Parser.Pieces

/-!
# The fast parser agrees with the grammar

On plain text, where the fast parser returns a tree and `yyparse` accepts, they have read the same statement
(`tryFastParseSql_agrees`).  Each reader of the fast parser is set against the nonterminal that it stands for, from
left to right: what follows it in the text (`Begins`) and in the grammar (`Follows`) decides which rule was used.
`signed` puts the sign of `col - 1` into the literal, where the lexer has it in `col -1`.
-/

namespace Rmdb.Parser

open Rmdb.Lib (isDigit digitsValue listLoop ListOf listLoop_agrees)
open Rmdb.Txn (Bytes CompOp fneg)
open Rmdb.Sql (SvValue)

/-! ## Signs -/

def negLit : SvValue → SvValue
  | .int v => .int (-v)
  | .float v => .float (fneg v)
  | v => v

def SetClause.signed (s : SetClause) : SetClause :=
  if s.isArith && s.arithNeg then { s with val := negLit s.val, arithNeg := false } else s

def TreeNode.signed : TreeNode → TreeNode
  | .updateStmt tab sets conds => .updateStmt tab (sets.map SetClause.signed) conds
  | tree => tree

/-! ## What comes next -/

/-- The tokens are at their end, or the next is a word that begins with one of `ks`. -/
def Begins (ks : List String) (s : Toks) : Prop := ∀ t ∈ s.head?, ∃ k ∈ ks, bytesOf k <+: t.spelling

/-- The next token is one of `ts`. -/
def Follows (ts : List Token) (s : Toks) : Prop := ∃ t ∈ ts, s.head? = some t

def other (ks : List String) (t : Token) : Bool := !ks.any fun k => (bytesOf k).isPrefixOf t.spelling

variable {ks ls : List String} {ts : List Token} {s r : Toks} {t : Token} {u : Toks}

/-- The keywords of the fast parser, as it has them and as the lexer has them. -/
def fpWords : List (String × String) :=
  [("begin", "BEGIN"), ("commit", "COMMIT"), ("abort", "ABORT"), ("select", "SELECT"), ("count", "COUNT"), ("from", "FROM"),
    ("where", "WHERE"), ("and", "AND"), ("order", "ORDER"), ("by", "BY"), ("asc", "ASC"), ("desc", "DESC"), ("limit", "LIMIT"),
    ("update", "UPDATE"), ("set", "SET"), ("delete", "DELETE"), ("insert", "INSERT"), ("into", "INTO"), ("values", "VALUES")]

theorem fpWords_spelled : ∀ w ∈ fpWords, Spelled w.1 w.2 := by
  simp [fpWords, Spelled, bytesOf, isAlpha, lower, upper]

theorem spelled {k K : String} (h : (k, K) ∈ fpWords) : Spelled k K := fpWords_spelled _ h

/-- What the fast parser ends a part of a statement at. -/
def ends : List String := [";", "WHERE", "AND", "FROM", "VALUES", "ORDER", "ASC", "DESC", "LIMIT"]

/-- What the grammar may have there. -/
def marks : List String := [";", ",", ".", "(", "AS", "FROM", "JOIN", "GROUP", "HAVING", "ORDER", "ASC", "DESC", "LIMIT"]

theorem marks_apart : ∀ W ∈ marks, ∀ K ∈ ends, K = W ∨ (bytesOf K).isPrefixOf (bytesOf W) = false := by decide +kernel

theorem other_mark (W : String) (hW : W ∈ marks ∧ ∀ k ∈ ks, k ∈ ends ∧ k ≠ W) (ht : t.spelling = bytesOf W) :
    other ks t = true := by
  unfold other
  rw [Bool.not_eq_true', List.any_eq_false, ht]
  intro k hk
  obtain ⟨hend, hne⟩ := hW.2 k hk
  rw [(marks_apart W hW.1 k hend).resolve_left hne]
  exact Bool.false_ne_true

@[simp] theorem other_kw (W : String) (hW : W ∈ marks ∧ ∀ k ∈ ks, k ∈ ends ∧ k ≠ W) : other ks (kw W) = true :=
  other_mark W hW rfl

@[simp] theorem other_op (W : String) (hW : W ∈ marks ∧ ∀ k ∈ ks, k ∈ ends ∧ k ≠ W) : other ks (op W) = true :=
  other_mark W hW rfl

theorem Begins.not_other (h : Begins ks (t :: u)) (ht : other ks t = true) : False := by
  obtain ⟨k, hk, hprefix⟩ := h t rfl
  have hany : (ks.any fun k => (bytesOf k).isPrefixOf t.spelling) = true :=
    List.any_eq_true.2 ⟨k, hk, List.isPrefixOf_iff_prefix.2 hprefix⟩
  unfold other at ht
  rw [hany] at ht
  cases ht

theorem Begins.mono (h : Begins ks s) (hsub : ∀ k ∈ ks, k ∈ ls) : Begins ls s := by
  intro t ht
  obtain ⟨k, hk, hprefix⟩ := h t ht
  exact ⟨k, hsub k hk, hprefix⟩

theorem Follows.not_begins (h : Follows ts s) (hts : ∀ t ∈ ts, other ks t = true) : ¬ Begins ks s := by
  obtain ⟨t, ht, hhead⟩ := h
  obtain ⟨u, rfl⟩ := List.head?_eq_some_iff.1 hhead
  exact fun hbegins => hbegins.not_other (hts t ht)

variable {p q : Bytes} {k K : String} {atof : Bytes → BitVec 32}

theorem fpKw_begins (hk : Spelled k K) (h : Plain p) (hf : fpKw k p = some q) : Begins [K] (tokens p) := by
  obtain ⟨t, u, htokens, hprefix⟩ := fpKw_head hk h hf
  rw [htokens]
  intro t' ht'
  obtain rfl := Option.some.inj ht'
  exact ⟨K, List.mem_singleton_self K, hprefix⟩

theorem fpTrailingOk_begins (h : Plain p) (hf : fpTrailingOk p = true) : Begins [";"] (tokens p) := by
  rcases fpTrailingOk_tokens h hf with h | h
  · rw [h]
    exact fun _ ht => nomatch ht
  · rw [h]
    intro t ht
    obtain rfl := Option.some.inj ht
    exact ⟨";", List.mem_singleton_self _, List.prefix_refl _⟩

theorem fpChar_tail {c : UInt8} (hc : ∀ s, start (fun _ => false) c s = .op) (h : Plain p) (hf : fpChar c p = some q)
    (ht : tokens p = .op [c] :: u) : u = tokens q ∧ Plain q := by
  obtain ⟨htokens, hq⟩ := fpChar_tokens hc h hf
  rw [ht] at htokens
  exact ⟨(List.cons.inj htokens).2, hq⟩

theorem fpChar_not_follows {c : UInt8} (hc : ∀ s, start (fun _ => false) c s = .op) (h : Plain p) (hf : fpChar c p = some q)
    (hts : .op [c] ∉ ts) : ¬ Follows ts (tokens p) := by
  rintro ⟨t, ht, hhead⟩
  rw [(fpChar_tokens hc h hf).1] at hhead
  obtain rfl := Option.some.inj hhead
  exact hts ht

/-- A list with commas; `ts` is what may stand behind it. -/
theorem commaList_agrees {α β : Type} {item : Bytes → Option (α × Bytes)} {G : Rmdb.Lib.Nonterminal Token β} (R : α → β → Prop)
    (Behind : Toks → Prop) (hts : op "," ∉ ts) (hok : ∀ p a q, Plain p → item p = some (a, q) → Plain q)
    (hitem : ∀ p a q b r, Plain p → item p = some (a, q) → Behind (tokens q) → G (tokens p) b r →
      ((∃ u, r = op "," :: u) ∨ Follows ts r) → R a b ∧ r = tokens q)
    (hbehind : ∀ u, Behind (op "," :: u)) {n : Nat} {as : List α} {bs : List β} (h : Plain p)
    (hf : listLoop item (fpChar 44) n p = some (as, q)) (hq : Plain q → Behind (tokens q))
    (hlist : ListOf G (op ",") (tokens p) bs r) (hr : Follows ts r) : List.Forall₂ R as bs ∧ r = tokens q ∧ Plain q :=
  listLoop_agrees tokens Plain R Behind (Follows ts) hok hitem
    (fun p q hp hcomma => by
      rw [(fpChar_tokens (fun _ => rfl) hp hcomma).1]
      exact hbehind (tokens q))
    (fun _ _ _ hp hcomma hu => fpChar_tail (fun _ => rfl) hp hcomma hu) (fun _ _ hp hnone => fpChar_none_tokens hp hnone)
    (fun _ _ hp hcomma => fpChar_not_follows (fun _ => rfl) hp hcomma hts) h hf hq hlist hr

/-! ## Names and values -/

theorem Name.eq_cons {w : Bytes} (h : Name s w r) : s = .identifier w :: r := by
  cases h
  rfl

theorem identifier_of_wordToken {w w' : Bytes} (h : wordToken w = .identifier w') : w = w' := by
  unfold wordToken at h
  dsimp only at h
  split_ifs at h
  exact Token.identifier.inj h

theorem fpIdent_agrees {w w' : Bytes} (h : Plain p) (hf : fpIdent p = some (w, q)) (hname : Name (tokens p) w' r) :
    w' = w ∧ r = tokens q ∧ Plain q := by
  obtain ⟨h1, h2, -⟩ := fpIdent_tokens h hf
  rw [hname.eq_cons] at h1
  obtain ⟨hw, rfl⟩ := List.cons.inj h1
  exact ⟨(identifier_of_wordToken hw.symm).symm, rfl, h2⟩

/-- A column where no point stands behind the name. -/
theorem fpIdent_col {w : Bytes} {c : Col} (h : Plain p) (hf : fpIdent p = some (w, q)) (hdot : ∀ u, tokens q ≠ op "." :: u)
    (hcol : ColRule (tokens p) c r) : c = ⟨[], w⟩ ∧ r = tokens q ∧ Plain q := by
  generalize hs : tokens p = s at hcol
  cases hcol with
  | qualified htab hcol =>
      subst hs
      exact absurd (fpIdent_agrees h hf htab).2.1.symm (hdot _)
  | plain hcol =>
      subst hs
      obtain ⟨rfl, h2⟩ := fpIdent_agrees h hf hcol
      exact ⟨rfl, h2⟩

theorem ValueRule.eq_cons {v : SvValue} (h : ValueRule atof s v r) : ∃ t, s = t :: r ∧ valueOf atof t = some v := by
  cases h with
  | int v => exact ⟨_, rfl, rfl⟩
  | float text => exact ⟨_, rfl, rfl⟩
  | string s => exact ⟨_, rfl, rfl⟩
  | bool b => exact ⟨_, rfl, rfl⟩

theorem ValueRule.agrees {v v' : SvValue} (h : ValueRule atof (t :: u) v' r) (ht : valueOf atof t = some v) : v' = v ∧ r = u := by
  obtain ⟨t', hcons, hv⟩ := h.eq_cons
  obtain ⟨rfl, rfl⟩ := List.cons.inj hcons
  exact ⟨Option.some.inj (hv.symm.trans ht), rfl⟩

/-! ## Conditions -/

theorem fpCond_plain {c : BinaryExpr} (hatof : Signed atof) (h : Plain p) (hf : fpCond atof p = some (c, q)) : Plain q := by
  obtain ⟨col, p1, p2, val, h1, h2, h3, -⟩ := fpCond_some hf
  have hp1 := (fpIdent_tokens h h1).2.1
  have hp2 := (fpChar_tokens (fun _ => rfl) hp1 h2).2
  obtain ⟨-, -, hp3, -⟩ := fpParseValue_tokens hatof hp2 h3
  exact hp3

theorem fpCond_agrees {c c' : BinaryExpr} (hatof : Signed atof) (h : Plain p) (hf : fpCond atof p = some (c, q))
    (hcond : Condition atof (tokens p) c' r) : c' = c ∧ r = tokens q := by
  obtain ⟨col, p1, p2, val, h1, h2, h3, rfl⟩ := fpCond_some hf
  have hp1 := (fpIdent_tokens h h1).2.1
  obtain ⟨heq, hp2⟩ := fpChar_tokens (fun _ => rfl) hp1 h2
  obtain ⟨t, hval, -, ht⟩ := fpParseValue_tokens hatof hp2 h3
  cases hcond with
  | mk hlhs hop hrhs =>
      obtain ⟨rfl, rfl, -⟩ := fpIdent_col h h1 (fun u hu => by
        rw [heq] at hu
        cases hu) hlhs
      rw [heq] at hop
      have hops : op "=" :: tokens p2 = .op [61] :: tokens p2 := rfl
      generalize hs : (Token.op [61] :: tokens p2) = s at hop
      cases hop with
      | eq r' =>
          obtain rfl := (List.cons.inj hs).2
          rw [hval] at hrhs
          cases hrhs with
          | value hv =>
              obtain ⟨rfl, rfl⟩ := hv.agrees ht
              exact ⟨rfl, rfl⟩
          | col hc =>
              cases hc with
              | qualified htab _ =>
                  obtain ⟨rfl, -⟩ := List.cons.inj htab.eq_cons
                  cases ht
              | plain hcol =>
                  obtain ⟨rfl, -⟩ := List.cons.inj hcol.eq_cons
                  cases ht
      | lt _ => exact absurd (List.cons.inj hs).1 (by decide)
      | gt _ => exact absurd (List.cons.inj hs).1 (by decide)
      | ne _ => exact absurd (List.cons.inj hs).1 (by decide)
      | le _ => exact absurd (List.cons.inj hs).1 (by decide)
      | ge _ => exact absurd (List.cons.inj hs).1 (by decide)

/-- What may stand behind the conditions of `WHERE`. -/
def followWhere : List Token := [kw "GROUP", kw "HAVING", kw "ORDER", kw "LIMIT", op ";"]

theorem fpParseWhereEq_agrees {conds conds' : List BinaryExpr} (hatof : Signed atof) (h : Plain p)
    (hf : fpParseWhereEq atof p = some (conds, q)) (hwhere : OptWhereClause atof (tokens p) conds' r)
    (hr : Follows followWhere r) : conds' = conds ∧ r = tokens q ∧ Plain q := by
  unfold fpParseWhereEq at hf
  generalize hs : tokens p = s at hwhere
  cases hkw : fpKw "where" p with
  | none =>
      rw [hkw] at hf
      obtain ⟨rfl, rfl⟩ := Prod.mk.inj (Option.some.inj hf)
      cases hwhere with
      | empty _ => exact ⟨rfl, hs.symm, h⟩
      | conds hconds => exact absurd hs (fpKw_none (spelled (by simp [fpWords])) h hkw)
  | some p1 =>
      rw [hkw] at hf
      cases hwhere with
      | empty _ =>
          rw [← hs] at hr
          have hbegins := fpKw_begins (K := "WHERE") (spelled (by simp [fpWords])) h hkw
          exact absurd hbegins (hr.not_begins (by simp [followWhere, marks, ends]))
      | conds hconds =>
          obtain ⟨rfl, hp1⟩ := fpKw_tail (spelled (by simp [fpWords])) h hkw hs
          have hlist := listLoop_agrees tokens Plain (fun a b => b = a) (fun _ => True) (Follows followWhere)
            (fun p a q hp hread => fpCond_plain hatof hp hread)
            (fun p a q b r hp hread _ hb _ => fpCond_agrees hatof hp hread hb) (fun _ _ _ _ => trivial)
            (fun p q u hp hand hu => fpKw_tail (spelled (by simp [fpWords])) hp hand hu)
            (fun p u hp hnone => fpKw_none (spelled (by simp [fpWords])) hp hnone)
            (fun p q hp hand hstops => absurd (fpKw_begins (K := "AND") (spelled (by simp [fpWords])) hp hand)
              (hstops.not_begins (by simp [followWhere, marks, ends])))
            hp1 hf (fun _ => trivial) hconds hr
          obtain ⟨hconds, hr, hq⟩ := hlist
          refine ⟨?_, hr, hq⟩
          rw [← List.forall₂_eq_eq_eq]
          exact hconds.flip

theorem fpParseWhereEq_begins {conds : List BinaryExpr} (h : Plain p) (hf : fpParseWhereEq atof p = some (conds, q))
    (hq : Plain q → Begins ks (tokens q)) : Begins ("WHERE" :: ks) (tokens p) := by
  unfold fpParseWhereEq at hf
  cases hkw : fpKw "where" p with
  | none =>
      rw [hkw] at hf
      obtain ⟨-, rfl⟩ := Prod.mk.inj (Option.some.inj hf)
      exact (hq h).mono fun k hk => List.mem_cons_of_mem _ hk
  | some p1 =>
      refine (fpKw_begins (K := "WHERE") (spelled (by simp [fpWords])) h hkw).mono fun k hk => ?_
      rw [List.mem_singleton.1 hk]
      exact List.mem_cons_self

/-! ## What follows the conditions of a SELECT -/

theorem fpLimit_begins {limit : Bool × BitVec 32} (h : Plain p) (hf : fpLimit p = some (limit, q))
    (hend : fpTrailingOk q = true) : Begins ["LIMIT", ";"] (tokens p) := by
  unfold fpLimit at hf
  cases hkw : fpKw "limit" p with
  | none =>
      rw [hkw] at hf
      obtain ⟨-, rfl⟩ := Prod.mk.inj (Option.some.inj hf)
      exact (fpTrailingOk_begins h hend).mono (by simp)
  | some p1 => exact (fpKw_begins (K := "LIMIT") (spelled (by simp [fpWords])) h hkw).mono (by simp)

theorem head_ne_point (hend : fpTrailingOk q = true) : q.head? ≠ some 46 := by
  intro h
  obtain ⟨s, rfl⟩ := List.head?_eq_some_iff.1 h
  cases hend

theorem fpLimit_agrees {limit : Bool × BitVec 32} {l : BitVec 32} (h : Plain p) (hf : fpLimit p = some (limit, q))
    (hend : fpTrailingOk q = true) (hlimit : OptLimit (tokens p) l (op ";" :: u)) :
    hasLimit l = limit.1 ∧ limitCount l = limit.2 := by
  unfold fpLimit at hf
  generalize hs : tokens p = s at hlimit
  cases hkw : fpKw "limit" p with
  | none =>
      rw [hkw] at hf
      obtain ⟨rfl, rfl⟩ := Prod.mk.inj (Option.some.inj hf)
      generalize hrest : (op ";" :: u) = r at hlimit
      cases hlimit with
      | empty _ => exact ⟨by decide, by decide⟩
      | limit v _ => exact absurd hs (fpKw_none (spelled (by simp [fpWords])) h hkw)
  | some p1 =>
      rw [hkw] at hf
      obtain ⟨⟨n, q'⟩, huint, hx⟩ := Option.map_eq_some_iff.1 hf
      obtain ⟨rfl, rfl⟩ := Prod.mk.inj hx
      have hbegins := fpKw_begins (K := "LIMIT") (spelled (by simp [fpWords])) h hkw
      generalize hrest : (op ";" :: u) = r at hlimit
      cases hlimit with
      | empty _ =>
          rw [hs, ← hrest] at hbegins
          exact (hbegins.not_other (by simp [marks, ends])).elim
      | limit v _ =>
          obtain ⟨htail, hp1⟩ := fpKw_tail (spelled (by simp [fpWords])) h hkw hs
          obtain ⟨hn, -, hpos⟩ := fpParseUint_tokens hp1 huint (head_ne_point hend)
          rw [hn] at htail
          obtain rfl := Token.int.inj (List.cons.inj htail).1
          refine ⟨decide_eq_true hpos, if_neg (by omega)⟩

theorem fpDir_cases (p : Bytes) : (fpDir p = (.default, p) ∧ fpKw "asc" p = none ∧ fpKw "desc" p = none) ∨
    (∃ q, fpDir p = (.asc, q) ∧ fpKw "asc" p = some q) ∨ ∃ q, fpDir p = (.desc, q) ∧ fpKw "desc" p = some q := by
  unfold fpDir
  cases h1 : fpKw "asc" p with
  | some q => exact .inr (.inl ⟨q, rfl, rfl⟩)
  | none =>
      cases h2 : fpKw "desc" p with
      | some q => exact .inr (.inr ⟨q, rfl, rfl⟩)
      | none => exact .inl ⟨rfl, rfl, rfl⟩

theorem fpOrder_begins {orders : List OrderBy} (h : Plain p) (hf : fpOrder p = some (orders, q))
    (hq : Plain q → Begins ks (tokens q)) : Begins ("ORDER" :: ks) (tokens p) := by
  unfold fpOrder at hf
  cases hkw : fpKw "order" p with
  | none =>
      rw [hkw] at hf
      obtain ⟨-, rfl⟩ := Prod.mk.inj (Option.some.inj hf)
      exact (hq h).mono fun k hk => List.mem_cons_of_mem _ hk
  | some p1 =>
      refine (fpKw_begins (K := "ORDER") (spelled (by simp [fpWords])) h hkw).mono fun k hk => ?_
      rw [List.mem_singleton.1 hk]
      exact List.mem_cons_self

/-- What `fpDir` read, against the rule for the direction and what the grammar has behind it. -/
theorem fpDir_agrees {dir : OrderByDir} (h : Plain p) (hdir : OptAscDesc (tokens p) dir r)
    (hr : Follows [op ",", kw "LIMIT", op ";"] r) : dir = (fpDir p).1 ∧ r = tokens (fpDir p).2 ∧ Plain (fpDir p).2 := by
  generalize hs : tokens p = s at hdir
  rcases fpDir_cases p with ⟨hd, h1, h2⟩ | ⟨q, hd, h1⟩ | ⟨q, hd, h1⟩
  · rw [hd]
    cases hdir with
    | asc _ => exact absurd hs (fpKw_none (spelled (by simp [fpWords])) h h1)
    | desc _ => exact absurd hs (fpKw_none (spelled (by simp [fpWords])) h h2)
    | default _ => exact ⟨rfl, hs.symm, h⟩
  · have hbegins := fpKw_begins (K := "ASC") (spelled (by simp [fpWords])) h h1
    rw [hs] at hbegins
    rw [hd]
    cases hdir with
    | asc _ =>
        obtain ⟨rfl, hq⟩ := fpKw_tail (spelled (by simp [fpWords])) h h1 hs
        exact ⟨rfl, rfl, hq⟩
    | desc _ => exact (hbegins.not_other (by simp [marks, ends])).elim
    | default _ => exact absurd hbegins (hr.not_begins (by simp [marks, ends]))
  · have hbegins := fpKw_begins (K := "DESC") (spelled (by simp [fpWords])) h h1
    rw [hs] at hbegins
    rw [hd]
    cases hdir with
    | asc _ => exact (hbegins.not_other (by simp [marks, ends])).elim
    | desc _ =>
        obtain ⟨rfl, hq⟩ := fpKw_tail (spelled (by simp [fpWords])) h h1 hs
        exact ⟨rfl, rfl, hq⟩
    | default _ => exact absurd hbegins (hr.not_begins (by simp [marks, ends]))

theorem fpDir_begins (h : Plain p) (hq : Plain (fpDir p).2 → Begins ks (tokens (fpDir p).2)) :
    Begins ("ASC" :: "DESC" :: ks) (tokens p) := by
  rcases fpDir_cases p with ⟨hd, -, -⟩ | ⟨q, hd, h1⟩ | ⟨q, hd, h1⟩
  · rw [hd] at hq
    exact (hq h).mono fun k hk => List.mem_cons_of_mem _ (List.mem_cons_of_mem _ hk)
  · exact (fpKw_begins (K := "ASC") (spelled (by simp [fpWords])) h h1).mono (by simp)
  · exact (fpKw_begins (K := "DESC") (spelled (by simp [fpWords])) h h1).mono (by simp)

theorem OptLimit.follows {l : BitVec 32} (h : OptLimit s l (op ";" :: u)) : Follows [kw "LIMIT", op ";"] s := by
  generalize hr : (op ";" :: u) = r at h
  cases h with
  | empty _ => exact ⟨op ";", by simp, by rw [← hr]; rfl⟩
  | limit v _ => exact ⟨kw "LIMIT", by simp, rfl⟩

theorem Follows.mono {ts' : List Token} (h : Follows ts s) (hsub : ∀ t ∈ ts, t ∈ ts') : Follows ts' s := by
  obtain ⟨t, ht, hhead⟩ := h
  exact ⟨t, hsub t ht, hhead⟩

theorem fpOrder_agrees {orders orders' : List OrderBy} {limit : Bool × BitVec 32} {l : BitVec 32} {q' : Bytes} (h : Plain p)
    (hf : fpOrder p = some (orders, q)) (hlimit : fpLimit q = some (limit, q')) (hend : fpTrailingOk q' = true)
    (horder : OptOrderClause (tokens p) orders' r) (hr : OptLimit r l (op ";" :: u)) :
    orders' = orders ∧ r = tokens q ∧ Plain q := by
  have hfollows := hr.follows
  unfold fpOrder at hf
  generalize hs : tokens p = s at horder
  cases hkw : fpKw "order" p with
  | none =>
      rw [hkw] at hf
      obtain ⟨rfl, rfl⟩ := Prod.mk.inj (Option.some.inj hf)
      cases horder with
      | orderBy _ => exact absurd hs (fpKw_none (spelled (by simp [fpWords])) h hkw)
      | empty _ => exact ⟨rfl, hs.symm, h⟩
  | some p1 =>
      rw [hkw] at hf
      obtain ⟨p2, hby, hf⟩ := Option.bind_eq_some_iff.1 hf
      obtain ⟨⟨col, p3⟩, hident, hf⟩ := Option.bind_eq_some_iff.1 hf
      obtain ⟨rfl, rfl⟩ := Prod.mk.inj (Option.some.inj hf)
      cases horder with
      | empty _ =>
          have hbegins := fpKw_begins (K := "ORDER") (spelled (by simp [fpWords])) h hkw
          rw [hs] at hbegins
          exact absurd hbegins (hfollows.not_begins (by simp [marks, ends]))
      | orderBy hlist =>
          obtain ⟨htail, hp1⟩ := fpKw_tail (spelled (by simp [fpWords])) h hkw hs
          obtain ⟨rfl, hp2⟩ := fpKw_tail (spelled (by simp [fpWords])) hp1 hby htail.symm
          have hp3 := (fpIdent_tokens hp2 hident).2.1
          have hbegins := fpDir_begins hp3 fun hq => fpLimit_begins hq hlimit hend
          obtain ⟨o, t, ho, hrest⟩ := hlist.cases_head
          have ht : Follows [op ",", kw "LIMIT", op ";"] t := by
            rcases hrest with ⟨-, rfl⟩ | ⟨u', -, rfl, -⟩
            · exact hfollows.mono (by simp)
            · exact ⟨op ",", by simp, rfl⟩
          cases ho with
          | mk hcol hdir =>
              obtain ⟨rfl, rfl, -⟩ := fpIdent_col hp2 hident (fun u' hu => by
                rw [hu] at hbegins
                exact hbegins.not_other (by simp [marks, ends])) hcol
              obtain ⟨rfl, rfl, hq⟩ := fpDir_agrees hp3 hdir ht
              rcases hrest with ⟨rfl, rfl⟩ | ⟨u', -, hcomma, -⟩
              · exact ⟨rfl, rfl, hq⟩
              · have hlimits := fpLimit_begins hq hlimit hend
                rw [hcomma] at hlimits
                exact (hlimits.not_other (by simp [marks, ends])).elim

/-- No `GROUP BY` and no `HAVING` where the text goes on with what the fast parser reads. -/
theorem group_having_absent {group : List Col} {having : List BinaryExpr} {w x : Toks} (hbegins : Begins ["ORDER", "LIMIT", ";"] s)
    (hgroup : OptGroupBy s group w) (hhaving : OptHaving atof w having x) : group = [] ∧ having = [] ∧ x = s := by
  cases hgroup with
  | groupBy _ => exact (hbegins.not_other (by simp [marks, ends])).elim
  | empty _ =>
      cases hhaving with
      | having _ => exact (hbegins.not_other (by simp [marks, ends])).elim
      | empty _ => exact ⟨rfl, rfl, rfl⟩

theorem follows_where {group : List Col} {having : List BinaryExpr} {orders : List OrderBy} {l : BitVec 32} {w x y : Toks}
    (hgroup : OptGroupBy s group w) (hhaving : OptHaving atof w having x) (horder : OptOrderClause x orders y)
    (hlimit : OptLimit y l (op ";" :: u)) : Follows followWhere s := by
  cases hgroup with
  | groupBy _ => exact ⟨kw "GROUP", by simp [followWhere], rfl⟩
  | empty _ =>
      cases hhaving with
      | having _ => exact ⟨kw "HAVING", by simp [followWhere], rfl⟩
      | empty _ =>
          cases horder with
          | orderBy _ => exact ⟨kw "ORDER", by simp [followWhere], rfl⟩
          | empty _ => exact hlimit.follows.mono (by simp [followWhere])

/-! ## The tables of a SELECT -/

/-- The first table, and what may follow it. -/
theorem TableList.cases_head {info : TableListInfo} (h : TableList atof s info r) :
    ∃ tab t, Name s tab t ∧ ((info = { tabs := [tab] } ∧ r = t) ∨ ∃ v, t = op "," :: v ∨ t = kw "JOIN" :: v) := by
  induction h with
  | one h => exact ⟨_, _, h, .inl ⟨rfl, rfl⟩⟩
  | comma _ _ ih =>
      obtain ⟨tab, t, hname, ⟨-, rfl⟩ | hmore⟩ := ih
      · exact ⟨tab, _, hname, .inr ⟨_, .inl rfl⟩⟩
      · exact ⟨tab, t, hname, .inr hmore⟩
  | join _ _ ih =>
      obtain ⟨tab, t, hname, ⟨-, rfl⟩ | hmore⟩ := ih
      · exact ⟨tab, _, hname, .inr ⟨_, .inr rfl⟩⟩
      · exact ⟨tab, t, hname, .inr hmore⟩
  | joinOn _ _ _ ih =>
      obtain ⟨tab, t, hname, ⟨-, rfl⟩ | hmore⟩ := ih
      · exact ⟨tab, _, hname, .inr ⟨_, .inr rfl⟩⟩
      · exact ⟨tab, t, hname, .inr hmore⟩

theorem fpTable_agrees {tab : Bytes} {info : TableListInfo} (h : Plain p) (hf : fpIdent p = some (tab, q))
    (hbegins : Plain q → Begins ["WHERE", "ORDER", "LIMIT", ";"] (tokens q)) (hinfo : TableList atof (tokens p) info r) :
    info = { tabs := [tab] } ∧ r = tokens q ∧ Plain q := by
  obtain ⟨tab', t, hname, hrest⟩ := hinfo.cases_head
  obtain ⟨rfl, rfl, hq⟩ := fpIdent_agrees h hf hname
  have hnext := hbegins hq
  rcases hrest with ⟨rfl, rfl⟩ | ⟨v, hv | hv⟩
  · exact ⟨rfl, rfl, hq⟩
  · rw [hv] at hnext
    exact (hnext.not_other (by simp [marks, ends])).elim
  · rw [hv] at hnext
    exact (hnext.not_other (by simp [marks, ends])).elim

/-! ## The select list -/

/-- A column, or an aggregate. -/
inductive SelectItem : Rmdb.Lib.Nonterminal Token (Col ⊕ AggExpr) where
  | col {s r : Toks} {c : Col} (h : ColRule s c r) : SelectItem s (.inl c) r
  | agg {s r : Toks} {e : AggExpr} (h : AggFunc s e r) : SelectItem s (.inr e) r

theorem SelectList.items {cols : List Col} {aggs : List AggExpr} (h : SelectList s (cols, aggs) r) :
    s = op "*" :: r ∨ ∃ items, ListOf SelectItem (op ",") s items r ∧ items = cols.map .inl ++ aggs.map .inr := by
  generalize hlist : (cols, aggs) = list at h
  cases h with
  | star _ => exact .inl rfl
  | cols h =>
      obtain ⟨rfl, rfl⟩ := Prod.mk.inj hlist
      exact .inr ⟨_, h.map fun _ _ _ => .col, (List.append_nil _).symm⟩
  | aggs h =>
      obtain ⟨rfl, rfl⟩ := Prod.mk.inj hlist
      exact .inr ⟨_, h.map fun _ _ _ => .agg, rfl⟩
  | both hcols haggs =>
      obtain ⟨rfl, rfl⟩ := Prod.mk.inj hlist
      exact .inr ⟨_, (hcols.map fun _ _ _ => .col).append (haggs.map fun _ _ _ => .agg), rfl⟩

theorem filterMap_items (cols : List Col) (aggs : List AggExpr) :
    (cols.map Sum.inl ++ aggs.map Sum.inr).filterMap Sum.getLeft? = cols ∧
      (cols.map Sum.inl ++ aggs.map Sum.inr).filterMap Sum.getRight? = aggs := by
  induction cols with
  | nil =>
      induction aggs with
      | nil => exact ⟨rfl, rfl⟩
      | cons e aggs ih => exact ⟨ih.1, congrArg (e :: ·) ih.2⟩
  | cons c cols ih => exact ⟨congrArg (c :: ·) ih.1, ih.2⟩

theorem items_inj {cols cols' : List Col} {aggs aggs' : List AggExpr}
    (h : cols.map Sum.inl ++ aggs.map Sum.inr = cols'.map Sum.inl ++ aggs'.map Sum.inr) : cols = cols' ∧ aggs = aggs' := by
  have hleft := congrArg (List.filterMap Sum.getLeft?) h
  have hright := congrArg (List.filterMap Sum.getRight?) h
  rw [(filterMap_items _ _).1, (filterMap_items _ _).1] at hleft
  rw [(filterMap_items _ _).2, (filterMap_items _ _).2] at hright
  exact ⟨hleft, hright⟩

theorem wordToken_ne_op (w x : Bytes) : wordToken w ≠ .op x := by
  unfold wordToken
  dsimp only
  split_ifs <;> exact Token.noConfusion

theorem wordToken_keyword {w : Bytes} (hw : w.map upper = bytesOf K) (hK : (keywords.any fun k => bytesOf K = bytesOf k) = true) :
    wordToken w = kw K := by
  unfold wordToken
  dsimp only
  rw [hw, if_pos hK]
  rfl

theorem Name.not_op {w : Bytes} {x : Bytes} (h : Name (.op x :: u) w r) : False := by
  cases h

theorem ColRule.not_op {c : Col} {x : Bytes} (h : ColRule (.op x :: u) c r) : False := by
  cases h with
  | qualified htab _ => exact htab.not_op
  | plain hcol => exact hcol.not_op

theorem ColRule.not_keyword {c : Col} (h : ColRule (kw K :: u) c r) : False := by
  cases h with
  | qualified htab _ => cases htab.eq_cons
  | plain hcol => cases hcol.eq_cons

theorem isWs_of_isWordChar : ∀ c : UInt8, isWordChar c = true → isWs c = false := by decide +kernel

/-- A character that is no part of a word ends the word in front of it. -/
theorem takeWhile_of_fpChar {c : UInt8} (hc : isWordChar c = false) (hf : fpChar c p = some q) : p.takeWhile isWordChar = [] := by
  have hp := fpChar_some hf
  cases p with
  | nil => rfl
  | cons d s =>
      refine List.takeWhile_cons_of_neg ?_
      cases hws : isWs d with
      | true => exact fun hword => Bool.noConfusion ((isWs_of_isWordChar d hword).symm.trans hws)
      | false =>
          rw [List.dropWhile_cons_of_neg (by rw [hws]; exact Bool.false_ne_true)] at hp
          rw [(List.cons.inj hp).1, hc]
          exact Bool.false_ne_true

theorem AggFunc.eq_cons {e : AggExpr} (h : AggFunc s e r) : ∃ f v, s = aggName f :: op "(" :: v := by
  cases h with
  | countStar _ => exact ⟨.count, _, rfl⟩
  | of f _ _ => exact ⟨f, _, rfl⟩
  | distinct _ _ => exact ⟨.count, _, rfl⟩
  | distinctParen _ _ => exact ⟨.count, _, rfl⟩

theorem AggFunc.countStar_inv {e : AggExpr} (h : AggFunc (kw "COUNT" :: op "(" :: op "*" :: op ")" :: s) e r) :
    ∃ aliasName, OptAlias s aliasName r ∧ e = ⟨.count, none, aliasName, true, false⟩ := by
  generalize hs : (kw "COUNT" :: op "(" :: op "*" :: op ")" :: s) = s' at h
  cases h with
  | countStar h =>
      obtain rfl : s = _ := by simpa using hs
      exact ⟨_, h, rfl⟩
  | of f hcol _ =>
      obtain ⟨-, hs⟩ := List.cons.inj hs
      obtain ⟨-, rfl⟩ := List.cons.inj hs
      exact hcol.not_op.elim
  | distinct _ _ => cases hs
  | distinctParen _ _ => cases hs

/-- `COUNT(*)` without a name of its own: an identifier behind it would be the keyword that the fast parser has read
off it, and the name of the table would be the rest of that word. -/
theorem no_alias {w tab : Bytes} {q1 q2 : Bytes} (h : Plain q) (hfrom : fpKw "from" q = some q1) (htab : fpIdent q1 = some (tab, q2))
    (hbegins : Plain q2 → Begins ["WHERE", "ORDER", "LIMIT", ";"] (tokens q2)) (hq : tokens q = .identifier w :: u)
    (hu : Follows [op ",", kw "FROM"] u) : False := by
  obtain ⟨x, hx, htokens, hplain⟩ := fpKw_tokens (K := "FROM") (spelled (by simp [fpWords])) h hfrom
  rw [hq] at htokens
  obtain ⟨hword, rfl⟩ := List.cons.inj htokens
  cases q1 with
  | nil => cases htab
  | cons d s =>
      cases hd : isWordChar d with
      | false =>
          rw [List.takeWhile_cons_of_neg (by rw [hd]; exact Bool.false_ne_true), List.append_nil,
            wordToken_keyword hx (by simp [keywords])] at hword
          cases hword
      | true =>
          have hws : isWs d = false := isWs_of_isWordChar d hd
          have hq2 : q2 = (d :: s).dropWhile isWordChar := by
            unfold fpIdent fpSkipws at htab
            rw [List.dropWhile_cons_of_neg (by rw [hws]; exact Bool.false_ne_true)] at htab
            dsimp only at htab
            split at htab
            · obtain ⟨-, rfl⟩ := Prod.mk.inj (Option.some.inj htab)
              rw [List.dropWhile_cons_of_pos hd]
            · cases htab
          subst hq2
          exact hu.not_begins (by simp [marks, ends]) (hbegins hplain)

theorem fpSelectList_head {list : List Col × List AggExpr} (h : Plain p) (hf : fpSelectList p = some (list, q)) (v : Toks) :
    tokens p ≠ op "*" :: v := by
  have hword : ∃ w v', tokens p = wordToken w :: v' := by
    unfold fpSelectList at hf
    cases hcount : fpKw "count" p with
    | some p1 =>
        obtain ⟨w, -, htokens, -⟩ := fpKw_tokens (K := "COUNT") (spelled (by simp [fpWords])) h hcount
        exact ⟨_, _, htokens⟩
    | none =>
        rw [hcount] at hf
        obtain ⟨x, hloop, -⟩ := Option.map_eq_some_iff.1 hf
        cases hlen : p.length with
        | zero =>
            rw [hlen] at hloop
            cases hloop
        | succ n =>
            rw [hlen] at hloop
            obtain ⟨w, p1, hident, -⟩ := Rmdb.Lib.listLoop_cases hloop
            exact ⟨w, _, (fpIdent_tokens h hident).1⟩
  obtain ⟨w, v', hw⟩ := hword
  rw [hw]
  exact fun hv => wordToken_ne_op w _ (List.cons.inj hv).1

theorem fpSelectList_agrees {list : List Col × List AggExpr} {cols : List Col} {aggs : List AggExpr} {tab q1 q2 : Bytes}
    (h : Plain p) (hf : fpSelectList p = some (list, q)) (hfrom : fpKw "from" q = some q1) (htab : fpIdent q1 = some (tab, q2))
    (hbegins : Plain q2 → Begins ["WHERE", "ORDER", "LIMIT", ";"] (tokens q2))
    (hlist : SelectList (tokens p) (cols, aggs) (kw "FROM" :: u)) : (cols, aggs) = list ∧ u = tokens q1 ∧ Plain q1 := by
  have hnostar := fpSelectList_head h hf
  obtain ⟨items, hitems, hsplit⟩ := hlist.items.resolve_left (hnostar _)
  unfold fpSelectList at hf
  cases hcount : fpKw "count" p with
  | none =>
      rw [hcount] at hf
      obtain ⟨⟨names, q'⟩, hloop, hx⟩ := Option.map_eq_some_iff.1 hf
      obtain ⟨rfl, rfl⟩ := Prod.mk.inj hx
      have hagrees := commaList_agrees (fun a b => b = Sum.inl ⟨[], a⟩) (fun s => ∀ v, s ≠ op "." :: v ∧ s ≠ op "(" :: v)
        (by decide) (fun p a q hp hread => (fpIdent_tokens hp hread).2.1)
        (fun p a q b r hp hread hbehind hb _ => by
          generalize hs : tokens p = s at hb
          cases hb with
          | col hcol =>
              subst hs
              obtain ⟨rfl, h2, -⟩ := fpIdent_col hp hread (fun v => (hbehind v).1) hcol
              exact ⟨rfl, h2⟩
          | agg hagg =>
              obtain ⟨f, v, hv⟩ := hagg.eq_cons
              have htokens := (fpIdent_tokens hp hread).1
              rw [hs, hv] at htokens
              exact absurd (List.cons.inj htokens).2.symm (hbehind v).2)
        (fun u v => ⟨(fun hv => by cases hv), fun hv => by cases hv⟩)
        h hloop (fun hq v => by
          have hhead := fpKw_begins (K := "FROM") (spelled (by simp [fpWords])) hq hfrom
          refine ⟨fun hv => ?_, fun hv => ?_⟩ <;>
            · rw [hv] at hhead
              exact hhead.not_other (by simp [marks, ends]))
        hitems ⟨kw "FROM", List.mem_singleton_self _, rfl⟩
      obtain ⟨hall, hr, hq⟩ := hagrees
      obtain ⟨rfl, hq1⟩ := fpKw_tail (spelled (by simp [fpWords])) hq hfrom hr.symm
      have heq : items = (names.map (Col.mk [])).map Sum.inl ++ ([] : List AggExpr).map Sum.inr := by
        rw [← List.forall₂_eq_eq_eq, List.map_nil, List.append_nil, List.map_map, List.forall₂_map_right_iff]
        exact hall.flip
      obtain ⟨rfl, rfl⟩ := items_inj (hsplit.symm.trans heq)
      exact ⟨rfl, rfl, hq1⟩
  | some p1 =>
      rw [hcount] at hf
      obtain ⟨p2, h2, hf⟩ := Option.bind_eq_some_iff.1 hf
      obtain ⟨p3, h3, hf⟩ := Option.bind_eq_some_iff.1 hf
      obtain ⟨p4, h4, hf⟩ := Option.bind_eq_some_iff.1 hf
      obtain ⟨rfl, rfl⟩ := Prod.mk.inj (Option.some.inj hf)
      obtain ⟨w, hw, htokens, hp1⟩ := fpKw_tokens (K := "COUNT") (spelled (by simp [fpWords])) h hcount
      have hnoword := takeWhile_of_fpChar (by decide) h2
      have hdrop : p1.dropWhile isWordChar = p1 := by
        have := List.takeWhile_append_dropWhile (p := isWordChar) (l := p1)
        rwa [hnoword, List.nil_append] at this
      rw [hdrop] at hp1 htokens
      rw [hnoword, List.append_nil, wordToken_keyword hw (by simp [keywords])] at htokens
      obtain ⟨ht1, hp2⟩ := fpChar_tokens (fun _ => rfl) hp1 h2
      obtain ⟨ht2, hp3⟩ := fpChar_tokens (fun _ => rfl) hp2 h3
      obtain ⟨ht3, hp4⟩ := fpChar_tokens (fun _ => rfl) hp3 h4
      rw [ht1, ht2, ht3] at htokens
      rw [htokens] at hitems
      have hhead := fpKw_begins (K := "FROM") (spelled (by simp [fpWords])) hp4 hfrom
      obtain ⟨item, t, hitem, hrest⟩ := hitems.cases_head
      cases hitem with
      | col hcol => exact hcol.not_keyword.elim
      | agg hagg =>
          obtain ⟨aliasName, halias, rfl⟩ := hagg.countStar_inv
          have hnext : Follows [op ",", kw "FROM"] t := by
            rcases hrest with ⟨-, rfl⟩ | ⟨v, -, rfl, -⟩
            · exact ⟨kw "FROM", by simp, rfl⟩
            · exact ⟨op ",", by simp, rfl⟩
          generalize hs : tokens p4 = s at halias
          cases halias with
          | named _ _ =>
              rw [hs] at hhead
              exact (hhead.not_other (by simp [marks, ends])).elim
          | identifier _ _ => exact (no_alias hp4 hfrom htab hbegins hs hnext).elim
          | empty _ =>
              rcases hrest with ⟨rfl, hend⟩ | ⟨v, -, hcomma, -⟩
              · obtain ⟨rfl, hq1⟩ := fpKw_tail (spelled (by simp [fpWords])) hp4 hfrom (hs.trans hend.symm)
                have hone : cols.map Sum.inl ++ aggs.map Sum.inr =
                    ([] : List Col).map Sum.inl ++ [(⟨.count, none, [], true, false⟩ : AggExpr)].map Sum.inr := hsplit.symm
                obtain ⟨rfl, rfl⟩ := items_inj hone
                exact ⟨rfl, rfl, hq1⟩
              · rw [hs, hcomma] at hhead
                exact (hhead.not_other (by simp [marks, ends])).elim

theorem Follows.not_value {v : SvValue} (h : Follows ts (t :: u)) (hts : ∀ t ∈ ts, (match t with
    | .keyword _ => true
    | .op _ => true
    | _ => false) = true) (ht : valueOf atof t = some v) : False := by
  obtain ⟨t', hmem, hhead⟩ := h
  obtain rfl := Option.some.inj hhead
  have hkind := hts _ hmem
  cases t with
  | keyword _ => cases ht
  | op _ => cases ht
  | _ => cases hkind

/-! ## SET -/

/-- A minus sign in front of a numeral changes the sign of its literal. -/
theorem numberLit_minus (hatof : Signed atof) {ds : Bytes} (hne : ds ≠ []) (hdigits : ∀ d ∈ ds, isDigit d = true)
    {fs : Option Bytes} (hrange : fs = none → -2 ^ 31 ≤ intOf (45 :: ds)) :
    numberLit atof (45 :: ds) fs = negLit (numberLit atof ds fs) := by
  cases fs with
  | none =>
      have hlow : -2 ^ 31 ≤ -(digitsValue ds : Int) := hrange rfl
      have h1 : atoi (45 :: ds) = BitVec.ofInt 32 (-(digitsValue ds : Int)) := by
        show BitVec.ofInt 32 (max (-2 ^ 63) (min (2 ^ 63 - 1) (-(digitsValue ds : Int)))) = _
        rw [min_eq_right (by omega), max_eq_right (by omega)]
      have h2 : atoi ds = BitVec.ofInt 32 (digitsValue ds) := by
        rw [atoi_eq, intOf_digits hdigits, min_eq_right (by omega), max_eq_right (by omega)]
      show SvValue.int _ = SvValue.int _
      rw [h1, h2, BitVec.ofInt_neg]
  | some fs =>
      obtain ⟨d, ds, rfl⟩ := List.exists_cons_of_ne_nil hne
      exact congrArg SvValue.float (hatof.minus d _ (hdigits d List.mem_cons_self))

/-- What the fast parser reads behind `col =`, in tokens: a value, a column and a signed number, or a column, an
operator and a number. -/
inductive SetRhs (atof : Bytes → BitVec 32) (col : Bytes) : Toks → SetClause → Toks → Prop where
  | value {tok : Token} {rest : Toks} {v : SvValue} (ht : valueOf atof tok = some v) :
      SetRhs atof col (tok :: rest) { colName := col, val := v } rest
  | signed {tok : Token} {rest : Toks} {rhs : Bytes} {v : SvValue} {s : SetClause} (ht : valueOf atof tok = some v)
      (hs : s.signed = ⟨col, v, true, rhs, false⟩) : SetRhs atof col (wordToken rhs :: tok :: rest) s rest
  | spaced {tok : Token} {rest : Toks} {rhs : Bytes} {v : SvValue} {c : UInt8} (hc : c = 43 ∨ c = 45)
      (ht : valueOf atof tok = some v) :
      SetRhs atof col (wordToken rhs :: .op [c] :: tok :: rest) ⟨col, v, true, rhs, decide (c = 45)⟩ rest

/-- A sign and what `fp_parse_number` reads behind it. -/
theorem sign_tokens {c : UInt8} {v : SvValue} (hatof : Signed atof) (hc : c = 43 ∨ c = 45) (h : Plain (c :: p))
    (hf : fpParseNumber atof p = some (v, q)) :
    Plain q ∧ ((∃ t, tokens (c :: p) = t :: tokens q ∧ valueOf atof t = some (if c = 45 then negLit v else v)) ∨
      ∃ t, tokens (c :: p) = .op [c] :: t :: tokens q ∧ valueOf atof t = some v) := by
  by_cases hdigit : ∃ d ∈ p.head?, isDigit d = true
  · -- the sign belongs to the number
    obtain ⟨d, hd, hdigit⟩ := hdigit
    obtain ⟨s, rfl⟩ := List.head?_eq_some_iff.1 hd
    obtain ⟨sign, ds, r, fs, hdigits, hfraction, rfl⟩ := fpParseNumber_some hf
    obtain ⟨hne45, hne43, -, hws⟩ := digit_ne_sign_all d hdigit
    unfold fpSkipws at hdigits
    rw [List.dropWhile_cons_of_neg (by rw [hws]; exact Bool.false_ne_true)] at hdigits
    obtain ⟨htext, hsign, hne, hall, hstop⟩ := fpDigits_some hdigits
    have hnosign : sign = [] := by
      rcases hsign with h | rfl | rfl
      · exact h
      · exact absurd (List.cons.inj htext).1 hne43
      · exact absurd (List.cons.inj htext).1 hne45
    subst hnosign
    have hn : Numeral [c] ds r (c :: d :: s) := by
      refine ⟨congrArg (c :: ·) htext, ?_, hne, hall, hstop⟩
      rcases hc with rfl | rfl
      · exact .inr (.inl rfl)
      · exact .inr (.inr rfl)
    obtain ⟨h1, h2, h3⟩ := number_tokens hn h hfraction
    refine ⟨h2, .inl ⟨_, h1, ?_⟩⟩
    rw [valueOf_numberToken]
    rcases hc with rfl | rfl
    · exact congrArg some (numberLit_plus hatof hne hall fs)
    · exact congrArg some (numberLit_minus hatof hne hall fun h => (h3 h).1)
  · have hnodigit : ∀ d ∈ p.head?, isDigit d = false := fun d hd => Bool.eq_false_iff.2 fun h => hdigit ⟨d, hd, h⟩
    have hop : tokens (c :: p) = .op [c] :: tokens p ∧ Plain p := by
      rcases hc with rfl | rfl
      · exact ⟨(tokens_plus hnodigit).1, (tokens_plus hnodigit).2 h⟩
      · exact tokens_minus hnodigit h
    obtain ⟨t, h1, h2, h3⟩ := fpParseNumber_tokens hatof hop.2 hf
    exact ⟨h2, .inr ⟨t, by rw [hop.1, h1], h3⟩⟩

theorem fpSetRhs_tokens {col : Bytes} {s : SetClause} (hatof : Signed atof) (h : Plain p) (hf : fpSetRhs atof col p = some (s, q)) :
    SetRhs atof col (tokens p) s (tokens q) ∧ Plain q := by
  rcases fpSetRhs_some hf with ⟨v, hread, rfl⟩ | ⟨rhs, p1, c, p2, v, hident, hnext, hc, hread, rfl⟩
  · obtain ⟨t, htokens, hq, ht⟩ := fpParseValue_tokens hatof h hread
    rw [htokens]
    exact ⟨.value ht, hq⟩
  · obtain ⟨htokens, hp1, -⟩ := fpIdent_tokens h hident
    have hplain := hp1.skipws
    unfold fpSkipws at hnext
    rw [hnext] at hplain
    rw [htokens, ← tokens_skipws p1, hnext]
    obtain ⟨hq, ⟨t, h1, h2⟩ | ⟨t, h1, h2⟩⟩ := sign_tokens hatof hc hplain hread
    · rw [h1]
      refine ⟨.signed h2 ?_, hq⟩
      rcases hc with rfl | rfl
      · rfl
      · rfl
    · rw [h1]
      exact ⟨.spaced hc h2, hq⟩

theorem fpSetClause_plain {s : SetClause} (hatof : Signed atof) (h : Plain p) (hf : fpSetClause atof p = some (s, q)) : Plain q := by
  obtain ⟨col, p1, p2, h1, h2, hf⟩ := fpSetClause_some hf
  have hp1 := (fpIdent_tokens h h1).2.1
  exact (fpSetRhs_tokens hatof (fpChar_tokens (fun _ => rfl) hp1 h2).2 hf).2

theorem Name.not_value {tok : Token} {v : SvValue} {w : Bytes} (ht : valueOf atof tok = some v) (h : Name (tok :: u) w r) : False := by
  obtain ⟨rfl, -⟩ := List.cons.inj h.eq_cons
  cases ht

theorem Name.of_wordToken {w w' : Bytes} (h : Name (wordToken w :: u) w' r) : w' = w ∧ r = u := by
  obtain ⟨hw, rfl⟩ := List.cons.inj h.eq_cons
  exact ⟨(identifier_of_wordToken hw).symm, rfl⟩

theorem ValueRule.not_op {v : SvValue} {x : Bytes} (h : ValueRule atof (.op x :: u) v r) : False := by
  obtain ⟨t, ht, hv⟩ := h.eq_cons
  obtain ⟨rfl, -⟩ := List.cons.inj ht
  cases hv

theorem fpSetClause_agrees {a b : SetClause} (hatof : Signed atof) (h : Plain p) (hf : fpSetClause atof p = some (a, q))
    (hrule : SetClauseRule atof (tokens p) b r) (hr : Follows [op ",", kw "WHERE", op ";"] r) :
    b.signed = a.signed ∧ r = tokens q := by
  obtain ⟨col, p1, p2, h1, h2, hf⟩ := fpSetClause_some hf
  have hp1 := (fpIdent_tokens h h1).2.1
  obtain ⟨heq, hp2⟩ := fpChar_tokens (fun _ => rfl) hp1 h2
  have hrhs := (fpSetRhs_tokens hatof hp2 hf).1
  -- in each rule the name is the one in front of the sign of equality
  have hname : ∀ {w : Bytes} {t : Toks}, Name (tokens p) w (op "=" :: t) → w = col ∧ t = tokens p2 := by
    intro w t hw
    obtain ⟨rfl, ht, -⟩ := fpIdent_agrees h h1 hw
    rw [heq] at ht
    exact ⟨rfl, (List.cons.inj ht).2⟩
  generalize hs : tokens p = s at hrule
  generalize tokens p2 = s2 at hrhs hname
  cases hrule with
  | value hcol hval =>
      obtain ⟨rfl, rfl⟩ := hname (hs ▸ hcol)
      generalize tokens q = s3 at hrhs ⊢
      cases hrhs with
      | value ht =>
          obtain ⟨rfl, rfl⟩ := hval.agrees ht
          exact ⟨rfl, rfl⟩
      | signed ht _ =>
          obtain ⟨_, hcons, -⟩ := hval.eq_cons
          obtain ⟨-, rfl⟩ := List.cons.inj hcons
          exact (hr.not_value (by decide) ht).elim
      | spaced hc _ =>
          obtain ⟨_, hcons, -⟩ := hval.eq_cons
          obtain ⟨-, rfl⟩ := List.cons.inj hcons
          obtain ⟨t, ht, hhead⟩ := hr
          obtain rfl := Option.some.inj hhead
          rcases hc with rfl | rfl <;> exact absurd ht (by decide)
  | signed hcol hcol2 hval =>
      obtain ⟨rfl, rfl⟩ := hname (hs ▸ hcol)
      generalize tokens q = s3 at hrhs ⊢
      cases hrhs with
      | value ht => exact (hcol2.not_value ht).elim
      | signed ht hsigned =>
          obtain ⟨rfl, rfl⟩ := hcol2.of_wordToken
          obtain ⟨rfl, rfl⟩ := hval.agrees ht
          exact ⟨hsigned.symm, rfl⟩
      | spaced _ _ =>
          obtain ⟨-, rfl⟩ := hcol2.of_wordToken
          exact hval.not_op.elim
  | plus hcol hcol2 hval =>
      obtain ⟨rfl, rfl⟩ := hname (hs ▸ hcol)
      generalize tokens q = s3 at hrhs ⊢
      cases hrhs with
      | value ht => exact (hcol2.not_value ht).elim
      | signed ht _ =>
          obtain ⟨rfl, -⟩ := List.cons.inj hcol2.of_wordToken.2
          cases ht
      | spaced _ ht =>
          obtain ⟨rfl, hop⟩ := hcol2.of_wordToken
          obtain ⟨hc, rfl⟩ := List.cons.inj hop
          obtain rfl := (List.cons.inj (Token.op.inj hc)).1
          obtain ⟨rfl, rfl⟩ := hval.agrees ht
          exact ⟨rfl, rfl⟩
  | minus hcol hcol2 hval =>
      obtain ⟨rfl, rfl⟩ := hname (hs ▸ hcol)
      generalize tokens q = s3 at hrhs ⊢
      cases hrhs with
      | value ht => exact (hcol2.not_value ht).elim
      | signed ht _ =>
          obtain ⟨rfl, -⟩ := List.cons.inj hcol2.of_wordToken.2
          cases ht
      | spaced _ ht =>
          obtain ⟨rfl, hop⟩ := hcol2.of_wordToken
          obtain ⟨hc, rfl⟩ := List.cons.inj hop
          obtain rfl := (List.cons.inj (Token.op.inj hc)).1
          obtain ⟨rfl, rfl⟩ := hval.agrees ht
          exact ⟨rfl, rfl⟩

theorem fpSets_agrees {sets sets' : List SetClause} {n : Nat} (hatof : Signed atof) (h : Plain p)
    (hf : listLoop (fpSetClause atof) (fpChar 44) n p = some (sets, q))
    (hsets : ListOf (SetClauseRule atof) (op ",") (tokens p) sets' r) (hr : Follows [kw "WHERE", op ";"] r) :
    sets'.map SetClause.signed = sets.map SetClause.signed ∧ r = tokens q ∧ Plain q := by
  have hlist := commaList_agrees (fun a b => b.signed = a.signed) (fun _ => True) (by decide)
    (fun p a q hp hread => fpSetClause_plain hatof hp hread)
    (fun p a q b r hp hread _ hb hnext => by
      refine fpSetClause_agrees hatof hp hread hb ?_
      rcases hnext with ⟨u, rfl⟩ | hstops
      · exact ⟨op ",", by simp, rfl⟩
      · exact hstops.mono (by simp))
    (fun _ => trivial) h hf (fun _ => trivial) hsets hr
  obtain ⟨hall, hr, hq⟩ := hlist
  refine ⟨?_, hr, hq⟩
  rw [← List.forall₂_eq_eq_eq, List.forall₂_map_left_iff, List.forall₂_map_right_iff]
  exact hall.flip

theorem OptWhereClause.follows {conds : List BinaryExpr} (h : OptWhereClause atof s conds (op ";" :: u)) :
    Follows [kw "WHERE", op ";"] s := by
  generalize hr : (op ";" :: u) = r at h
  cases h with
  | empty _ => exact ⟨op ";", by simp, by rw [← hr]; rfl⟩
  | conds _ => exact ⟨kw "WHERE", by simp, rfl⟩

/-! ## VALUES -/

/-- The first row, and what may follow it. -/
theorem ValueRows.cases_head {vals : List SvValue} (h : ValueRows atof s vals r) :
    ∃ t row v, s = op "(" :: t ∧ ValueList atof t row (op ")" :: v) ∧
      ((vals = row ∧ r = v) ∨ ∃ w, v = op "," :: w) := by
  induction h with
  | one h => exact ⟨_, _, _, rfl, h, .inl ⟨rfl, rfl⟩⟩
  | more _ _ ih =>
      obtain ⟨t, row, v, hs, hrow, ⟨-, rfl⟩ | hmore⟩ := ih
      · exact ⟨t, row, _, hs, hrow, .inr ⟨_, rfl⟩⟩
      · exact ⟨t, row, v, hs, hrow, .inr hmore⟩

theorem fpInsertVals_agrees {vals vals' : List SvValue} {n : Nat} (h : Plain p)
    (hf : listLoop (fpInsertValue atof) (fpChar 44) n p = some (vals, q))
    (hvals : ValueList atof (tokens p) vals' (op ")" :: u)) : vals' = vals ∧ (op ")" :: u) = tokens q ∧ Plain q := by
  have hlist := commaList_agrees (fun a b => b = a) (fun _ => True) (by decide)
    (fun p a q hp hread => by
      obtain ⟨-, -, hq, -⟩ := fpInsertValue_tokens hp hread
      exact hq)
    (fun p a q b r hp hread _ hb _ => by
      obtain ⟨t, htokens, -, ht⟩ := fpInsertValue_tokens hp hread
      rw [htokens] at hb
      exact hb.agrees ht)
    (fun _ => trivial) h hf (fun _ => trivial) hvals ⟨op ")", List.mem_singleton_self _, rfl⟩
  obtain ⟨hall, hr, hq⟩ := hlist
  refine ⟨?_, hr, hq⟩
  rw [← List.forall₂_eq_eq_eq]
  exact hall.flip

/-! ## Statements -/

/-- The keyword that a statement begins with. -/
def headWord : TreeNode → String
  | .help => "HELP"
  | .showTables => "SHOW"
  | .showIndex _ => "SHOW"
  | .txnBegin => "BEGIN"
  | .txnCommit => "COMMIT"
  | .txnAbort => "ABORT"
  | .txnRollback => "ROLLBACK"
  | .createTable _ _ => "CREATE"
  | .dropTable _ => "DROP"
  | .descTable _ => "DESC"
  | .createIndex _ _ => "CREATE"
  | .dropIndex _ _ => "DROP"
  | .insertStmt _ _ _ => "INSERT"
  | .deleteStmt _ _ => "DELETE"
  | .updateStmt _ _ _ => "UPDATE"
  | .selectStmt _ => "SELECT"
  | .explainStmt _ _ => "EXPLAIN"
  | .unionStmt _ _ _ _ _ => "SELECT"
  | .setStmt _ _ => "SET"

def headWords : List String :=
  ["HELP", "SHOW", "BEGIN", "COMMIT", "ABORT", "ROLLBACK", "CREATE", "DROP", "DESC", "INSERT", "DELETE", "UPDATE", "SELECT",
    "EXPLAIN", "SET"]

theorem headWord_mem (tree : TreeNode) : headWord tree ∈ headWords := by
  cases tree <;> simp [headWord, headWords]

theorem StmtRule.eq_cons {tree : TreeNode} (h : StmtRule atof s tree r) : ∃ u, s = kw (headWord tree) :: u := by
  cases h with
  | select h =>
      cases h with
      | mk _ _ _ _ _ _ _ => exact ⟨_, rfl⟩
  | _ => exact ⟨_, rfl⟩

/-- The keywords that a statement of the fast parser begins with. -/
def firstWords : List String := ["BEGIN", "COMMIT", "ABORT", "SELECT", "UPDATE", "DELETE", "INSERT"]

theorem firstWords_apart : ∀ K ∈ firstWords, K ≠ "HELP" ∧ K ≠ "EXIT" ∧
    ∀ W ∈ "EXIT" :: headWords, W = K ∨ other [K] (kw W) = true := by
  decide +kernel

/-- What `yyparse` accepts where the fast parser has read the first keyword of a statement. -/
theorem Parses.stmt_of {sql : Bytes} {tree : Option TreeNode} (h : Parses atof sql tree) (hk : Spelled k K)
    (hplain : Plain (cStr sql)) (hf : fpKw k (cStr sql) = some q) (hK : K ∈ firstWords) :
    ∃ tree' rest, tree = some tree' ∧ StmtRule atof (tokens (cStr sql)) tree' (op ";" :: rest) ∧ headWord tree' = K := by
  obtain ⟨hhelp, hexit, hapart⟩ := firstWords_apart K hK
  have hbegins := fpKw_begins hk hplain hf
  rw [← lex_eq] at hbegins ⊢
  have hhead : ∀ W ∈ "EXIT" :: headWords, ∀ u, lex sql = kw W :: u → W = K := by
    intro W hW u hu
    rw [hu] at hbegins
    exact (hapart W hW).resolve_right fun hother => hbegins.not_other hother
  cases h with
  | stmt h =>
      obtain ⟨u, hu⟩ := h.eq_cons
      exact ⟨_, _, rfl, h, hhead _ (List.mem_cons_of_mem _ (headWord_mem _)) u hu⟩
  | help h => exact absurd (hhead "HELP" (by simp [headWords]) _ h).symm hhelp
  | exit h => exact absurd (hhead "EXIT" (by simp) _ h).symm hexit
  | eof h =>
      obtain ⟨t, u, htokens, -⟩ := fpKw_head hk hplain hf
      rw [lex_eq, htokens] at h
      cases h

theorem tryFastParseTxn_agrees {sql : Bytes} {tree : TreeNode} {tree' : Option TreeNode} (hplain : Plain (cStr sql))
    (hf : tryFastParseTxn (cStr sql) = some tree) (hyacc : Parses atof sql tree') :
    tree'.map TreeNode.signed = some tree.signed := by
  unfold tryFastParseTxn at hf
  have hkw : ∀ k, ((fpKw k (cStr sql)).map fpTrailingOk).getD false = true → ∃ q, fpKw k (cStr sql) = some q := by
    intro k hk
    cases h : fpKw k (cStr sql) with
    | none =>
        rw [h] at hk
        cases hk
    | some q => exact ⟨q, rfl⟩
  split at hf
  · next h1 =>
      obtain ⟨q, hq⟩ := hkw _ h1
      obtain rfl := Option.some.inj hf
      obtain ⟨tree, rest, rfl, -, hhead⟩ := hyacc.stmt_of (K := "BEGIN") (spelled (by simp [fpWords])) hplain hq (by simp [firstWords])
      cases tree <;> first | rfl | simp [headWord] at hhead
  · split at hf
    · next h1 =>
        obtain ⟨q, hq⟩ := hkw _ h1
        obtain rfl := Option.some.inj hf
        obtain ⟨tree, rest, rfl, -, hhead⟩ :=
          hyacc.stmt_of (K := "COMMIT") (spelled (by simp [fpWords])) hplain hq (by simp [firstWords])
        cases tree <;> first | rfl | simp [headWord] at hhead
    · split at hf
      · next h1 =>
          obtain ⟨q, hq⟩ := hkw _ h1
          obtain rfl := Option.some.inj hf
          obtain ⟨tree, rest, rfl, -, hhead⟩ :=
            hyacc.stmt_of (K := "ABORT") (spelled (by simp [fpWords])) hplain hq (by simp [firstWords])
          cases tree <;> first | rfl | simp [headWord] at hhead
      · cases hf

theorem tryFastParseSelect_agrees {sql : Bytes} {tree : TreeNode} {tree' : Option TreeNode} (hatof : Signed atof)
    (hplain : Plain (cStr sql)) (hf : tryFastParseSelect atof (cStr sql) = some tree) (hyacc : Parses atof sql tree') :
    tree' = some tree := by
  obtain ⟨p1, hselect, hf⟩ := Option.bind_eq_some_iff.1 hf
  obtain ⟨⟨list, p2⟩, hlist, hf⟩ := Option.bind_eq_some_iff.1 hf
  obtain ⟨p3, hfrom, hf⟩ := Option.bind_eq_some_iff.1 hf
  obtain ⟨⟨tab, p4⟩, htab, hf⟩ := Option.bind_eq_some_iff.1 hf
  obtain ⟨⟨conds, p5⟩, hconds, hf⟩ := Option.bind_eq_some_iff.1 hf
  obtain ⟨⟨orders, p6⟩, horders, hf⟩ := Option.bind_eq_some_iff.1 hf
  obtain ⟨⟨limit, p7⟩, hlimit, hf⟩ := Option.bind_eq_some_iff.1 hf
  dsimp only at hf
  split at hf
  · next hend =>
      obtain rfl := Option.some.inj hf
      have hbegins5 : Plain p5 → Begins ["ORDER", "LIMIT", ";"] (tokens p5) := fun hp5 =>
        fpOrder_begins hp5 horders fun hp6 => fpLimit_begins hp6 hlimit hend
      have hbegins4 : Plain p4 → Begins ["WHERE", "ORDER", "LIMIT", ";"] (tokens p4) := fun hp4 =>
        fpParseWhereEq_begins hp4 hconds hbegins5
      obtain ⟨tree, rest, rfl, hstmt, hhead⟩ :=
        hyacc.stmt_of (K := "SELECT") (spelled (by simp [fpWords])) hplain hselect (by simp [firstWords])
      generalize hs : tokens (cStr sql) = s at hstmt
      generalize hr : (op ";" :: rest) = r at hstmt
      cases hstmt with
      | select h =>
          cases h with
          | mk hlist' htabs hwhere hgroup hhaving horder hlimit' =>
              subst hr
              obtain ⟨rfl, hp1⟩ := fpKw_tail (spelled (by simp [fpWords])) hplain hselect hs
              obtain ⟨hitems, rfl, hp3⟩ := fpSelectList_agrees hp1 hlist hfrom htab hbegins4 hlist'
              obtain ⟨rfl, rfl, hp4⟩ := fpTable_agrees hp3 htab hbegins4 htabs
              obtain ⟨rfl, rfl, hp5⟩ := fpParseWhereEq_agrees hatof hp4 hconds hwhere (follows_where hgroup hhaving horder hlimit')
              obtain ⟨rfl, rfl, rfl⟩ := group_having_absent (hbegins5 hp5) hgroup hhaving
              obtain ⟨rfl, rfl, hp6⟩ := fpOrder_agrees hp5 horders hlimit hend horder hlimit'
              obtain ⟨h1, h2⟩ := fpLimit_agrees hp6 hlimit hend hlimit'
              rw [h1, h2, ← hitems]
              rfl
      | union _ _ _ _ _ =>
          obtain ⟨hstar, hp1⟩ := fpKw_tail (spelled (by simp [fpWords])) hplain hselect hs
          exact absurd hstar.symm (fpSelectList_head hp1 hlist _)
      | _ => simp [headWord] at hhead
  · cases hf

theorem tryFastParseDelete_agrees {sql : Bytes} {tree : TreeNode} {tree' : Option TreeNode} (hatof : Signed atof)
    (hplain : Plain (cStr sql)) (hf : tryFastParseDelete atof (cStr sql) = some tree) (hyacc : Parses atof sql tree') :
    tree' = some tree := by
  obtain ⟨p1, hdelete, hf⟩ := Option.bind_eq_some_iff.1 hf
  obtain ⟨p2, hfrom, hf⟩ := Option.bind_eq_some_iff.1 hf
  obtain ⟨⟨tab, p3⟩, htab, hf⟩ := Option.bind_eq_some_iff.1 hf
  obtain ⟨⟨conds, p4⟩, hconds, hf⟩ := Option.bind_eq_some_iff.1 hf
  dsimp only at hf
  split at hf
  · obtain rfl := Option.some.inj hf
    obtain ⟨tree, rest, rfl, hstmt, hhead⟩ :=
      hyacc.stmt_of (K := "DELETE") (spelled (by simp [fpWords])) hplain hdelete (by simp [firstWords])
    generalize hs : tokens (cStr sql) = s at hstmt
    generalize hr : (op ";" :: rest) = r at hstmt
    cases hstmt with
    | delete hname hwhere =>
        subst hr
        obtain ⟨htail, hp1⟩ := fpKw_tail (spelled (by simp [fpWords])) hplain hdelete hs
        obtain ⟨rfl, hp2⟩ := fpKw_tail (spelled (by simp [fpWords])) hp1 hfrom htail.symm
        obtain ⟨rfl, rfl, hp3⟩ := fpIdent_agrees hp2 htab hname
        obtain ⟨rfl, -, -⟩ := fpParseWhereEq_agrees hatof hp3 hconds hwhere ⟨op ";", by simp [followWhere], rfl⟩
        rfl
    | select h =>
        cases h with
        | mk _ _ _ _ _ _ _ => simp [headWord] at hhead
    | _ => simp [headWord] at hhead
  · cases hf

theorem tryFastParseUpdate_agrees {sql : Bytes} {tree : TreeNode} {tree' : Option TreeNode} (hatof : Signed atof)
    (hplain : Plain (cStr sql)) (hf : tryFastParseUpdate atof (cStr sql) = some tree) (hyacc : Parses atof sql tree') :
    tree'.map TreeNode.signed = some tree.signed := by
  obtain ⟨p1, hupdate, hf⟩ := Option.bind_eq_some_iff.1 hf
  obtain ⟨⟨tab, p2⟩, htab, hf⟩ := Option.bind_eq_some_iff.1 hf
  obtain ⟨p3, hset, hf⟩ := Option.bind_eq_some_iff.1 hf
  obtain ⟨⟨sets, p4⟩, hsets, hf⟩ := Option.bind_eq_some_iff.1 hf
  obtain ⟨⟨conds, p5⟩, hconds, hf⟩ := Option.bind_eq_some_iff.1 hf
  dsimp only at hf
  split at hf
  · obtain rfl := Option.some.inj hf
    obtain ⟨tree, rest, rfl, hstmt, hhead⟩ :=
      hyacc.stmt_of (K := "UPDATE") (spelled (by simp [fpWords])) hplain hupdate (by simp [firstWords])
    generalize hs : tokens (cStr sql) = s at hstmt
    generalize hr : (op ";" :: rest) = r at hstmt
    cases hstmt with
    | update hname hclauses hwhere =>
        subst hr
        obtain ⟨rfl, hp1⟩ := fpKw_tail (spelled (by simp [fpWords])) hplain hupdate hs
        obtain ⟨rfl, htail, hp2⟩ := fpIdent_agrees hp1 htab hname
        obtain ⟨rfl, hp3⟩ := fpKw_tail (spelled (by simp [fpWords])) hp2 hset htail.symm
        obtain ⟨hall, rfl, hp4⟩ := fpSets_agrees hatof hp3 hsets hclauses hwhere.follows
        obtain ⟨rfl, -, -⟩ := fpParseWhereEq_agrees hatof hp4 hconds hwhere ⟨op ";", by simp [followWhere], rfl⟩
        exact congrArg (fun sets => some (TreeNode.updateStmt _ sets _)) hall
    | select h =>
        cases h with
        | mk _ _ _ _ _ _ _ => simp [headWord] at hhead
    | _ => simp [headWord] at hhead
  · cases hf

theorem tryFastParseInsert_agrees {sql : Bytes} {tree : TreeNode} {tree' : Option TreeNode}
    (hplain : Plain (cStr sql)) (hf : tryFastParseInsert atof (cStr sql) = some tree) (hyacc : Parses atof sql tree') :
    tree' = some tree := by
  obtain ⟨p1, hinsert, hf⟩ := Option.bind_eq_some_iff.1 hf
  obtain ⟨p2, hinto, hf⟩ := Option.bind_eq_some_iff.1 hf
  obtain ⟨⟨tab, p3⟩, htab, hf⟩ := Option.bind_eq_some_iff.1 hf
  dsimp only at hf
  split at hf
  · cases hf
  · obtain ⟨p4, hvalues, hf⟩ := Option.bind_eq_some_iff.1 hf
    obtain ⟨p5, hopen, hf⟩ := Option.bind_eq_some_iff.1 hf
    obtain ⟨⟨vals, p6⟩, hvals, hf⟩ := Option.bind_eq_some_iff.1 hf
    obtain ⟨p7, hclose, hf⟩ := Option.bind_eq_some_iff.1 hf
    split at hf
    · next hend =>
        obtain rfl := Option.some.inj hf
        obtain ⟨tree, rest, rfl, hstmt, hhead⟩ :=
          hyacc.stmt_of (K := "INSERT") (spelled (by simp [fpWords])) hplain hinsert (by simp [firstWords])
        generalize hs : tokens (cStr sql) = s at hstmt
        generalize hr : (op ";" :: rest) = r at hstmt
        cases hstmt with
        | insertRows hname hrows =>
            obtain ⟨htail, hp1⟩ := fpKw_tail (spelled (by simp [fpWords])) hplain hinsert hs
            obtain ⟨rfl, hp2⟩ := fpKw_tail (spelled (by simp [fpWords])) hp1 hinto htail.symm
            obtain ⟨rfl, htail, hp3⟩ := fpIdent_agrees hp2 htab hname
            obtain ⟨rfl, hp4⟩ := fpKw_tail (spelled (by simp [fpWords])) hp3 hvalues htail.symm
            obtain ⟨u, vals', v, hparen, hrow, hmore⟩ := hrows.cases_head
            obtain ⟨rfl, hp5⟩ := fpChar_tail (fun _ => rfl) hp4 hopen hparen
            obtain ⟨rfl, htail, hp6⟩ := fpInsertVals_agrees hp5 hvals hrow
            obtain ⟨rfl, hp7⟩ := fpChar_tail (fun _ => rfl) hp6 hclose htail.symm
            rcases hmore with ⟨rfl, -⟩ | ⟨w, hw⟩
            · rfl
            · have hbegins := fpTrailingOk_begins hp7 hend
              rw [hw] at hbegins
              exact (hbegins.not_other (by simp [marks, ends])).elim
        | insertCols hname _ _ =>
            obtain ⟨htail, hp1⟩ := fpKw_tail (spelled (by simp [fpWords])) hplain hinsert hs
            obtain ⟨rfl, hp2⟩ := fpKw_tail (spelled (by simp [fpWords])) hp1 hinto htail.symm
            obtain ⟨rfl, htail, hp3⟩ := fpIdent_agrees hp2 htab hname
            have hbegins := fpKw_begins (K := "VALUES") (spelled (by simp [fpWords])) hp3 hvalues
            rw [← htail] at hbegins
            exact (hbegins.not_other (by simp [marks, ends])).elim
        | select h =>
            cases h with
            | mk _ _ _ _ _ _ _ => simp [headWord] at hhead
        | _ => simp [headWord] at hhead
    · cases hf

/-- What the fast parser returns is what `yyparse` would have returned, but for the sign of a number in `SET`.
A name that begins with an underscore, which the lexer drops, is not plain. -/
theorem tryFastParseSql_agrees {sql : Bytes} {tree : TreeNode} {tree' : Option TreeNode} (hatof : Signed atof)
    (hplain : Plain (cStr sql)) (hfast : tryFastParseSql atof sql = some tree) (hyacc : Parses atof sql tree') :
    tree'.map TreeNode.signed = some tree.signed := by
  rcases Option.or_eq_some_iff.1 hfast with hf | ⟨-, hfast⟩
  · exact tryFastParseTxn_agrees hplain hf hyacc
  rcases Option.or_eq_some_iff.1 hfast with hf | ⟨-, hfast⟩
  · rw [tryFastParseSelect_agrees hatof hplain hf hyacc]
    rfl
  rcases Option.or_eq_some_iff.1 hfast with hf | ⟨-, hfast⟩
  · exact tryFastParseUpdate_agrees hatof hplain hf hyacc
  rcases Option.or_eq_some_iff.1 hfast with hf | ⟨-, hf⟩
  · rw [tryFastParseDelete_agrees hatof hplain hf hyacc]
    rfl
  · rw [tryFastParseInsert_agrees hplain hf hyacc]
    rfl

/-- `atof` on the numerals of zero. -/
def zeroAtof (text : Bytes) : BitVec 32 := if text.head? = some 45 then fneg 0 else 0

theorem zeroAtof_signed : Signed zeroAtof := by
  refine ⟨fun c w hc => ?_, fun c w hc => ?_⟩
  · have hne : c ≠ 45 := (digit_ne_sign_all c hc).1
    show (0 : BitVec 32) = if some c = some 45 then fneg 0 else 0
    rw [if_neg fun h => hne (Option.some.inj h)]
  · have hne : c ≠ 45 := (digit_ne_sign_all c hc).1
    show fneg 0 = fneg (if some c = some 45 then fneg 0 else 0)
    rw [if_neg fun h => hne (Option.some.inj h)]

def minusText : Bytes := bytesOf "UPDATE t SET a = a -1 WHERE b = 2;"

def minusTree (val : SvValue) (arithNeg : Bool) : TreeNode :=
  .updateStmt (bytesOf "t") [⟨bytesOf "a", val, true, bytesOf "a", arithNeg⟩] [⟨⟨[], bytesOf "b"⟩, .eq, .value (.int 2)⟩]

/-- The lexer makes one token of the minus sign and the number, the fast parser does not. -/
theorem minusText_yacc : Parses zeroAtof minusText (some (minusTree (.int (-1)) false)) := by
  have hlex : lex minusText = [kw "UPDATE", .identifier (bytesOf "t"), kw "SET", .identifier (bytesOf "a"), op "=",
      .identifier (bytesOf "a"), .int (-1), kw "WHERE", .identifier (bytesOf "b"), op "=", .int 2, op ";"] := by
    decide +kernel
  have hcond : Condition zeroAtof [.identifier (bytesOf "b"), op "=", .int 2, op ";"] ⟨⟨[], bytesOf "b"⟩, .eq, .value (.int 2)⟩
      [op ";"] := .mk (.plain (.identifier _ _)) (.eq _) (.value (.int _ _))
  apply Parses.stmt
  rw [hlex]
  exact .update (.identifier _ _) (.one (.signed (.identifier _ _) (.identifier _ _) (.int _ _))) (.conds (.one hcond))

theorem tryFastParseSql_agrees_minus :
    tryFastParseSql zeroAtof minusText = some (minusTree (.int 1) true) ∧
      (some (minusTree (.int (-1)) false)).map TreeNode.signed = some (minusTree (.int 1) true).signed := by
  have hfast : tryFastParseSql zeroAtof minusText = some (minusTree (.int 1) true) := by decide +kernel
  exact ⟨hfast, tryFastParseSql_agrees zeroAtof_signed (by decide +kernel) hfast minusText_yacc⟩

end Rmdb.Parser
