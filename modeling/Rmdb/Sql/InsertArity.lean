import Rmdb.Sql.Insert

/-!
# The arity of INSERT

A statement inserts its first record, or is refused (`run_spec` and below): the analysis keeps one row of
values, whatever the number of tuples, and reads past the end of fewer.  So the code does what
`ArityOk` says if and only if `Checked` (`arityOk_iff_checked`).
-/

namespace Rmdb.Sql

open Rmdb.Txn

/-! ## One value -/

theorem convertSvValue_cases (v : SvValue) :
    (∃ b, v = .bool b ∧ convertSvValue v = .error (.internal "Unexpected sv value type")) ∨
      (∀ b, v ≠ .bool b) ∧ ∃ val, convertSvValue v = .ok val := by
  cases v with
  | int v => exact .inr ⟨fun _ => SvValue.noConfusion, _, rfl⟩
  | float v => exact .inr ⟨fun _ => SvValue.noConfusion, _, rfl⟩
  | str s => exact .inr ⟨fun _ => SvValue.noConfusion, _, rfl⟩
  | bool b => exact .inl ⟨b, rfl, rfl⟩

/-- A value of the wrong type, one that fits, or text that is too long. -/
inductive FieldCase (col : ColMeta) (v : SvValue) (val : Value) : Prop where
  | mismatch (fits : ¬typeFits col v) (field : fieldOf col v = none) (type : col.type ≠ (val.promote col.type).type)
  | ok (fits : typeFits col v) (type : col.type = (val.promote col.type).type) (raw : Bytes)
      (init : initRaw (val.promote col.type) col.len = .ok raw) (length : raw.length = col.len) (field : fieldOf col v = some raw)
  | tooLong (fits : typeFits col v) (type : col.type = (val.promote col.type).type)
      (init : initRaw (val.promote col.type) col.len = .error .stringOverflow) (field : fieldOf col v = none)

theorem fieldCase {col : ColMeta} (hw : col.type ≠ .string → col.len = 4) {v : SvValue} {val : Value}
    (hv : convertSvValue v = .ok val) : FieldCase col v val := by
  obtain ⟨name, type, len, offset⟩ := col
  cases type with
  | int =>
      obtain rfl : len = 4 := hw ColType.noConfusion
      cases v with
      | int v =>
          cases hv
          exact .ok trivial rfl _ rfl rfl rfl
      | float v =>
          cases hv
          exact .mismatch id rfl ColType.noConfusion
      | str s =>
          cases hv
          exact .mismatch id rfl ColType.noConfusion
      | bool b => cases hv
  | float =>
      obtain rfl : len = 4 := hw ColType.noConfusion
      cases v with
      | int v =>
          cases hv
          exact .ok trivial rfl _ rfl rfl rfl
      | float v =>
          cases hv
          exact .ok trivial rfl _ rfl rfl rfl
      | str s =>
          cases hv
          exact .mismatch id rfl ColType.noConfusion
      | bool b => cases hv
  | string =>
      cases v with
      | int v =>
          cases hv
          exact .mismatch id rfl ColType.noConfusion
      | float v =>
          cases hv
          exact .mismatch id rfl ColType.noConfusion
      | str s =>
          cases hv
          by_cases hlen : s.length ≤ len
          · refine .ok trivial rfl (s ++ List.replicate (len - s.length) 0) (if_neg (Nat.not_lt.2 hlen)) ?_ (if_pos hlen)
            rw [List.length_append, List.length_replicate]
            exact Nat.add_sub_cancel' hlen
          · exact .tooLong trivial rfl (if_pos (Nat.lt_of_not_le hlen)) (if_neg hlen)
      | bool b => cases hv

/-! ## The loop over the columns -/

/-- The literals and their values. -/
def Converted (vs : List SvValue) (vals : List Value) : Prop := List.Forall₂ (fun v val => convertSvValue v = .ok val) vs vals

theorem mapM_convert_bool {vs : List SvValue} (h : ∃ b, .bool b ∈ vs) :
    vs.mapM convertSvValue = .error (.internal "Unexpected sv value type") := by
  obtain ⟨b, hb⟩ := h
  induction vs with
  | nil => cases hb
  | cons v vs ih =>
      rw [List.mapM_cons]
      rcases convertSvValue_cases v with ⟨_, -, herr⟩ | ⟨hv, val, hok⟩
      · rw [herr]
        rfl
      · rw [hok, ih ((List.mem_cons.1 hb).resolve_left fun heq => hv b heq.symm)]
        rfl

theorem mapM_convert_ok {vs : List SvValue} (h : ∀ b, .bool b ∉ vs) :
    ∃ vals, vs.mapM convertSvValue = .ok vals ∧ Converted vs vals := by
  induction vs with
  | nil => exact ⟨[], rfl, .nil⟩
  | cons v vs ih =>
      obtain ⟨vals, hvals, hconv⟩ := ih fun b hb => h b (List.mem_cons_of_mem _ hb)
      rcases convertSvValue_cases v with ⟨b, rfl, -⟩ | ⟨-, val, hok⟩
      · exact absurd List.mem_cons_self (h b)
      · refine ⟨val :: vals, ?_, .cons hok hconv⟩
        rw [List.mapM_cons, hok, hvals]
        rfl

section

variable {cols : List ColMeta} {vs : List SvValue} {vals : List Value}

theorem checkVals_mismatch (hw : ∀ c ∈ cols, c.type ≠ .string → c.len = 4) (hconv : Converted vs vals)
    (h : ∃ p ∈ cols.zip vs, ¬typeFits p.1 p.2) : ∃ e, checkVals cols vals = .error e ∧ e ≠ .overrun := by
  induction cols generalizing vs vals with
  | nil =>
      obtain ⟨p, hp, -⟩ := h
      cases hp
  | cons col cols ih =>
      obtain ⟨p, hp, hfits⟩ := h
      cases hconv with
      | nil => cases hp
      | @cons v val vs vals hv hvs =>
          unfold checkVals
          by_cases htype : col.type ≠ (val.promote col.type).type
          · rw [if_pos htype]
            exact ⟨_, rfl, InsertError.noConfusion⟩
          · rw [if_neg htype]
            have hrest : ∃ p ∈ cols.zip vs, ¬typeFits p.1 p.2 := by
              rcases List.mem_cons.1 hp with rfl | hp
              · cases fieldCase (hw col List.mem_cons_self) hv with
                | mismatch _ _ hne => exact absurd hne htype
                | ok hok => exact absurd hok hfits
                | tooLong hok => exact absurd hok hfits
              · exact ⟨p, hp, hfits⟩
            obtain ⟨e, he, hne⟩ := ih (fun c hc => hw c (List.mem_cons_of_mem _ hc)) hvs hrest
            rw [he]
            exact ⟨e, rfl, hne⟩

theorem checkVals_fits (hw : ∀ c ∈ cols, c.type ≠ .string → c.len = 4) (hconv : Converted vs vals)
    (h : ∀ p ∈ cols.zip vs, typeFits p.1 p.2) :
    checkVals cols vals = if cols.length ≤ vs.length
      then .ok (List.zipWith (fun col val => val.promote col.type) cols vals) else .error .overrun := by
  induction cols generalizing vs vals with
  | nil =>
      exact (if_pos (Nat.zero_le _)).symm
  | cons col cols ih =>
      cases hconv with
      | nil => rfl
      | @cons v val vs vals hv hvs =>
          have htype : ¬col.type ≠ (val.promote col.type).type := by
            cases fieldCase (hw col List.mem_cons_self) hv with
            | mismatch hno => exact absurd (h _ List.mem_cons_self) hno
            | ok _ heq => exact not_not.2 heq
            | tooLong _ heq => exact not_not.2 heq
          have hrest := ih (fun c hc => hw c (List.mem_cons_of_mem _ hc)) hvs fun p hp => h p (List.mem_cons_of_mem _ hp)
          unfold checkVals
          rw [if_neg htype, hrest, List.length_cons, List.length_cons]
          by_cases hlen : cols.length ≤ vs.length
          · rw [if_pos hlen, if_pos (Nat.succ_le_succ hlen)]
            rfl
          · rw [if_neg hlen, if_neg fun hle => hlen (Nat.le_of_succ_le_succ hle)]
            rfl

/-- A record needs a value of the type of each column. -/
theorem typeFits_of_rowOf {row : Bytes} (h : rowOf cols vs = some row) :
    cols.length = vs.length ∧ (∀ b, .bool b ∉ vs) ∧ ∀ p ∈ cols.zip vs, typeFits p.1 p.2 := by
  induction cols generalizing vs row with
  | nil =>
      cases vs with
      | nil => exact ⟨rfl, fun _ => List.not_mem_nil, fun _ hp => by cases hp⟩
      | cons v vs => cases h
  | cons col cols ih =>
      cases vs with
      | nil => cases h
      | cons v vs =>
          obtain ⟨field, hfield, hrest⟩ := Option.bind_eq_some_iff.1 h
          obtain ⟨row', hrow', -⟩ := Option.map_eq_some_iff.1 hrest
          obtain ⟨hlen, hbool, hfits⟩ := ih hrow'
          have hv : typeFits col v ∧ ∀ b, v ≠ .bool b := by
            obtain ⟨name, type, len, offset⟩ := col
            cases type with
            | int => cases v <;> first | exact ⟨trivial, fun _ => SvValue.noConfusion⟩ | cases hfield
            | float => cases v <;> first | exact ⟨trivial, fun _ => SvValue.noConfusion⟩ | cases hfield
            | string => cases v <;> first | exact ⟨trivial, fun _ => SvValue.noConfusion⟩ | cases hfield
          refine ⟨congrArg (· + 1) hlen, fun b hb => ?_, fun p hp => ?_⟩
          · rcases List.mem_cons.1 hb with heq | hb
            · exact hv.2 b heq.symm
            · exact hbool b hb
          · rcases List.mem_cons.1 hp with rfl | hp
            · exact hv.1
            · exact hfits p hp

/-- The record that the executor makes, from `off` on. -/
theorem insertRecord_spec (hw : ∀ c ∈ cols, c.type ≠ .string → c.len = 4) {off : Nat} (hlayout : ColsAt off cols)
    (hconv : Converted vs vals) (hlen : cols.length ≤ vs.length) (hfits : ∀ p ∈ cols.zip vs, typeFits p.1 p.2) {pre : Bytes}
    (hpre : pre.length = off) :
    insertRecord (cols.zip (List.zipWith (fun col val => val.promote col.type) cols vals))
        (pre ++ List.replicate (cols.map ColMeta.len).sum 0) =
      (rowOf cols (vs.take cols.length)).elim (.error .stringOverflow) fun row => .ok (pre ++ row) := by
  induction cols generalizing vs vals off pre with
  | nil => rfl
  | cons col cols ih =>
      cases hconv with
      | nil => cases hlen
      | @cons v val vs vals hv hvs =>
          obtain ⟨hoff, hlayout⟩ := hlayout
          rw [List.length_cons, List.length_cons] at hlen
          rw [List.zipWith_cons_cons, List.zip_cons_cons, List.length_cons, List.take_succ_cons]
          unfold insertRecord rowOf
          cases fieldCase (hw col List.mem_cons_self) hv with
          | mismatch hno => exact absurd (hfits _ List.mem_cons_self) hno
          | tooLong _ htype hinit hfield =>
              rw [if_neg (not_not.2 htype), hinit, hfield]
              rfl
          | ok _ htype raw hinit hraw hfield =>
              have hput : putBytes (pre ++ List.replicate (List.map ColMeta.len (col :: cols)).sum 0) col.offset
                  (raw.take col.len) = (pre ++ raw) ++ List.replicate (cols.map ColMeta.len).sum 0 := by
                rw [List.take_of_length_le (Nat.le_of_eq hraw), hoff, ← hpre]
                unfold putBytes
                rw [List.take_left, List.drop_append, List.drop_of_length_le (by omega), List.nil_append,
                  Nat.add_sub_cancel_left, List.drop_replicate, hraw, List.map_cons, List.sum_cons, Nat.add_sub_cancel_left]
              rw [if_neg (not_not.2 htype), hinit, hfield]
              show insertRecord _ (putBytes _ col.offset (raw.take col.len)) = _
              rw [hput, ih (fun c hc => hw c (List.mem_cons_of_mem _ hc)) hlayout hvs (Nat.le_of_succ_le_succ hlen)
                (fun p hp => hfits p (List.mem_cons_of_mem _ hp)) (by rw [List.length_append, hpre, hraw])]
              cases rowOf cols (vs.take cols.length) with
              | none => rfl
              | some row =>
                  show Except.ok (pre ++ raw ++ row) = Except.ok (pre ++ (raw ++ row))
                  rw [List.append_assoc]

end

/-! ## A statement -/

section

variable {tab : TabMeta} {x : InsertStmt} {vs : List SvValue} {σ : Type} {insertRow : σ → Bytes → σ × RowResult}

theorem zip_take_length {α β : Type} (as : List α) (bs : List β) : as.zip (bs.take as.length) = as.zip bs := by
  induction as generalizing bs with
  | nil => rfl
  | cons a as ih =>
      cases bs with
      | nil => rfl
      | cons b bs => rw [List.length_cons, List.take_succ_cons, List.zip_cons_cons, List.zip_cons_cons, ih]

/-- A BOOL value. -/
theorem run_bool (hraw : rawVals tab.cols x = vs.mapM convertSvValue) (h : ∃ b, .bool b ∈ vs) (s : σ) :
    ∃ e, runInsert insertRow tab x s = (s, .error e) ∧ e ≠ .overrun := by
  refine ⟨.internal "Unexpected sv value type", ?_, InsertError.noConfusion⟩
  unfold runInsert analyzeInsert
  rw [hraw, mapM_convert_bool h]
  rfl

theorem analyzeInsert_eq (hraw : rawVals tab.cols x = vs.mapM convertSvValue) {vals : List Value}
    (hvals : vs.mapM convertSvValue = .ok vals) : analyzeInsert tab x = checkVals tab.cols vals := by
  unfold analyzeInsert
  rw [hraw, hvals]
  rfl

theorem run_error {e : InsertError} (h : analyzeInsert tab x = .error e) (s : σ) :
    runInsert insertRow tab x s = (s, .error e) := by
  unfold runInsert
  rw [h]

/-- A value of another type than its column. -/
theorem run_mismatch (hok : Created tab) (hraw : rawVals tab.cols x = vs.mapM convertSvValue)
    (h : ∃ p ∈ tab.cols.zip vs, ¬typeFits p.1 p.2) (s : σ) :
    ∃ e, runInsert insertRow tab x s = (s, .error e) ∧ e ≠ .overrun := by
  by_cases hbool : ∃ b, .bool b ∈ vs
  · exact run_bool hraw hbool s
  · obtain ⟨vals, hvals, hconv⟩ := mapM_convert_ok fun b hb => hbool ⟨b, hb⟩
    obtain ⟨e, he, hne⟩ := checkVals_mismatch hok.words hconv h
    exact ⟨e, run_error ((analyzeInsert_eq hraw hvals).trans he) s, hne⟩

/-- Fewer values than columns. -/
theorem run_overrun (hok : Created tab) (hraw : rawVals tab.cols x = vs.mapM convertSvValue) (hbool : ∀ b, .bool b ∉ vs)
    (hlen : vs.length < tab.cols.length) (hfits : ∀ p ∈ tab.cols.zip vs, typeFits p.1 p.2) (s : σ) :
    runInsert insertRow tab x s = (s, .error .overrun) := by
  obtain ⟨vals, hvals, hconv⟩ := mapM_convert_ok hbool
  have hcheck := checkVals_fits hok.words hconv hfits
  rw [if_neg (Nat.not_le.2 hlen)] at hcheck
  exact run_error ((analyzeInsert_eq hraw hvals).trans hcheck) s

/-- One row of values is kept, whatever stands behind it. -/
theorem exec_first (insertRow : σ → Bytes → σ × RowResult) (hok : Created tab) (hraw : rawVals tab.cols x = vs.mapM convertSvValue) (hbool : ∀ b, .bool b ∉ vs)
    (hlen : tab.cols.length ≤ vs.length) (hfits : ∀ p ∈ tab.cols.zip vs, typeFits p.1 p.2) :
    ∃ values, (∀ s : σ, runInsert insertRow tab x s = nextRows insertRow tab 1 values s) ∧
      insertRecord (tab.cols.zip values) (List.replicate tab.recordSize 0) =
        (rowOf tab.cols (vs.take tab.cols.length)).elim (.error .stringOverflow) .ok := by
  obtain ⟨vals, hvals, hconv⟩ := mapM_convert_ok hbool
  have hcheck := checkVals_fits hok.words hconv hfits
  rw [if_pos hlen] at hcheck
  have hcount : (List.zipWith (fun col val => Value.promote col.type val) tab.cols vals).length = tab.cols.length := by
    rw [List.length_zipWith, ← hconv.length_eq, Nat.min_eq_left hlen]
  have hpos : 0 < tab.cols.length := List.length_pos_iff.2 hok.nonempty
  refine ⟨List.zipWith (fun col val => Value.promote col.type val) tab.cols vals, fun s => ?_, ?_⟩
  · unfold runInsert
    rw [analyzeInsert_eq hraw hvals, hcheck]
    dsimp only
    unfold execInsert
    rw [hcount, Nat.mod_self, Nat.div_self hpos, if_neg (not_or.2 ⟨hok.nonempty, fun h => h rfl⟩)]
  · have hpre : ([] : Bytes).length = 0 := rfl
    exact insertRecord_spec hok.words tab.layout hconv hlen hfits hpre

theorem run_row (hok : Created tab) (hraw : rawVals tab.cols x = vs.mapM convertSvValue) (hbool : ∀ b, .bool b ∉ vs)
    (hlen : tab.cols.length ≤ vs.length) {row : Bytes} (hrow : rowOf tab.cols (vs.take tab.cols.length) = some row)
    (htakes : Takes insertRow) (s : σ) : runInsert insertRow tab x s = ((insertRow s row).1, .done) := by
  have hfits := (typeFits_of_rowOf hrow).2.2
  rw [zip_take_length] at hfits
  obtain ⟨values, hrun, hrecord⟩ := exec_first insertRow hok hraw hbool hlen hfits
  rw [hrow, Option.elim_some] at hrecord
  have htake := htakes s row
  rw [hrun]
  unfold nextRows
  rw [hrecord]
  cases hins : insertRow s row with
  | mk s' result =>
      rw [hins] at htake
      obtain rfl : result = .inserted := htake
      dsimp only
      rw [hins]
      rfl

theorem run_none (hok : Created tab) (hraw : rawVals tab.cols x = vs.mapM convertSvValue)
    (hlen : tab.cols.length ≤ vs.length) (hrow : rowOf tab.cols (vs.take tab.cols.length) = none) (s : σ) :
    ∃ e, runInsert insertRow tab x s = (s, .error e) ∧ e ≠ .overrun := by
  by_cases hmis : ∃ p ∈ tab.cols.zip vs, ¬typeFits p.1 p.2
  · exact run_mismatch hok hraw hmis s
  · by_cases hbool : ∃ b, .bool b ∈ vs
    · exact run_bool hraw hbool s
    · obtain ⟨values, hrun, hrecord⟩ := exec_first insertRow hok hraw (fun b hb => hbool ⟨b, hb⟩) hlen
        fun p hp => by_contra fun hno => hmis ⟨p, hp, hno⟩
      rw [hrow, Option.elim_none] at hrecord
      refine ⟨.stringOverflow, ?_, InsertError.noConfusion⟩
      rw [hrun]
      unfold nextRows
      rw [hrecord]

end

/-! ## Statements with a column list -/

theorem rawVals_listed {cols : List ColMeta} {names : List String} {tuple : List SvValue} (hne : names ≠ [])
    (hlen : names.length = tuple.length) :
    (∀ vs, cols.mapM (listed names tuple) = some vs →
      rawVals cols { cols := names, vals := tuple } = vs.mapM convertSvValue ∧ vs.length = cols.length) ∧
    (cols.mapM (listed names tuple) = none →
      ∃ e, rawVals cols { cols := names, vals := tuple } = .error e ∧ e ≠ .overrun) := by
  unfold rawVals
  rw [if_neg hne, if_neg (not_not.2 hlen)]
  induction cols with
  | nil =>
      refine ⟨fun vs hvs => ?_, fun h => by cases h⟩
      obtain rfl := Option.some.inj hvs
      exact ⟨rfl, rfl⟩
  | cons col cols ih =>
      rw [List.mapM_cons, List.mapM_cons]
      cases hidx : names.idxOf? col.name with
      | none =>
          have hlisted : listed names tuple col = none := by
            unfold listed
            rw [hidx]
            rfl
          rw [hlisted]
          exact ⟨fun vs hvs => (by cases hvs), fun _ => ⟨_, rfl, InsertError.noConfusion⟩⟩
      | some k =>
          have hk : k < tuple.length := by
            obtain ⟨hk, -⟩ := List.idxOf?_eq_some_iff.1 hidx
            omega
          have hget : tuple[k]? = some tuple[k] := List.getElem?_eq_getElem hk
          have hlisted : listed names tuple col = some tuple[k] := by
            unfold listed
            rw [hidx]
            exact hget
          rw [hlisted]
          dsimp only
          rw [hget]
          dsimp only
          constructor
          · intro vs hvs
            obtain ⟨v, hv, hrest⟩ := Option.bind_eq_some_iff.1 hvs
            obtain rfl := Option.some.inj hv
            obtain ⟨vs', hvs', hcons⟩ := Option.bind_eq_some_iff.1 hrest
            obtain rfl := Option.some.inj hcons
            obtain ⟨hraw, hcount⟩ := ih.1 vs' hvs'
            refine ⟨?_, congrArg (· + 1) hcount⟩
            rw [List.mapM_cons, hraw]
          · intro hnone
            rcases convertSvValue_cases tuple[k] with ⟨b, hb, herr⟩ | ⟨hb, val, hok⟩
            · rw [herr]
              exact ⟨_, rfl, InsertError.noConfusion⟩
            · have hrest : cols.mapM (listed names tuple) = none := by
                cases hvs : cols.mapM (listed names tuple) with
                | none => rfl
                | some vs =>
                    rw [hvs] at hnone
                    cases hnone
              obtain ⟨e, he, hne⟩ := ih.2 hrest
              refine ⟨e, ?_, hne⟩
              rw [hok, he]
              rfl

/-! ## Arity -/

section

variable {tab : TabMeta}

theorem rowOf_of_mapM {cols : List ColMeta} {tuples : List (List SvValue)} {rows : List Bytes}
    (h : tuples.mapM (rowOf cols) = some rows) : List.Forall₂ (fun t row => rowOf cols t = some row) tuples rows := by
  induction tuples generalizing rows with
  | nil =>
      obtain rfl := Option.some.inj h
      exact .nil
  | cons t tuples ih =>
      rw [List.mapM_cons] at h
      obtain ⟨row, hrow, hrest⟩ := Option.bind_eq_some_iff.1 h
      obtain ⟨rows', hrows', hcons⟩ := Option.bind_eq_some_iff.1 hrest
      obtain rfl := Option.some.inj hcons
      exact .cons hrow (ih hrows')

theorem exists_rows {cols : List ColMeta} {tuples : List (List SvValue)} (h : ∀ t ∈ tuples, rowOf cols t ≠ none) :
    ∃ rows, tuples.mapM (rowOf cols) = some rows := by
  induction tuples with
  | nil => exact ⟨[], rfl⟩
  | cons t tuples ih =>
      obtain ⟨row, hrow⟩ := Option.ne_none_iff_exists'.1 (h t List.mem_cons_self)
      obtain ⟨rows, hrows⟩ := ih fun t' ht' => h t' (List.mem_cons_of_mem _ ht')
      refine ⟨row :: rows, ?_⟩
      rw [List.mapM_cons, hrow, hrows]
      rfl

theorem forall_of_rows {cols : List ColMeta} {tuples : List (List SvValue)} {rows : List Bytes}
    (h : List.Forall₂ (fun t row => rowOf cols t = some row) tuples rows) :
    (∀ t ∈ tuples, t.length = cols.length) ∧ (∀ b, SvValue.bool b ∉ tuples.flatten) ∧ ∀ t ∈ tuples, rowOf cols t ≠ none := by
  induction h with
  | nil => exact ⟨by simp, by simp, by simp⟩
  | @cons t row tuples rows hrow hrest ih =>
      obtain ⟨hlen, hbool, -⟩ := typeFits_of_rowOf hrow
      refine ⟨fun t' ht' => ?_, fun b hb => ?_, fun t' ht' => ?_⟩
      · rcases List.mem_cons.1 ht' with rfl | ht'
        · exact hlen.symm
        · exact ih.1 t' ht'
      · rcases List.mem_append.1 hb with hb | hb
        · exact hbool b hb
        · exact ih.2.1 b hb
      · rcases List.mem_cons.1 ht' with rfl | ht'
        · rw [hrow]
          exact Option.some_ne_none row
        · exact ih.2.2 t' ht'

/-- A heap that takes every record and keeps their order. -/
def append (s : List Bytes) (row : Bytes) : List Bytes × RowResult := (s ++ [row], .inserted)

theorem append_takes : Takes append := fun _ _ => rfl

theorem length_foldl_append (rows s : List Bytes) :
    (rows.foldl (fun s row => (append s row).1) s).length = s.length + rows.length := by
  induction rows generalizing s with
  | nil => rfl
  | cons row rows ih =>
      rw [List.foldl_cons, ih, List.length_cons]
      show (s ++ [row]).length + rows.length = _
      rw [List.length_append, List.length_singleton]
      omega

/-- Of tuples that fit, the first is inserted. -/
theorem run_tuples (hok : Created tab) {t : List SvValue} {ts : List (List SvValue)} {row : Bytes} {rows : List Bytes}
    (hrow : rowOf tab.cols t = some row) (hrows : List.Forall₂ (fun t row => rowOf tab.cols t = some row) ts rows) {σ : Type}
    {insertRow : σ → Bytes → σ × RowResult} (htakes : Takes insertRow) (s : σ) :
    runInsert insertRow tab (InsertSyntax.values (t :: ts)).stmt s = ((insertRow s row).1, .done) := by
  have hall : List.Forall₂ (fun t row => rowOf tab.cols t = some row) (t :: ts) (row :: rows) := .cons hrow hrows
  obtain ⟨hlens, hbool, -⟩ := forall_of_rows hall
  have hlen : t.length = tab.cols.length := hlens t List.mem_cons_self
  have htake : (t :: ts).flatten.take tab.cols.length = t := by
    rw [List.flatten_cons, ← hlen, List.take_left]
  have hle : tab.cols.length ≤ (t :: ts).flatten.length := by
    rw [List.flatten_cons, List.length_append, hlen]
    exact Nat.le_add_right _ _
  have hraw : rawVals tab.cols (InsertSyntax.values (t :: ts)).stmt = (t :: ts).flatten.mapM convertSvValue := if_pos rfl
  exact run_row hok hraw hbool hle (by rw [htake]; exact hrow) htakes s

theorem arityOk_values (hok : Created tab) {tuples : List (List SvValue)} (hne : tuples ≠ []) :
    ArityOk tab (.values tuples) ↔ (InsertSyntax.values tuples).Checked tab.cols := by
  unfold InsertSyntax.Checked
  dsimp only
  have hraw : rawVals tab.cols (InsertSyntax.values tuples).stmt = tuples.flatten.mapM convertSvValue := if_pos rfl
  by_cases hsame : ∀ t ∈ tuples, t.length = tab.cols.length
  · rw [if_pos hsame]
    constructor
    · -- with two tuples that fit, a heap that keeps the records shows the difference
      intro h
      by_contra hno
      rw [not_or] at hno
      obtain ⟨hone, hfit⟩ := hno
      obtain ⟨rows, hrows⟩ := exists_rows fun t ht hnone => hfit ⟨t, ht, hnone⟩
      have hforall := rowOf_of_mapM hrows
      cases hforall with
      | nil => exact hne rfl
      | @cons t row ts rows hrow hrest =>
          have hrun := run_tuples hok hrow hrest append_takes []
          rw [h.inserts _ hrows append [] append_takes] at hrun
          have hlen := congrArg (fun r => r.1.length) hrun
          dsimp only at hlen
          rw [length_foldl_append] at hlen
          have hcount := hrest.length_eq
          change 0 + (row :: rows).length = 1 at hlen
          rw [List.length_cons] at hlen hone
          omega
    · intro h
      refine ⟨fun rows hrows σ insertRow s htakes => ?_, fun hother => ?_⟩
      · have hforall := rowOf_of_mapM hrows
        cases hforall with
        | nil => exact absurd rfl hne
        | @cons t row ts rows hrow hrest =>
            rcases h with hone | ⟨t', ht', hnone⟩
            · cases hrest with
              | nil => exact run_tuples hok hrow .nil htakes s
              | cons _ _ =>
                  rw [List.length_cons, List.length_cons] at hone
                  omega
            · have hall : List.Forall₂ (fun t row => rowOf tab.cols t = some row) (t :: ts) (row :: rows) := .cons hrow hrest
              exact absurd hnone ((forall_of_rows hall).2.2 t' ht')
      · obtain ⟨t, ht, hlen⟩ := hother
        exact absurd (hsame t ht) hlen
  · rw [if_neg hsame]
    constructor
    · intro h
      have hother : ∃ t ∈ tuples, t.length ≠ tab.cols.length := by
        by_contra hno
        exact hsame fun t ht => by_contra fun hlen => hno ⟨t, ht, hlen⟩
      obtain ⟨e, hrun, hover⟩ := h.refuses hother append []
      by_contra hno
      rw [not_or] at hno
      obtain ⟨hbool, hno⟩ := hno
      have hbool' : ∀ b, SvValue.bool b ∉ tuples.flatten := fun b hb => hbool ⟨b, hb⟩
      by_cases hlen : tab.cols.length ≤ tuples.flatten.length
      · rw [if_pos hlen] at hno
        obtain ⟨row, hrow⟩ := Option.ne_none_iff_exists'.1 hno
        rw [run_row hok hraw hbool' hlen hrow append_takes []] at hrun
        cases (congrArg Prod.snd hrun)
      · rw [if_neg hlen] at hno
        rw [run_overrun hok hraw hbool' (Nat.lt_of_not_le hlen) (fun p hp => by_contra fun hfit => hno ⟨p, hp, hfit⟩) []] at hrun
        cases (congrArg Prod.snd hrun)
        exact hover rfl
    · intro h
      refine ⟨fun rows hrows => ?_, fun _ σ insertRow s => ?_⟩
      · exact absurd (forall_of_rows (rowOf_of_mapM hrows)).1 hsame
      · rcases h with hbool | h
        · exact run_bool hraw hbool s
        · by_cases hlen : tab.cols.length ≤ tuples.flatten.length
          · rw [if_pos hlen] at h
            exact run_none hok hraw hlen h s
          · rw [if_neg hlen] at h
            exact run_mismatch hok hraw h s

theorem arityOk_columns (hok : Created tab) {names : List String} (hne : names ≠ []) (tuple : List SvValue) :
    ArityOk tab (.columns names tuple) ↔ (InsertSyntax.columns names tuple).Checked tab.cols := by
  unfold InsertSyntax.Checked
  dsimp only
  -- a statement whose values are picked for all the columns
  have hpicked : names.length = tuple.length → ∀ row, (tab.cols.mapM (listed names tuple)).bind (rowOf tab.cols) = some row →
      ∀ {σ : Type} (insertRow : σ → Bytes → σ × RowResult) (s : σ), Takes insertRow →
        runInsert insertRow tab (InsertSyntax.columns names tuple).stmt s = ((insertRow s row).1, .done) := by
    intro hlen row hbind σ insertRow s htakes
    obtain ⟨vs, hvs, hrow⟩ := Option.bind_eq_some_iff.1 hbind
    obtain ⟨hraw, hcount⟩ := (rawVals_listed hne hlen).1 vs hvs
    have htake : vs.take tab.cols.length = vs := List.take_of_length_le (Nat.le_of_eq hcount)
    exact run_row hok hraw (typeFits_of_rowOf hrow).2.1 (Nat.le_of_eq hcount.symm) (by rw [htake]; exact hrow) htakes s
  constructor
  · intro h
    by_contra hno
    rw [not_or, not_or, not_not] at hno
    obtain ⟨hm, hlen, hbind⟩ := hno
    obtain ⟨row, hrow⟩ := Option.ne_none_iff_exists'.1 hbind
    obtain ⟨e, hrun, -⟩ := h.refuses ⟨tuple, List.mem_singleton.2 rfl, hm⟩ append []
    rw [hpicked hlen row hrow append [] append_takes] at hrun
    cases (congrArg Prod.snd hrun)
  · intro h
    refine ⟨fun rows hrows σ insertRow s htakes => ?_, fun hother σ insertRow s => ?_⟩
    · unfold InsertSyntax.rows at hrows
      dsimp only at hrows
      split at hrows
      · next hlens =>
          obtain ⟨row, hrow, rfl⟩ := Option.map_eq_some_iff.1 hrows
          exact hpicked hlens.1 row hrow insertRow s htakes
      · cases hrows
    · obtain ⟨t, ht, hm⟩ := hother
      obtain rfl := List.mem_singleton.1 ht
      by_cases hlen : names.length = t.length
      · have hbind : (tab.cols.mapM (listed names t)).bind (rowOf tab.cols) = none := by
          rcases h with h | h | h
          · exact absurd h hm
          · exact absurd hlen h
          · exact h
        cases hvs : tab.cols.mapM (listed names t) with
        | none =>
            obtain ⟨e, he, hne'⟩ := (rawVals_listed hne hlen).2 hvs
            refine ⟨e, run_error ?_ s, hne'⟩
            show (rawVals tab.cols { cols := names, vals := t }).bind _ = _
            rw [he]
            rfl
        | some vs =>
            rw [hvs] at hbind
            obtain ⟨hraw, hcount⟩ := (rawVals_listed hne hlen).1 vs hvs
            have htake : vs.take tab.cols.length = vs := List.take_of_length_le (Nat.le_of_eq hcount)
            exact run_none hok hraw (Nat.le_of_eq hcount.symm) (by rw [htake]; exact hbind) s
      · refine ⟨.invalidValueCount, run_error ?_ s, InsertError.noConfusion⟩
        show (rawVals tab.cols { cols := names, vals := t }).bind _ = _
        have hraw : rawVals tab.cols { cols := names, vals := t } = .error .invalidValueCount := by
          unfold rawVals
          rw [if_neg hne, if_pos hlen]
        rw [hraw]
        rfl

/-- The code inserts the tuples of a statement, or refuses it, as it should if and only if the statement is one of
those that `Checked` says. -/
theorem arityOk_iff_checked (hok : Created tab) {x : InsertSyntax} (hx : x.Ok) : ArityOk tab x ↔ x.Checked tab.cols := by
  cases x with
  | values tuples => exact arityOk_values hok hx.tuples
  | columns names tuple => exact arityOk_columns hok (hx.cols names tuple rfl) tuple

end

theorem account_layout : ColsAt 0 [⟨"id", .int, 4, 0⟩, ⟨"name", .string, 4, 4⟩, ⟨"balance", .float, 4, 8⟩] := by decide

/-- `account(id INT, name CHAR(4), balance FLOAT)`. -/
def account : TabMeta :=
  ⟨[⟨"id", .int, 4, 0⟩, ⟨"name", .string, 4, 4⟩, ⟨"balance", .float, 4, 8⟩], [], account_layout,
    fun _ h => absurd h List.not_mem_nil⟩

/-- `INSERT INTO account (name, balance, id) VALUES ('ab', 2, 7)`. -/
theorem arityOk_account : ArityOk account (.columns ["name", "balance", "id"] [.str [97, 98], .int 2, .int 7]) := by
  have hcreated : Created account := ⟨List.cons_ne_nil _ _, by decide⟩
  refine (arityOk_iff_checked hcreated ⟨by simp [InsertSyntax.tuples], by simp [InsertSyntax.tuples], ?_⟩).2 (.inl rfl)
  intro cols t h
  cases h
  exact List.cons_ne_nil _ _

theorem tableA_layout : ColsAt 0 [⟨"a", .int, 4, 0⟩] := by decide

theorem tableA_indexed : ∀ ix ∈ ([] : List (List ColMeta)), ∀ c ∈ ix, c ∈ [⟨"a", .int, 4, 0⟩] := by simp

/-- `t(a INT)`. -/
def tableA : TabMeta := ⟨[⟨"a", .int, 4, 0⟩], [], tableA_layout, tableA_indexed⟩

/-- `INSERT INTO t VALUES (1), (2)`. -/
theorem second_tuple_dropped : (InsertSyntax.values [[.int 1], [.int 2]]).rows tableA.cols = some [wordBytes 1, wordBytes 2] ∧
    runInsert append tableA (InsertSyntax.values [[.int 1], [.int 2]]).stmt [] = ([wordBytes 1], .done) := by
  decide

end Rmdb.Sql
