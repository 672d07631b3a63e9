import Rmdb.Sql.Aggregate

/-!
# What the aggregates stand for

The classes of a relation under its group columns, the value of an aggregate over a class
(`reference`), and what the state of an aggregate has folded at the end of a class
(`getAggValue_datum`): the value of the class, with numbers cut to 32 bits, and 0 where the
class gives no value.
-/

namespace Rmdb.Sql

open Rmdb.Txn
open Rmdb.Query (TabCol Cols findCol)

/-! ## Values of a class -/

/-- The values of a column in the records of a class. -/
def columnValues (cols : Cols) (c : TabCol) (rows : List Bytes) : List Datum :=
  match findCol cols c with
  | none => []
  | some m => rows.map (colDatum m)

def Datum.toInt : Datum → Int
  | .int v => v
  | _ => 0

/-- The value of an aggregate over a class; `none` for `MIN` and `MAX` of nothing, and for
`AVG`, which is a float. -/
def reference (cols : Cols) (a : AggregateInfo) (rows : List Bytes) : Option Datum :=
  let vs := columnValues cols a.col rows
  match a.type with
  | .count =>
      if a.isStar then some (.int rows.length)
      else some (.int (if a.distinct then vs.eraseDups.length else vs.length))
  | .max => Lib.best (fun x m => m.lt x) vs
  | .min => Lib.best Datum.lt vs
  | .sum => some (.int (vs.map Datum.toInt).sum)
  | .avg => none

/-- A number cut to 32 bits. -/
def Datum.low : Datum → Datum
  | .int v => .int (v.bmod (2 ^ 32))
  | d => d

/-- The aggregate works on a column of the child, which the tables know under the same type
and width; only `COUNT` takes `*`. -/
structure AggregateOk (tabs : TabName → TabMeta) (prevCols : Cols) (a : AggregateInfo) : Prop where
  star : a.isStar = true → a.type = .count
  column : a.isStar = false → ∃ c m, findCol prevCols a.col = some c ∧ getCol tabs a.col = some m ∧
    m.type = c.type ∧ m.len = c.len ∧ (a.type ≠ .count → a.argType = c.type)

theorem AggregateOk.column_of_ne {tabs : TabName → TabMeta} {prevCols : Cols} {a : AggregateInfo}
    (h : AggregateOk tabs prevCols a) (hcount : a.type ≠ .count) :
    ∃ c m, findCol prevCols a.col = some c ∧ getCol tabs a.col = some m ∧ m.type = c.type ∧ m.len = c.len ∧
      a.argType = c.type := by
  have hstar : a.isStar = false := by
    cases hs : a.isStar with
    | false => rfl
    | true => exact absurd (h.star hs) hcount
  obtain ⟨c, m, hc, hm, htype, hlen, harg⟩ := h.column hstar
  exact ⟨c, m, hc, hm, htype, hlen, harg hcount⟩

theorem ne_count_of_extreme {a : AggregateInfo} (ht : a.type = .max ∨ a.type = .min) : a.type ≠ .count := by
  intro h
  rw [h] at ht
  rcases ht with ht | ht <;> cases ht

/-- `COUNT` and `COUNT DISTINCT`, and `MIN` and `MAX` of INT and CHAR columns. -/
def Plain (a : AggregateInfo) : Prop :=
  a.type = .count ∨ ((a.type = .max ∨ a.type = .min) ∧ a.argType ≠ .float)

instance (a : AggregateInfo) : Decidable (Plain a) := inferInstanceAs (Decidable (_ ∨ _))

/-! ## The fold over a class -/

section Fold

variable {prevCols : Cols} {a : AggregateInfo}

/-- The state of an aggregate at the end of a class. -/
def stateOf (prevCols : Cols) (a : AggregateInfo) (rows : List Bytes) : AggState :=
  rows.foldl (AggState.add prevCols a) {}

theorem stateOf_concat (rows : List Bytes) (data : Bytes) :
    stateOf prevCols a (rows ++ [data]) = (stateOf prevCols a rows).add prevCols a data := by
  unfold stateOf
  rw [List.foldl_append]
  rfl

theorem count_stateOf (ht : a.type = .count) (h : a.isStar = true ∨
    (a.distinct = false ∧ ∃ c, findCol prevCols a.col = some c)) (rows : List Bytes) :
    (stateOf prevCols a rows).count = BitVec.ofNat 64 rows.length := by
  induction rows using List.reverseRecOn with
  | nil => rfl
  | append_singleton rows data ih =>
      have hadd : ((stateOf prevCols a rows).add prevCols a data).count =
          (stateOf prevCols a rows).count + 1 := by
        unfold AggState.add
        rw [ht]
        rcases h with h | ⟨hd, c, hc⟩
        · simp [h]
        · cases a.isStar <;> simp [hd, hc]
      rw [stateOf_concat, hadd, ih, List.length_append, List.length_singleton, BitVec.ofNat_add]
      rfl

/-- `COUNT(DISTINCT c)` keeps the different bytes of the column and their number. -/
theorem distinct_stateOf (ht : a.type = .count) (hs : a.isStar = false) (hd : a.distinct = true)
    {c : ColMeta} (hc : findCol prevCols a.col = some c) (rows : List Bytes) :
    (stateOf prevCols a rows).distinctSeen = (rows.map (colBytes c)).eraseDups ∧
      (stateOf prevCols a rows).count = BitVec.ofNat 64 (rows.map (colBytes c)).eraseDups.length := by
  induction rows using List.reverseRecOn with
  | nil => exact ⟨rfl, rfl⟩
  | append_singleton rows data ih =>
      obtain ⟨hseen, hcount⟩ := ih
      have hadd : (stateOf prevCols a rows).add prevCols a data = { stateOf prevCols a rows with
          distinctSeen := Lib.pushNew (stateOf prevCols a rows).distinctSeen (colBytes c data)
          count := if colBytes c data ∈ (stateOf prevCols a rows).distinctSeen
            then (stateOf prevCols a rows).count else (stateOf prevCols a rows).count + 1 } := by
        unfold AggState.add
        rw [ht]
        simp [hs, hd, hc]
      rw [stateOf_concat, hadd, List.map_append, List.map_singleton, Lib.eraseDups_concat]
      simp only [hseen, hcount, Lib.pushNew, List.mem_eraseDups, true_and]
      by_cases hmem : colBytes c data ∈ rows.map (colBytes c)
      · rw [if_pos hmem, if_pos hmem]
      · rw [if_neg hmem, if_neg hmem, List.length_append, List.length_singleton, BitVec.ofNat_add]
        rfl

/-! Away from `COUNT` a state takes the values of its column in, one record after another. -/

theorem add_value (ht : a.type ≠ .count) {c : ColMeta} (hc : findCol prevCols a.col = some c)
    (st : AggState) (data : Bytes) :
    st.add prevCols a data = { st.addValue c data with sumCnt := st.sumCnt + 1 } := by
  unfold AggState.add
  cases h : a.type with
  | count => exact absurd h ht
  | max => simp [hc]
  | min => simp [hc]
  | sum => simp [hc]
  | avg => simp [hc]

/-- What the flag and the field of an extreme hold together. -/
def AggState.top {α : Type} (st : AggState) (v : α) : Option α := if st.hasValue then some v else none

variable {c : ColMeta}

/-- An extreme that each record updates by `keep` is the best of the class. -/
theorem top_stateOf {α : Type} (field : AggState → α) (value : Bytes → α) {better : α → α → Bool}
    (hr : Lib.Ranks better) (hstep : ∀ (st : AggState) data, (st.add prevCols a data).top (field (st.add prevCols a data)) =
      Lib.keep better (st.top (field st)) (value data)) (rows : List Bytes) :
    (stateOf prevCols a rows).top (field (stateOf prevCols a rows)) = Lib.best better (rows.map value) := by
  rw [← Lib.foldl_keep hr]
  induction rows using List.reverseRecOn with
  | nil => rfl
  | append_singleton rows data ih =>
      rw [stateOf_concat, hstep, ih, List.map_append, List.foldl_append]
      rfl

theorem ranks_int (f : BitVec 32 → Int) : Lib.Ranks fun x m : BitVec 32 => decide (f x < f m) := by
  constructor
  · intro a b h
    have h := of_decide_eq_true h
    apply decide_eq_false
    omega
  · intro a b c h h'
    have h := of_decide_eq_false h
    have h' := of_decide_eq_false h'
    apply decide_eq_false
    omega

theorem ranks_lt : Lib.Ranks fun x m : Bytes => decide (x < m) := by
  constructor
  · intro a b h
    have h := of_decide_eq_true h
    exact decide_eq_false (fun h' => List.lt_asymm h h')
  · intro a b c h h'
    have h := of_decide_eq_false h
    have h' := of_decide_eq_false h'
    apply decide_eq_false
    exact List.not_lt.2 (List.le_trans (List.not_lt.1 h') (List.not_lt.1 h))

theorem datum_low (v : Value) : v.datum.low = v.datum := by
  cases v with
  | int w =>
      show Datum.int _ = _
      rw [BitVec.toInt_bmod_cancel]
      rfl
  | float b => rfl
  | str s => rfl

theorem colDatum_int (ht : c.type = .int) (hlen : 4 ≤ c.len) (data : Bytes) :
    colDatum c data = .int (getWord data c.offset).toInt := by
  unfold colDatum fieldDatum
  rw [ht, ← getWord_colBytes hlen]

theorem colDatum_string (ht : c.type = .string) (data : Bytes) :
    colDatum c data = .str (text (colBytes c data)) := by
  unfold colDatum fieldDatum
  rw [ht]

theorem castInt_ofNat (n : Nat) : (castInt (BitVec.ofNat 64 n)).toInt = (n : Int).bmod (2 ^ 32) := by
  unfold castInt
  rw [BitVec.toInt_setWidth, BitVec.toNat_ofNat]
  push_cast
  rw [Int.bmod_def, Int.bmod_def, Int.emod_emod_of_dvd _ (by decide)]

theorem tops_int (ht : a.type ≠ .count) (hc : findCol prevCols a.col = some c) (htype : c.type = .int)
    (rows : List Bytes) :
    (stateOf prevCols a rows).top (stateOf prevCols a rows).intMax =
        Lib.best (fun x m => decide (m.toInt < x.toInt)) (rows.map fun d => getWord d c.offset) ∧
      (stateOf prevCols a rows).top (stateOf prevCols a rows).intMin =
        Lib.best (fun x m => decide (x.toInt < m.toInt)) (rows.map fun d => getWord d c.offset) := by
  have hadd : ∀ (st : AggState) data, st.add prevCols a data =
      { st.addInt (getWord data c.offset) with sumCnt := st.sumCnt + 1 } := by
    intro st data
    rw [add_value ht hc, AggState.addValue, htype]
  constructor
  · refine top_stateOf AggState.intMax _ (ranks_int BitVec.toInt).flip ?_ rows
    intro st data
    rw [hadd]
    unfold AggState.top AggState.addInt
    cases st.hasValue with
    | false => rfl
    | true =>
        simp only [if_true, Lib.keep_some, decide_eq_true_eq]
  · refine top_stateOf AggState.intMin _ (ranks_int BitVec.toInt) ?_ rows
    intro st data
    rw [hadd]
    unfold AggState.top AggState.addInt
    cases st.hasValue with
    | false => rfl
    | true => simp only [if_true, Lib.keep_some, decide_eq_true_eq]

theorem tops_string (ht : a.type ≠ .count) (hc : findCol prevCols a.col = some c) (htype : c.type = .string)
    (rows : List Bytes) :
    (stateOf prevCols a rows).top (stateOf prevCols a rows).strMax =
        Lib.best (fun x m => decide (m < x)) (rows.map fun d => text (colBytes c d)) ∧
      (stateOf prevCols a rows).top (stateOf prevCols a rows).strMin =
        Lib.best (fun x m => decide (x < m)) (rows.map fun d => text (colBytes c d)) := by
  have hadd : ∀ (st : AggState) data, st.add prevCols a data =
      { st.addString (text (colBytes c data)) with sumCnt := st.sumCnt + 1 } := by
    intro st data
    rw [add_value ht hc, AggState.addValue, htype]
  constructor
  · refine top_stateOf AggState.strMax _ ranks_lt.flip ?_ rows
    intro st data
    rw [hadd]
    unfold AggState.top AggState.addString
    cases st.hasValue with
    | false => rfl
    | true => simp only [if_true, Lib.keep_some, decide_eq_true_eq]
  · refine top_stateOf AggState.strMin _ ranks_lt ?_ rows
    intro st data
    rw [hadd]
    unfold AggState.top AggState.addString
    cases st.hasValue with
    | false => rfl
    | true => simp only [if_true, Lib.keep_some, decide_eq_true_eq]

theorem columnValues_some (hc : findCol prevCols a.col = some c) (rows : List Bytes) :
    columnValues prevCols a.col rows = rows.map (colDatum c) := by
  unfold columnValues
  rw [hc]

/-- The best value of a class, over the words or texts of its column. -/
theorem best_values {α : Type} (better : Datum → Datum → Bool) (hc : findCol prevCols a.col = some c)
    (f : α → Datum) (value : Bytes → α) {rows : List Bytes} (hval : ∀ d ∈ rows, colDatum c d = f (value d)) :
    Lib.best better (columnValues prevCols a.col rows) =
      (Lib.best (fun x m => better (f x) (f m)) (rows.map value)).map f := by
  have hmap : rows.map (colDatum c) = (rows.map value).map f := by
    rw [List.map_map]
    exact List.map_congr_left hval
  rw [columnValues_some hc, hmap, Lib.best_map]

theorem lt_int (x m : Int) : (Datum.int x).lt (.int m) = decide (x < m) := by
  unfold Datum.lt
  rw [decide_eq_decide]
  exact compareInts_lt x m

theorem lt_str (x m : Bytes) : (Datum.str x).lt (.str m) = decide (x < m) := by
  unfold Datum.lt
  rw [decide_eq_decide]
  exact compareStrings_lt x m

/-- What the state of a `MIN` or `MAX` has at the end of a class: the value `o`, if any, is one
of the class and the reference. -/
structure Extreme (prevCols : Cols) (a : AggregateInfo) (rows : List Bytes) (o : Option Value) : Prop where
  reference : reference prevCols a rows = o.map Value.datum
  hasValue : (stateOf prevCols a rows).hasValue = o.isSome
  value : getAggValue a (stateOf prevCols a rows) = o.getD .empty
  mem : ∀ v, o = some v → v.datum ∈ columnValues prevCols a.col rows

/-- An extreme whose field holds the best word or text of the class. -/
theorem extreme_of_best {α : Type} (val : α → Value) (value : Bytes → α) (better : Datum → Datum → Bool) {v : α}
    {rows : List Bytes} (hc : findCol prevCols a.col = some c)
    (hval : ∀ d ∈ rows, colDatum c d = (val (value d)).datum)
    (htop : (stateOf prevCols a rows).top v =
      Lib.best (fun x m => better (val x).datum (val m).datum) (rows.map value))
    (hcode : getAggValue a (stateOf prevCols a rows) =
      if (stateOf prevCols a rows).hasValue then val v else .empty)
    (href : reference prevCols a rows = Lib.best better (columnValues prevCols a.col rows)) :
    ∃ o, Extreme prevCols a rows o := by
  have hbest := best_values better hc (fun x => (val x).datum) value hval
  rw [← htop] at hbest
  have href : reference prevCols a rows = (((stateOf prevCols a rows).top v).map val).map Value.datum := by
    rw [href, hbest, Option.map_map]
    rfl
  refine ⟨((stateOf prevCols a rows).top v).map val, ?_⟩
  constructor
  · exact href
  · unfold AggState.top
    cases (stateOf prevCols a rows).hasValue <;> rfl
  · rw [hcode]
    unfold AggState.top
    cases (stateOf prevCols a rows).hasValue <;> rfl
  · intro w hw
    have hw' : Lib.best better (columnValues prevCols a.col rows) = some w.datum := by
      rw [hbest]
      obtain ⟨x, hx, rfl⟩ := Option.map_eq_some_iff.1 hw
      rw [hx]
      rfl
    exact Lib.best_mem hw'

theorem exists_extreme {tabs : TabName → TabMeta} (hok : AggregateOk tabs prevCols a)
    (ht : a.type = .max ∨ a.type = .min) (hfloat : a.argType ≠ .float) {rows : List Bytes} (hrows : ∀ r ∈ rows, RecordOk prevCols r) :
    ∃ o, Extreme prevCols a rows o := by
  have hn := ne_count_of_extreme ht
  obtain ⟨c, m, hc, -, -, -, harg⟩ := hok.column_of_ne hn
  cases htype : c.type with
  | float => exact absurd (harg.trans htype) hfloat
  | int =>
      rw [htype] at harg
      have hval : ∀ d ∈ rows, colDatum c d = (Value.int (getWord d c.offset)).datum := by
        intro d hd
        have h4 := ((hrows d hd).field hc).word (by rw [htype]; decide)
        exact colDatum_int htype (by omega) d
      obtain ⟨hmax, hmin⟩ := tops_int hn hc htype rows
      simp only [← lt_int] at hmax hmin
      rcases ht with ht | ht
      · apply extreme_of_best Value.int _ (fun x m => m.lt x) hc hval hmax
        · unfold getAggValue
          rw [ht, harg]
        · unfold reference
          rw [ht]
      · apply extreme_of_best Value.int _ Datum.lt hc hval hmin
        · unfold getAggValue
          rw [ht, harg]
        · unfold reference
          rw [ht]
  | string =>
      rw [htype] at harg
      have hval : ∀ d ∈ rows, colDatum c d = (Value.str (text (colBytes c d))).datum :=
        fun d _ => colDatum_string htype d
      obtain ⟨hmax, hmin⟩ := tops_string hn hc htype rows
      simp only [← lt_str] at hmax hmin
      rcases ht with ht | ht
      · apply extreme_of_best Value.str _ (fun x m => m.lt x) hc hval hmax
        · unfold getAggValue
          rw [ht, harg]
        · unfold reference
          rw [ht]
      · apply extreme_of_best Value.str _ Datum.lt hc hval hmin
        · unfold getAggValue
          rw [ht, harg]
        · unfold reference
          rw [ht]

/-- `COUNT`: the number of records, or of different values. -/
theorem count_datum {tabs : TabName → TabMeta} (hok : AggregateOk tabs prevCols a) (ht : a.type = .count)
    {rows : List Bytes} (hrows : ∀ r ∈ rows, RecordOk prevCols r) :
    (getAggValue a (stateOf prevCols a rows)).datum =
      ((reference prevCols a rows).getD (.int 0)).low := by
  have hcode : (getAggValue a (stateOf prevCols a rows)).datum =
      .int (castInt (stateOf prevCols a rows).count).toInt := by
    unfold getAggValue
    rw [ht]
    rfl
  rw [hcode]
  unfold reference
  rw [ht]
  cases hstar : a.isStar with
  | true =>
      rw [count_stateOf ht (.inl hstar), castInt_ofNat]
      rfl
  | false =>
      obtain ⟨c, m, hc, -⟩ := hok.column hstar
      have hvs := columnValues_some hc rows
      cases hd : a.distinct with
      | false =>
          rw [count_stateOf ht (.inr ⟨hd, c, hc⟩), castInt_ofNat, hvs]
          simp only [Bool.false_eq_true, if_false, List.length_map]
          rfl
      | true =>
          -- the data of the column tell its bytes apart
          have hinj : (rows.map (colDatum c)).eraseDups = ((rows.map (colBytes c)).eraseDups).map
              (fieldDatum c.type) := by
            rw [← Lib.map_eraseDups_of_inj, List.map_map]
            · rfl
            · intro x hx y hy hxy
              obtain ⟨r, hr, rfl⟩ := List.mem_map.1 hx
              obtain ⟨r', hr', rfl⟩ := List.mem_map.1 hy
              exact fieldDatum_inj ((hrows r hr).field hc) ((hrows r' hr').field hc) hxy
          rw [(distinct_stateOf ht hstar hd hc rows).2, castInt_ofNat, hvs]
          simp only [Bool.false_eq_true, if_false, if_true, hinj, List.length_map]
          rfl

/-- The aggregates of a class, as the executor compares them. -/
theorem getAggValue_datum {tabs : TabName → TabMeta} (hok : AggregateOk tabs prevCols a)
    (hplain : Plain a) {rows : List Bytes} (hrows : ∀ r ∈ rows, RecordOk prevCols r) :
    (getAggValue a (stateOf prevCols a rows)).datum =
      ((reference prevCols a rows).getD (.int 0)).low := by
  rcases hplain with ht | ⟨ht, hfloat⟩
  · exact count_datum hok ht hrows
  · obtain ⟨o, ho⟩ := exists_extreme hok ht hfloat hrows
    rw [ho.value, ho.reference]
    cases o with
    | none => rfl
    | some v => exact (datum_low v).symm

end Fold

end Rmdb.Sql
