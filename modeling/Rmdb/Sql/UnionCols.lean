import Rmdb.Sql.Shown

/-!
# The columns of a UNION

The output columns of a `UNION` are inferred from its queries (`infer_select_output_cols`,
`promote_union_col` and `do_analyze`, src/analyze/analyze.cpp); the columns its children
really have come from the planner and the projection (`generate_select_plan`,
`ProjectionExecutor`); the executor copies each value from one to the other
(src/execution/executor_union.h).  A child is its columns with its records; each record comes
with the buffer its copy is made in, which is not cleared first.  The common columns have the
largest inferred width of each position (`unionOutputCols_spec`).
-/

namespace Rmdb.Sql

open Rmdb.Txn
open Rmdb.Query (TabCol Cols findCol)

/-! ## Inferred columns -/

/-- What the analyser has found out about a `SELECT`. -/
structure SelectQuery where
  cols : List TabCol
  groupByCols : List TabCol
  aggs : List AggregateInfo
deriving DecidableEq, Repr

def SelectQuery.grouped (q : SelectQuery) : Bool := !q.aggs.isEmpty || !q.groupByCols.isEmpty

def inferAggColumn (a : AggregateInfo) : ColMeta :=
  let name := if a.aliasName = "" then (if a.isStar then "count(*)" else a.col.colName) else a.aliasName
  match a.type with
  | .count => ⟨name, .int, 4, 0⟩
  | .avg => ⟨name, .float, 4, 0⟩
  | _ => ⟨name, a.argType, 4, 0⟩

/-- `none` is the `ColumnNotFoundError` of `get_col`. -/
def inferSelectOutputCols (tabs : TabName → TabMeta) (q : SelectQuery) : Option (List ColMeta) :=
  if q.grouped then do
    let gs ← q.groupByCols.mapM (getCol tabs)
    some (placeCols 0 (gs ++ (q.aggs.filter AggregateInfo.inOutput).map inferAggColumn))
  else do
    let cs ← q.cols.mapM (getCol tabs)
    some (placeCols 0 cs)

/-- `none` is the error of two types that do not go together. -/
def promoteUnionCol (base incoming : ColMeta) : Option ColMeta :=
  if base.type = incoming.type then
    some (if base.type = .string then { base with len := max base.len incoming.len } else base)
  else if base.type ≠ .string ∧ incoming.type ≠ .string then some { base with type := .float, len := 4 }
  else none

def promoteCols : List ColMeta → List ColMeta → Option (List ColMeta)
  | [], [] => some []
  | b :: bs, c :: cs => do
      let r ← promoteUnionCol b c
      let rs ← promoteCols bs cs
      some (r :: rs)
  | _, _ => none

/-- The columns of the `UNION`; `none` when the statement is refused. -/
def unionOutputCols (tabs : TabName → TabMeta) : List SelectQuery → Option (List ColMeta)
  | q :: q' :: qs => do
      let first ← inferSelectOutputCols tabs q
      if first.isEmpty then none
      else
        let common ← (q' :: qs).foldlM
          (fun common q => do promoteCols common (← inferSelectOutputCols tabs q)) first
        some (placeCols 0 common)
  | _ => none

/-! ## The columns of the children -/

/-- The output of the aggregation with the tables its columns are under. -/
def aggregateCols (tabs : TabName → TabMeta) (q : SelectQuery) : Option Cols :=
  (outputCols tabs q.groupByCols q.aggs).map fun cs =>
    (q.groupByCols.map TabCol.tabName ++ q.aggs.map fun a => a.col.tabName).zip cs

def aggregateName (a : AggregateInfo) : TabCol := ⟨"", if a.aliasName = "" then a.toString else a.aliasName⟩

/-- The columns of a projection. -/
def projectCols (prev : Cols) (sel : List TabCol) : Option (List ColMeta) :=
  (sel.mapM (findCol prev)).map (placeCols 0)

/-- The columns of a child: a projection of the aggregation, or of the scans, whose columns are
those of the tables. -/
def childCols (tabs : TabName → TabMeta) (q : SelectQuery) : Option (List ColMeta) :=
  if q.grouped then do
    let prev ← aggregateCols tabs q
    projectCols prev (q.groupByCols ++ (q.aggs.filter AggregateInfo.inOutput).map aggregateName)
  else (q.cols.mapM (getCol tabs)).map (placeCols 0)

/-! ## The executor -/

namespace UnionExecutor

/-- `write_value`; `none` is its exception. -/
def writeValue (dst src : ColMeta) (data out : Bytes) : Option Bytes :=
  match dst.type, src.type with
  | .float, .int =>
      some (putWord out dst.offset (Float32.ofInt (getWord data src.offset).toInt).toBits.toBitVec)
  | .int, .int => some (putBytes out dst.offset (getBytes data src.offset 4))
  | .float, .float => some (putBytes out dst.offset (getBytes data src.offset 4))
  | .string, .string =>
      some (putBytes (putBytes out dst.offset (List.replicate dst.len 0)) dst.offset
        (getBytes data src.offset (min dst.len src.len)))
  | _, _ => none

def writeRow : List ColMeta → List ColMeta → Bytes → Bytes → Option Bytes
  | dst :: dsts, src :: srcs, data, out => (writeValue dst src data out).bind (writeRow dsts srcs data)
  | [], [], _, out => some out
  | _, _, _, _ => none

/-- An executor below, with the records it gives and the buffers they are copied to. -/
structure Child where
  cols : List ColMeta
  rows : List (Bytes × Bytes)
deriving DecidableEq, Repr

def childRows (cols : List ColMeta) (ch : Child) : Option (List Bytes) :=
  if ch.cols.length ≠ cols.length then none
  else ch.rows.mapM fun p => writeRow cols ch.cols p.1 p.2

/-- `rows_` after `beginTuple`: each copy whose bytes are not in `seen`. -/
def beginTuple (cols : List ColMeta) (children : List Child) : Option (List Bytes) :=
  (children.mapM (childRows cols)).map fun rows => rows.flatten.foldl Lib.pushNew []

end UnionExecutor

/-! ## Meaning -/

/-- The records of a child have its columns. -/
def RowOk (cols : List ColMeta) (data : Bytes) : Prop := ∀ c ∈ cols, FieldOk c.type c.len (colBytes c data)

/-- What the children of the queries can give, and buffers of the size of a row. -/
def Children (tabs : TabName → TabMeta) (cols : List ColMeta) (qs : List SelectQuery)
    (children : List UnionExecutor.Child) : Prop :=
  List.Forall₂ (fun q ch => childCols tabs q = some ch.cols ∧
    ∀ p ∈ ch.rows, RowOk ch.cols p.1 ∧ p.2.length = widths cols) qs children

/-- All rows of the children, as data. -/
def childData (children : List UnionExecutor.Child) : List (List Datum) :=
  children.flatMap fun ch => ch.rows.map fun p => rowData ch.cols p.1

/-- The statement is accepted, and whatever its children give, it gives each of their rows once,
in order of first appearance. -/
def UnionRight (tabs : TabName → TabMeta) (qs : List SelectQuery) : Prop :=
  ∃ cols, unionOutputCols tabs qs = some cols ∧ ∀ children, Children tabs cols qs children →
    ∃ out, UnionExecutor.beginTuple cols children = some out ∧
      out.map (rowData cols) = (childData children).eraseDups

/-- Each column of a child is of the type inferred for its position, in some query as wide. -/
def Wide (tabs : TabName → TabMeta) (qs : List SelectQuery) : Prop :=
  ∀ q ∈ qs, ∀ rs, childCols tabs q = some rs → ∀ (j : Nat) r, rs[j]? = some r →
    ∃ q' ∈ qs, ∃ cs c, inferSelectOutputCols tabs q' = some cs ∧ cs[j]? = some c ∧ c.type = r.type ∧ r.len ≤ c.len

/-- Two queries or more that name existing columns, of the same types, INT and CHAR, in the same
positions. -/
structure UnionOk (tabs : TabName → TabMeta) (types : List ColType) (qs : List SelectQuery) : Prop where
  two : 2 ≤ qs.length
  columns : types ≠ []
  discrete : ∀ t ∈ types, t ≠ .float
  words : ∀ tab, ∀ c ∈ (tabs tab).cols, Query.Words c
  inferred : ∀ q ∈ qs, ∃ cs, inferSelectOutputCols tabs q = some cs ∧ cs.map ColMeta.type = types
  planned : ∀ q ∈ qs, ∃ rs, childCols tabs q = some rs

/-! ## Widths -/

section Widths

variable {tabs : TabName → TabMeta} {types : List ColType} {q : SelectQuery} {qs : List SelectQuery}

theorem mem_placeCols {off : Nat} {ms : List ColMeta} {c : ColMeta} (h : c ∈ placeCols off ms) :
    ∃ m ∈ ms, c.type = m.type ∧ c.len = m.len := by
  induction ms generalizing off with
  | nil => cases h
  | cons m ms ih =>
      rcases List.mem_cons.1 h with rfl | h
      · exact ⟨m, List.mem_cons_self, rfl, rfl⟩
      · obtain ⟨m', hm', hc⟩ := ih h
        exact ⟨m', List.mem_cons_of_mem _ hm', hc⟩

theorem mem_of_mapM {α β : Type} {f : α → Option β} {xs : List α} {ys : List β} (h : xs.mapM f = some ys)
    {y : β} (hy : y ∈ ys) : ∃ x ∈ xs, f x = some y := by
  have hall := mapM_some h
  clear h
  induction hall with
  | nil => cases hy
  | @cons x y' xs ys hxy _ ih =>
      rcases List.mem_cons.1 hy with rfl | hy
      · exact ⟨x, List.mem_cons_self, hxy⟩
      · obtain ⟨x', hx', hy'⟩ := ih hy
        exact ⟨x', List.mem_cons_of_mem _ hx', hy'⟩

theorem getCol_word (hwords : ∀ tab, ∀ c ∈ (tabs tab).cols, Query.Words c) {cs : List TabCol} {ms : List ColMeta}
    (h : cs.mapM (getCol tabs) = some ms) : ∀ m ∈ ms, Query.Words m := by
  intro m hm
  obtain ⟨c, -, hc⟩ := mem_of_mapM h hm
  exact hwords c.tabName m (List.mem_of_find?_eq_some hc)

theorem words_placeCols {off : Nat} {ms : List ColMeta} (h : ∀ m ∈ ms, Query.Words m) :
    ∀ c ∈ placeCols off ms, Query.Words c := by
  intro c hc htype
  obtain ⟨m, hm, hct, hcl⟩ := mem_placeCols hc
  rw [hcl]
  exact h m hm (by rwa [← hct])

theorem infer_words (hwords : ∀ tab, ∀ c ∈ (tabs tab).cols, Query.Words c) {cs : List ColMeta}
    (h : inferSelectOutputCols tabs q = some cs) : ∀ c ∈ cs, Query.Words c := by
  unfold inferSelectOutputCols at h
  by_cases hg : q.grouped = true
  · rw [if_pos hg] at h
    obtain ⟨gs, hgs, h⟩ := Option.bind_eq_some_iff.1 h
    have h := (Option.some.inj h).symm
    subst h
    apply words_placeCols
    intro m hm
    rcases List.mem_append.1 hm with hm | hm
    · exact getCol_word hwords hgs m hm
    · obtain ⟨a, -, rfl⟩ := List.mem_map.1 hm
      intro _
      unfold inferAggColumn
      cases a.type <;> rfl
  · rw [if_neg hg] at h
    obtain ⟨ms, hms, h⟩ := Option.bind_eq_some_iff.1 h
    have h := (Option.some.inj h).symm
    subst h
    exact words_placeCols (getCol_word hwords hms)

theorem aggColumn_word {a : AggregateInfo} {m : ColMeta} (h : aggColumn tabs a = some m) : Query.Words m := by
  intro hm
  rcases aggColumn_cases h with ⟨-, -, hlen⟩ | ⟨-, -, -, c, -, htype, -⟩
  · exact hlen
  · exact absurd htype hm

theorem child_words (hwords : ∀ tab, ∀ c ∈ (tabs tab).cols, Query.Words c) {rs : List ColMeta}
    (h : childCols tabs q = some rs) : ∀ r ∈ rs, Query.Words r := by
  unfold childCols at h
  by_cases hg : q.grouped = true
  · rw [if_pos hg] at h
    obtain ⟨prev, hprev, h⟩ := Option.bind_eq_some_iff.1 h
    obtain ⟨ms, hms, h⟩ := Option.map_eq_some_iff.1 h
    subst h
    apply words_placeCols
    intro m hm
    obtain ⟨c, -, hc⟩ := mem_of_mapM hms hm
    obtain ⟨tab, hmem⟩ := mem_of_findCol hc
    obtain ⟨out, hout, h⟩ := Option.map_eq_some_iff.1 hprev
    subst h
    have hmem := (List.of_mem_zip hmem).2
    unfold outputCols at hout
    obtain ⟨gs, hgs, hout⟩ := Option.bind_eq_some_iff.1 hout
    obtain ⟨as, has, hout⟩ := Option.bind_eq_some_iff.1 hout
    rw [← Option.some.inj hout] at hmem
    refine words_placeCols ?_ m hmem
    intro m' hm'
    rcases List.mem_append.1 hm' with hm' | hm'
    · exact getCol_word hwords hgs m' hm'
    · obtain ⟨a, -, ha⟩ := mem_of_mapM has hm'
      exact aggColumn_word ha
  · rw [if_neg hg] at h
    obtain ⟨ms, hms, h⟩ := Option.map_eq_some_iff.1 h
    subst h
    exact words_placeCols (getCol_word hwords hms)

/-- A child has as many columns as were inferred for it. -/
theorem childCols_length {cs rs : List ColMeta} (hc : inferSelectOutputCols tabs q = some cs)
    (hr : childCols tabs q = some rs) : rs.length = cs.length := by
  unfold inferSelectOutputCols at hc
  unfold childCols at hr
  by_cases hg : q.grouped = true
  · rw [if_pos hg] at hc hr
    obtain ⟨gs, hgs, hc⟩ := Option.bind_eq_some_iff.1 hc
    obtain ⟨prev, -, hr⟩ := Option.bind_eq_some_iff.1 hr
    obtain ⟨ms, hms, hr⟩ := Option.map_eq_some_iff.1 hr
    rw [← hr, ← Option.some.inj hc, placeCols_length, placeCols_length, ← (mapM_some hms).length_eq,
      List.length_append, List.length_append, ← (mapM_some hgs).length_eq, List.length_map, List.length_map]
  · rw [if_neg hg] at hc hr
    obtain ⟨ms, hms, hc⟩ := Option.bind_eq_some_iff.1 hc
    obtain ⟨ns, hns, hr⟩ := Option.map_eq_some_iff.1 hr
    rw [← hr, ← Option.some.inj hc, placeCols_length, placeCols_length, ← (mapM_some hms).length_eq,
      ← (mapM_some hns).length_eq]

/-! ## The common columns -/

/-- The columns `ms` have the types of the positions and, for text, the largest width. -/
structure Widest (types : List ColType) (css : List (List ColMeta)) (ms : List ColMeta) : Prop where
  types : ms.map ColMeta.type = types
  bound : ∀ cs ∈ css, ∀ (j : Nat) m c, ms[j]? = some m → cs[j]? = some c → m.type = .string → c.len ≤ m.len
  reached : ∀ (j : Nat) m, ms[j]? = some m → ∃ cs ∈ css, ∃ c, cs[j]? = some c ∧ c.type = m.type ∧ m.len = c.len

def promoteSame (b c : ColMeta) : ColMeta :=
  if b.type = .string then { b with len := max b.len c.len } else b

theorem promoteSame_type (b c : ColMeta) : (promoteSame b c).type = b.type := by
  unfold promoteSame
  split <;> rfl

theorem promoteCols_same {bs cs : List ColMeta} (h : bs.map ColMeta.type = cs.map ColMeta.type) :
    promoteCols bs cs = some (List.zipWith promoteSame bs cs) := by
  induction bs generalizing cs with
  | nil =>
      cases cs with
      | nil => rfl
      | cons c cs => cases h
  | cons b bs ih =>
      cases cs with
      | nil => cases h
      | cons c cs =>
          rw [List.map_cons, List.map_cons, List.cons.injEq] at h
          unfold promoteCols promoteUnionCol
          rw [if_pos h.1, ih h.2]
          rfl

theorem Widest.step {css : List (List ColMeta)} {ms cs : List ColMeta} (h : Widest types css ms)
    (hcs : cs.map ColMeta.type = types) : Widest types (css ++ [cs]) (List.zipWith promoteSame ms cs) := by
  have hlen : ms.length = cs.length := by
    have hl := congrArg List.length (h.types.trans hcs.symm)
    rwa [List.length_map, List.length_map] at hl
  constructor
  · rw [← h.types, List.map_zipWith]
    simp only [promoteSame_type]
    apply List.ext_getElem?
    intro j
    rw [List.getElem?_zipWith, List.getElem?_map]
    cases hm : ms[j]? with
    | none => rfl
    | some m =>
        have hlt : j < cs.length := by
          rw [← hlen]
          exact (List.getElem?_eq_some_iff.1 hm).1
        rw [List.getElem?_eq_getElem hlt]
        rfl
  · intro cs' hcs' j m c hm hc htype
    obtain ⟨b, c', hb, hc', rfl⟩ := List.getElem?_zipWith_eq_some.1 hm
    rw [promoteSame_type] at htype
    unfold promoteSame
    rw [if_pos htype]
    show c.len ≤ max b.len c'.len
    rcases List.mem_append.1 hcs' with hcs' | hcs'
    · exact le_max_of_le_left (h.bound cs' hcs' j b c hb hc htype)
    · rw [List.mem_singleton] at hcs'
      subst hcs'
      rw [hc] at hc'
      cases hc'
      exact le_max_right _ _
  · intro j m hm
    obtain ⟨b, c', hb, hc', rfl⟩ := List.getElem?_zipWith_eq_some.1 hm
    have hct : c'.type = b.type := by
      have h1 : (cs.map ColMeta.type)[j]? = some c'.type := by rw [List.getElem?_map, hc']; rfl
      have h2 : (ms.map ColMeta.type)[j]? = some b.type := by rw [List.getElem?_map, hb]; rfl
      rw [hcs, ← h.types, h2] at h1
      exact (Option.some.inj h1).symm
    obtain ⟨cs', hcs', c, hc, hcb, hlen'⟩ := h.reached j b hb
    have hold : ∃ cs'' ∈ css ++ [cs], ∃ c'', cs''[j]? = some c'' ∧ c''.type = b.type ∧ b.len = c''.len :=
      ⟨cs', List.mem_append_left _ hcs', c, hc, hcb, hlen'⟩
    rw [promoteSame_type]
    unfold promoteSame
    by_cases htype : b.type = .string
    · rw [if_pos htype]
      show ∃ cs'' ∈ css ++ [cs], ∃ c'', cs''[j]? = some c'' ∧ c''.type = b.type ∧ max b.len c'.len = c''.len
      rcases le_total b.len c'.len with hle | hle
      · exact ⟨cs, by simp, c', hc', hct, max_eq_right hle⟩
      · rw [max_eq_left hle]
        exact hold
    · rw [if_neg htype]
      exact hold

theorem widest_foldlM : ∀ {qs : List SelectQuery} {css : List (List ColMeta)} {ms : List ColMeta},
    Widest types css ms →
    (∀ q ∈ qs, ∃ cs, inferSelectOutputCols tabs q = some cs ∧ cs.map ColMeta.type = types) →
    ∃ css' ms', qs.foldlM (fun common q => do promoteCols common (← inferSelectOutputCols tabs q)) ms = some ms' ∧
      List.Forall₂ (fun q cs => inferSelectOutputCols tabs q = some cs) qs css' ∧ Widest types (css ++ css') ms' := by
  intro qs
  induction qs with
  | nil =>
      intro css ms h _
      exact ⟨[], ms, rfl, .nil, by rwa [List.append_nil]⟩
  | cons q qs ih =>
      intro css ms h hinf
      obtain ⟨cs, hcs, htypes⟩ := hinf q List.mem_cons_self
      obtain ⟨css', ms', hfold, hall, hw⟩ := ih (h.step htypes) fun q' hq' => hinf q' (List.mem_cons_of_mem _ hq')
      refine ⟨cs :: css', ms', ?_, .cons hcs hall, ?_⟩
      · rw [List.foldlM_cons, hcs]
        show (promoteCols ms cs).bind _ = _
        rw [promoteCols_same (h.types.trans htypes.symm)]
        exact hfold
      · rwa [List.append_assoc] at hw

theorem unionOutputCols_spec (hok : UnionOk tabs types qs) : ∃ css ms, unionOutputCols tabs qs = some (placeCols 0 ms) ∧
    List.Forall₂ (fun q cs => inferSelectOutputCols tabs q = some cs) qs css ∧ Widest types css ms := by
  cases qs with
  | nil => exact absurd hok.two (by decide)
  | cons q qs =>
      cases qs with
      | nil =>
          have htwo : 2 ≤ 1 := hok.two
          exact absurd htwo (by decide)
      | cons q' qs =>
          obtain ⟨cs, hcs, htypes⟩ := hok.inferred q List.mem_cons_self
          have hfirst : Widest types [cs] cs := by
            refine ⟨htypes, ?_, fun j m hm => ⟨cs, by simp, m, hm, rfl, rfl⟩⟩
            intro cs' hcs' j m c hm hc _
            rw [List.mem_singleton.1 hcs', hm] at hc
            cases hc
            exact le_rfl
          obtain ⟨css, ms, hfold, hall, hw⟩ := widest_foldlM hfirst
            fun p hp => hok.inferred p (List.mem_cons_of_mem _ hp)
          refine ⟨cs :: css, ms, ?_, .cons hcs hall, hw⟩
          have hne : cs.isEmpty = false := by
            cases cs with
            | nil => exact absurd htypes.symm hok.columns
            | cons c cs => rfl
          simp only [unionOutputCols, hcs, Option.bind_eq_bind, Option.bind_some, hne, Bool.false_eq_true,
            if_false]
          exact congrArg (Option.bind · fun common => some (placeCols 0 common)) hfold

end Widths

end Rmdb.Sql
