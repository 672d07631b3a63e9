import Rmdb.Lib.StableSort
import Rmdb.Query.JoinIter
import Rmdb.Sql.Classes

/-!
# The executors over a query's rows

`SortExecutor`, `ProjectionExecutor` and `LimitExecutor` (src/execution) over any executor that yields
rows, and the tree of them that `convert_plan_executor` (src/portal.h) makes of a plan.  A projection hands
each row out once (`projection_handsOut`), which is enough for all that stand above it.  `answer` is what
the plan means, and the tree of executors hands it out (`answer_cases`).  `ORDER BY` keeps rows of equal keys
in their order, and nothing else has the rows in that order (`orderBy_iff`).
-/

namespace Rmdb.Sql

open Rmdb.Txn
open Rmdb.Query (TabCol Cols Executor ExecError)
open Rmdb.Lib (Iter stableSort StableSorted)

/-! ## Sort -/

def compareSingle (a b : Bytes) (col : ColMeta) : Int := cmpBytes a b col.len col.type

/-- `sort_cols_`: the columns with `is_desc`. -/
abbrev SortCols := List (ColMeta × Bool)

def compareRecords : SortCols → Bytes → Bytes → Int
  | [], _, _ => 0
  | (col, isDesc) :: keys, a, b =>
      let cmp := compareSingle (a.drop col.offset) (b.drop col.offset) col
      if cmp ≠ 0 then (if isDesc then -cmp else cmp) else compareRecords keys a b

/-- What `std::stable_sort` makes of the buffer. -/
def orderBy (keys : SortCols) (rows : List Bytes) : List Bytes :=
  stableSort (fun a b => decide (compareRecords keys a b < 0)) rows

structure SortExecutor (σ : Type) where
  prev : σ
  buffer : List Bytes := []
  idx : Nat := 0

/-- Sorts the rows of `e`, of which it takes at most `fuel` less one. -/
def SortExecutor.executor {σ : Type} (e : Executor σ) (keys : SortCols) (fuel : Nat) : Executor (SortExecutor σ) where
  start st := (e.collect fuel st.prev).map fun p => ⟨p.2, orderBy keys p.1, 0⟩
  advance st := some { st with idx := st.idx + 1 }
  done st := decide (st.buffer.length ≤ st.idx)
  get st := (st.buffer[st.idx]?).map fun row => (row, st)
  cols := e.cols
  tupleLen := e.tupleLen

/-! ## Limit -/

structure LimitExecutor (σ : Type) where
  prev : σ
  count : Nat := 0

def LimitExecutor.executor {σ : Type} (e : Executor σ) (limit : Nat) : Executor (LimitExecutor σ) where
  start st := (e.start st.prev).map fun prev => ⟨prev, 0⟩
  advance st :=
    if limit ≤ st.count then some st
    else (e.advance st.prev).map fun prev => ⟨prev, st.count + 1⟩
  done st := decide (limit ≤ st.count) || e.done st.prev
  get st := (e.get st.prev).map fun p => (p.1, { st with prev := p.2 })
  cols := e.cols
  tupleLen := e.tupleLen

/-! ## Projection -/

structure ProjStep where
  srcOffset : Nat
  dstOffset : Nat
  len : Nat
deriving DecidableEq, Repr

/-- `cols_` of the projection to these columns. -/
def projCols (sel : Cols) : Cols := (sel.map Prod.fst).zip (placeCols 0 (sel.map Prod.snd))

def projSteps (sel : List ColMeta) : List ProjStep :=
  List.zipWith (fun src dst => ⟨src.offset, dst.offset, src.len⟩) sel (placeCols 0 sel)

def runSteps (src : Bytes) (steps : List ProjStep) (dst : Bytes) : Bytes :=
  steps.foldl (fun dst s => putBytes dst s.dstOffset (getBytes src s.srcOffset s.len)) dst

structure ProjectionExecutor (σ : Type) where
  prev : σ
  curRec : Option Bytes := none

namespace ProjectionExecutor

variable {σ : Type} (e : Executor σ) (sel : List ColMeta) (newRecord : Nat → Bytes)

/-- `newRecord n` is what a new record of `n` bytes holds. -/
def buildCur (st : ProjectionExecutor σ) : Option (ProjectionExecutor σ) :=
  if e.done st.prev then some { st with curRec := none }
  else
    match e.get st.prev with
    | none => some { st with curRec := none }
    | some p => some ⟨p.2, some (runSteps p.1 (projSteps sel) (newRecord (widths sel)))⟩

/-- `Next` moves the record out. -/
def next (st : ProjectionExecutor σ) : Option (Bytes × ProjectionExecutor σ) :=
  st.curRec.map fun row => (row, { st with curRec := none })

end ProjectionExecutor

def ProjectionExecutor.executor {σ : Type} (e : Executor σ) (sel : Cols) (newRecord : Nat → Bytes) :
    Executor (ProjectionExecutor σ) where
  start st := (e.start st.prev).bind fun prev => buildCur e (sel.map Prod.snd) newRecord { st with prev }
  advance st := (e.advance st.prev).bind fun prev => buildCur e (sel.map Prod.snd) newRecord { st with prev }
  done st := e.done st.prev
  get := next
  cols := projCols sel
  tupleLen := widths (sel.map Prod.snd)

/-! ## Plans -/

/-- A plan over one source of rows. -/
inductive SelectPlan where
  | source
  | sort (subplan : SelectPlan) (sortCols : List (TabCol × Bool))
  | projection (subplan : SelectPlan) (selCols : List TabCol)
  | limit (subplan : SelectPlan) (limit : Nat)
deriving Repr

/-- `get_col`, with the table the column is from. -/
def findEntry (cols : Cols) (c : TabCol) : Except ExecError (TabName × ColMeta) :=
  match cols.find? fun e => decide (e.2.name = c.colName) &&
    (decide (c.tabName = "") || decide (e.1 = c.tabName)) with
  | some e => .ok e
  | none => .error .columnNotFound

def findSortCols (cols : Cols) (keys : List (TabCol × Bool)) : Except ExecError SortCols :=
  keys.mapM fun k => (findEntry cols k.1).map fun e => (e.2, k.2)

namespace SelectPlan

variable {σ : Type}

def State (σ : Type) : SelectPlan → Type
  | source => σ
  | sort p _ => SortExecutor (p.State σ)
  | projection p _ => ProjectionExecutor (p.State σ)
  | limit p _ => LimitExecutor (p.State σ)

/-- The executors before `beginTuple`. -/
def new (s : σ) : (p : SelectPlan) → p.State σ
  | source => s
  | sort p _ => ({ prev := new s p } : SortExecutor _)
  | projection p _ => ({ prev := new s p } : ProjectionExecutor _)
  | limit p _ => ({ prev := new s p } : LimitExecutor _)

def convertPlanExecutor (e : Executor σ) (newRecord : Nat → Bytes) (fuel : Nat) :
    (p : SelectPlan) → Except ExecError (Executor (p.State σ))
  | source => .ok e
  | sort p keys => do
      let prev ← convertPlanExecutor e newRecord fuel p
      let sortCols ← findSortCols prev.cols keys
      pure (SortExecutor.executor prev sortCols fuel)
  | projection p selCols => do
      let prev ← convertPlanExecutor e newRecord fuel p
      let sel ← selCols.mapM (findEntry prev.cols)
      pure (ProjectionExecutor.executor prev sel newRecord)
  | limit p n => do
      let prev ← convertPlanExecutor e newRecord fuel p
      pure (LimitExecutor.executor prev n)

end SelectPlan

/-! ## What a plan means -/

/-- Rows with their columns. -/
structure Table where
  cols : Cols
  rows : List Bytes

def projectRow (sel : List ColMeta) (row : Bytes) : Bytes := (sel.map fun c => colBytes c row).flatten

def answer (t : Table) : SelectPlan → Except ExecError Table
  | .source => .ok t
  | .sort p keys => do
      let t ← answer t p
      let sortCols ← findSortCols t.cols keys
      pure { t with rows := orderBy sortCols t.rows }
  | .projection p selCols => do
      let t ← answer t p
      let sel ← selCols.mapM (findEntry t.cols)
      pure ⟨projCols sel, t.rows.map (projectRow (sel.map Prod.snd))⟩
  | .limit p n => do
      let t ← answer t p
      pure { t with rows := t.rows.take n }

/-! ## The executors one by one -/

section Executors

variable {σ : Type} {e : Executor σ} {rows : List Bytes} {s : σ}

theorem orderBy_perm (keys : SortCols) (rows : List Bytes) : (orderBy keys rows).Perm rows := Lib.stableSort_perm _ rows

theorem sort_handsOut (h : e.HandsOut rows s) (keys : SortCols) {fuel : Nat} (hfuel : rows.length < fuel) :
    (SortExecutor.executor e keys fuel).HandsOut (orderBy keys rows) ({ prev := s } : SortExecutor σ) := by
  refine ⟨Iter.Yields.once ⟨fun st => e.toIter.YieldsOnce rows st.prev,
    fun i st => e.toIter.YieldsOnce rows st.prev ∧ st.buffer = orderBy keys rows ∧ st.idx = i,
    ⟨?_, ?_, ?_, ?_, ?_⟩, h.follows⟩, ?_⟩
  · intro i st hst
    exact hst.1
  · intro st hst
    obtain ⟨prev, hcol, hprev⟩ := hst.collect hfuel
    refine ⟨⟨prev, orderBy keys rows, 0⟩, ?_, hprev, rfl, rfl⟩
    show (e.collect fuel st.prev).map _ = _
    rw [hcol]
    rfl
  · rintro i st - ⟨-, hbuf, hidx⟩
    show decide (st.buffer.length ≤ st.idx) = _
    rw [hbuf, hidx]
  · rintro i st row hrow ⟨hprev, hbuf, hidx⟩
    refine ⟨st, ?_, hprev, hbuf, hidx⟩
    show (st.buffer[st.idx]?).map _ = _
    rw [hbuf, hidx, hrow]
    rfl
  · rintro i st - ⟨hprev, hbuf, hidx⟩
    exact ⟨_, rfl, hprev, hbuf, congrArg (· + 1) hidx⟩
  · intro row hrow
    exact h.len row ((orderBy_perm keys rows).mem_iff.1 hrow)

theorem limit_handsOut (h : e.HandsOut rows s) (n : Nat) :
    (LimitExecutor.executor e n).HandsOut (rows.take n) ({ prev := s } : LimitExecutor σ) := by
  obtain ⟨⟨Live, At, Fresh, hf, hs⟩, hlen⟩ := h
  refine ⟨⟨fun st => Live st.prev, fun i st => At i st.prev ∧ st.count = i,
    fun i st => Fresh i st.prev ∧ st.count = i, ⟨?_, ?_, ?_, ?_, ?_, ?_⟩, hs⟩, ?_⟩
  · rintro i st ⟨hst, hcount⟩
    exact ⟨hf.position i _ hst, hcount⟩
  · rintro i st ⟨hst, -⟩
    exact hf.live i _ hst
  · intro st hst
    obtain ⟨prev, hstart, hprev⟩ := hf.start _ hst
    refine ⟨⟨prev, 0⟩, ?_, hprev, rfl⟩
    show (e.start st.prev).map _ = _
    rw [hstart]
    rfl
  · rintro i st hi ⟨hst, hcount⟩
    rw [List.length_take] at hi
    show (decide (n ≤ st.count) || e.done st.prev) = _
    rw [hf.done i _ (by omega) hst, hcount, List.length_take, Bool.eq_iff_iff, Bool.or_eq_true]
    simp only [decide_eq_true_iff]
    omega
  · rintro i st row hrow ⟨hst, hcount⟩
    rw [List.getElem?_take] at hrow
    split at hrow
    · obtain ⟨prev, hget, hprev⟩ := hf.get i _ row hrow hst
      refine ⟨{ st with prev }, ?_, hprev, hcount⟩
      show (e.get st.prev).map _ = _
      rw [hget]
      rfl
    · cases hrow
  · rintro i st hi ⟨hst, hcount⟩
    rw [List.length_take] at hi
    obtain ⟨prev, hadv, hprev⟩ := hf.advance i _ (by omega) hst
    refine ⟨⟨prev, st.count + 1⟩, ?_, hprev, congrArg (· + 1) hcount⟩
    show (if n ≤ st.count then some st else _) = _
    rw [if_neg (by omega), hadv]
    rfl
  · intro row hrow
    exact hlen row (List.mem_of_mem_take hrow)

/-! ### Projection -/

theorem placeCols_fits {ms : List ColMeta} {off : Nat} {c : ColMeta} (hc : c ∈ placeCols off ms) :
    c.offset + c.len ≤ off + widths ms := by
  induction ms generalizing off with
  | nil => cases hc
  | cons m ms ih =>
      have hw : widths (m :: ms) = m.len + widths ms := rfl
      rcases List.mem_cons.1 hc with rfl | hc
      · show off + m.len ≤ _
        omega
      · have := ih hc
        omega

/-- The steps fill the record from its front, whatever was in it. -/
theorem runSteps_fill {src : Bytes} : ∀ {sel : List ColMeta} (pre rest : Bytes),
    (∀ c ∈ sel, c.offset + c.len ≤ src.length) → rest.length = widths sel →
      runSteps src (List.zipWith (fun src dst => (⟨src.offset, dst.offset, src.len⟩ : ProjStep)) sel
        (placeCols pre.length sel)) (pre ++ rest) = pre ++ projectRow sel src := by
  intro sel
  induction sel with
  | nil =>
      intro pre rest _ hrest
      obtain rfl : rest = [] := List.length_eq_zero_iff.1 hrest
      rfl
  | cons c sel ih =>
      intro pre rest hfit hrest
      have hw : widths (c :: sel) = c.len + widths sel := rfl
      have hc := hfit c List.mem_cons_self
      have hfield : (colBytes c src).length = c.len := by
        unfold colBytes getBytes
        rw [List.length_take, List.length_drop]
        omega
      have hz : (rest.take c.len).length = (colBytes c src).length := by
        rw [List.length_take, hfield]
        omega
      have hput : putBytes (pre ++ rest) pre.length (colBytes c src) =
          (pre ++ colBytes c src) ++ rest.drop c.len := by
        conv_lhs => rw [← List.take_append_drop c.len rest]
        rw [putBytes_mid hz, List.append_assoc]
      have hplen : (pre ++ colBytes c src).length = pre.length + c.len := by
        rw [List.length_append, hfield]
      have htail := ih (pre ++ colBytes c src) (rest.drop c.len)
        (fun c' hc' => hfit c' (List.mem_cons_of_mem _ hc')) (by rw [List.length_drop]; omega)
      rw [hplen] at htail
      rw [placeCols, List.zipWith_cons_cons]
      unfold runSteps at htail ⊢
      rw [List.foldl_cons]
      show List.foldl _ (putBytes (pre ++ rest) pre.length (colBytes c src)) _ = _
      rw [hput, htail, List.append_assoc]
      rfl

theorem projectRow_length {sel : List ColMeta} {row : Bytes} (h : ∀ c ∈ sel, c.offset + c.len ≤ row.length) :
    (projectRow sel row).length = widths sel := by
  unfold projectRow widths
  rw [List.length_flatten, List.map_map]
  refine congrArg List.sum (List.map_congr_left fun c hc => ?_)
  have := h c hc
  show (getBytes row c.offset c.len).length = c.len
  unfold getBytes
  rw [List.length_take, List.length_drop]
  omega

theorem projection_handsOut (h : e.HandsOut rows s) {sel : Cols} (hsel : ∀ c ∈ sel, c.2.offset + c.2.len ≤ e.tupleLen)
    {newRecord : Nat → Bytes} (hnew : ∀ n, (newRecord n).length = n) :
    (ProjectionExecutor.executor e sel newRecord).HandsOut (rows.map (projectRow (sel.map Prod.snd)))
      ({ prev := s } : ProjectionExecutor σ) := by
  obtain ⟨⟨Live, At, Fresh, hf, hs⟩, hlen⟩ := h
  have hfit : ∀ row ∈ rows, ∀ c ∈ sel.map Prod.snd, c.offset + c.len ≤ row.length := by
    intro row hrow c hc
    obtain ⟨c', hc', rfl⟩ := List.mem_map.1 hc
    rw [hlen row hrow]
    exact hsel c' hc'
  have hbuild : ∀ i prev cur, i ≤ rows.length → Fresh i prev → ∃ st',
      ProjectionExecutor.buildCur e (sel.map Prod.snd) newRecord ⟨prev, cur⟩ = some st' ∧ At i st'.prev ∧
        st'.curRec = (rows[i]?).map (projectRow (sel.map Prod.snd)) := by
    intro i prev cur hi hprev
    have hat := hf.position i _ hprev
    unfold ProjectionExecutor.buildCur
    rw [hf.done i _ hi hat]
    by_cases hend : rows.length ≤ i
    · rw [decide_eq_true hend, if_pos rfl, List.getElem?_eq_none hend]
      exact ⟨_, rfl, hat, rfl⟩
    · have hlt : i < rows.length := not_le.1 hend
      obtain ⟨prev', hget, hprev'⟩ := hf.get i _ _ (List.getElem?_eq_getElem hlt) hprev
      have hrow := hfit _ (List.getElem_mem hlt)
      rw [decide_eq_false hend, if_neg Bool.false_ne_true, hget, List.getElem?_eq_getElem hlt]
      refine ⟨_, rfl, hprev', ?_⟩
      exact congrArg some (runSteps_fill [] (newRecord _) hrow (hnew _))
  refine ⟨⟨fun st => Live st.prev, fun i st => At i st.prev,
    fun i st => At i st.prev ∧ st.curRec = (rows[i]?).map (projectRow (sel.map Prod.snd)),
      ⟨?_, ?_, ?_, ?_, ?_, ?_⟩, hs⟩, ?_⟩
  · rintro i st ⟨hst, -⟩
    exact hst
  · intro i st hst
    exact hf.live i _ hst
  · intro st hst
    obtain ⟨prev, hstart, hprev⟩ := hf.start _ hst
    obtain ⟨st', hst', hfresh⟩ := hbuild 0 prev st.curRec (Nat.zero_le _) hprev
    refine ⟨st', ?_, hfresh⟩
    show (e.start st.prev).bind _ = _
    rw [hstart]
    exact hst'
  · intro i st hi hst
    rw [List.length_map] at hi ⊢
    exact hf.done i _ hi hst
  · rintro i st row hrow ⟨hst, hcur⟩
    rw [List.getElem?_map] at hrow
    refine ⟨{ st with curRec := none }, ?_, hst⟩
    show st.curRec.map _ = _
    rw [hcur, hrow]
    rfl
  · intro i st hi hst
    rw [List.length_map] at hi
    obtain ⟨prev, hadv, hprev⟩ := hf.advance i _ hi hst
    obtain ⟨st', hst', hfresh⟩ := hbuild (i + 1) prev st.curRec hi hprev
    refine ⟨st', ?_, hfresh⟩
    show (e.advance st.prev).bind _ = _
    rw [hadv]
    exact hst'
  · intro row hrow
    obtain ⟨src, hsrc, rfl⟩ := List.mem_map.1 hrow
    exact projectRow_length (hfit src hsrc)

end Executors

/-! ## The tree of executors -/

theorem mem_of_findEntry {cols : Cols} {c : TabCol} {x : TabName × ColMeta} (h : findEntry cols c = .ok x) : x ∈ cols := by
  unfold findEntry at h
  split at h
  · next y hy =>
      cases h
      exact List.mem_of_find?_eq_some hy
  · cases h

theorem mem_of_findEntries {cols : Cols} {sel : List TabCol} {found : Cols}
    (h : sel.mapM (findEntry cols) = .ok found) : ∀ x ∈ found, x ∈ cols := by
  induction sel generalizing found with
  | nil =>
      rw [List.mapM_nil] at h
      cases h
      intro x hx
      cases hx
  | cons c sel ih =>
      rw [List.mapM_cons] at h
      cases hc : findEntry cols c with
      | error err =>
          rw [hc] at h
          cases h
      | ok y =>
          cases hrest : sel.mapM (findEntry cols) with
          | error err =>
              rw [hc, hrest] at h
              cases h
          | ok ys =>
              rw [hc, hrest] at h
              cases h
              intro x hx
              rcases List.mem_cons.1 hx with rfl | hx
              · exact mem_of_findEntry hc
              · exact ih hrest x hx

theorem projCols_fits {sel : Cols} : ∀ c ∈ projCols sel, c.2.offset + c.2.len ≤ widths (sel.map Prod.snd) := by
  intro c hc
  have hmem : c.2 ∈ placeCols 0 (sel.map Prod.snd) := (List.of_mem_zip (a := c.1) (b := c.2) hc).2
  have hfits := placeCols_fits hmem
  omega

variable {σ : Type} {e : Executor σ} {rows : List Bytes} {s : σ} {newRecord : Nat → Bytes} {fuel : Nat}

/-- The executor has the columns of a table and hands out its rows. -/
structure Runs (ex : Executor σ) (s : σ) (t : Table) : Prop where
  cols : ex.cols = t.cols
  rows : ex.HandsOut t.rows s
  fits : ex.Fits

theorem answer_cases (t : Table) (hrun : Runs e s t) (hnew : ∀ n, (newRecord n).length = n) (hfuel : t.rows.length < fuel)
    (p : SelectPlan) :
    (∃ err, answer t p = .error err ∧ p.convertPlanExecutor e newRecord fuel = .error err) ∨
      ∃ t' ex, answer t p = .ok t' ∧ p.convertPlanExecutor e newRecord fuel = .ok ex ∧ Runs ex (p.new s) t' ∧
        t'.rows.length ≤ t.rows.length := by
  induction p with
  | source => exact .inr ⟨t, e, rfl, rfl, hrun, le_rfl⟩
  | sort p keys ih =>
      unfold answer SelectPlan.convertPlanExecutor
      rcases ih with ⟨err, ha, hc⟩ | ⟨t', ex, ha, hc, hex, hle⟩
      · exact .inl ⟨err, by rw [ha]; rfl, by rw [hc]; rfl⟩
      · rw [ha, hc]
        cases hkeys : findSortCols t'.cols keys with
        | error err =>
            refine .inl ⟨err, ?_, ?_⟩
            · show (findSortCols t'.cols keys).bind _ = _
              rw [hkeys]
              rfl
            · show (findSortCols ex.cols keys).bind _ = _
              rw [hex.cols, hkeys]
              rfl
        | ok sortCols =>
            refine .inr ⟨{ t' with rows := orderBy sortCols t'.rows }, SortExecutor.executor ex sortCols fuel, ?_, ?_,
              ⟨hex.cols, sort_handsOut hex.rows sortCols (by omega), hex.fits⟩, ?_⟩
            · show (findSortCols t'.cols keys).bind _ = _
              rw [hkeys]
              rfl
            · show (findSortCols ex.cols keys).bind _ = _
              rw [hex.cols, hkeys]
              rfl
            · exact (orderBy_perm sortCols t'.rows).length_eq.trans_le hle
  | projection p selCols ih =>
      unfold answer SelectPlan.convertPlanExecutor
      rcases ih with ⟨err, ha, hc⟩ | ⟨t', ex, ha, hc, hex, hle⟩
      · exact .inl ⟨err, by rw [ha]; rfl, by rw [hc]; rfl⟩
      · rw [ha, hc]
        cases hsel : selCols.mapM (findEntry t'.cols) with
        | error err =>
            refine .inl ⟨err, ?_, ?_⟩
            · show (selCols.mapM (findEntry t'.cols)).bind _ = _
              rw [hsel]
              rfl
            · show (selCols.mapM (findEntry ex.cols)).bind _ = _
              rw [hex.cols, hsel]
              rfl
        | ok sel =>
            refine .inr ⟨⟨projCols sel, t'.rows.map (projectRow (sel.map Prod.snd))⟩,
              ProjectionExecutor.executor ex sel newRecord, ?_, ?_,
                ⟨rfl, projection_handsOut hex.rows (fun c hc => ?_) hnew, projCols_fits⟩, ?_⟩
            · show (selCols.mapM (findEntry t'.cols)).bind _ = _
              rw [hsel]
              rfl
            · show (selCols.mapM (findEntry ex.cols)).bind _ = _
              rw [hex.cols, hsel]
              rfl
            · refine hex.fits c ?_
              rw [hex.cols]
              exact mem_of_findEntries hsel c hc
            · rw [List.length_map]
              exact hle
  | limit p n ih =>
      unfold answer SelectPlan.convertPlanExecutor
      rcases ih with ⟨err, ha, hc⟩ | ⟨t', ex, ha, hc, hex, hle⟩
      · exact .inl ⟨err, by rw [ha]; rfl, by rw [hc]; rfl⟩
      · rw [ha, hc]
        refine .inr ⟨{ t' with rows := t'.rows.take n }, LimitExecutor.executor ex n, rfl, rfl,
          ⟨hex.cols, limit_handsOut hex.rows n, hex.fits⟩, ?_⟩
        rw [List.length_take]
        omega

/-! ## ORDER BY -/

/-- The values of the sort columns, those of a descending one negated. -/
def sortCode : SortCols → Bytes → List Int
  | [], _ => []
  | (col, isDesc) :: keys, row =>
      let code := Query.colCode col (row.drop col.offset)
      (if isDesc then code.map Neg.neg else code) ++ sortCode keys row

/-- The sort columns can be read from the row, and no float among them is a NaN. -/
def Comparable (keys : SortCols) (row : Bytes) : Prop :=
  ∀ k ∈ keys, k.1.offset + k.1.len ≤ row.length ∧ Query.NaNFree k.1 (row.drop k.1.offset)

theorem neg_lt_neg_list : ∀ {u v : List Int}, u.length = v.length →
    (u.map Neg.neg < v.map Neg.neg ↔ v < u) := by
  intro u
  induction u with
  | nil =>
      intro v h
      obtain rfl : v = [] := List.length_eq_zero_iff.1 h.symm
      simp
  | cons x u ih =>
      intro v h
      cases v with
      | nil => cases h
      | cons y v =>
          have htail := ih (Nat.succ.inj h)
          rw [List.map_cons, List.map_cons, List.cons_lt_cons_iff, List.cons_lt_cons_iff, htail]
          constructor
          · rintro (hlt | ⟨heq, hlt⟩)
            · exact .inl (by omega)
            · exact .inr ⟨by omega, hlt⟩
          · rintro (hlt | ⟨heq, hlt⟩)
            · exact .inl (by omega)
            · exact .inr ⟨by omega, hlt⟩

theorem compareRecords_code : ∀ {keys : SortCols} {a b : Bytes}, Comparable keys a → Comparable keys b →
    (compareRecords keys a b < 0 ↔ sortCode keys a < sortCode keys b) ∧
      (compareRecords keys a b = 0 ↔ sortCode keys a = sortCode keys b) := by
  intro keys
  induction keys with
  | nil =>
      intro a b _ _
      simp [compareRecords, sortCode]
  | cons k keys ih =>
      intro a b ha hb
      obtain ⟨col, isDesc⟩ := k
      obtain ⟨hla, hna⟩ := ha _ List.mem_cons_self
      obtain ⟨hlb, hnb⟩ := hb _ List.mem_cons_self
      obtain ⟨ihlt, iheq⟩ := ih (fun k hk => ha k (List.mem_cons_of_mem _ hk)) fun k hk => hb k (List.mem_cons_of_mem _ hk)
      have hda : col.len ≤ (a.drop col.offset).length := by
        rw [List.length_drop]
        exact Nat.le_sub_of_add_le' hla
      have hdb : col.len ≤ (b.drop col.offset).length := by
        rw [List.length_drop]
        exact Nat.le_sub_of_add_le' hlb
      obtain ⟨hlt, heq⟩ := Query.cmpBytes_code hda hdb hna hnb
      have hlen := Query.colCode_length hda hdb
      have hgt : 0 < compareSingle (a.drop col.offset) (b.drop col.offset) col ↔
          Query.colCode col (b.drop col.offset) < Query.colCode col (a.drop col.offset) := by
        rw [← not_le, le_iff_lt_or_eq]
        show ¬ (cmpBytes _ _ _ _ < 0 ∨ cmpBytes _ _ _ _ = 0) ↔ _
        rw [hlt, heq, ← le_iff_lt_or_eq, not_le]
      have hneg : (Query.colCode col (a.drop col.offset)).map Neg.neg = (Query.colCode col (b.drop col.offset)).map Neg.neg ↔
          Query.colCode col (a.drop col.offset) = Query.colCode col (b.drop col.offset) :=
        (List.map_injective_iff.2 neg_injective).eq_iff
      have happ : ∀ {x y : List Int}, x.length = y.length → (x ++ sortCode keys a = y ++ sortCode keys b ↔
          x = y ∧ sortCode keys a = sortCode keys b) :=
        fun hxy => ⟨fun h => List.append_inj h hxy, fun h => by rw [h.1, h.2]⟩
      change (compareSingle _ _ col < 0 ↔ _) at hlt
      change (compareSingle _ _ col = 0 ↔ _) at heq
      cases isDesc with
      | true =>
          have hmlen : ((Query.colCode col (a.drop col.offset)).map Neg.neg).length =
              ((Query.colCode col (b.drop col.offset)).map Neg.neg).length := by
            rw [List.length_map, List.length_map, hlen]
          simp only [compareRecords, sortCode, if_true, Index.append_lt_append_iff hmlen, happ hmlen, hneg,
            neg_lt_neg_list hlen, ← hgt, ← heq, ← ihlt, ← iheq]
          generalize compareSingle (a.drop col.offset) (b.drop col.offset) col = c
          by_cases hc : c = 0
          · simp [hc]
          · rw [if_pos hc]
            omega
      | false =>
          simp only [compareRecords, sortCode, Bool.false_eq_true, if_false, Index.append_lt_append_iff hlen, happ hlen,
            ← hlt, ← heq, ← ihlt, ← iheq]
          generalize compareSingle (a.drop col.offset) (b.drop col.offset) col = c
          by_cases hc : c = 0
          · simp [hc]
          · rw [if_pos hc]
            omega

/-- The rows in the order of the sort columns, rows of equal values in the order they came in: what the sort
makes of its buffer, and nothing else. -/
theorem orderBy_iff {keys : SortCols} {rows : List Bytes} (h : ∀ row ∈ rows, Comparable keys row) (out : List Bytes) :
    StableSorted (sortCode keys) rows out ↔ out = orderBy keys rows := by
  have hsorted : StableSorted (sortCode keys) rows (orderBy keys rows) := by
    refine Lib.stableSort_sorted fun a ha b hb => ?_
    rw [decide_eq_true_iff]
    exact (compareRecords_code (h a ha) (h b hb)).1
  constructor
  · intro hout
    exact hout.unique hsorted
  · rintro rfl
    exact hsorted

/-- The `FLOAT` column of these rows, descending: 2.0 before the two rows of 1.0. -/
theorem orderBy_iff_float :
    StableSorted (sortCode [(⟨"f", .float, 4, 1⟩, true)]) [[7, 0, 0, 128, 63], [8, 0, 0, 0, 64], [9, 0, 0, 128, 63]]
      [[8, 0, 0, 0, 64], [7, 0, 0, 128, 63], [9, 0, 0, 128, 63]] := by
  refine (orderBy_iff (fun row hrow k hk => ?_) _).2 (by decide +kernel)
  obtain rfl := List.mem_singleton.1 hk
  have hsize : ∀ r ∈ [[7, 0, 0, 128, 63], [8, 0, 0, 0, 64], [9, 0, 0, 128, (63 : UInt8)]], 1 + 4 ≤ r.length := by decide
  refine ⟨hsize row hrow, fun _ => ?_⟩
  rcases List.mem_cons.1 hrow with rfl | hrow
  · decide +kernel
  · rcases List.mem_cons.1 hrow with rfl | hrow
    · decide +kernel
    · rw [List.mem_singleton.1 hrow]
      decide +kernel

end Rmdb.Sql
