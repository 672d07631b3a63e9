import Rmdb.Query.IndexScan

/-!
# Conditions on joined rows

A nested loop join evaluates a condition on its two rows, an index join on their
concatenation, a scan on the one row it has.  The same bytes are compared in each.
-/

namespace Rmdb.Query

open Rmdb.Index (Rid)
open Rmdb.Txn

variable {lcols rcols cols : Cols} {c : TabCol} {col : ColMeta} {l r : Bytes} {n : Nat}

/-! ## Columns -/

/-- A column found under the table it names. -/
theorem findCol_tab (hc : c.tabName ≠ "") (h : findCol cols c = some col) :
    (c.tabName, col) ∈ cols := by
  unfold findCol at h
  obtain ⟨e, he, rfl⟩ := Option.map_eq_some_iff.1 h
  have hp := List.find?_some he
  simp only [Bool.and_eq_true, Bool.or_eq_true, decide_eq_true_eq, hc, false_or] at hp
  rw [← hp.2]
  exact List.mem_of_find?_eq_some he

theorem findCol_eq_none (hc : c.tabName ≠ "") (h : ∀ e ∈ cols, e.1 ≠ c.tabName) :
    findCol cols c = none := by
  cases hf : findCol cols c with
  | none => rfl
  | some col => exact absurd rfl (h _ (findCol_tab hc hf))

theorem findJoinCol_eq (hc : c.tabName ≠ "") : findJoinCol cols c = findCol cols c := by
  unfold findJoinCol findCol
  congr 2
  funext e
  simp [hc, Bool.and_comm]

theorem findCol_append : findCol (lcols ++ rcols) c = (findCol lcols c).or (findCol rcols c) := by
  unfold findCol
  rw [List.find?_append]
  cases lcols.find? _ <;> rfl

theorem findCol_shift : findCol (shiftCols n cols) c =
    (findCol cols c).map fun col => { col with offset := col.offset + n } := by
  unfold findCol shiftCols
  rw [List.find?_map, Option.map_map, Option.map_map]
  rfl

theorem findCol_tabCols {m : TabMeta} {tab : TabName} (hc : c.tabName = tab) :
    findCol (tabCols m tab) c = m.findCol c.colName := by
  unfold findCol tabCols TabMeta.findCol
  rw [List.find?_map, Option.map_map]
  have : (fun e : TabName × ColMeta => decide (e.2.name = c.colName) &&
      (decide (c.tabName = "") || decide (e.1 = c.tabName))) ∘ (fun c => (tab, c)) =
      fun col : ColMeta => decide (col.name = c.colName) := by
    funext col
    simp [hc]
  rw [this]
  exact congrFun Option.map_id _

/-! ## Values -/

theorem serCmp_congr {a a' b b' : Bytes} {op : CompOp} (hw : Words col)
    (ha : a.take col.len = a'.take col.len) (hb : b.take col.len = b'.take col.len) :
    serCmp a b col.len col.type op = serCmp a' b' col.len col.type op := by
  unfold serCmp
  rw [cmpBytes_congr hw ha hb]

theorem take_drop_append_left {off len : Nat} (h : off + len ≤ l.length) :
    ((l ++ r).drop off).take len = (l.drop off).take len := by
  rw [List.drop_append_of_le_length (by omega), List.take_append_of_le_length]
  rw [List.length_drop]
  omega

theorem drop_append_right (hl : l.length = n) :
    (l ++ r).drop (col.offset + n) = r.drop col.offset := by
  rw [← hl, Nat.add_comm, ← List.drop_drop, List.drop_left]

/-! ## One condition on two rows -/

/-- A side of a condition that compares `len` bytes: its column is found, and in a row of the
left side that many bytes are behind its offset. -/
def OperandOk (lcols rcols : Cols) (llen len : Nat) (c : TabCol) : Prop :=
  c.tabName ≠ "" ∧
    ((∃ col, findCol lcols c = some col ∧ col.offset + len ≤ llen) ∨
      (findCol lcols c = none ∧ ∃ col, findCol rcols c = some col))

/-- The column a condition names, from either row. -/
def operandCol (lcols rcols : Cols) (c : TabCol) : Option ColMeta :=
  (findCol lcols c).or (findCol rcols c)

/-- A condition on two rows: both sides are found, and as many bytes as the column on the left
of the operator has can be read on both. -/
structure CondOk (lcols rcols : Cols) (llen : Nat) (c : Condition) : Prop where
  lhs : ∃ col, operandCol lcols rcols c.lhsCol = some col ∧ Words col ∧
    OperandOk lcols rcols llen col.len c.lhsCol
  rhs : c.rhsVal = none → ∀ col, operandCol lcols rcols c.lhsCol = some col →
    OperandOk lcols rcols llen col.len c.rhsCol

/-- The bytes of an operand in the joined row begin like those in its own row. -/
theorem operand_bytes {llen len : Nat} (hl : l.length = llen)
    (h : OperandOk lcols rcols llen len c) :
    ∃ col jcol bytes, joinOperand lcols rcols l r c = some (col, bytes) ∧
      operandCol lcols rcols c = some col ∧
      findCol (lcols ++ shiftCols llen rcols) c = some jcol ∧
      jcol.len = col.len ∧ jcol.type = col.type ∧
      ((l ++ r).drop jcol.offset).take len = bytes.take len := by
  obtain ⟨hc, ⟨col, hcol, hin⟩ | ⟨hnone, col, hcol⟩⟩ := h
  · refine ⟨col, col, l.drop col.offset, ?_, ?_, ?_, rfl, rfl, ?_⟩
    · rw [joinOperand, findJoinCol_eq hc, hcol]
    · rw [operandCol, hcol]
      rfl
    · rw [findCol_append, hcol]
      rfl
    · exact take_drop_append_left (by omega)
  · refine ⟨col, { col with offset := col.offset + llen }, r.drop col.offset, ?_, ?_, ?_, rfl, rfl, ?_⟩
    · rw [joinOperand, findJoinCol_eq hc, hnone, findJoinCol_eq hc, hcol]
      rfl
    · rw [operandCol, hnone, hcol]
      rfl
    · rw [findCol_append, hnone, findCol_shift, hcol]
      rfl
    · rw [drop_append_right hl]

theorem evalCond_append {llen : Nat} {cond : Condition} (hl : l.length = llen)
    (h : CondOk lcols rcols llen cond) :
    evalCond (lcols ++ shiftCols llen rcols) (l ++ r) cond = evalJoinCond lcols rcols l r cond := by
  obtain ⟨col0, hcol0, hw, hlhs⟩ := h.lhs
  obtain ⟨col, jcol, bytes, hop, hcol, hfind, hlen, htype, hbytes⟩ := operand_bytes hl hlhs
  rw [hcol0] at hcol
  cases hcol
  unfold evalCond evalJoinCond
  rw [hop, hfind]
  simp only
  rw [hlen, htype]
  cases hv : cond.rhsVal with
  | some v => exact serCmp_congr hw hbytes rfl
  | none =>
      obtain ⟨rcol, jrcol, rbytes, hrop, -, hrfind, -, -, hrbytes⟩ :=
        operand_bytes hl (h.rhs hv col0 hcol0)
      rw [hrop, hrfind]
      exact serCmp_congr hw hbytes hrbytes

/-! ## Conditions of one table -/

/-- A condition a scan can evaluate. -/
structure ScanCondOk (cols : Cols) (c : Condition) : Prop where
  lhs : ∃ col, findCol cols c.lhsCol = some col
  rhs : c.rhsVal = none → ∃ col, findCol cols c.rhsCol = some col

/-- The compiled conditions of a scan are its conditions when it has all their columns. -/
theorem serCompiledMatch_compileConds {conds : List Condition} {data : Bytes}
    (h : ∀ c ∈ conds, ScanCondOk cols c) :
    serCompiledMatch data (compileConds cols conds) = conds.all (evalCond cols data) := by
  induction conds with
  | nil => rfl
  | cons c conds ih =>
      obtain ⟨⟨col, hcol⟩, hrhs⟩ := h c List.mem_cons_self
      have ih := ih fun d hd => h d (List.mem_cons_of_mem _ hd)
      unfold serCompiledMatch compileConds at ih ⊢
      rw [List.all_cons, ← ih]
      cases hv : c.rhsVal with
      | some v =>
          rw [List.filterMap_cons_some (b := ⟨col.offset, col.len, col.type, c.op, some v, 0⟩)
            (by simp [hcol, hv]), List.all_cons, evalCond, hcol, hv]
          rfl
      | none =>
          obtain ⟨rcol, hrcol⟩ := hrhs hv
          rw [List.filterMap_cons_some
            (b := ⟨col.offset, col.len, col.type, c.op, none, rcol.offset⟩)
            (by simp [hcol, hv, hrcol]), List.all_cons, evalCond, hcol, hv, hrcol]
          rfl

/-- A condition of the right table reads the right row only. -/
theorem evalJoinCond_right {cond : Condition} (h : ScanCondOk rcols cond)
    (hl : findCol lcols cond.lhsCol = none ∧ cond.lhsCol.tabName ≠ "")
    (hr : cond.rhsVal = none → findCol lcols cond.rhsCol = none ∧ cond.rhsCol.tabName ≠ "") :
    evalJoinCond lcols rcols l r cond = evalCond rcols r cond := by
  obtain ⟨⟨col, hcol⟩, hrhs⟩ := h
  have hop : ∀ {c : TabCol} {col : ColMeta}, findCol lcols c = none ∧ c.tabName ≠ "" →
      findCol rcols c = some col → joinOperand lcols rcols l r c = some (col, r.drop col.offset) := by
    intro c col hc hcol
    rw [joinOperand, findJoinCol_eq hc.2, hc.1, findJoinCol_eq hc.2, hcol]
    rfl
  unfold evalJoinCond evalCond
  rw [hop hl hcol, hcol]
  simp only
  cases hv : cond.rhsVal with
  | some v => rfl
  | none =>
      obtain ⟨rcol, hrcol⟩ := hrhs hv
      rw [hop (hr hv) hrcol, hrcol]

end Rmdb.Query
