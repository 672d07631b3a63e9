import Rmdb.Query.Joins

/-!
# Index range scans of a table without versions

Over an index of `INT` and `CHAR` columns no row sorts beyond the extremes that fill the bounds
(`missed_eq_false`), so the entries between them lead to all the rows that satisfy the conditions
(`indexScanFrom_clean`).
-/

namespace Rmdb.Query

open Rmdb.Index (Rid)
open Rmdb.Txn
open Rmdb.Txn.Db (suffixCols lowerOf upperOf)

variable {c : ColMeta} {cs cols : List ColMeta} {data : Bytes}

/-! ## The extremes -/

theorem memcmp_replicate_max : ∀ (n : Nat) (a : Bytes), Index.memcmp n a (List.replicate n 0xff) ≤ 0 := by
  intro n
  induction n with
  | zero => intro a; simp [Index.memcmp]
  | succ n ih =>
      intro a
      cases a with
      | nil => simp [Index.memcmp]
      | cons x a =>
          rw [List.replicate_succ, Index.memcmp]
          have hle : ¬ (0xff : UInt8) < x := by
            rw [UInt8.lt_iff_toNat_lt]
            have := x.toNat_lt
            show ¬ 255 < x.toNat
            omega
          rw [if_neg hle]
          split
          · decide
          · exact ih a

theorem memcmp_replicate_min : ∀ (n : Nat) (a : Bytes), 0 ≤ Index.memcmp n a (List.replicate n 0) := by
  intro n
  induction n with
  | zero => intro a; simp [Index.memcmp]
  | succ n ih =>
      intro a
      cases a with
      | nil => simp [Index.memcmp]
      | cons x a =>
          rw [List.replicate_succ, Index.memcmp]
          have hle : ¬ x < (0 : UInt8) := by
            rw [UInt8.lt_iff_toNat_lt]
            exact Nat.not_lt_zero _
          rw [if_neg hle]
          split
          · decide
          · exact ih a

/-- No value of an `INT` or `CHAR` column is greater than the greatest, or less than the least. -/
theorem cmpBytes_extreme (hd : Discrete c) (a : Bytes) :
    cmpBytes a (Db.fillExtreme true [c]) c.len c.type ≤ 0 ∧
      0 ≤ cmpBytes a (Db.fillExtreme false [c]) c.len c.type := by
  unfold Db.fillExtreme
  rw [List.flatMap_singleton, List.flatMap_singleton]
  cases htype : c.type with
  | float => exact absurd htype hd
  | string => exact ⟨memcmp_replicate_max _ _, memcmp_replicate_min _ _⟩
  | int =>
      have hmax : (getWord (wordBytes (BitVec.intMax 32)) 0).toInt = 2 ^ 31 - 1 := by decide
      have hmin : (getWord (wordBytes (BitVec.intMin 32)) 0).toInt = -2 ^ 31 := by decide
      have hlt := BitVec.two_mul_toInt_lt (x := getWord a 0)
      have hge := BitVec.le_two_mul_toInt (x := getWord a 0)
      simp only [if_true, Bool.false_eq_true, if_false, cmpBytes, hmax, hmin]
      constructor
      · split
        · decide
        · rw [if_neg (by omega)]
      · rw [if_neg (by omega)]
        split <;> decide

theorem ixCompare_extreme : ∀ {cols : List ColMeta} {key : Bytes}, (∀ c ∈ cols, Words c) →
    (∀ c ∈ cols, Discrete c) → key.length = keyLen cols →
      ixCompare cols key (Db.fillExtreme true cols) ≤ 0 ∧
        0 ≤ ixCompare cols key (Db.fillExtreme false cols) := by
  intro cols
  induction cols with
  | nil => intro key _ _ _; simp [ixCompare]
  | cons c cs ih =>
      intro key hw hd hlen
      have hwc := hw c List.mem_cons_self
      simp only [keyLen, List.map_cons, List.sum_cons] at hlen
      obtain ⟨hmax, hmin⟩ := cmpBytes_extreme (hd c List.mem_cons_self) (key.take c.len)
      obtain ⟨ihmax, ihmin⟩ := @ih (key.drop c.len) (fun c hc => hw c (List.mem_cons_of_mem _ hc))
        (fun c hc => hd c (List.mem_cons_of_mem _ hc)) (by rw [List.length_drop, keyLen]; omega)
      have hv : (key.take c.len).length = c.len := by
        rw [List.length_take]
        omega
      conv_lhs => rw [← List.take_append_drop c.len key]
      conv_rhs => rw [← List.take_append_drop c.len key]
      rw [fillExtreme_cons true, fillExtreme_cons false,
        ixCompare_cons hwc hv (fillExtreme_single_length true hwc),
        ixCompare_cons hwc hv (fillExtreme_single_length false hwc)]
      constructor
      · split
        · exact hmax
        · exact ihmax
      · split
        · exact hmin
        · exact ihmin

/-! ## No row is missed -/

theorem beyond_eq_false (hw : ∀ c ∈ cols, Words c) (hd : ∀ c ∈ cols, Discrete c)
    (hfits : ∀ c ∈ cols, c.offset + c.len ≤ data.length) (wantMax : Bool) :
    beyond wantMax cols data = false := by
  obtain ⟨hmax, hmin⟩ := ixCompare_extreme hw hd (indexKey_length hfits)
  unfold beyond
  cases wantMax with
  | true =>
      rw [if_pos rfl, decide_eq_false_iff_not]
      omega
  | false =>
      rw [if_neg (by decide), decide_eq_false_iff_not]
      omega

theorem beyondEnd_eq_false (hw : ∀ c ∈ cols, Words c) (hd : ∀ c ∈ cols, Discrete c)
    (hfits : ∀ c ∈ cols, c.offset + c.len ≤ data.length) (wantMax : Bool) (e : Db.RangeEnd) :
    beyondEnd wantMax cols e data = false := by
  unfold beyondEnd
  cases cols with
  | nil => rfl
  | cons c cs =>
      have h := beyond_eq_false (fun d hd' => hw d (List.mem_cons_of_mem _ hd'))
        (fun d hd' => hd d (List.mem_cons_of_mem _ hd'))
        (fun d hd' => hfits d (List.mem_cons_of_mem _ hd')) wantMax
      simp only [h, Bool.and_false]

theorem missed_eq_false (hw : ∀ c ∈ cols, Words c) (hd : ∀ c ∈ cols, Discrete c)
    (hfits : ∀ c ∈ cols, c.offset + c.len ≤ data.length) (conds : List Txn.Condition) :
    missed cols conds data = false := by
  have hsub : ∀ {P : ColMeta → Prop}, (∀ c ∈ cols, P c) → ∀ c ∈ suffixCols cols conds, P c :=
    fun h c hc => h c (suffixCols_subset hc)
  have hend := beyondEnd_eq_false (hsub hw) (hsub hd) (hsub hfits)
  unfold missed
  rw [beyond_eq_false (hsub hw) (hsub hd) (hsub hfits), Bool.and_false]
  cases lowerOf cols conds <;> cases upperOf cols conds <;> simp only [hend, Bool.or_false]

/-! ## The conditions of a table -/

/-- A condition on columns of the table, its literal of the size of the column. -/
structure CondOn (m : TabMeta) (tab : TabName) (c : Condition) : Prop where
  table : c.lhsCol.tabName = tab
  found : ∃ col, m.findCol c.lhsCol.colName = some col ∧ ∀ v, c.rhsVal = some v → v.length = col.len
  column : c.rhsVal = none → c.rhsCol.tabName = tab ∧ ∃ rcol, m.findCol c.rhsCol.colName = some rcol

variable {m : TabMeta} {tab : TabName} {conds : List Condition}

theorem fedConds_ok (h : ∀ c ∈ conds, CondOn m tab c) : fedConds tab conds = .ok conds := by
  unfold fedConds
  rw [mapM_ok (g := id), List.map_id]
  intro c hc
  rw [if_pos (h c hc).table]
  rfl

/-- The conditions that the scan compiles by column name are the conditions of the statement. -/
theorem evalCompiled_bare (h : ∀ c ∈ conds, CondOn m tab c) :
    evalCompiled m (conds.map Condition.bare) data = conds.all (evalCond (tabCols m tab) data) := by
  have hcompile : Txn.compileConds m (conds.map Condition.bare) = compileConds (tabCols m tab) conds := by
    unfold Txn.compileConds compileConds
    rw [List.filterMap_map]
    refine List.filterMap_congr fun c hc => ?_
    obtain ⟨htab, -, hrhs⟩ := h c hc
    simp only [Function.comp_apply, Condition.bare, findCol_tabCols htab]
    cases hv : c.rhsVal with
    | some v => rfl
    | none => rw [findCol_tabCols (hrhs hv).1]
  unfold evalCompiled
  rw [hcompile]
  refine serCompiledMatch_compileConds fun c hc => ?_
  obtain ⟨htab, ⟨col, hcol, -⟩, hrhs⟩ := h c hc
  refine ⟨⟨col, by rw [findCol_tabCols htab, hcol]⟩, fun hv => ?_⟩
  obtain ⟨hrtab, rcol, hrcol⟩ := hrhs hv
  exact ⟨rcol, by rw [findCol_tabCols hrtab, hrcol]⟩

theorem litsOk_bare (h : ∀ c ∈ conds, CondOn m tab c) (hd : ∀ c ∈ cols, Discrete c) :
    LitsOk m cols (conds.map Condition.bare) := by
  intro cond hcond v hv col hcol hfind
  obtain ⟨c, hc, rfl⟩ := List.mem_map.1 hcond
  obtain ⟨-, ⟨col', hcol', hlen⟩, -⟩ := h c hc
  have heq : some col' = some col := hcol'.symm.trans hfind
  cases heq
  exact ⟨hd col hcol, hlen v hv⟩

/-! ## The scan -/

/-- The records of a table. -/
def heapRows (db : Db) (tab : TabName) : List (Rid × Bytes) :=
  (db.rmScan tab).map fun rid => (rid, (db.rows ⟨tab, rid⟩).slot.data.bytes)

/-- The records of the table that satisfy the conditions. -/
def matchingRows (db : Db) (tab : TabName) (conds : List Condition) : List (Rid × Bytes) :=
  (heapRows db tab).filter fun row => conds.all (evalCond (tabCols (db.tabs tab) tab) row.2)

variable {db : Db} {t : TxnId} {ix : List ColMeta} {es : IndexMap}

theorem readRow_clean (hclean : db.tableIsDirty tab = false) (rid : Rid) :
    db.readRow t ⟨tab, rid⟩ = some (db.rows ⟨tab, rid⟩).slot.data := by
  unfold Db.readRow
  simp [hclean]

/-- The rows of the entries between the bounds are the rows of all entries that satisfy the
conditions. -/
theorem indexScanFrom_clean (hm : TabOk (db.tabs tab))
    (hcols : ∀ c ∈ ix, (db.tabs tab).findCol c.name = some c) (hclean : db.tableIsDirty tab = false)
    (hd : ∀ c ∈ ix, Discrete c) (hes : Ordered ix es) (hkeys : ∀ e ∈ es, EntryOk db t tab ix e)
    (hconds : ∀ c ∈ conds, CondOn (db.tabs tab) tab c) :
    (db.indexScanFrom t tab ix (conds.map Condition.bare)
        (Db.scanRange ix (conds.map Condition.bare) es)).map (fun e => (e.1, e.2.bytes)) =
      (es.map fun e => (e.2, (db.rows ⟨tab, e.2⟩).slot.data.bytes)).filter fun row =>
        conds.all (evalCond (tabCols (db.tabs tab) tab) row.2) := by
  rw [indexScanFrom_scanRange hm hcols (litsOk_bare hconds hd) hes hkeys, List.map_filterMap,
    List.filter_map]
  have hfilter : ∀ (es : List (Bytes × Rid)) (p : Bytes × Rid → Bool),
      (es.filter p).map (fun e => (e.2, (db.rows ⟨tab, e.2⟩).slot.data.bytes)) =
        es.filterMap fun e => if p e then some (e.2, (db.rows ⟨tab, e.2⟩).slot.data.bytes) else none := by
    intro es p
    rw [← List.filterMap_eq_map, List.filterMap_filter]
    rfl
  rw [hfilter]
  refine List.filterMap_congr fun e he => ?_
  have hread := readRow_clean (t := t) hclean e.2
  have hmissed : missed ix (conds.map Condition.bare) (db.rows ⟨tab, e.2⟩).slot.data.bytes = false :=
    missed_eq_false (words_of_index hm hcols) hd (fits_of_index hcols (hkeys e he _ hread).2) _
  simp only [entryRow, hread, evalCompiled_bare hconds, Option.filter_some, hmissed, Bool.not_false,
    Bool.and_true, Function.comp_apply]
  split <;> rfl

end Rmdb.Query
