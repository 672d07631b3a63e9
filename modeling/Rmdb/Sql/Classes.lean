import Rmdb.Sql.Reference

/-!
# Groups and rows of the executor

The groups of the executor are the classes of its input (`groupsOf_spec`, `classes_eq`): keys
are bytes, classes go by data, and a key is read back column by column (`keyData`).  The rows
it gives are the groups that pass `HAVING`, in order (`drain_beginTuple`), and a row shows the
data of its group and a slot for each aggregate (`rowData_buildRow`).
-/

namespace Rmdb.Sql

open Rmdb.Txn
open Rmdb.Query (TabCol Cols findCol)
open Rmdb.Lib (Groups)

/-! ## Placed columns -/

def rowData (cols : List ColMeta) (data : Bytes) : List Datum := cols.map fun c => colDatum c data

def widths (cols : List ColMeta) : Nat := (cols.map ColMeta.len).sum

/-- Each field has the width of its column. -/
abbrev Fields (ms : List ColMeta) (fields : List Bytes) : Prop :=
  List.Forall₂ (fun m f => f.length = m.len) ms fields

theorem Fields.flatten_length {ms : List ColMeta} {fields : List Bytes} (h : Fields ms fields) :
    fields.flatten.length = widths ms := by
  induction h with
  | nil => rfl
  | cons hf _ ih =>
      rw [List.flatten_cons, List.length_append, hf, ih]
      rfl

theorem placeCols_length (off : Nat) (ms : List ColMeta) : (placeCols off ms).length = ms.length := by
  induction ms generalizing off with
  | nil => rfl
  | cons m ms ih => exact congrArg (· + 1) (ih _)

theorem placeCols_append (off : Nat) (ms ns : List ColMeta) :
    placeCols off (ms ++ ns) = placeCols off ms ++ placeCols (off + widths ms) ns := by
  induction ms generalizing off with
  | nil => rfl
  | cons m ms ih =>
      have hw : off + widths (m :: ms) = off + m.len + widths ms := by
        unfold widths
        rw [List.map_cons, List.sum_cons]
        omega
      rw [List.cons_append, placeCols, placeCols, ih, hw]
      rfl

theorem getBytes_mid (pre f post : Bytes) : getBytes (pre ++ (f ++ post)) pre.length f.length = f := by
  unfold getBytes
  rw [List.drop_left, List.take_left]

theorem putBytes_mid {z v : Bytes} (h : z.length = v.length) (pre post : Bytes) :
    putBytes (pre ++ (z ++ post)) pre.length v = pre ++ (v ++ post) := by
  unfold putBytes
  rw [List.take_left, ← h, ← List.append_assoc pre z post, List.drop_left' (by rw [List.length_append]),
    List.append_assoc]

/-- Columns placed behind `pre` read the fields that stand there. -/
theorem rowData_place {ms : List ColMeta} {fields : List Bytes} (h : Fields ms fields) (pre post : Bytes) :
    rowData (placeCols pre.length ms) (pre ++ (fields.flatten ++ post)) =
      List.zipWith (fun m f => fieldDatum m.type f) ms fields := by
  induction h generalizing pre with
  | nil => rfl
  | @cons m f ms fields hf _ ih =>
      have hnext : pre.length + m.len = (pre ++ f).length := by rw [List.length_append, hf]
      have hrest := ih (pre ++ f)
      rw [List.append_assoc] at hrest
      unfold rowData at hrest ⊢
      rw [placeCols, List.map_cons, List.flatten_cons, List.zipWith_cons_cons, hnext, List.append_assoc,
        hrest]
      congr 1
      show fieldDatum m.type (getBytes _ pre.length m.len) = _
      rw [← hf, getBytes_mid]

/-! ## Layout -/

theorem mapM_some {α β : Type} {f : α → Option β} {xs : List α} {ys : List β} (h : xs.mapM f = some ys) :
    List.Forall₂ (fun x y => f x = some y) xs ys := by
  induction xs generalizing ys with
  | nil =>
      cases h
      exact .nil
  | cons x xs ih =>
      rw [List.mapM_cons] at h
      obtain ⟨y, hy, h⟩ := Option.bind_eq_some_iff.1 h
      obtain ⟨ys', hys, h⟩ := Option.bind_eq_some_iff.1 h
      cases h
      exact .cons hy (ih hys)

/-- The lists of a query that the analyser has checked, and the planner's columns. -/
structure AggOk (tabs : TabName → TabMeta) (e : AggExecutor) : Prop where
  cols : outputCols tabs e.groupCols e.aggExprs = some e.cols
  group : ∀ g ∈ e.groupCols, ∃ c m, findCol e.prevCols g = some c ∧ getCol tabs g = some m ∧
    m.type = c.type ∧ m.len = c.len
  agg : ∀ a ∈ e.aggExprs, AggregateOk tabs e.prevCols a

/-- The group columns in the child, the same in their tables, and the aggregate columns. -/
structure Layout (tabs : TabName → TabMeta) (e : AggExecutor) (gcs gs as : List ColMeta) : Prop where
  cols : e.cols = placeCols 0 (gs ++ as)
  found : e.groupCols.filterMap (findCol e.prevCols) = gcs
  length : e.groupCols.length = gs.length
  shape : List.Forall₂ (fun c m => m.type = c.type ∧ m.len = c.len) gcs gs
  agg : List.Forall₂ (fun a m => aggColumn tabs a = some m) e.aggExprs as

theorem found_shape {tabs : TabName → TabMeta} {prevCols : Cols} {groupCols : List TabCol} {gs : List ColMeta}
    (hgs : List.Forall₂ (fun g m => getCol tabs g = some m) groupCols gs)
    (hgroup : ∀ g ∈ groupCols, ∃ c m, findCol prevCols g = some c ∧ getCol tabs g = some m ∧
      m.type = c.type ∧ m.len = c.len) :
    List.Forall₂ (fun c m => m.type = c.type ∧ m.len = c.len) (groupCols.filterMap (findCol prevCols)) gs := by
  induction hgs with
  | nil => exact .nil
  | @cons g m groupCols gs hg _ ih =>
      obtain ⟨c, m', hc, hm', htype, hlen⟩ := hgroup g List.mem_cons_self
      rw [hg] at hm'
      cases hm'
      rw [List.filterMap_cons_some hc]
      exact .cons ⟨htype, hlen⟩ (ih fun g' hg' => hgroup g' (List.mem_cons_of_mem _ hg'))

theorem AggOk.layout {tabs : TabName → TabMeta} {e : AggExecutor} (h : AggOk tabs e) :
    ∃ gcs gs as, Layout tabs e gcs gs as := by
  obtain ⟨gs, hgs, hrest⟩ := Option.bind_eq_some_iff.1 h.cols
  obtain ⟨as, has, hcols⟩ := Option.bind_eq_some_iff.1 hrest
  have hgs := mapM_some hgs
  exact ⟨_, gs, as, (Option.some.inj hcols).symm, rfl, hgs.length_eq, found_shape hgs h.group, mapM_some has⟩

/-! ## Keys -/

section Keys

variable {tabs : TabName → TabMeta} {e : AggExecutor} {gcs gs as : List ColMeta} {rows : List Bytes}

/-- The data of the group columns. -/
def AggExecutor.groupData (e : AggExecutor) (data : Bytes) : List Datum :=
  (e.groupCols.filterMap (findCol e.prevCols)).map fun c => colDatum c data

/-- The data a key holds. -/
def AggExecutor.keyData (e : AggExecutor) (key : Bytes) : List Datum :=
  rowData (placeCols e.bitmapLen (e.groupCols.filterMap (findCol e.prevCols))) key

theorem fields_found {prevCols : Cols} (groupCols : List TabCol) {data : Bytes} (hrec : RecordOk prevCols data) :
    Fields (groupCols.filterMap (findCol prevCols))
      ((groupCols.filterMap (findCol prevCols)).map fun c => colBytes c data) := by
  show List.Forall₂ _ _ _
  rw [List.forall₂_map_right_iff, List.forall₂_same]
  intro c hc
  obtain ⟨g, -, hg⟩ := List.mem_filterMap.1 hc
  exact (hrec.field hg).length

theorem makeGroupKey_eq (hplain : e.plainAgg = false) (data : Bytes) :
    e.makeGroupKey data = List.replicate e.bitmapLen 0 ++
      (((e.groupCols.filterMap (findCol e.prevCols)).map fun c => colBytes c data).flatten ++ []) := by
  simp only [AggExecutor.makeGroupKey, hplain, Bool.false_eq_true, if_false, List.flatMap_def,
    List.append_nil]

theorem keyData_makeGroupKey {data : Bytes} (hrec : RecordOk e.prevCols data) :
    e.keyData (e.makeGroupKey data) = e.groupData data := by
  cases hplain : e.plainAgg with
  | true =>
      have hnil : e.groupCols = [] := List.isEmpty_iff.1 hplain
      simp only [AggExecutor.keyData, AggExecutor.groupData, hnil, List.filterMap_nil, placeCols, rowData,
        List.map_nil]
  | false =>
      have hplace := rowData_place (fields_found e.groupCols hrec) (List.replicate e.bitmapLen 0) []
      rw [List.length_replicate] at hplace
      unfold AggExecutor.keyData
      rw [makeGroupKey_eq hplain, hplace, List.zipWith_map_right, List.zipWith_self]
      rfl

/-- The data of a key tell it apart. -/
theorem makeGroupKey_inj {r s : Bytes} (hr : RecordOk e.prevCols r) (hs : RecordOk e.prevCols s)
    (h : e.groupData r = e.groupData s) : e.makeGroupKey r = e.makeGroupKey s := by
  have hbytes : (e.groupCols.filterMap (findCol e.prevCols)).map (fun c => colBytes c r) =
      (e.groupCols.filterMap (findCol e.prevCols)).map fun c => colBytes c s := by
    apply List.map_congr_left
    intro c hc
    obtain ⟨g, -, hg⟩ := List.mem_filterMap.1 hc
    exact fieldDatum_inj (hr.field hg) (hs.field hg) (List.map_inj_left.1 h c hc)
  unfold AggExecutor.makeGroupKey
  rw [List.flatMap_def, List.flatMap_def, hbytes]

/-! ## Groups -/

/-- Keys of the groups with their records. -/
def AggExecutor.keyed (e : AggExecutor) (rows : List Bytes) : List (Bytes × List Bytes) :=
  if e.plainAgg then [([], rows)]
  else (rows.map e.makeGroupKey).eraseDups.map fun k => (k, rows.filter fun r => e.makeGroupKey r = k)

/-- The classes of equal group columns in order of first appearance; without `GROUP BY` one
class of all records. -/
def AggExecutor.classes (e : AggExecutor) (rows : List Bytes) : List (List Datum × List Bytes) :=
  if e.plainAgg then [([], rows)]
  else (rows.map e.groupData).eraseDups.map fun k => (k, rows.filter fun r => e.groupData r = k)

theorem foldl_addRecord (rows : List Bytes) :
    rows.foldl e.addRecord e.newStates = e.aggExprs.map fun a => stateOf e.prevCols a rows := by
  induction rows using List.reverseRecOn with
  | nil =>
      show List.replicate e.aggExprs.length ({} : AggState) = e.aggExprs.map fun _ => {}
      rw [List.map_const']
  | append_singleton rows data ih =>
      rw [List.foldl_append, ih, List.foldl_cons, List.foldl_nil, AggExecutor.addRecord,
        List.zipWith_map_right, List.zipWith_self]
      exact List.map_congr_left fun a _ => (stateOf_concat rows data).symm

theorem collect_eq (rows : List Bytes) : e.collect rows = ⟨(rows.map e.makeGroupKey).eraseDups, fun k =>
    if k ∈ rows.map e.makeGroupKey then
      some (e.aggExprs.map fun a => stateOf e.prevCols a (rows.filter fun r => e.makeGroupKey r = k))
    else none⟩ := by
  unfold AggExecutor.collect
  rw [Groups.foldl_add]
  unfold Groups.held
  simp only [foldl_addRecord]

theorem makeGroupKey_plain (hplain : e.plainAgg = true) (data : Bytes) : e.makeGroupKey data = [] := by
  unfold AggExecutor.makeGroupKey
  rw [hplain]
  exact if_pos rfl

/-- The groups at the end of the input. -/
theorem groupsOf_spec (rows : List Bytes) : (e.groupsOf rows).order = (e.keyed rows).map Prod.fst ∧
    ∀ p ∈ e.keyed rows,
      (e.groupsOf rows).get p.1 = some (e.aggExprs.map fun a => stateOf e.prevCols a p.2) := by
  have hcollect := collect_eq (e := e) rows
  cases hplain : e.plainAgg with
  | true =>
      have hkeyed : e.keyed rows = [([], rows)] := if_pos hplain
      have hkey := fun r (_ : r ∈ rows) => makeGroupKey_plain hplain r
      cases rows with
      | nil =>
          have hgroups : e.groupsOf [] = ⟨[[]], Function.update (e.collect []).get [] (some e.newStates)⟩ := by
            unfold AggExecutor.groupsOf
            rw [hcollect]
            simp [hplain]
          rw [hgroups, hkeyed]
          refine ⟨rfl, ?_⟩
          intro p hp
          rw [List.mem_singleton] at hp
          subst hp
          show Function.update (e.collect []).get [] _ [] = _
          rw [Function.update_self, ← foldl_addRecord]
          rfl
      | cons r rows =>
          have horder : ((r :: rows).map e.makeGroupKey).eraseDups = [[]] := by
            rw [List.map_congr_left hkey, List.map_const', List.length_cons, List.replicate_succ,
              List.eraseDups_cons, List.filter_replicate]
            simp
          have hgroups : e.groupsOf (r :: rows) = e.collect (r :: rows) := by
            unfold AggExecutor.groupsOf
            rw [hcollect, horder]
            rfl
          rw [hgroups, hkeyed, hcollect]
          refine ⟨horder, ?_⟩
          intro p hp
          rw [List.mem_singleton] at hp
          subst hp
          have hmem : [] ∈ (r :: rows).map e.makeGroupKey :=
            List.mem_map.2 ⟨r, List.mem_cons_self, hkey r List.mem_cons_self⟩
          have hall : ((r :: rows).filter fun r => e.makeGroupKey r = []) = r :: rows :=
            List.filter_eq_self.2 fun r hr => decide_eq_true (hkey r hr)
          show (if [] ∈ (r :: rows).map e.makeGroupKey then _ else _) = _
          rw [if_pos hmem, hall]
  | false =>
      have hkeyed : e.keyed rows = (rows.map e.makeGroupKey).eraseDups.map fun k =>
          (k, rows.filter fun r => e.makeGroupKey r = k) := if_neg (by simp [hplain])
      have hgroups : e.groupsOf rows = e.collect rows := by
        unfold AggExecutor.groupsOf
        simp [hplain]
      rw [hgroups, hkeyed, hcollect]
      constructor
      · rw [List.map_map]
        exact (List.map_id _).symm
      · intro p hp
        obtain ⟨k, hk, rfl⟩ := List.mem_map.1 hp
        exact if_pos (List.mem_eraseDups.1 hk)

/-- Keys and classes correspond: the data of a key are those of its class. -/
theorem classes_eq (hrows : ∀ r ∈ rows, RecordOk e.prevCols r) :
    e.classes rows = (e.keyed rows).map fun p => (e.keyData p.1, p.2) := by
  cases hplain : e.plainAgg with
  | true =>
      have hnil : e.groupCols = [] := List.isEmpty_iff.1 hplain
      have hdata : e.keyData [] = [] := by
        simp only [AggExecutor.keyData, hnil, List.filterMap_nil, placeCols, rowData, List.map_nil]
      unfold AggExecutor.classes AggExecutor.keyed
      rw [if_pos hplain, if_pos hplain, List.map_singleton, hdata]
  | false =>
      have hinj : ∀ x ∈ rows.map e.makeGroupKey, ∀ y ∈ rows.map e.makeGroupKey,
          e.keyData x = e.keyData y → x = y := by
        intro x hx y hy hxy
        obtain ⟨r, hr, rfl⟩ := List.mem_map.1 hx
        obtain ⟨s, hs, rfl⟩ := List.mem_map.1 hy
        rw [keyData_makeGroupKey (hrows r hr), keyData_makeGroupKey (hrows s hs)] at hxy
        exact makeGroupKey_inj (hrows r hr) (hrows s hs) hxy
      have hdata : rows.map e.groupData = (rows.map e.makeGroupKey).map e.keyData := by
        rw [List.map_map]
        exact List.map_congr_left fun r hr => (keyData_makeGroupKey (hrows r hr)).symm
      have hn : ¬ e.plainAgg = true := by simp [hplain]
      unfold AggExecutor.classes AggExecutor.keyed
      rw [if_neg hn, if_neg hn, hdata, Lib.map_eraseDups_of_inj _ hinj, List.map_map, List.map_map]
      apply List.map_congr_left
      intro k hk
      have hk := List.mem_eraseDups.1 hk
      have hfilter : (rows.filter fun r => e.groupData r = e.keyData k) =
          rows.filter fun r => e.makeGroupKey r = k := by
        apply List.filter_congr
        intro r hr
        rw [decide_eq_decide, ← keyData_makeGroupKey (hrows r hr)]
        constructor
        · exact hinj _ (List.mem_map_of_mem hr) _ hk
        · rintro rfl
          rfl
      show (e.keyData k, _) = (e.keyData k, _)
      rw [hfilter]

/-- The data of the groups differ. -/
theorem nodup_classes (e : AggExecutor) (rows : List Bytes) : ((e.classes rows).map Prod.fst).Nodup := by
  unfold AggExecutor.classes
  cases e.plainAgg with
  | true => simp
  | false =>
      have hmap : ((rows.map e.groupData).eraseDups.map fun k =>
          (k, rows.filter fun r => e.groupData r = k)).map Prod.fst = (rows.map e.groupData).eraseDups := by
        rw [List.map_map]
        exact List.map_id _
      simp only [Bool.false_eq_true, if_false]
      rw [hmap]
      exact Lib.nodup_eraseDups _

theorem mem_of_keyed {p : Bytes × List Bytes} (hp : p ∈ e.keyed rows) : ∀ r ∈ p.2, r ∈ rows := by
  unfold AggExecutor.keyed at hp
  cases hplain : e.plainAgg with
  | true =>
      rw [if_pos hplain, List.mem_singleton] at hp
      subst hp
      exact fun r hr => hr
  | false =>
      rw [if_neg (by simp [hplain])] at hp
      obtain ⟨k, -, rfl⟩ := List.mem_map.1 hp
      exact fun r hr => List.mem_of_mem_filter hr

end Keys

end Rmdb.Sql
