import Rmdb.Sql.Classes

/-!
# Rows of the executor

`drain_beginTuple`: the rows are the groups that pass `HAVING`, in the order of the groups.
`rowData_buildRow`: a row shows the data of its group, then the slot of each aggregate.
-/

namespace Rmdb.Sql

open Rmdb.Txn
open Rmdb.Query (TabCol Cols findCol)
open Rmdb.Lib (Groups)

/-! ## The iterator -/

section Iterator

variable {e : AggExecutor}

/-- `advance` stops at the first key that passes. -/
theorem advance_spec (ok : Bytes → Bool) : ∀ (ks : List Bytes) (i : Nat), ∃ pre post, ks = pre ++ post ∧
    AggExecutor.advance ok ks i = i + pre.length ∧ pre.filter ok = [] ∧
      ∀ k rest, post = k :: rest → ok k = true
  | [], i => ⟨[], [], rfl, rfl, rfl, by simp⟩
  | k :: ks, i => by
      cases hk : ok k with
      | true =>
          refine ⟨[], k :: ks, rfl, ?_, rfl, ?_⟩
          · simp [AggExecutor.advance, hk]
          · rintro k' rest h
            cases h
            exact hk
      | false =>
          obtain ⟨pre, post, hks, hadv, hpre, hpost⟩ := advance_spec ok ks (i + 1)
          refine ⟨k :: pre, post, by rw [hks]; rfl, ?_, ?_, hpost⟩
          · simp only [AggExecutor.advance, hk, Bool.false_eq_true, if_false, hadv, List.length_cons]
            omega
          · rw [List.filter_cons_of_neg (by simp [hk]), hpre]

/-- The run that looks for a group from the `i`th on. -/
def AggExecutor.resume (e : AggExecutor) (g : Groups Bytes (List AggState)) (i : Nat) (cur : Option Bytes) :
    AggRun :=
  e.buildCur (e.advanceToValid ⟨g, i, cur⟩)

def AggExecutor.groupRow (e : AggExecutor) (g : Groups Bytes (List AggState)) (key : Bytes) : Bytes :=
  e.buildRow ((g.get key).getD []) key

theorem drain_resume (g : Groups Bytes (List AggState)) : ∀ (fuel i : Nat) (cur : Option Bytes),
    i ≤ g.order.length → g.order.length - i ≤ fuel →
      e.drain fuel (e.resume g i cur) = some (((g.order.drop i).filter (e.groupOk g)).map (e.groupRow g)) := by
  intro fuel
  induction fuel with
  | zero =>
      intro i cur hi hfuel
      have hend : i = g.order.length := by omega
      subst hend
      have hidx : (e.resume g g.order.length cur).iterIdx = g.order.length := by
        show AggExecutor.advance _ (g.order.drop _) _ = _
        rw [List.drop_length]
        rfl
      have hisend : AggExecutor.isEnd (e.resume g g.order.length cur) = true := by
        unfold AggExecutor.isEnd
        rw [hidx]
        exact decide_eq_true (le_refl g.order.length)
      unfold AggExecutor.drain
      rw [if_pos hisend, List.drop_length]
      rfl
  | succ fuel ih =>
      intro i cur hi hfuel
      obtain ⟨pre, post, hdrop, hadv, hpre, hpost⟩ := advance_spec (e.groupOk g) (g.order.drop i) i
      have hidx : (e.resume g i cur).iterIdx = i + pre.length := hadv
      have hlen : g.order.length = i + (pre.length + post.length) := by
        have h := congrArg List.length hdrop
        rw [List.length_drop, List.length_append] at h
        omega
      have hrest : g.order.drop (i + pre.length) = post := by
        rw [← List.drop_drop, hdrop, List.drop_left]
      rw [hdrop, List.filter_append, hpre, List.nil_append]
      cases post with
      | nil =>
          have hisend : AggExecutor.isEnd (e.resume g i cur) = true := by
            unfold AggExecutor.isEnd
            rw [hidx]
            apply decide_eq_true
            show g.order.length ≤ _
            rw [List.length_nil] at hlen
            omega
          unfold AggExecutor.drain
          rw [if_pos hisend]
          rfl
      | cons k rest =>
          have hk := hpost k rest rfl
          rw [List.length_cons] at hlen
          have hisend : ¬ AggExecutor.isEnd (e.resume g i cur) = true := by
            unfold AggExecutor.isEnd
            rw [hidx, decide_eq_true_eq]
            show ¬ g.order.length ≤ _
            omega
          have hget : g.order[i + pre.length]? = some k := by
            rw [← List.head?_drop, hrest]
            rfl
          have hcur : (e.resume g i cur).curRec = some (e.groupRow g k) := by
            show (g.order[(e.resume g i cur).iterIdx]?).map _ = _
            rw [hidx, hget]
            rfl
          have hnext : e.nextTuple (e.resume g i cur) =
              e.resume g (i + pre.length + 1) (e.resume g i cur).curRec := by
            have hlt : (e.resume g i cur).iterIdx < (e.resume g i cur).groups.order.length := by
              rw [hidx]
              show _ < g.order.length
              omega
            unfold AggExecutor.nextTuple
            rw [if_pos hlt, ← hidx]
            rfl
          have hdrop' : g.order.drop (i + pre.length + 1) = rest := by
            rw [← List.drop_drop, hrest]
            rfl
          unfold AggExecutor.drain
          rw [if_neg hisend, hnext, ih _ _ (by omega) (by omega), hcur, hdrop', List.filter_cons_of_pos hk]
          rfl

/-- All rows of the executor over the records of its child. -/
def AggExecutor.output (e : AggExecutor) (rows : List Bytes) : Option (List Bytes) :=
  e.drain (rows.length + 1) (e.beginTuple rows)

theorem keyed_length (rows : List Bytes) : (e.keyed rows).length ≤ rows.length + 1 := by
  unfold AggExecutor.keyed
  cases e.plainAgg with
  | true => simp
  | false =>
      simp only [Bool.false_eq_true, if_false, List.length_map]
      have hsub : (rows.map e.makeGroupKey).eraseDups ⊆ rows.map e.makeGroupKey :=
        fun _ hx => List.mem_eraseDups.1 hx
      have hle := (List.subperm_of_subset (Lib.nodup_eraseDups _) hsub).length_le
      rw [List.length_map] at hle
      omega

theorem output_eq (rows : List Bytes) : e.output rows = some (((e.keyed rows).filter fun p =>
    e.satisfyHaving (e.aggExprs.map fun a => stateOf e.prevCols a p.2) p.1).map fun p =>
      e.buildRow (e.aggExprs.map fun a => stateOf e.prevCols a p.2) p.1) := by
  obtain ⟨horder, hget⟩ := groupsOf_spec (e := e) rows
  have hlen : (e.groupsOf rows).order.length - 0 ≤ rows.length + 1 := by
    rw [horder, List.length_map]
    have h := keyed_length (e := e) rows
    omega
  have hrun : e.beginTuple rows = e.resume (e.groupsOf rows) 0 none := rfl
  unfold AggExecutor.output
  rw [hrun, drain_resume _ _ _ _ (Nat.zero_le _) hlen, List.drop_zero, horder, List.filter_map, List.map_map]
  congr 1
  have hfilter : (e.keyed rows).filter (e.groupOk (e.groupsOf rows) ∘ Prod.fst) =
      (e.keyed rows).filter fun p =>
        e.satisfyHaving (e.aggExprs.map fun a => stateOf e.prevCols a p.2) p.1 := by
    apply List.filter_congr
    intro p hp
    show e.satisfyHaving _ _ = _
    rw [hget p hp]
    rfl
  rw [hfilter]
  apply List.map_congr_left
  intro p hp
  show e.buildRow _ _ = _
  rw [hget p (List.mem_of_mem_filter hp)]
  rfl

end Iterator

/-! ## The row of a group -/

section Row

variable {tabs : TabName → TabMeta} {prevCols : Cols} {e : AggExecutor} {gcs gs as : List ColMeta}

/-- The fields of the group columns are copied from behind the null bitmap. -/
theorem writeGroup_eq {ms : List ColMeta} {fields zeros : List Bytes} (h : Fields ms fields)
    (hz : Fields ms zeros) (kpre kpost pre post : Bytes) :
    AggExecutor.writeGroup (kpre ++ (fields.flatten ++ kpost)) kpre.length (placeCols pre.length ms)
      (pre ++ (zeros.flatten ++ post)) = pre ++ (fields.flatten ++ post) := by
  induction h generalizing zeros kpre pre with
  | nil =>
      cases hz
      rfl
  | @cons m f ms fields hf _ ih =>
      cases hz with
      | @cons _ z _ zeros hz hzs =>
          have hnext := ih hzs (kpre ++ f) (pre ++ f)
          rw [List.length_append, List.length_append, hf, List.append_assoc, List.append_assoc,
            List.append_assoc] at hnext
          rw [List.flatten_cons, List.flatten_cons, placeCols, AggExecutor.writeGroup, List.append_assoc,
            List.append_assoc, List.append_assoc]
          have hget : getBytes (kpre ++ (f ++ (fields.flatten ++ kpost))) kpre.length m.len = f := by
            rw [← hf]
            exact getBytes_mid _ _ _
          show AggExecutor.writeGroup _ _ _ (putBytes _ pre.length (getBytes _ kpre.length m.len)) = _
          rw [hget, putBytes_mid (hz.trans hf.symm)]
          exact hnext

/-- What a value leaves in its slot. -/
def slot (m : ColMeta) : Value → Bytes
  | .int v => wordBytes v
  | .float b => wordBytes b
  | .str s => s.take m.len ++ List.replicate (m.len - s.length) 0

/-- What an aggregate leaves in its slot; a `MIN` or `MAX` without value writes nothing. -/
def slotOf (m : ColMeta) (a : AggregateInfo) (st : AggState) : Bytes :=
  if (a.type = .max ∨ a.type = .min) ∧ st.hasValue = false then List.replicate m.len 0
  else slot m (getAggValue a st)

/-- The type of an aggregate in the output. -/
def outType (a : AggregateInfo) : ColType :=
  match a.type with
  | .count => .int
  | .avg => .float
  | _ => a.argType

/-- The column the planner gives an aggregate; a sum is not of text. -/
structure SlotOk (m : ColMeta) (a : AggregateInfo) : Prop where
  type : m.type = outType a
  word : m.type ≠ .string → m.len = 4
  sum : a.type = .sum → a.argType ≠ .string

theorem wordBytes_length (w : BitVec 32) : (wordBytes w).length = 4 := rfl

theorem writeString_eq {m : ColMeta} {pre z post : Bytes} (hoff : m.offset = pre.length) (hz : z.length = m.len)
    (s : Bytes) : AggExecutor.writeString m s (pre ++ (z ++ post)) = pre ++ (slot m (.str s) ++ post) := by
  have hzero : List.replicate m.len (0 : UInt8) =
      List.replicate (s.take m.len).length 0 ++ List.replicate (m.len - s.length) 0 := by
    rw [List.replicate_append_replicate, List.length_take]
    congr 1
    omega
  unfold AggExecutor.writeString
  rw [hoff, putBytes_mid (by rw [hz, List.length_replicate])]
  rw [hzero, List.append_assoc, putBytes_mid (by rw [List.length_replicate])]
  show _ = pre ++ ((s.take m.len ++ List.replicate (m.len - s.length) 0) ++ post)
  rw [List.append_assoc]

theorem writeAgg_eq {m : ColMeta} {a : AggregateInfo} (hok : SlotOk m a) {pre : Bytes}
    (hoff : m.offset = pre.length) (st : AggState) (post : Bytes) :
    AggExecutor.writeAgg m a st (pre ++ (List.replicate m.len 0 ++ post)) =
      pre ++ (slotOf m a st ++ post) := by
  have hword : ∀ w, m.type ≠ .string → putWord (pre ++ (List.replicate m.len 0 ++ post)) m.offset w =
      pre ++ (wordBytes w ++ post) := by
    intro w hint
    unfold putWord
    rw [hoff]
    apply putBytes_mid
    rw [List.length_replicate, hok.word hint, wordBytes_length]
  have hstring : ∀ s, AggExecutor.writeString m s (pre ++ (List.replicate m.len 0 ++ post)) =
      pre ++ (slot m (.str s) ++ post) := fun s => writeString_eq hoff List.length_replicate s
  have htype := hok.type
  cases ht : a.type with
  | avg =>
      simp only [outType, ht] at htype
      simp only [AggExecutor.writeAgg, slotOf, getAggValue, ht, reduceCtorEq, or_self, false_and, if_false]
      exact hword _ (by rw [htype]; decide)
  | count =>
      simp only [outType, ht] at htype
      simp only [AggExecutor.writeAgg, slotOf, getAggValue, ht, reduceCtorEq, or_self, false_and, if_false]
      exact hword _ (by rw [htype]; decide)
  | sum =>
      have hsum := hok.sum ht
      simp only [outType, ht] at htype
      simp only [AggExecutor.writeAgg, slotOf, getAggValue, ht, htype, reduceCtorEq, or_self, false_and,
        if_false]
      cases harg : a.argType with
      | string => exact absurd harg hsum
      | int => exact hword _ (by rw [htype, harg]; decide)
      | float => exact hword _ (by rw [htype, harg]; decide)
  | max =>
      simp only [outType, ht] at htype
      simp only [AggExecutor.writeAgg, slotOf, getAggValue, ht, ← htype, reduceCtorEq, or_false, true_and]
      cases st.hasValue with
      | false => rfl
      | true =>
          simp only [Bool.true_eq_false, if_false, if_true]
          cases hm : m.type with
          | float => exact hword _ (by rw [hm]; decide)
          | int => exact hword _ (by rw [hm]; decide)
          | string => exact hstring _
  | min =>
      simp only [outType, ht] at htype
      simp only [AggExecutor.writeAgg, slotOf, getAggValue, ht, ← htype, reduceCtorEq, false_or, true_and]
      cases st.hasValue with
      | false => rfl
      | true =>
          simp only [Bool.true_eq_false, if_false, if_true]
          cases hm : m.type with
          | float => exact hword _ (by rw [hm]; decide)
          | int => exact hword _ (by rw [hm]; decide)
          | string => exact hstring _

/-- The slots one after another. -/
def slots : List ColMeta → List AggregateInfo → List AggState → List Bytes
  | m :: ms, a :: as, st :: sts => slotOf m a st :: slots ms as sts
  | _, _, _ => []

theorem slot_length {m : ColMeta} {v : Value} (hw : v.type ≠ .string → m.len = 4) :
    (slot m v).length = m.len := by
  cases v with
  | int w => exact (hw (by rintro ⟨⟩)).symm
  | float b => exact (hw (by rintro ⟨⟩)).symm
  | str s =>
      show (s.take m.len ++ List.replicate (m.len - s.length) 0).length = m.len
      rw [List.length_append, List.length_take, List.length_replicate]
      omega

theorem getAggValue_type {m : ColMeta} {a : AggregateInfo} (hok : SlotOk m a) {st : AggState}
    (hv : ¬ ((a.type = .max ∨ a.type = .min) ∧ st.hasValue = false)) : (getAggValue a st).type = m.type := by
  rw [hok.type]
  cases ht : a.type with
  | avg =>
      simp only [getAggValue, outType, ht]
      rfl
  | count =>
      simp only [getAggValue, outType, ht]
      rfl
  | sum =>
      have hsum := hok.sum ht
      simp only [getAggValue, outType, ht]
      cases harg : a.argType with
      | string => exact absurd harg hsum
      | int => rfl
      | float => rfl
  | max =>
      have hvalue : st.hasValue = true := by simpa [ht] using hv
      simp only [getAggValue, outType, ht, hvalue, if_true]
      cases a.argType <;> rfl
  | min =>
      have hvalue : st.hasValue = true := by simpa [ht] using hv
      simp only [getAggValue, outType, ht, hvalue, if_true]
      cases a.argType <;> rfl

theorem slotOf_length {m : ColMeta} {a : AggregateInfo} (hok : SlotOk m a) (st : AggState) :
    (slotOf m a st).length = m.len := by
  unfold slotOf
  by_cases hv : (a.type = .max ∨ a.type = .min) ∧ st.hasValue = false
  · rw [if_pos hv, List.length_replicate]
  · rw [if_neg hv]
    apply slot_length
    rw [getAggValue_type hok hv]
    exact hok.word

theorem writeAggs_eq {ms : List ColMeta} {aggs : List AggregateInfo} (h : List.Forall₂ SlotOk ms aggs)
    {states : List AggState} (hlen : states.length = aggs.length) (pre post : Bytes) :
    AggExecutor.writeAggs (placeCols pre.length ms) aggs states
        (pre ++ (List.replicate (widths ms) 0 ++ post)) =
      pre ++ ((slots ms aggs states).flatten ++ post) ∧ Fields ms (slots ms aggs states) := by
  induction h generalizing states pre with
  | nil => exact ⟨rfl, .nil⟩
  | @cons m a ms aggs hok _ ih =>
      cases states with
      | nil => cases hlen
      | cons st states =>
          have hz : List.replicate (widths (m :: ms)) (0 : UInt8) =
              List.replicate m.len 0 ++ List.replicate (widths ms) 0 := by
            rw [List.replicate_append_replicate]
            rfl
          have hslot := slotOf_length hok st
          obtain ⟨hrest, hfields⟩ := ih (Nat.succ.inj hlen) (pre ++ slotOf m a st)
          rw [List.length_append, hslot, List.append_assoc, List.append_assoc] at hrest
          refine ⟨?_, .cons hslot hfields⟩
          have hwrite := writeAgg_eq (m := { m with offset := pre.length })
            ⟨hok.type, hok.word, hok.sum⟩ rfl st (List.replicate (widths ms) 0 ++ post)
          rw [hz, placeCols, AggExecutor.writeAggs, List.append_assoc, hwrite]
          show AggExecutor.writeAggs _ aggs states (pre ++ (slotOf m a st ++ _)) = _
          rw [hrest]
          show _ = pre ++ ((slotOf m a st ++ (slots ms aggs states).flatten) ++ post)
          rw [List.append_assoc]

theorem replicate_widths (ms : List ColMeta) : List.replicate (widths ms) (0 : UInt8) =
    (ms.map fun m => List.replicate m.len 0).flatten ∧ Fields ms (ms.map fun m => List.replicate m.len 0) := by
  induction ms with
  | nil => exact ⟨rfl, .nil⟩
  | cons m ms ih =>
      constructor
      · rw [List.map_cons, List.flatten_cons, ← ih.1, List.replicate_append_replicate]
        rfl
      · exact .cons List.length_replicate ih.2

theorem len_place (ms : List ColMeta) (off : Nat) (hms : ms ≠ []) :
    ∃ c, (placeCols off ms).getLast? = some c ∧ c.offset + c.len = off + widths ms := by
  induction ms generalizing off with
  | nil => exact absurd rfl hms
  | cons m ms ih =>
      have hw : widths (m :: ms) = m.len + widths ms := rfl
      cases ms with
      | nil => exact ⟨{ m with offset := off }, rfl, by rw [hw]; rfl⟩
      | cons n ms =>
          obtain ⟨c, hc, hlen⟩ := ih (off + m.len) (by simp)
          refine ⟨c, ?_, by rw [hlen, hw, Nat.add_assoc]⟩
          rw [placeCols, List.getLast?_cons, hc]
          rfl

theorem Layout.len (h : Layout tabs e gcs gs as) : e.len = widths (gs ++ as) := by
  unfold AggExecutor.len
  rw [h.cols]
  by_cases hms : gs ++ as = []
  · rw [hms]
    rfl
  · obtain ⟨c, hc, hlen⟩ := len_place (gs ++ as) 0 hms
    rw [hc]
    exact hlen.trans (Nat.zero_add _)

theorem widths_append (ms ns : List ColMeta) : widths (ms ++ ns) = widths ms + widths ns := by
  unfold widths
  rw [List.map_append, List.sum_append]

theorem rowData_append (ms ns : List ColMeta) (data : Bytes) :
    rowData (ms ++ ns) data = rowData ms data ++ rowData ns data := List.map_append

/-- The data of a row: those of the key, then the slots. -/
theorem rowData_buildRow (h : Layout tabs e gcs gs as) (hslots : List.Forall₂ SlotOk as e.aggExprs)
    {fields : List Bytes} (hf : Fields gs fields) {states : List AggState}
    (hlen : states.length = e.aggExprs.length) :
    rowData e.cols (e.buildRow states (List.replicate e.bitmapLen 0 ++ (fields.flatten ++ []))) =
      List.zipWith (fun m f => fieldDatum m.type f) gs fields ++
        List.zipWith (fun m f => fieldDatum m.type f) as (slots as e.aggExprs states) := by
  have hcols : e.cols = placeCols 0 gs ++ placeCols (widths gs) as := by
    rw [h.cols, placeCols_append, Nat.zero_add]
  have hcount : e.groupCols.length = (placeCols 0 gs).length := by rw [h.length, placeCols_length]
  have htake : e.cols.take e.groupCols.length = placeCols 0 gs := by rw [hcols, hcount, List.take_left]
  have hdrop : e.cols.drop e.groupCols.length = placeCols (widths gs) as := by rw [hcols, hcount, List.drop_left]
  have hwidth : fields.flatten.length = widths gs := hf.flatten_length
  have hzero : List.replicate e.len (0 : UInt8) = [] ++
      ((gs.map fun m => List.replicate m.len 0).flatten ++ List.replicate (widths as) 0) := by
    rw [h.len, widths_append, ← List.replicate_append_replicate, (replicate_widths gs).1, List.nil_append]
  obtain ⟨haggs, hfields⟩ := writeAggs_eq hslots hlen fields.flatten []
  have hgroup := writeGroup_eq hf (replicate_widths gs).2 (List.replicate e.bitmapLen 0) [] []
    (List.replicate (widths as) 0)
  rw [List.length_replicate] at hgroup
  have hrow : e.buildRow states (List.replicate e.bitmapLen 0 ++ (fields.flatten ++ [])) =
      fields.flatten ++ ((slots as e.aggExprs states).flatten ++ []) := by
    unfold AggExecutor.buildRow
    rw [htake, hdrop, hzero]
    show AggExecutor.writeAggs _ _ _ (AggExecutor.writeGroup _ _ (placeCols ([] : Bytes).length gs) _) = _
    rw [hgroup, ← hwidth, List.nil_append]
    rw [List.append_nil] at haggs
    exact haggs
  have hleft := rowData_place hf [] ((slots as e.aggExprs states).flatten ++ [])
  have hright := rowData_place hfields fields.flatten []
  rw [hwidth] at hright
  rw [hrow, hcols, rowData_append]
  exact congrArg₂ (· ++ ·) hleft hright

/-- The key of a group and the fields behind its bitmap. -/
theorem fields_of_keyed (h : Layout tabs e gcs gs as) {rows : List Bytes}
    (hrows : ∀ r ∈ rows, RecordOk e.prevCols r) {p : Bytes × List Bytes} (hp : p ∈ e.keyed rows) :
    ∃ fields, Fields gs fields ∧ p.1 = List.replicate e.bitmapLen 0 ++ (fields.flatten ++ []) ∧
      List.zipWith (fun m f => fieldDatum m.type f) gs fields = e.keyData p.1 := by
  unfold AggExecutor.keyed at hp
  cases hplain : e.plainAgg with
  | true =>
      have hnil : e.groupCols = [] := List.isEmpty_iff.1 hplain
      have hgs : gs = [] := by
        have hl := h.length
        rw [hnil] at hl
        exact List.length_eq_zero_iff.1 hl.symm
      have hbitmap : e.bitmapLen = 0 := by
        unfold AggExecutor.bitmapLen
        rw [hnil]
        rfl
      rw [if_pos hplain, List.mem_singleton] at hp
      subst hp hgs
      refine ⟨[], .nil, by rw [hbitmap]; rfl, ?_⟩
      simp only [AggExecutor.keyData, hnil, List.filterMap_nil, placeCols, rowData, List.map_nil,
        List.zipWith_nil_left]
  | false =>
      rw [if_neg (by simp [hplain])] at hp
      obtain ⟨k, hk, rfl⟩ := List.mem_map.1 hp
      obtain ⟨r, hr, rfl⟩ := List.mem_map.1 (List.mem_eraseDups.1 hk)
      have hfound := fields_found e.groupCols (hrows r hr)
      rw [h.found] at hfound
      have hfields : Fields gs (gcs.map fun c => colBytes c r) ∧
          List.zipWith (fun m f => fieldDatum m.type f) gs (gcs.map fun c => colBytes c r) =
            gcs.map fun c => colDatum c r := by
        have hshape := h.shape
        clear h hk hp
        induction hshape with
        | nil => exact ⟨.nil, rfl⟩
        | @cons c m gcs gs hcm _ ih =>
            cases hfound with
            | cons hf hfs =>
                obtain ⟨h1, h2⟩ := ih hfs
                refine ⟨.cons (hf.trans hcm.2.symm) h1, ?_⟩
                rw [List.map_cons, List.zipWith_cons_cons, h2, hcm.1]
                rfl
      refine ⟨gcs.map fun c => colBytes c r, hfields.1, ?_, ?_⟩
      · rw [← h.found]
        exact makeGroupKey_eq hplain r
      · rw [hfields.2, keyData_makeGroupKey (hrows r hr), AggExecutor.groupData, h.found]

end Row

end Rmdb.Sql
