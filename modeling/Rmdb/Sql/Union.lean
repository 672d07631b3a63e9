import Rmdb.Sql.UnionCols

/-!
# UNION

The executor copies each record to the common columns (`writeRow_fits`) and drops copies it has
seen, byte by byte (`beginTuple_spec`).  The union is right exactly when the inferred columns
are wide enough for those the children have (`union_right_iff`).
-/

namespace Rmdb.Sql

open Rmdb.Txn
open Rmdb.Query (TabCol Cols findCol)

/-! ## Copies -/

section Copies

variable {ms rs : List ColMeta} {m r : ColMeta} {data : Bytes}

/-- A column whose values fit another one. -/
structure Fits (m r : ColMeta) : Prop where
  type : r.type = m.type
  float : m.type ≠ .float
  word : m.type ≠ .string → m.len = 4 ∧ r.len = 4
  width : m.type = .string → r.len ≤ m.len

theorem text_append_zeros (b : Bytes) (n : Nat) : text (b ++ List.replicate n 0) = text b := by
  unfold text
  rw [List.takeWhile_append]
  split
  · rename_i h
    have hnone : (List.replicate n (0 : UInt8)).takeWhile (fun x => decide (x ≠ 0)) = [] := by
      cases n with
      | zero => rfl
      | succ n => rfl
    rw [hnone, List.append_nil]
    exact ((List.takeWhile_prefix _).eq_of_length h).symm
  · rfl

theorem writeValue_fits (h : Fits m r) (hf : FieldOk r.type r.len (colBytes r data)) {pre z : Bytes}
    (hoff : m.offset = pre.length) (hz : z.length = m.len) (post : Bytes) :
    ∃ f, UnionExecutor.writeValue m r data (pre ++ (z ++ post)) = some (pre ++ (f ++ post)) ∧
      FieldOk m.type m.len f ∧ fieldDatum m.type f = colDatum r data := by
  have htype := h.type
  cases hm : m.type with
  | float => exact absurd hm h.float
  | int =>
      obtain ⟨hm4, hr4⟩ := h.word (by rw [hm]; decide)
      rw [hm] at htype
      refine ⟨colBytes r data, ?_, ?_, ?_⟩
      · unfold UnionExecutor.writeValue
        rw [hm, htype, hoff]
        show some (putBytes _ _ (getBytes data r.offset 4)) = _
        have hsrc : getBytes data r.offset 4 = colBytes r data := by
          unfold colBytes
          rw [hr4]
        rw [hsrc, putBytes_mid (by rw [hz, hf.length, hm4, hr4])]
      · refine ⟨?_, fun _ => hm4, by rintro ⟨⟩⟩
        rw [hf.length, hm4, hr4]
      · unfold colDatum
        rw [htype]
  | string =>
      have hle := h.width hm
      rw [hm] at htype
      refine ⟨colBytes r data ++ List.replicate (m.len - r.len) 0, ?_, ?_, ?_⟩
      · unfold UnionExecutor.writeValue
        rw [hm, htype, hoff, min_eq_right hle]
        show some (putBytes (putBytes _ _ _) _ (colBytes r data)) = _
        have hzero : List.replicate m.len (0 : UInt8) =
            List.replicate (colBytes r data).length 0 ++ List.replicate (m.len - r.len) 0 := by
          rw [List.replicate_append_replicate, hf.length]
          congr 1
          omega
        rw [putBytes_mid (by rw [hz, List.length_replicate]), hzero, List.append_assoc,
          putBytes_mid (by rw [List.length_replicate]), List.append_assoc]
      · refine ⟨?_, fun hs => absurd rfl hs, fun _ => ?_⟩
        · rw [List.length_append, List.length_replicate, hf.length]
          omega
        · rw [hf.padded htype, List.append_assoc, List.replicate_append_replicate]
          exact padded_pad (text_ne_zero _) _
      · unfold colDatum
        rw [htype]
        exact congrArg Datum.str (text_append_zeros _ _)

/-- The copy of a record: its fields in the common widths. -/
theorem writeRow_fits (h : List.Forall₂ Fits ms rs) (hrow : RowOk rs data) {rest : Bytes}
    (hrest : rest.length = widths ms) (pre : Bytes) :
    ∃ fields, UnionExecutor.writeRow (placeCols pre.length ms) rs data (pre ++ rest) = some (pre ++ fields.flatten) ∧
      List.Forall₂ (fun m f => FieldOk m.type m.len f) ms fields ∧
      List.zipWith (fun m f => fieldDatum m.type f) ms fields = rowData rs data := by
  induction h generalizing rest pre with
  | nil =>
      have hnil : rest = [] := List.length_eq_zero_iff.1 hrest
      subst hnil
      exact ⟨[], rfl, .nil, rfl⟩
  | @cons m r ms rs hmr _ ih =>
      have hw : widths (m :: ms) = m.len + widths ms := rfl
      have hz : (rest.take m.len).length = m.len := by
        rw [List.length_take]
        omega
      obtain ⟨f, hwrite, hfield, hdatum⟩ := writeValue_fits (m := { m with offset := pre.length })
        ⟨hmr.type, hmr.float, hmr.word, hmr.width⟩ (hrow r List.mem_cons_self) rfl hz (rest.drop m.len)
      have hdrop : (rest.drop m.len).length = widths ms := by
        rw [List.length_drop]
        omega
      obtain ⟨fields, hrow', hfields, hdata⟩ := ih (fun c hc => hrow c (List.mem_cons_of_mem _ hc)) hdrop (pre ++ f)
      have hflen : f.length = m.len := hfield.length
      rw [List.length_append, hflen, List.append_assoc, List.append_assoc] at hrow'
      refine ⟨f :: fields, ?_, .cons hfield hfields, ?_⟩
      · rw [List.take_append_drop] at hwrite
        rw [placeCols, UnionExecutor.writeRow, hwrite, Option.bind_some, hrow', List.flatten_cons]
      · rw [List.zipWith_cons_cons, hdata]
        exact congrArg (· :: _) hdatum

theorem fields_inj {fs gs : List Bytes} (hf : List.Forall₂ (fun m f => FieldOk m.type m.len f) ms fs)
    (hg : List.Forall₂ (fun m f => FieldOk m.type m.len f) ms gs)
    (h : List.zipWith (fun m f => fieldDatum m.type f) ms fs = List.zipWith (fun m f => fieldDatum m.type f) ms gs) :
    fs = gs := by
  induction hf generalizing gs with
  | nil =>
      cases hg
      rfl
  | @cons m f ms fs hmf _ ih =>
      cases hg with
      | cons hmg hgs =>
          rw [List.zipWith_cons_cons, List.zipWith_cons_cons, List.cons.injEq] at h
          rw [fieldDatum_inj hmf hmg h.1, ih hgs h.2]

/-- What the executor has made of a record. -/
def Copied (ms : List ColMeta) (rs : List ColMeta) (p : Bytes × Bytes) (o : Bytes) : Prop :=
  (∃ fields, o = fields.flatten ∧ List.Forall₂ (fun m f => FieldOk m.type m.len f) ms fields) ∧
    rowData (placeCols 0 ms) o = rowData rs p.1

theorem exists_copied (h : List.Forall₂ Fits ms rs) {p : Bytes × Bytes} (hrow : RowOk rs p.1)
    (hbuf : p.2.length = widths ms) :
    ∃ o, UnionExecutor.writeRow (placeCols 0 ms) rs p.1 p.2 = some o ∧ Copied ms rs p o := by
  obtain ⟨fields, hwrite, hfields, hdata⟩ := writeRow_fits h hrow hbuf []
  have hlen : Fields ms fields := hfields.imp fun _ _ hf => hf.length
  have hplace := rowData_place hlen [] []
  rw [List.append_nil] at hplace
  exact ⟨fields.flatten, hwrite, ⟨fields, rfl, hfields⟩, hplace.trans hdata⟩

theorem Copied.inj {rs' : List ColMeta} {p q : Bytes × Bytes} {o o' : Bytes} (h : Copied ms rs p o)
    (h' : Copied ms rs' q o') (heq : rowData (placeCols 0 ms) o = rowData (placeCols 0 ms) o') : o = o' := by
  obtain ⟨⟨fields, rfl, hf⟩, -⟩ := h
  obtain ⟨⟨fields', rfl, hf'⟩, -⟩ := h'
  have hplace := rowData_place (hf.imp fun _ _ hf => hf.length : Fields ms fields) [] []
  have hplace' := rowData_place (hf'.imp fun _ _ hf => hf.length : Fields ms fields') [] []
  rw [List.append_nil] at hplace hplace'
  have h := hplace.symm.trans (heq.trans hplace')
  rw [fields_inj hf hf' h]

end Copies

/-! ## The rows of a union -/

section Rows

variable {tabs : TabName → TabMeta} {types : List ColType} {qs : List SelectQuery} {ms rs : List ColMeta}

theorem mem_right_of_forall₂ {α β : Type} {f : α → Option β} {xs : List α} {ys : List β}
    (h : List.Forall₂ (fun x y => f x = some y) xs ys) {x : α} (hx : x ∈ xs) {y : β} (hy : f x = some y) : y ∈ ys := by
  induction h with
  | nil => cases hx
  | cons hxy _ ih =>
      rcases List.mem_cons.1 hx with rfl | hx
      · rw [hy] at hxy
        cases hxy
        exact List.mem_cons_self
      · exact List.mem_cons_of_mem _ (ih hx)

theorem mem_left_of_forall₂ {α β : Type} {R : α → β → Prop} {xs : List α} {ys : List β}
    (h : List.Forall₂ R xs ys) {y : β} (hy : y ∈ ys) : ∃ x ∈ xs, R x y := by
  induction h with
  | nil => cases hy
  | cons hxy _ ih =>
      rcases List.mem_cons.1 hy with rfl | hy
      · exact ⟨_, List.mem_cons_self, hxy⟩
      · obtain ⟨x, hx, hr⟩ := ih hy
        exact ⟨x, List.mem_cons_of_mem _ hx, hr⟩

theorem mapM_exists {α β : Type} {f : α → Option β} {P : α → β → Prop} {xs : List α}
    (h : ∀ x ∈ xs, ∃ y, f x = some y ∧ P x y) : ∃ ys, xs.mapM f = some ys ∧ List.Forall₂ P xs ys := by
  induction xs with
  | nil => exact ⟨[], rfl, .nil⟩
  | cons x xs ih =>
      obtain ⟨y, hy, hp⟩ := h x List.mem_cons_self
      obtain ⟨ys, hys, hall⟩ := ih fun x' hx' => h x' (List.mem_cons_of_mem _ hx')
      refine ⟨y :: ys, ?_, .cons hp hall⟩
      rw [List.mapM_cons, hy, hys]
      rfl

theorem copied_rows {ps : List (Bytes × Bytes)} {os : List Bytes} (h : List.Forall₂ (Copied ms rs) ps os) :
    os.map (rowData (placeCols 0 ms)) = ps.map (fun p => rowData rs p.1) ∧ ∀ o ∈ os, ∃ p, Copied ms rs p o := by
  induction h with
  | nil => exact ⟨rfl, by simp⟩
  | cons ho _ ih =>
      refine ⟨?_, ?_⟩
      · rw [List.map_cons, List.map_cons, ih.1, ho.2]
      · intro o' ho'
        rcases List.mem_cons.1 ho' with rfl | ho'
        · exact ⟨_, ho⟩
        · exact ih.2 o' ho'

/-- Children whose columns fit the common ones are merged as sets of rows. -/
theorem beginTuple_spec {children : List UnionExecutor.Child}
    (h : ∀ ch ∈ children, List.Forall₂ Fits ms ch.cols ∧
      ∀ p ∈ ch.rows, RowOk ch.cols p.1 ∧ p.2.length = widths (placeCols 0 ms)) :
    ∃ out, UnionExecutor.beginTuple (placeCols 0 ms) children = some out ∧
      out.map (rowData (placeCols 0 ms)) = (childData children).eraseDups := by
  have hrows : ∀ ch ∈ children, ∃ os, UnionExecutor.childRows (placeCols 0 ms) ch = some os ∧
      List.Forall₂ (Copied ms ch.cols) ch.rows os := by
    intro ch hch
    obtain ⟨hfits, hrecs⟩ := h ch hch
    obtain ⟨os, hos, hall⟩ := mapM_exists (P := Copied ms ch.cols)
      (f := fun p => UnionExecutor.writeRow (placeCols 0 ms) ch.cols p.1 p.2) fun p hp =>
        exists_copied hfits (hrecs p hp).1 ((hrecs p hp).2.trans (widths_placeCols 0 ms))
    refine ⟨os, ?_, hall⟩
    unfold UnionExecutor.childRows
    rw [if_neg (by rw [placeCols_length, hfits.length_eq]; exact not_not_intro rfl), hos]
  obtain ⟨rowss, hrowss, hall⟩ := mapM_exists hrows
  have hdata : rowss.flatten.map (rowData (placeCols 0 ms)) = childData children ∧
      ∀ o ∈ rowss.flatten, ∃ rs p, Copied ms rs p o := by
    clear h hrows hrowss
    induction hall with
    | nil => exact ⟨rfl, by simp⟩
    | @cons ch os children rowss hos _ ih =>
        obtain ⟨ih1, ih2⟩ := ih
        have hhead := copied_rows hos
        constructor
        · unfold childData at ih1 ⊢
          rw [List.flatten_cons, List.map_append, List.flatMap_cons, hhead.1, ih1]
        · intro o ho
          rw [List.flatten_cons] at ho
          rcases List.mem_append.1 ho with ho | ho
          · exact ⟨_, hhead.2 o ho⟩
          · exact ih2 o ho
  refine ⟨rowss.flatten.foldl Lib.pushNew [], ?_, ?_⟩
  · unfold UnionExecutor.beginTuple
    rw [hrowss]
    rfl
  · rw [Lib.foldl_pushNew, ← Lib.map_eraseDups_of_inj, hdata.1]
    intro o ho o' ho' heq
    obtain ⟨rs, p, hc⟩ := hdata.2 o ho
    obtain ⟨rs', p', hc'⟩ := hdata.2 o' ho'
    exact hc.inj hc' heq

/-- Columns as wide as some inferred ones of their positions fit the common columns. -/
theorem fits_of_wide (hok : UnionOk tabs types qs) (hwide : Wide tabs qs) {css : List (List ColMeta)}
    (hall : List.Forall₂ (fun q cs => inferSelectOutputCols tabs q = some cs) qs css) (hw : Widest types css ms)
    {q : SelectQuery} (hq : q ∈ qs) (hrs : childCols tabs q = some rs) : List.Forall₂ Fits ms rs := by
  obtain ⟨cs, hcs, hct⟩ := hok.inferred q hq
  have hlen : ms.length = rs.length := by
    have h1 := congrArg List.length (hw.types.trans hct.symm)
    rw [List.length_map, List.length_map] at h1
    rw [h1, childCols_length hcs hrs]
  rw [List.forall₂_iff_get]
  refine ⟨hlen, ?_⟩
  intro j hj hj'
  have hm : ms[j]? = some ms[j] := List.getElem?_eq_getElem hj
  have hr : rs[j]? = some rs[j] := List.getElem?_eq_getElem hj'
  obtain ⟨q', hq', cs', c, hcs', hc, htype, hle⟩ := hwide q hq rs hrs j _ hr
  -- the inferred columns of a position have the type of the common one
  have hmem : cs' ∈ css := mem_right_of_forall₂ hall hq' hcs'
  have hct' : c.type = ms[j].type := by
    obtain ⟨cs'', hcs'', hct''⟩ := hok.inferred q' hq'
    rw [hcs'] at hcs''
    cases hcs''
    have h1 : (cs'.map ColMeta.type)[j]? = some c.type := by rw [List.getElem?_map, hc]; rfl
    have h2 : (ms.map ColMeta.type)[j]? = some ms[j].type := by rw [List.getElem?_map, hm]; rfl
    rw [hct'', ← hw.types, h2] at h1
    exact (Option.some.inj h1).symm
  have hrt : rs[j].type = ms[j].type := htype.symm.trans hct'
  refine ⟨hrt, ?_, ?_, ?_⟩
  · apply hok.discrete
    rw [← hw.types]
    exact List.mem_map_of_mem (List.getElem_mem hj)
  · intro hstr
    obtain ⟨cs'', hmem', c', hc', hct'', hlen'⟩ := hw.reached j _ hm
    obtain ⟨q'', -, hq''⟩ := mem_left_of_forall₂ hall hmem'
    have h4 := infer_words hok.words hq'' c' (List.mem_of_getElem? hc') (by rwa [hct''])
    have h4' := child_words hok.words hrs rs[j] (List.getElem_mem hj') (by rwa [hrt])
    exact ⟨hlen'.trans h4, h4'⟩
  · intro hstr
    exact hle.trans (hw.bound cs' hmem j _ c hm hc hstr)

/-! ## A record of the longest texts -/

/-- A field of a column: the longest text, or zero. -/
def longField (c : ColMeta) : Bytes := List.replicate c.len (if c.type = .string then 97 else 0)

def longRecord (cols : List ColMeta) : Bytes := (cols.map longField).flatten

theorem longField_text {c : ColMeta} (h : c.type = .string) : ∀ b ∈ longField c, b ≠ 0 := by
  intro b hb
  unfold longField at hb
  rw [if_pos h] at hb
  rw [(List.mem_replicate.1 hb).2]
  decide

theorem text_longField {c : ColMeta} (h : c.type = .string) : text (longField c) = longField c := by
  have htext := text_of_pad (longField_text h) 0
  rwa [List.replicate_zero, List.append_nil] at htext

theorem longField_ok {c : ColMeta} (h : Query.Words c) : FieldOk c.type c.len (longField c) := by
  refine ⟨List.length_replicate, h, ?_⟩
  intro htype
  have hpad := padded_pad (longField_text htype) 0
  rwa [List.replicate_zero, List.append_nil] at hpad

theorem colBytes_place {fields : List Bytes} (h : Fields rs fields) (pre post : Bytes) :
    List.Forall₂ (fun c f => colBytes c (pre ++ (fields.flatten ++ post)) = f) (placeCols pre.length rs) fields := by
  induction h generalizing pre with
  | nil => exact .nil
  | @cons m f rs fields hf _ ih =>
      have hrest := ih (pre ++ f)
      rw [List.length_append, hf, List.append_assoc] at hrest
      rw [List.flatten_cons, List.append_assoc]
      refine .cons ?_ hrest
      show getBytes _ pre.length m.len = f
      rw [← hf, getBytes_mid]

theorem longRecord_field {c : ColMeta} (hc : c ∈ placeCols 0 rs) :
    colBytes c (longRecord (placeCols 0 rs)) = longField c := by
  have hfields : ∀ (off : Nat) (ns : List ColMeta), Fields ns ((placeCols off ns).map longField) := by
    intro off ns
    induction ns generalizing off with
    | nil => exact .nil
    | cons n ns ih => exact .cons List.length_replicate (ih _)
  have hall := colBytes_place (hfields 0 rs) [] []
  rw [List.append_nil, List.nil_append, List.length_nil, List.forall₂_map_right_iff, List.forall₂_same] at hall
  exact hall c hc

theorem childCols_placed {q : SelectQuery} (h : childCols tabs q = some rs) : ∃ ns, rs = placeCols 0 ns := by
  unfold childCols at h
  by_cases hg : q.grouped = true
  · rw [if_pos hg] at h
    obtain ⟨prev, -, h⟩ := Option.bind_eq_some_iff.1 h
    obtain ⟨ns, -, h⟩ := Option.map_eq_some_iff.1 h
    exact ⟨ns, h.symm⟩
  · rw [if_neg hg] at h
    obtain ⟨ns, -, h⟩ := Option.map_eq_some_iff.1 h
    exact ⟨ns, h.symm⟩

/-- One of the children may give any one record, the others none. -/
theorem exists_children {cols : List ColMeta} (hplanned : ∀ q ∈ qs, ∃ rs, childCols tabs q = some rs)
    {q : SelectQuery} (hq : q ∈ qs) (hrs : childCols tabs q = some rs) {p : Bytes × Bytes} (hp : RowOk rs p.1)
    (hbuf : p.2.length = widths cols) :
    ∃ children, Children tabs cols qs children ∧ childData children = [rowData rs p.1] := by
  have hnone : ∀ {qs : List SelectQuery}, (∀ q ∈ qs, ∃ rs, childCols tabs q = some rs) →
      ∃ children, Children tabs cols qs children ∧ childData children = [] := by
    intro qs
    induction qs with
    | nil => exact fun _ => ⟨[], .nil, rfl⟩
    | cons q qs ih =>
        intro h
        obtain ⟨ns, hns⟩ := h q List.mem_cons_self
        obtain ⟨children, hch, hdata⟩ := ih fun q' hq' => h q' (List.mem_cons_of_mem _ hq')
        exact ⟨⟨ns, []⟩ :: children, .cons ⟨hns, by simp⟩ hch, hdata⟩
  induction qs with
  | nil => cases hq
  | cons q' qs ih =>
      have hrest := fun q'' hq'' => hplanned q'' (List.mem_cons_of_mem q' hq'')
      rcases List.mem_cons.1 hq with rfl | hq
      · obtain ⟨children, hch, hdata⟩ := hnone hrest
        refine ⟨⟨rs, [p]⟩ :: children, .cons ⟨hrs, ?_⟩ hch, ?_⟩
        · intro p' hp'
          rw [List.mem_singleton.1 hp']
          exact ⟨hp, hbuf⟩
        · show [rowData rs p.1] ++ childData children = _
          rw [hdata]
          rfl
      · obtain ⟨ns, hns⟩ := hplanned q' List.mem_cons_self
        obtain ⟨children, hch, hdata⟩ := ih hrest hq
        exact ⟨⟨ns, []⟩ :: children, .cons ⟨hns, by simp⟩ hch, hdata⟩

theorem fieldDatum_type (t : ColType) (b : Bytes) : (fieldDatum t b).type = t := by
  cases t <;> rfl

/-- A `UNION` is right exactly when every column of a child is of the type inferred for its
position and, in some query of the union, inferred as wide. -/
theorem union_right_iff (hok : UnionOk tabs types qs) : UnionRight tabs qs ↔ Wide tabs qs := by
  obtain ⟨css, ms, hcols, hall, hw⟩ := unionOutputCols_spec hok
  constructor
  · rintro ⟨cols, hcols', hright⟩ q hq rs hrs j r hr
    rw [hcols] at hcols'
    cases hcols'
    obtain ⟨ns, hns⟩ := childCols_placed hrs
    have hwords := child_words hok.words hrs
    have hlong : ∀ c ∈ rs, colBytes c (longRecord rs) = longField c := by
      rw [hns]
      exact fun c hc => longRecord_field hc
    have hrow : RowOk rs (longRecord rs) := by
      intro c hc
      rw [hlong c hc]
      exact longField_ok (hwords c hc)
    obtain ⟨children, hch, hdata⟩ := exists_children (p := (longRecord rs, List.replicate (widths (placeCols 0 ms)) 0))
      hok.planned hq hrs hrow List.length_replicate
    obtain ⟨out, -, hout⟩ := hright children hch
    rw [hdata] at hout
    -- the one row of the union shows the record
    obtain ⟨o, rfl, ho⟩ : ∃ o, out = [o] ∧ rowData (placeCols 0 ms) o = rowData rs (longRecord rs) := by
      have hone : out.map (rowData (placeCols 0 ms)) = [rowData rs (longRecord rs)] := by
        rw [hout, List.eraseDups_cons]
        rfl
      obtain ⟨o, rfl, ho⟩ := List.map_eq_singleton_iff.1 hone
      exact ⟨o, rfl, ho⟩
    have hj := congrArg (·[j]?) ho
    simp only [rowData, List.getElem?_map, hr, Option.map_some] at hj
    obtain ⟨m', hm', hdatum⟩ := Option.map_eq_some_iff.1 hj
    rw [placeCols_getElem?] at hm'
    obtain ⟨m, hm, rfl⟩ := Option.map_eq_some_iff.1 hm'
    have htype : m.type = r.type := by
      have h := congrArg Datum.type hdatum
      unfold colDatum at h
      rwa [fieldDatum_type, fieldDatum_type] at h
    obtain ⟨cs, hcs, c, hc, hct, hlen⟩ := hw.reached j m hm
    obtain ⟨q', hq', hq''⟩ := mem_left_of_forall₂ hall hcs
    refine ⟨q', hq', cs, c, hq'', hc, hct.trans htype, ?_⟩
    have hmem := List.mem_of_getElem? hr
    by_cases hstr : r.type = .string
    · have hms : m.type = .string := htype.trans hstr
      have hcolr := colDatum_string hstr (longRecord rs)
      have hcolm := colDatum_string (c := { m with offset := 0 + widths (ms.take j) }) hms o
      rw [hcolm, hcolr, hlong r hmem, text_longField hstr] at hdatum
      have hle := text_length_le (colBytes { m with offset := 0 + widths (ms.take j) } o)
      rw [Datum.str.inj hdatum] at hle
      have hbytes : (colBytes { m with offset := 0 + widths (ms.take j) } o).length ≤ m.len := by
        unfold colBytes getBytes
        rw [List.length_take]
        exact min_le_left _ _
      unfold longField at hle
      rw [List.length_replicate] at hle
      rw [← hlen]
      exact hle.trans hbytes
    · rw [hwords r hmem hstr, infer_words hok.words hq'' c (List.mem_of_getElem? hc) (by rwa [hct, htype])]
  · intro hwide
    refine ⟨_, hcols, ?_⟩
    intro children hch
    apply beginTuple_spec
    intro ch hmem
    obtain ⟨q, hq, hrs, hrows⟩ := mem_left_of_forall₂ hch hmem
    exact ⟨fits_of_wide hok hwide hall hw hq hrs, hrows⟩

end Rows

/-! ## The longest name -/

def nameCols : List ColMeta := [⟨"name", .string, 8, 0⟩]

theorem nameCols_layout : ColsAt 0 nameCols := by decide

theorem nameCols_indexed : ∀ ix ∈ ([] : List (List ColMeta)), ∀ c ∈ ix, c ∈ nameCols := by simp

/-- A table of one column `name CHAR(8)`. -/
def nameTab : TabMeta := ⟨nameCols, [], nameCols_layout, nameCols_indexed⟩

/-- `SELECT name FROM t`. -/
def names : SelectQuery := ⟨[⟨"t", "name"⟩], [], []⟩

/-- `SELECT MAX(name) FROM t`. -/
def maxName : SelectQuery := ⟨[], [], [{ type := .max, col := ⟨"t", "name"⟩, argType := .string }]⟩

theorem names_cols : inferSelectOutputCols (fun _ => nameTab) names = some nameCols ∧
    childCols (fun _ => nameTab) names = some nameCols := by decide

theorem maxName_cols : inferSelectOutputCols (fun _ => nameTab) maxName = some [⟨"name", .string, 4, 0⟩] ∧
    childCols (fun _ => nameTab) maxName = some [⟨"max(name)", .string, 8, 0⟩] := by decide

theorem unionOk_names {qs : List SelectQuery} (htwo : 2 ≤ qs.length) (h : ∀ q ∈ qs, q = names ∨ q = maxName) :
    UnionOk (fun _ => nameTab) [.string] qs := by
  refine ⟨htwo, by decide, by decide, ?_, ?_, ?_⟩
  · intro tab c hc
    rw [List.mem_singleton.1 hc]
    exact fun hs => absurd rfl hs
  · intro q hq
    rcases h q hq with rfl | rfl
    · exact ⟨_, names_cols.1, rfl⟩
    · exact ⟨_, maxName_cols.1, rfl⟩
  · intro q hq
    rcases h q hq with rfl | rfl
    · exact ⟨_, names_cols.2⟩
    · exact ⟨_, maxName_cols.2⟩

theorem union_right_iff_names : UnionRight (fun _ => nameTab) [names, maxName] := by
  have hcases : ∀ q ∈ [names, maxName], q = names ∨ q = maxName := by simp
  refine (union_right_iff (unionOk_names (by decide) hcases)).2 ?_
  intro q hq rs hrs j r hr
  refine ⟨names, List.mem_cons_self, nameCols, ⟨"name", .string, 8, 0⟩, names_cols.1, ?_⟩
  cases j with
  | zero =>
      rcases hcases q hq with rfl | rfl
      · rw [names_cols.2] at hrs
        cases hrs
        cases hr
        exact ⟨rfl, rfl, le_rfl⟩
      · rw [maxName_cols.2] at hrs
        cases hrs
        cases hr
        exact ⟨rfl, rfl, le_rfl⟩
  | succ j =>
      rcases hcases q hq with rfl | rfl
      · rw [names_cols.2] at hrs
        cases hrs
        cases hr
      · rw [maxName_cols.2] at hrs
        cases hrs
        cases hr

/-- The text `abcdefgh` of the longest name. -/
def eightLetters : Bytes := [97, 98, 99, 100, 101, 102, 103, 104]

/-- The only row of the union shows the first four letters. -/
theorem not_unionRight_maxName : UnionOk (fun _ => nameTab) [.string] [maxName, maxName] ∧
    ¬ UnionRight (fun _ => nameTab) [maxName, maxName] := by
  refine ⟨unionOk_names (by decide) (by simp), ?_⟩
  rintro ⟨cols, hcols, hright⟩
  have hcols' : unionOutputCols (fun _ => nameTab) [maxName, maxName] = some [⟨"name", .string, 4, 0⟩] := by decide
  rw [hcols'] at hcols
  cases hcols
  have hrow : RowOk [⟨"max(name)", .string, 8, 0⟩] eightLetters := by
    intro c hc
    rw [List.mem_singleton.1 hc]
    exact ⟨rfl, fun hs => absurd rfl hs, fun _ => by decide⟩
  obtain ⟨out, hout, hdata⟩ := hright
    [⟨[⟨"max(name)", .string, 8, 0⟩], [(eightLetters, [0, 0, 0, 0])]⟩, ⟨[⟨"max(name)", .string, 8, 0⟩], []⟩]
    (.cons ⟨maxName_cols.2, by
      intro p hp
      rw [List.mem_singleton.1 hp]
      exact ⟨hrow, rfl⟩⟩ (.cons ⟨maxName_cols.2, by simp⟩ .nil))
  have hshort : UnionExecutor.beginTuple [⟨"name", .string, 4, 0⟩]
      [⟨[⟨"max(name)", .string, 8, 0⟩], [(eightLetters, [0, 0, 0, 0])]⟩, ⟨[⟨"max(name)", .string, 8, 0⟩], []⟩] =
      some [[97, 98, 99, 100]] := by decide
  rw [hshort] at hout
  cases hout
  revert hdata
  decide

end Rmdb.Sql
