import Rmdb.Sql.Rows

/-!
# What the executor shows

The slot of an aggregate shows the value of its class (`slotOf_datum`), a row shows the class
(`rowData_group`), and a group column is read from the key as the class has it
(`getGroupColValue_datum`); numbers are cut to 32 bits and a slot without value is blank.
-/

namespace Rmdb.Sql

open Rmdb.Txn
open Rmdb.Query (TabCol Cols findCol)

/-! ## Slots -/

section Slots

variable {tabs : TabName → TabMeta} {prevCols : Cols} {a : AggregateInfo} {m : ColMeta}

theorem outType_argType (hcount : a.type ≠ .count) (havg : a.type ≠ .avg) : outType a = a.argType := by
  unfold outType
  split
  · next h => exact absurd h hcount
  · next h => exact absurd h havg
  · rfl

/-- The column of an aggregate is a word of its type, or the text of its argument. -/
theorem aggColumn_cases (h : aggColumn tabs a = some m) :
    (outType a ≠ .string ∧ m.type = outType a ∧ m.len = 4) ∨
      (a.type ≠ .count ∧ outType a = .string ∧ a.argType = .string ∧
        ∃ c, getCol tabs a.col = some c ∧ m.type = .string ∧ m.len = c.len) := by
  unfold aggColumn at h
  dsimp only at h
  split at h
  · next ht =>
    have hout : outType a = .int := by unfold outType; rw [ht]
    cases h
    rw [hout]
    exact .inl ⟨ColType.noConfusion, rfl, rfl⟩
  · next ht =>
    have hout : outType a = .float := by unfold outType; rw [ht]
    cases h
    rw [hout]
    exact .inl ⟨ColType.noConfusion, rfl, rfl⟩
  · next hcount havg =>
    have hout := outType_argType hcount havg
    split at h
    · next harg =>
      cases h
      rw [hout, harg]
      exact .inl ⟨ColType.noConfusion, rfl, rfl⟩
    · next harg =>
      cases h
      rw [hout, harg]
      exact .inl ⟨ColType.noConfusion, rfl, rfl⟩
    · next harg =>
      obtain ⟨c, hc, rfl⟩ := Option.map_eq_some_iff.1 h
      exact .inr ⟨hcount, hout.trans harg, harg, c, hc, rfl, rfl⟩

/-- The column of an aggregate has its type; a word takes four bytes and text as many as in its
table. -/
theorem aggColumn_spec (hok : AggregateOk tabs prevCols a) (h : aggColumn tabs a = some m) :
    m.type = outType a ∧ (m.type ≠ .string → m.len = 4) ∧ (m.type = .string →
      ∃ c, findCol prevCols a.col = some c ∧ c.type = .string ∧ m.len = c.len) := by
  rcases aggColumn_cases h with ⟨hout, htype, hlen⟩ | ⟨hcount, hout, harg, c', hc', htype, hlen⟩
  · exact ⟨htype, fun _ => hlen, fun hs => absurd (htype.symm.trans hs) hout⟩
  · obtain ⟨c, m', hc, hm', -, hsame, hargs⟩ := hok.column_of_ne hcount
    rw [hm'] at hc'
    obtain rfl := Option.some.inj hc'
    exact ⟨htype.trans hout.symm, fun hs => absurd htype hs, fun _ => ⟨c, hc, hargs.symm.trans harg, hlen.trans hsame⟩⟩

theorem aggColumn_slot (hok : AggregateOk tabs prevCols a) (hsum : a.type = .sum → a.argType ≠ .string)
    (h : aggColumn tabs a = some m) : SlotOk m a := by
  obtain ⟨htype, hlen, -⟩ := aggColumn_spec hok h
  exact ⟨htype, hlen, hsum⟩

theorem Plain.sum (h : Plain a) : a.type ≠ .sum := by
  rintro ht
  unfold Plain at h
  rw [ht] at h
  rcases h with h | ⟨h | h, -⟩ <;> cases h

/-- The value in a slot is read back. -/
theorem fieldDatum_slot {v : Value} (htype : v.type = m.type)
    (hstr : ∀ s, v = .str s → (∀ b ∈ s, b ≠ 0) ∧ s.length ≤ m.len) :
    fieldDatum m.type (slot m v) = v.datum := by
  cases v with
  | int w =>
      rw [← htype]
      show Datum.int (getWord (wordBytes w) 0).toInt = .int w.toInt
      rw [← List.append_nil (wordBytes w), getWord_wordBytes]
  | float b =>
      rw [← htype]
      show Datum.float (getWord (wordBytes b) 0) = .float b
      rw [← List.append_nil (wordBytes b), getWord_wordBytes]
  | str s =>
      obtain ⟨hne, hlen⟩ := hstr s rfl
      rw [← htype]
      show Datum.str (text (s.take m.len ++ List.replicate (m.len - s.length) 0)) = .str s
      rw [List.take_of_length_le hlen, text_of_pad hne]

theorem fieldDatum_zeros (m : ColMeta) :
    fieldDatum m.type (List.replicate m.len 0) = .blank m.type := by
  cases m.type with
  | float =>
      show Datum.float (getWord (List.replicate m.len 0) 0) = .float 0
      rw [getWord_zeros]
  | int =>
      show Datum.int (getWord (List.replicate m.len 0) 0).toInt = .int 0
      rw [getWord_zeros]
      rfl
  | string =>
      show Datum.str (text (List.replicate m.len 0)) = .str []
      rw [← List.nil_append (List.replicate m.len 0), text_of_pad (by simp)]

theorem Datum.low_blank (t : ColType) : (Datum.blank t).low = .blank t := by
  cases t <;> rfl

theorem slotOf_datum (hok : AggregateOk tabs prevCols a) (hplain : Plain a) (h : aggColumn tabs a = some m)
    {rows : List Bytes} (hrows : ∀ r ∈ rows, RecordOk prevCols r) :
    fieldDatum m.type (slotOf m a (stateOf prevCols a rows)) =
      ((reference prevCols a rows).getD (.blank (outType a))).low := by
  have hslot := aggColumn_slot hok (fun hs => absurd hs hplain.sum) h
  rcases hplain with ht | ⟨ht, hfloat⟩
  · -- `COUNT` always has a value
    have hn : ¬ ((a.type = .max ∨ a.type = .min) ∧ (stateOf prevCols a rows).hasValue = false) := by simp [ht]
    obtain ⟨w, hw⟩ : ∃ w, getAggValue a (stateOf prevCols a rows) = .int w := by
      unfold getAggValue
      rw [ht]
      exact ⟨_, rfl⟩
    obtain ⟨n, hn'⟩ : ∃ n, reference prevCols a rows = some n := by
      unfold reference
      rw [ht]
      cases a.isStar
      · exact ⟨_, rfl⟩
      · exact ⟨_, rfl⟩
    have hvalue := getAggValue_datum hok (.inl ht) hrows
    unfold slotOf
    rw [if_neg hn, fieldDatum_slot (getAggValue_type hslot hn) (by rw [hw]; rintro s ⟨⟩), hvalue, hn']
    rfl
  · obtain ⟨o, ho⟩ := exists_extreme hok ht hfloat hrows
    cases o with
    | none =>
        have hnone : (a.type = .max ∨ a.type = .min) ∧ (stateOf prevCols a rows).hasValue = false :=
          ⟨ht, ho.hasValue⟩
        unfold slotOf
        rw [if_pos hnone, fieldDatum_zeros, ho.reference, hslot.type]
        exact (Datum.low_blank _).symm
    | some v =>
        have hn : ¬ ((a.type = .max ∨ a.type = .min) ∧ (stateOf prevCols a rows).hasValue = false) := by
          simp [ho.hasValue]
        have hvalue : getAggValue a (stateOf prevCols a rows) = v := ho.value
        have hvtype := getAggValue_type hslot hn
        rw [hvalue] at hvtype
        have hstr : ∀ s, v = .str s → (∀ b ∈ s, b ≠ 0) ∧ s.length ≤ m.len := by
          rintro s rfl
          obtain ⟨c, hc, hcs, hlen⟩ := (aggColumn_spec hok h).2.2 hvtype.symm
          have hmem := ho.mem _ rfl
          rw [columnValues_some hc] at hmem
          obtain ⟨d, hd, hds⟩ := List.mem_map.1 hmem
          rw [colDatum_string hcs] at hds
          cases hds
          refine ⟨text_ne_zero _, ?_⟩
          have hle := text_length_le (colBytes c d)
          rwa [((hrows d hd).field hc).length, ← hlen] at hle
        unfold slotOf
        rw [if_neg hn, hvalue, fieldDatum_slot hvtype hstr, ho.reference]
        exact (datum_low v).symm

end Slots

/-! ## What the executor shows and compares -/

section Shown

variable {tabs : TabName → TabMeta} {e : AggExecutor} {rows : List Bytes}

theorem slotsOk {prevCols : Cols} {aggs : List AggregateInfo} {as : List ColMeta}
    (has : List.Forall₂ (fun a m => aggColumn tabs a = some m) aggs as)
    (hok : ∀ a ∈ aggs, AggregateOk tabs prevCols a) (hsums : ∀ a ∈ aggs, a.type = .sum → a.argType ≠ .string) :
    List.Forall₂ SlotOk as aggs := by
  induction has with
  | nil => exact .nil
  | @cons a m aggs as ha _ ih =>
      have hslot := aggColumn_slot (hok a List.mem_cons_self) (hsums a List.mem_cons_self) ha
      exact .cons hslot (ih (fun b hb => hok b (List.mem_cons_of_mem _ hb))
        fun b hb => hsums b (List.mem_cons_of_mem _ hb))

theorem slots_data {prevCols : Cols} {aggs : List AggregateInfo} {as : List ColMeta}
    (has : List.Forall₂ (fun a m => aggColumn tabs a = some m) aggs as)
    (hok : ∀ a ∈ aggs, AggregateOk tabs prevCols a) (hplain : ∀ a ∈ aggs, Plain a)
    (hrows : ∀ r ∈ rows, RecordOk prevCols r) :
    List.zipWith (fun m f => fieldDatum m.type f) as
        (slots as aggs (aggs.map fun a => stateOf prevCols a rows)) =
      aggs.map fun a => ((reference prevCols a rows).getD (.blank (outType a))).low := by
  induction has with
  | nil => rfl
  | @cons a m aggs as ha _ ih =>
      have hdata := ih (fun b hb => hok b (List.mem_cons_of_mem _ hb))
        fun b hb => hplain b (List.mem_cons_of_mem _ hb)
      have hslot := slotOf_datum (hok a List.mem_cons_self) (hplain a List.mem_cons_self) ha hrows
      rw [List.map_cons, List.map_cons, slots, List.zipWith_cons_cons, hslot, hdata]

/-- The row the executor shows for a class: that of the class, with numbers in 32 bits. -/
def AggExecutor.shownRow (e : AggExecutor) (p : List Datum × List Bytes) : List Datum :=
  p.1 ++ e.aggExprs.map fun a => ((reference e.prevCols a p.2).getD (.blank (outType a))).low

theorem rowData_group (hok : AggOk tabs e) (hplain : ∀ a ∈ e.aggExprs, Plain a)
    (hrows : ∀ r ∈ rows, RecordOk e.prevCols r) {p : Bytes × List Bytes} (hp : p ∈ e.keyed rows) :
    rowData e.cols (e.buildRow (e.aggExprs.map fun a => stateOf e.prevCols a p.2) p.1) =
      e.shownRow (e.keyData p.1, p.2) := by
  obtain ⟨gcs, gs, as, hlayout⟩ := hok.layout
  obtain ⟨fields, hf, hkey, hdata⟩ := fields_of_keyed hlayout hrows hp
  have hslots := slotsOk hlayout.agg hok.agg fun a ha hs => absurd hs (hplain a ha).sum
  have haggs := slots_data hlayout.agg hok.agg hplain fun r hr => hrows r (mem_of_keyed hp r hr)
  have hlen : (e.aggExprs.map fun a => stateOf e.prevCols a p.2).length = e.aggExprs.length :=
    List.length_map _
  have hrow := rowData_buildRow hlayout hslots hf hlen
  rw [hkey, hrow, ← hkey, hdata, haggs]
  rfl

theorem placeCols_getElem? (ms : List ColMeta) (off i : Nat) : (placeCols off ms)[i]? =
    (ms[i]?).map fun m => { m with offset := off + widths (ms.take i) } := by
  induction ms generalizing off i with
  | nil => rfl
  | cons m ms ih =>
      cases i with
      | zero => rfl
      | succ i =>
          rw [placeCols, List.getElem?_cons_succ, List.getElem?_cons_succ, ih]
          congr 1
          funext m'
          have hw : widths ((m :: ms).take (i + 1)) = m.len + widths (ms.take i) := rfl
          rw [hw, Nat.add_assoc]

theorem rowData_shape {gcs gs : List ColMeta}
    (h : List.Forall₂ (fun c m : ColMeta => m.type = c.type ∧ m.len = c.len) gcs gs) (off : Nat) (data : Bytes) :
    rowData (placeCols off gcs) data = rowData (placeCols off gs) data := by
  induction h generalizing off with
  | nil => rfl
  | @cons c m gcs gs hcm _ ih =>
      unfold rowData at ih ⊢
      rw [placeCols, placeCols, List.map_cons, List.map_cons, ← hcm.2, ih]
      congr 1
      show fieldDatum c.type (getBytes data off m.len) = fieldDatum m.type (getBytes data off m.len)
      rw [hcm.1]

theorem shape_mem {gcs gs : List ColMeta}
    (h : List.Forall₂ (fun c m : ColMeta => m.type = c.type ∧ m.len = c.len) gcs gs) {m : ColMeta} (hm : m ∈ gs) :
    ∃ c ∈ gcs, m.type = c.type ∧ m.len = c.len := by
  induction h with
  | nil => cases hm
  | cons hcm _ ih =>
      rcases List.mem_cons.1 hm with rfl | hm
      · exact ⟨_, List.mem_cons_self, hcm⟩
      · obtain ⟨c, hc, hcm⟩ := ih hm
        exact ⟨c, List.mem_cons_of_mem _ hc, hcm⟩

theorem widths_placeCols (off : Nat) (ms : List ColMeta) : widths (placeCols off ms) = widths ms := by
  induction ms generalizing off with
  | nil => rfl
  | cons m ms ih => exact congrArg (m.len + ·) (ih _)

theorem placeCols_take (off n : Nat) (ms : List ColMeta) : (placeCols off ms).take n = placeCols off (ms.take n) := by
  induction ms generalizing off n with
  | nil => simp [placeCols]
  | cons m ms ih =>
      cases n with
      | zero => rfl
      | succ n => exact congrArg (_ :: ·) (ih _ _)

/-- A group column is read from the key as the class has it. -/
theorem getGroupColValue_datum (hok : AggOk tabs e) (hrows : ∀ r ∈ rows, RecordOk e.prevCols r)
    {p : Bytes × List Bytes} (hp : p ∈ e.keyed rows) {i : Nat} (hi : i < e.groupCols.length) :
    (e.getGroupColValue i p.1).datum = (e.keyData p.1).getD i (.int 0) := by
  obtain ⟨gcs, gs, as, hlayout⟩ := hok.layout
  have hi' : i < gs.length := by rwa [← hlayout.length]
  obtain ⟨m, hm⟩ : ∃ m, gs[i]? = some m := ⟨gs[i], List.getElem?_eq_getElem hi'⟩
  have hcol : e.cols[i]? = some { m with offset := 0 + widths (gs.take i) } := by
    rw [hlayout.cols, placeCols_getElem?, List.getElem?_append_left hi', hm,
      List.take_append_of_le_length (by omega)]
    rfl
  have hoff : ((e.cols.take i).map ColMeta.len).sum = widths (gs.take i) := by
    show widths (e.cols.take i) = _
    rw [hlayout.cols, placeCols_take, widths_placeCols, List.take_append_of_le_length (by omega)]
  have hkey : (e.keyData p.1).getD i (.int 0) =
      fieldDatum m.type (getBytes p.1 (e.bitmapLen + widths (gs.take i)) m.len) := by
    unfold AggExecutor.keyData
    rw [hlayout.found, rowData_shape hlayout.shape, List.getD_eq_getElem?_getD, rowData, List.getElem?_map,
      placeCols_getElem?, hm]
    rfl
  obtain ⟨fields, -, hfields, -⟩ := fields_of_keyed hlayout hrows hp
  have hbit : (p.1.getD (i / 8) 0).toNat.testBit (i % 8) = false := by
    have hlt : i / 8 < e.bitmapLen := by
      unfold AggExecutor.bitmapLen
      omega
    have hzero : p.1.getD (i / 8) 0 = 0 := by
      rw [hfields, List.getD_eq_getElem?_getD, List.getElem?_append_left (by rwa [List.length_replicate]),
        List.getElem?_replicate, if_pos hlt]
      rfl
    rw [hzero]
    exact Nat.zero_testBit _
  have hword : m.type ≠ .string → m.len = 4 := by
    intro htype
    unfold AggExecutor.keyed at hp
    have hn : ¬ e.plainAgg = true := by
      intro h
      rw [List.isEmpty_iff.1 h] at hi
      exact absurd hi (Nat.not_lt_zero i)
    rw [if_neg hn] at hp
    obtain ⟨k, hk, -⟩ := List.mem_map.1 hp
    obtain ⟨r, hr, -⟩ := List.mem_map.1 (List.mem_eraseDups.1 hk)
    obtain ⟨c, hc, hcm⟩ := shape_mem hlayout.shape (List.mem_of_getElem? hm)
    rw [← hlayout.found] at hc
    obtain ⟨g, -, hg⟩ := List.mem_filterMap.1 hc
    rw [hcm.2]
    exact ((hrows r hr).field hg).word (by rwa [← hcm.1])
  unfold AggExecutor.getGroupColValue
  rw [hcol, hkey]
  simp only [hoff, hbit, Bool.false_eq_true, if_false]
  cases htype : m.type with
  | int =>
      show Datum.int _ = Datum.int _
      rw [getWord_getBytes (by rw [hword (by rw [htype]; decide)])]
      rfl
  | float =>
      show Datum.float _ = Datum.float _
      rw [getWord_getBytes (by rw [hword (by rw [htype]; decide)])]
      rfl
  | string => rfl

end Shown

end Rmdb.Sql
