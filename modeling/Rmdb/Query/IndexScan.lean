import Rmdb.Lib.Segment
import Rmdb.Query.Keys
import Rmdb.Row.Exec

/-!
# Index scans

An index scan over a consistent index returns, in key order, the rows that satisfy its
conditions, except those whose later index columns sort beyond the extremes that fill the
bounds (`indexScanFrom_scanRange`).
-/

namespace Rmdb.Query

open Rmdb.Index (Rid)
open Rmdb.Lib
open Rmdb.Txn
open Rmdb.Txn.Db (lowerEnd upperEnd lowerBound upperBound suffixCols lowerOf upperOf startSuffix endSuffix startKey endKey scanLo scanHi crossed
  scanRange)

/-- The columns have the sizes their types ask for, and an index finds its columns by name. -/
structure TabOk (m : TabMeta) : Prop where
  words : ∀ c ∈ m.cols, Words c
  indexed : ∀ ix ∈ m.indexes, ∀ c ∈ ix, m.findCol c.name = some c

/-- The literals that the conditions compare with columns of the index are values of `INT` and
`CHAR` columns. -/
def LitsOk (m : TabMeta) (cols : List ColMeta) (conds : List Txn.Condition) : Prop :=
  ∀ cond ∈ conds, ∀ v, cond.rhsVal = some v → ∀ c ∈ cols, m.findCol cond.lhsCol = some c →
    Discrete c ∧ v.length = c.len

variable {m : TabMeta} {cols : List ColMeta} {conds : List Txn.Condition} {data : Bytes}

/-! ## What a matching row satisfies -/

/-- A literal condition of a matching row holds. -/
theorem holds_of_evalCompiled {cond : Txn.Condition} {c : ColMeta} {v : Bytes}
    (h : evalCompiled m conds data = true) (hcond : cond ∈ conds) (hv : cond.rhsVal = some v)
    (hc : m.findCol cond.lhsCol = some c) :
    cond.op.holds (cmpBytes (data.drop c.offset) v c.len c.type) = true := by
  have hall := List.all_eq_true.1 h
  refine hall ⟨c.offset, c.len, c.type, cond.op, some v, 0⟩ ?_
  refine List.mem_filterMap.2 ⟨cond, hcond, ?_⟩
  simp [hc, hv]

theorem getBytes_of_eq {c : ColMeta} {v : Bytes} (hw : Words c) (hd : Discrete c)
    (hlen : c.offset + c.len ≤ data.length) (hv : v.length = c.len)
    (h : cmpBytes (data.drop c.offset) v c.len c.type = 0) :
    getBytes data c.offset c.len = v.take c.len :=
  bytes_eq_of_cmpBytes hw hd (by rw [List.length_drop]; omega) (by omega) h

/-! ## The equality prefix -/

theorem eqCond_spec {name : String} {v : Bytes} (h : Db.eqCond conds name = some v) :
    ∃ cond ∈ conds, cond.rhsVal = some v ∧ cond.op = .eq ∧ cond.lhsCol = name := by
  unfold Db.eqCond at h
  obtain ⟨cond, hfind, hv⟩ := Option.bind_eq_some_iff.1 h
  have hp := List.find?_some hfind
  simp only [Bool.and_eq_true, decide_eq_true_eq] at hp
  exact ⟨cond, List.mem_of_find?_eq_some hfind, hv, hp.1.2, hp.2⟩

/-- A literal of an equality on the column. -/
def EqLit (conds : List Txn.Condition) (c : ColMeta) (v : Bytes) : Prop :=
  ∃ cond ∈ conds, ∃ w, cond.rhsVal = some w ∧ v = w.take c.len ∧ cond.op = .eq ∧ cond.lhsCol = c.name

theorem eqPrefix_forall₂ (conds : List Txn.Condition) : ∀ cols : List ColMeta,
    List.Forall₂ (EqLit conds) (cols.take (Db.eqPrefix conds cols).length)
      (Db.eqPrefix conds cols) := by
  intro cols
  induction cols with
  | nil => exact .nil
  | cons c cs ih =>
      unfold Db.eqPrefix
      cases h : Db.eqCond conds c.name with
      | none => exact .nil
      | some v =>
          obtain ⟨cond, hcond, hv, hop, hlhs⟩ := eqCond_spec h
          exact .cons ⟨cond, hcond, v, hv, rfl, hop, hlhs⟩ ih

/-- The columns under the equality prefix. -/
def prefixCols (cols : List ColMeta) (conds : List Txn.Condition) : List ColMeta :=
  cols.take (Db.eqPrefix conds cols).length

theorem prefix_append_suffix (cols : List ColMeta) (conds : List Txn.Condition) :
    prefixCols cols conds ++ suffixCols cols conds = cols := List.take_append_drop _ cols

section

variable (hm : TabOk m) (hcols : ∀ c ∈ cols, m.findCol c.name = some c) (hlits : LitsOk m cols conds)

include hcols in
theorem mem_cols_of_index {c : ColMeta} (hc : c ∈ cols) : c ∈ m.cols :=
  TabMeta.findCol_mem (hcols c hc)

include hm hcols in
theorem words_of_index : ∀ c ∈ cols, Words c := fun c hc =>
  hm.words c (mem_cols_of_index hcols hc)

include hcols hlits in
theorem eqLit_value {c : ColMeta} {v : Bytes} (hc : c ∈ cols) (h : EqLit conds c v) :
    Discrete c ∧ v.length = c.len := by
  obtain ⟨cond, hcond, w, hw, rfl, -, hlhs⟩ := h
  obtain ⟨hd, hlen⟩ := hlits cond hcond w hw c hc (by rw [hlhs]; exact hcols c hc)
  exact ⟨hd, by rw [List.length_take]; omega⟩

include hm hcols hlits in
/-- A matching row has the bytes of the literal. -/
theorem getBytes_of_eqLit {c : ColMeta} {v : Bytes} (hc : c ∈ cols) (h : EqLit conds c v)
    (hdata : data.length = m.recordSize) (heval : evalCompiled m conds data = true) :
    getBytes data c.offset c.len = v := by
  obtain ⟨cond, hcond, w, hw, rfl, hop, hlhs⟩ := h
  have hfind : m.findCol cond.lhsCol = some c := by
    rw [hlhs]
    exact hcols c hc
  obtain ⟨hd, hlen⟩ := hlits cond hcond w hw c hc hfind
  have hholds := holds_of_evalCompiled heval hcond hw hfind
  rw [hop] at hholds
  have hfits := m.fits (mem_cols_of_index hcols hc)
  exact getBytes_of_eq (words_of_index hm hcols c hc) hd (by omega) hlen (of_decide_eq_true hholds)

/-- The facts about a prefix of columns and their literals, by induction on both. -/
theorem eqPrefix_lengths {pre : List ColMeta} {vs : List Bytes}
    (h : List.Forall₂ (EqLit conds) pre vs)
    (hlen : ∀ c ∈ pre, ∀ v, EqLit conds c v → v.length = c.len) :
    vs.flatten.length = keyLen pre := by
  induction h with
  | nil => rfl
  | @cons c v pre vs hcv _ ih =>
      rw [List.flatten_cons, List.length_append, hlen c List.mem_cons_self v hcv,
        ih fun c hc => hlen c (List.mem_cons_of_mem _ hc)]
      simp [keyLen]

theorem forall₂_mem {pre : List ColMeta} {vs : List Bytes} (h : List.Forall₂ (EqLit conds) pre vs) :
    ∀ c ∈ pre, ∃ v, EqLit conds c v := by
  induction h with
  | nil => intro c hc; cases hc
  | @cons c v pre vs hcv _ ih =>
      intro d hd
      rcases List.mem_cons.1 hd with rfl | hd
      · exact ⟨v, hcv⟩
      · exact ih d hd

theorem indexKey_cons (c : ColMeta) (cs : List ColMeta) (data : Bytes) :
    Db.indexKey (c :: cs) data = getBytes data c.offset c.len ++ Db.indexKey cs data := by
  simp [Db.indexKey]

theorem indexKey_append (pre rest : List ColMeta) (data : Bytes) :
    Db.indexKey (pre ++ rest) data = Db.indexKey pre data ++ Db.indexKey rest data := by
  simp [Db.indexKey]

theorem indexKey_length {cols : List ColMeta} {data : Bytes}
    (h : ∀ c ∈ cols, c.offset + c.len ≤ data.length) : (Db.indexKey cols data).length = keyLen cols := by
  induction cols with
  | nil => rfl
  | cons c cs ih =>
      rw [indexKey_cons, List.length_append, getBytes_length (h c List.mem_cons_self),
        ih fun c hc => h c (List.mem_cons_of_mem _ hc)]
      simp [keyLen]

theorem forall₂_indexKey {pre : List ColMeta} {vs : List Bytes}
    (h : List.Forall₂ (EqLit conds) pre vs)
    (hval : ∀ c ∈ pre, ∀ v, EqLit conds c v → getBytes data c.offset c.len = v) :
    Db.indexKey pre data = vs.flatten := by
  induction h with
  | nil => rfl
  | @cons c v pre vs hcv _ ih =>
      rw [indexKey_cons, List.flatten_cons, hval c List.mem_cons_self v hcv,
        ih fun d hd => hval d (List.mem_cons_of_mem _ hd)]

/-- The prefix check compares the key of the prefix columns. -/
theorem eqPrefixMatches_iff {pre : List ColMeta} {vs : List Bytes} (h : List.Forall₂ (EqLit conds) pre vs)
    (hfits : ∀ c ∈ pre, c.offset + c.len ≤ data.length)
    (hlen : ∀ c ∈ pre, ∀ v, EqLit conds c v → v.length = c.len) :
    (pre.zip vs).all (fun p => decide (getBytes data p.1.offset p.1.len = p.2)) = true ↔
      Db.indexKey pre data = vs.flatten := by
  induction h with
  | nil => simp [Db.indexKey]
  | @cons c v pre vs hcv _ ih =>
      rw [List.zip_cons_cons, List.all_cons, indexKey_cons, List.flatten_cons, Bool.and_eq_true,
        decide_eq_true_iff, ih (fun c hc => hfits c (List.mem_cons_of_mem _ hc))
          (fun c hc => hlen c (List.mem_cons_of_mem _ hc))]
      constructor
      · rintro ⟨h1, h2⟩
        rw [h1, h2]
      · intro h
        exact List.append_inj h (by
          rw [getBytes_length (hfits c List.mem_cons_self), hlen c List.mem_cons_self v hcv])

end

/-! ## The bounds -/

/-- A fold that keeps what it has or takes something new ends with something it took. -/
theorem foldl_some_of_step {α β : Type} {P : β → Prop} {f : Option β → α → Option β} {as : List α}
    (hstep : ∀ acc, ∀ a ∈ as, ∀ e, f acc a = some e → acc = some e ∨ P e) :
    ∀ acc e, as.foldl f acc = some e → acc = some e ∨ P e := by
  induction as with
  | nil => exact fun acc e h => .inl h
  | cons a as ih =>
      intro acc e h
      rw [List.foldl_cons] at h
      rcases ih (fun acc b hb => hstep acc b (List.mem_cons_of_mem _ hb)) _ e h with hfirst | hgood
      · exact hstep acc a List.mem_cons_self e hfirst
      · exact .inr hgood

theorem rangeEnd_spec {ops : List CompOp} {tighter : Int → Bool} {c : ColMeta} {e : Db.RangeEnd}
    (h : Db.rangeEnd ops tighter c conds = some e) : ∃ cond ∈ conds, ∃ v, cond.rhsVal = some v ∧
      cond.lhsCol = c.name ∧ cond.op ∈ ops ∧ e = ⟨v.take c.len, decide (cond.op ∈ [CompOp.ge, .le])⟩ := by
  unfold Db.rangeEnd at h
  refine (foldl_some_of_step (P := fun e => ∃ cond ∈ conds, ∃ v, cond.rhsVal = some v ∧
    cond.lhsCol = c.name ∧ cond.op ∈ ops ∧ e = ⟨v.take c.len, decide (cond.op ∈ [CompOp.ge, .le])⟩)
    ?_ none e h).resolve_left (fun hnone => by cases hnone)
  intro acc cond hcond e he
  cases hv : cond.rhsVal with
  | none =>
      rw [hv] at he
      exact .inl he
  | some v =>
      rw [hv] at he
      dsimp only at he
      split at he
      · next hon =>
        split at he
        · cases he
          exact .inr ⟨cond, hcond, v, hv, hon.1, hon.2, rfl⟩
        · split at he
          · cases he
            exact .inr ⟨cond, hcond, v, hv, hon.1, hon.2, rfl⟩
          · exact .inl he
      · exact .inl he

/-- What the end of a range on a column says about matching rows. -/
structure EndOk (c : ColMeta) (op : CompOp → Prop) (conds : List Txn.Condition) (m : TabMeta)
    (e : Db.RangeEnd) : Prop where
  discrete : Discrete c
  length : e.val.length = c.len
  holds : ∀ data, evalCompiled m conds data = true →
    ∃ o, op o ∧ e.inclusive = decide (o ∈ [CompOp.ge, .le]) ∧
      o.holds (cmpBytes (data.drop c.offset) e.val c.len c.type) = true

section

variable (hm : TabOk m) (hcols : ∀ c ∈ cols, m.findCol c.name = some c) (hlits : LitsOk m cols conds)

include hm hcols hlits in
theorem rangeEnd_ok {ops : List CompOp} {tighter : Int → Bool} {c : ColMeta} {e : Db.RangeEnd}
    (hc : c ∈ cols) (h : Db.rangeEnd ops tighter c conds = some e) :
    EndOk c (· ∈ ops) conds m e := by
  obtain ⟨cond, hcond, v, hv, hlhs, hop, rfl⟩ := rangeEnd_spec h
  have hfind : m.findCol cond.lhsCol = some c := by
    rw [hlhs]
    exact hcols c hc
  obtain ⟨hd, hlen⟩ := hlits cond hcond v hv c hc hfind
  refine ⟨hd, by rw [List.length_take]; omega, fun data heval => ⟨cond.op, hop, rfl, ?_⟩⟩
  have hholds := holds_of_evalCompiled heval hcond hv hfind
  rw [cmpBytes_congr (words_of_index hm hcols c hc) rfl (List.take_take.trans (by rw [Nat.min_self]))]
  exact hholds

theorem suffixCols_subset {c : ColMeta} (hc : c ∈ suffixCols cols conds) : c ∈ cols :=
  List.mem_of_mem_drop hc

/-- The first column after the prefix and an end of the range on it. -/
theorem lowerOf_spec {e : Db.RangeEnd} (h : lowerOf cols conds = some e) :
    ∃ c cs, suffixCols cols conds = c :: cs ∧ lowerEnd c conds = some e := by
  unfold lowerOf at h
  cases hs : suffixCols cols conds with
  | nil =>
      rw [hs] at h
      cases h
  | cons c cs =>
      rw [hs] at h
      exact ⟨c, cs, rfl, h⟩

theorem upperOf_spec {e : Db.RangeEnd} (h : upperOf cols conds = some e) :
    ∃ c cs, suffixCols cols conds = c :: cs ∧ upperEnd c conds = some e := by
  unfold upperOf at h
  cases hs : suffixCols cols conds with
  | nil =>
      rw [hs] at h
      cases h
  | cons c cs =>
      rw [hs] at h
      exact ⟨c, cs, rfl, h⟩

/-- A key of full length without NaN. -/
structure KeyOk (cols : List ColMeta) (key : Bytes) : Prop where
  length : key.length = keyLen cols
  nanFree : KeyNaNFree cols key

/-- The literal of a range, then extremes. -/
theorem keyOk_range {c : ColMeta} {cs : List ColMeta} {v : Bytes} (hw : ∀ d ∈ c :: cs, Words d)
    (hd : Discrete c) (hv : v.length = c.len) (wantMax : Bool) :
    KeyOk (c :: cs) (v ++ Db.fillExtreme wantMax cs) := by
  have hcs : ∀ d ∈ cs, Words d := fun d hd => hw d (List.mem_cons_of_mem _ hd)
  have hc : ∀ d ∈ [c], Words d := by simpa using hw c List.mem_cons_self
  have hlen : v.length = keyLen [c] := by simpa [keyLen] using hv
  constructor
  · rw [List.length_append, fillExtreme_length wantMax hcs, hv]
    simp [keyLen]
  · exact (@keyNaNFree_append [c] cs _ _ hc hlen).2
      ⟨keyNaNFree_of_discrete (by simpa using hd) v, keyNaNFree_fillExtreme wantMax hcs⟩

include hm hcols hlits in
theorem startSuffix_ok : KeyOk (suffixCols cols conds) (startSuffix cols conds) := by
  have hw : ∀ d ∈ suffixCols cols conds, Words d := fun d hd =>
    words_of_index hm hcols d (suffixCols_subset hd)
  unfold startSuffix
  cases h : lowerOf cols conds with
  | none => exact ⟨fillExtreme_length false hw, keyNaNFree_fillExtreme false hw⟩
  | some e =>
      obtain ⟨c, cs, hs, he⟩ := lowerOf_spec h
      have hc : c ∈ cols := suffixCols_subset (by rw [hs]; exact List.mem_cons_self)
      have hok := rangeEnd_ok hm hcols hlits hc he
      rw [hs] at hw ⊢
      exact keyOk_range hw hok.discrete hok.length _

include hm hcols hlits in
theorem endSuffix_ok : KeyOk (suffixCols cols conds) (endSuffix cols conds) := by
  have hw : ∀ d ∈ suffixCols cols conds, Words d := fun d hd =>
    words_of_index hm hcols d (suffixCols_subset hd)
  unfold endSuffix
  cases h : upperOf cols conds with
  | none => exact ⟨fillExtreme_length false hw, keyNaNFree_fillExtreme false hw⟩
  | some e =>
      obtain ⟨c, cs, hs, he⟩ := upperOf_spec h
      have hc : c ∈ cols := suffixCols_subset (by rw [hs]; exact List.mem_cons_self)
      have hok := rangeEnd_ok hm hcols hlits hc he
      rw [hs] at hw ⊢
      exact keyOk_range hw hok.discrete hok.length _

include hcols hlits in
theorem prefix_ok : KeyOk (prefixCols cols conds) (Db.eqPrefix conds cols).flatten ∧
    ∀ c ∈ prefixCols cols conds, Discrete c := by
  have hpre := eqPrefix_forall₂ conds cols
  have hmem : ∀ c ∈ prefixCols cols conds, c ∈ cols := fun c hc => List.mem_of_mem_take hc
  have hd : ∀ c ∈ prefixCols cols conds, Discrete c := by
    intro c hc
    obtain ⟨v, hv⟩ := forall₂_mem hpre c hc
    exact (eqLit_value hcols hlits (hmem c hc) hv).1
  refine ⟨⟨eqPrefix_lengths hpre fun c hc v hv => (eqLit_value hcols hlits (hmem c hc) hv).2, ?_⟩, hd⟩
  exact keyNaNFree_of_discrete hd _

theorem keyOk_append {pre rest : List ColMeta} {k x : Bytes} (hw : ∀ c ∈ pre, Words c)
    (hk : KeyOk pre k) (hx : KeyOk rest x) : KeyOk (pre ++ rest) (k ++ x) := by
  constructor
  · rw [List.length_append, keyLen_append, hk.length, hx.length]
  · exact (keyNaNFree_append hw hk.length).2 ⟨hk.nanFree, hx.nanFree⟩

include hm hcols hlits in
theorem startKey_ok : KeyOk cols (startKey cols conds) := by
  have h := keyOk_append (fun c hc => words_of_index hm hcols c (List.mem_of_mem_take hc))
    (prefix_ok hcols hlits).1 (startSuffix_ok hm hcols hlits)
  rw [show cols.take (Db.eqPrefix conds cols).length ++ suffixCols cols conds = cols from
    prefix_append_suffix cols conds] at h
  exact h

include hm hcols hlits in
theorem endKey_ok : KeyOk cols (endKey cols conds) := by
  have h := keyOk_append (fun c hc => words_of_index hm hcols c (List.mem_of_mem_take hc))
    (prefix_ok hcols hlits).1 (endSuffix_ok hm hcols hlits)
  rw [show cols.take (Db.eqPrefix conds cols).length ++ suffixCols cols conds = cols from
    prefix_append_suffix cols conds] at h
  exact h

end

/-! ## The range as a filter -/

/-- The entries of an index in key order. -/
structure Ordered (cols : List ColMeta) (es : IndexMap) : Prop where
  keys : ∀ e ∈ es, KeyOk cols e.1
  sorted : es.Pairwise fun a b => ixCompare cols a.1 b.1 < 0

theorem ixCompare_lt_iff {a b : Bytes} (ha : KeyOk cols a) (hb : KeyOk cols b) :
    ixCompare cols a b < 0 ↔ keyCode cols a < keyCode cols b :=
  (ixCompare_code ha.length hb.length ha.nanFree hb.nanFree).1

theorem ixCompare_eq_iff {a b : Bytes} (ha : KeyOk cols a) (hb : KeyOk cols b) :
    ixCompare cols a b = 0 ↔ keyCode cols a = keyCode cols b :=
  (ixCompare_code ha.length hb.length ha.nanFree hb.nanFree).2

theorem ixCompare_le_iff {a b : Bytes} (ha : KeyOk cols a) (hb : KeyOk cols b) :
    ixCompare cols a b ≤ 0 ↔ keyCode cols a ≤ keyCode cols b := by
  rw [le_iff_lt_or_eq, le_iff_lt_or_eq, ixCompare_lt_iff ha hb, ixCompare_eq_iff ha hb]

theorem initial_lt {es : IndexMap} {key : Bytes} (h : Ordered cols es) (hk : KeyOk cols key) :
    Initial (fun e : Bytes × Rid => decide (ixCompare cols e.1 key < 0)) es := by
  refine h.sorted.imp_of_mem fun {a b} ha hb hab hlt => ?_
  rw [decide_eq_true_iff, ixCompare_lt_iff (h.keys b hb) hk] at hlt
  rw [ixCompare_lt_iff (h.keys a ha) (h.keys b hb)] at hab
  rw [decide_eq_true_iff, ixCompare_lt_iff (h.keys a ha) hk]
  exact lt_trans hab hlt

theorem initial_le {es : IndexMap} {key : Bytes} (h : Ordered cols es) (hk : KeyOk cols key) :
    Initial (fun e : Bytes × Rid => decide (ixCompare cols e.1 key ≤ 0)) es := by
  refine h.sorted.imp_of_mem fun {a b} ha hb hab hle => ?_
  rw [decide_eq_true_iff, ixCompare_le_iff (h.keys b hb) hk] at hle
  rw [ixCompare_lt_iff (h.keys a ha) (h.keys b hb)] at hab
  rw [decide_eq_true_iff, ixCompare_le_iff (h.keys a ha) hk]
  exact le_trans (le_of_lt hab) hle

theorem initial_const (b : Bool) (es : IndexMap) : Initial (fun _ : Bytes × Rid => b) es :=
  List.pairwise_of_forall fun _ _ h => h

/-- Does the scan start behind the key? -/
def belowStart (cols : List ColMeta) (conds : List Txn.Condition) (key : Bytes) : Bool :=
  match lowerOf cols conds with
  | some e =>
      if e.inclusive then decide (ixCompare cols key (startKey cols conds) < 0)
      else decide (ixCompare cols key (startKey cols conds) ≤ 0)
  | none =>
      if (Db.eqPrefix conds cols).flatten ≠ [] then
        decide (ixCompare cols key (startKey cols conds) < 0)
      else false

/-- Does the scan stop behind the key? -/
def belowEnd (cols : List ColMeta) (conds : List Txn.Condition) (key : Bytes) : Bool :=
  match upperOf cols conds with
  | some e =>
      if e.inclusive then decide (ixCompare cols key (endKey cols conds) ≤ 0)
      else decide (ixCompare cols key (endKey cols conds) < 0)
  | none =>
      if (Db.eqPrefix conds cols).length = cols.length then
        decide (ixCompare cols key (startKey cols conds) ≤ 0)
      else true

def inRange (cols : List ColMeta) (conds : List Txn.Condition) (key : Bytes) : Bool :=
  belowEnd cols conds key && !belowStart cols conds key

section

variable (hm : TabOk m) (hcols : ∀ c ∈ cols, m.findCol c.name = some c) (hlits : LitsOk m cols conds)

include hm hcols hlits in
theorem initial_belowStart {es : IndexMap} (h : Ordered cols es) :
    Initial (fun e : Bytes × Rid => belowStart cols conds e.1) es := by
  have hk := startKey_ok hm hcols hlits
  unfold belowStart
  split
  · split
    · exact initial_lt h hk
    · exact initial_le h hk
  · split
    · exact initial_lt h hk
    · exact initial_const false es

include hm hcols hlits in
theorem initial_belowEnd {es : IndexMap} (h : Ordered cols es) :
    Initial (fun e : Bytes × Rid => belowEnd cols conds e.1) es := by
  have hk := startKey_ok hm hcols hlits
  have hk' := endKey_ok hm hcols hlits
  unfold belowEnd
  split
  · split
    · exact initial_le h hk'
    · exact initial_lt h hk'
  · split
    · exact initial_le h hk
    · exact initial_const true es

theorem crossed_spec (h : crossed cols conds = true) :
    ∃ l u, lowerOf cols conds = some l ∧ upperOf cols conds = some u ∧
      (ixCompare cols (startKey cols conds) (endKey cols conds) > 0 ∨
        (ixCompare cols (startKey cols conds) (endKey cols conds) = 0 ∧
          ¬ (l.inclusive ∧ u.inclusive))) := by
  unfold crossed at h
  split at h
  · next l u hl hu => exact ⟨l, u, hl, hu, of_decide_eq_true h⟩
  · cases h

/-- Bounds that cross leave no key between them. -/
theorem inRange_eq_false_of_crossed {key : Bytes}
    (hstart : KeyOk cols (startKey cols conds)) (hend : KeyOk cols (endKey cols conds))
    (hkey : KeyOk cols key) (hcross : crossed cols conds = true) : inRange cols conds key = false := by
  obtain ⟨l, u, hl, hu, h⟩ := crossed_spec hcross
  by_contra hne
  rw [Bool.not_eq_false, inRange, Bool.and_eq_true, Bool.not_eq_true'] at hne
  obtain ⟨hbelow, habove⟩ := hne
  unfold belowEnd at hbelow
  unfold belowStart at habove
  rw [hu] at hbelow
  rw [hl] at habove
  simp only at hbelow habove
  have h0 : ¬ ixCompare cols (startKey cols conds) (endKey cols conds) < 0 := by omega
  rw [ixCompare_lt_iff hstart hend, not_lt] at h0
  have hle : keyCode cols (startKey cols conds) ≤ keyCode cols key := by
    split at habove
    · rw [decide_eq_false_iff_not, ixCompare_lt_iff hkey hstart, not_lt] at habove
      exact habove
    · rw [decide_eq_false_iff_not, ixCompare_le_iff hkey hstart, not_le] at habove
      exact le_of_lt habove
  have hge : keyCode cols key ≤ keyCode cols (endKey cols conds) := by
    split at hbelow
    · rw [decide_eq_true_iff, ixCompare_le_iff hkey hend] at hbelow
      exact hbelow
    · rw [decide_eq_true_iff, ixCompare_lt_iff hkey hend] at hbelow
      exact le_of_lt hbelow
  have hs : keyCode cols key = keyCode cols (startKey cols conds) :=
    le_antisymm (le_trans hge h0) hle
  have he : keyCode cols key = keyCode cols (endKey cols conds) :=
    le_antisymm hge (le_trans h0 hle)
  have h1 : ixCompare cols (startKey cols conds) (endKey cols conds) = 0 :=
    (ixCompare_eq_iff hstart hend).2 (hs.symm.trans he)
  obtain hgt | ⟨-, hnot⟩ := h
  · omega
  · apply hnot
    constructor
    · by_contra hex
      rw [if_neg hex, decide_eq_false_iff_not, ixCompare_le_iff hkey hstart] at habove
      exact habove (le_of_eq hs)
    · by_contra hex
      rw [if_neg hex, decide_eq_true_iff, ixCompare_lt_iff hkey hend, he] at hbelow
      exact lt_irrefl _ hbelow

include hm hcols hlits in
/-- The scanned entries are those between the bounds. -/
theorem scanRange_eq_filter {es : IndexMap} (h : Ordered cols es) :
    scanRange cols conds es = es.filter fun e => inRange cols conds e.1 := by
  have hstart := startKey_ok hm hcols hlits
  have hend := endKey_ok hm hcols hlits
  have hlo : scanLo cols conds es = (es.takeWhile fun e => belowStart cols conds e.1).length := by
    unfold scanLo belowStart
    cases lowerOf cols conds with
    | some e => cases hi : e.inclusive <;> simp [hi, lowerBound, upperBound]
    | none =>
        by_cases hE : (Db.eqPrefix conds cols).flatten ≠ []
        · simp only [if_pos hE, lowerBound]
        · simp only [if_neg hE]
          rw [List.takeWhile_eq_nil_iff.2 (by simp), List.length_nil]
  have hhi : scanHi cols conds es = (es.takeWhile fun e => belowEnd cols conds e.1).length := by
    unfold scanHi belowEnd
    cases upperOf cols conds with
    | some e => cases hi : e.inclusive <;> simp [hi, lowerBound, upperBound]
    | none =>
        by_cases hn : (Db.eqPrefix conds cols).length = cols.length
        · simp only [if_pos hn, upperBound]
        · simp only [if_neg hn]
          rw [List.takeWhile_eq_self_iff.2 (by simp)]
  have hcut := take_drop_eq_filter (initial_belowStart hm hcols hlits h)
    (initial_belowEnd hm hcols hlits h)
  rw [← hlo, ← hhi] at hcut
  unfold scanRange
  split
  · next hcross =>
    rw [eq_comm, List.filter_eq_nil_iff]
    intro e he
    rw [inRange_eq_false_of_crossed hstart hend (h.keys e he) hcross]
    decide
  · exact hcut

end

/-! ## The rows the bounds miss -/

/-- Does the suffix of a row's key sort before (or after) the extremes that fill the start (or
end) key? -/
def beyond (wantMax : Bool) (cols : List ColMeta) (data : Bytes) : Bool :=
  if wantMax then decide (ixCompare cols (Db.indexKey cols data) (Db.fillExtreme true cols) > 0)
  else decide (ixCompare cols (Db.indexKey cols data) (Db.fillExtreme false cols) < 0)

/-- Does the row have the value of the end, with its later columns beyond the extremes? -/
def beyondEnd (wantMax : Bool) (cols : List ColMeta) (e : Db.RangeEnd) (data : Bytes) : Bool :=
  match cols with
  | [] => false
  | c :: cs =>
      e.inclusive && decide (cmpBytes (data.drop c.offset) e.val c.len c.type = 0) &&
        beyond wantMax cs data

/-- Is a row that satisfies the conditions outside the bounds of the scan? -/
def missed (cols : List ColMeta) (conds : List Txn.Condition) (data : Bytes) : Bool :=
  (match lowerOf cols conds with
    | some e => beyondEnd false (suffixCols cols conds) e data
    | none => decide ((Db.eqPrefix conds cols).flatten ≠ []) &&
        beyond false (suffixCols cols conds) data) ||
    match upperOf cols conds with
    | some e => beyondEnd true (suffixCols cols conds) e data
    | none => false

section

variable (hm : TabOk m) (hcols : ∀ c ∈ cols, m.findCol c.name = some c) (hlits : LitsOk m cols conds)

include hcols in
theorem fits_of_index (hdata : data.length = m.recordSize) :
    ∀ c ∈ cols, c.offset + c.len ≤ data.length := by
  intro c hc
  rw [hdata]
  exact m.fits (mem_cols_of_index hcols hc)

include hm hcols hlits in
/-- The key of a matching row starts with the equality prefix. -/
theorem indexKey_prefixCols (hdata : data.length = m.recordSize) (heval : evalCompiled m conds data = true) :
    Db.indexKey (prefixCols cols conds) data = (Db.eqPrefix conds cols).flatten := by
  have hpre := eqPrefix_forall₂ conds cols
  have hmem : ∀ c ∈ prefixCols cols conds, c ∈ cols := fun c hc => List.mem_of_mem_take hc
  exact forall₂_indexKey hpre fun c hc v hv => getBytes_of_eqLit hm hcols hlits (hmem c hc) hv hdata heval

include hm hcols hlits in
/-- The key of a matching row is compared with a bound behind the prefix. -/
theorem ixCompare_row (hdata : data.length = m.recordSize) (heval : evalCompiled m conds data = true)
    (x : Bytes) : ixCompare cols (Db.indexKey cols data) ((Db.eqPrefix conds cols).flatten ++ x) =
      ixCompare (suffixCols cols conds) (Db.indexKey (suffixCols cols conds) data) x := by
  have hsplit := prefix_append_suffix cols conds
  have hk := (prefix_ok hcols hlits).1.length
  have h := @ixCompare_append _ (suffixCols cols conds) _ (Db.indexKey (suffixCols cols conds) data) x
    (fun c hc => words_of_index hm hcols c (List.mem_of_mem_take hc)) hk
  rw [← indexKey_prefixCols hm hcols hlits hdata heval, ← indexKey_append] at h
  rw [← indexKey_prefixCols hm hcols hlits hdata heval]
  rw [show cols.take (Db.eqPrefix conds cols).length ++ suffixCols cols conds = cols from hsplit,
    hsplit] at h
  exact h

include hm hcols hlits in
theorem belowStart_row (hdata : data.length = m.recordSize)
    (heval : evalCompiled m conds data = true) :
    belowStart cols conds (Db.indexKey cols data) =
      match lowerOf cols conds with
      | some e => beyondEnd false (suffixCols cols conds) e data
      | none => decide ((Db.eqPrefix conds cols).flatten ≠ []) &&
          beyond false (suffixCols cols conds) data := by
  unfold belowStart
  rw [startKey, ixCompare_row hm hcols hlits hdata heval, startSuffix]
  cases hl : lowerOf cols conds with
  | none =>
      by_cases hE : (Db.eqPrefix conds cols).flatten ≠ []
      · simp [hE, beyond]
      · simp [hE]
  | some e =>
      obtain ⟨c, cs, hs, he⟩ := lowerOf_spec hl
      have hc : c ∈ cols := suffixCols_subset (by rw [hs]; exact List.mem_cons_self)
      have hok := rangeEnd_ok hm hcols hlits hc he
      obtain ⟨o, ho, hinc, hholds⟩ := hok.holds data heval
      have hfits := fits_of_index hcols hdata c hc
      simp only [hs, indexKey_cons, List.tail_cons, beyondEnd, beyond]
      rw [ixCompare_cons (words_of_index hm hcols c hc) (getBytes_length hfits) hok.length,
        cmpBytes_getBytes (words_of_index hm hcols c hc)]
      generalize cmpBytes (data.drop c.offset) e.val c.len c.type = cmp at hholds ⊢
      simp only [List.mem_cons, List.not_mem_nil, or_false] at ho
      rcases ho with rfl | rfl
      · have hpos : 0 < cmp := of_decide_eq_true hholds
        have hne : cmp ≠ 0 := by omega
        simp only [hinc, ne_eq, hne, not_false_eq_true, if_true]
        simp
        omega
      · have hpos : 0 ≤ cmp := of_decide_eq_true hholds
        simp only [hinc]
        by_cases h0 : cmp = 0
        · simp [h0]
        · simp [h0]
          omega

include hm hcols hlits in
theorem belowEnd_row (hdata : data.length = m.recordSize)
    (heval : evalCompiled m conds data = true) :
    belowEnd cols conds (Db.indexKey cols data) =
      !(match upperOf cols conds with
        | some e => beyondEnd true (suffixCols cols conds) e data
        | none => false) := by
  unfold belowEnd
  cases hu : upperOf cols conds with
  | none =>
      by_cases hn : (Db.eqPrefix conds cols).length = cols.length
      · have hs : suffixCols cols conds = [] := by
          unfold suffixCols
          rw [hn, List.drop_length]
        simp only [if_pos hn]
        rw [startKey, ixCompare_row hm hcols hlits hdata heval, hs]
        rfl
      · simp only [if_neg hn, Bool.not_false]
  | some e =>
      obtain ⟨c, cs, hs, he⟩ := upperOf_spec hu
      have hc : c ∈ cols := suffixCols_subset (by rw [hs]; exact List.mem_cons_self)
      have hok := rangeEnd_ok hm hcols hlits hc he
      obtain ⟨o, ho, hinc, hholds⟩ := hok.holds data heval
      have hfits := fits_of_index hcols hdata c hc
      rw [endKey, ixCompare_row hm hcols hlits hdata heval, endSuffix, hu]
      simp only [hs, indexKey_cons, List.tail_cons, beyondEnd, beyond]
      rw [ixCompare_cons (words_of_index hm hcols c hc) (getBytes_length hfits) hok.length,
        cmpBytes_getBytes (words_of_index hm hcols c hc)]
      generalize cmpBytes (data.drop c.offset) e.val c.len c.type = cmp at hholds ⊢
      simp only [List.mem_cons, List.not_mem_nil, or_false] at ho
      rcases ho with rfl | rfl
      · have hneg : cmp < 0 := of_decide_eq_true hholds
        have hne : cmp ≠ 0 := by omega
        simp only [hinc, ne_eq, hne, not_false_eq_true, if_true]
        simp
        omega
      · have hneg : cmp ≤ 0 := of_decide_eq_true hholds
        simp only [hinc]
        by_cases h0 : cmp = 0
        · simp [h0]
          rw [← decide_not]
          exact decide_eq_decide.2 not_lt.symm
        · simp [h0]
          omega

include hm hcols hlits in
/-- A matching row is in the range unless the bounds miss it. -/
theorem inRange_row (hdata : data.length = m.recordSize) (heval : evalCompiled m conds data = true) :
    inRange cols conds (Db.indexKey cols data) = !missed cols conds data := by
  rw [inRange, belowEnd_row hm hcols hlits hdata heval, belowStart_row hm hcols hlits hdata heval,
    missed, ← Bool.not_or, Bool.or_comm]

/-! ## The scan -/

/-- What the scan needs to know of an entry: its key is that of the row it leads to. -/
def EntryOk (db : Db) (t : TxnId) (tab : TabName) (cols : List ColMeta) (e : Bytes × Rid) : Prop :=
  ∀ img, db.readRow t ⟨tab, e.2⟩ = some img →
    e.1 = Db.indexKey cols img.bytes ∧ img.bytes.length = (db.tabs tab).recordSize

/-- The row of an entry, if the transaction sees it and it satisfies `p`. -/
def entryRow (db : Db) (t : TxnId) (tab : TabName) (p : Bytes → Bool) (e : Bytes × Rid) :
    Option (Rid × Image) :=
  ((db.readRow t ⟨tab, e.2⟩).filter fun img => p img.bytes).map fun img => (e.2, img)

variable {db : Db} {t : TxnId} {tab : TabName}

/-- A scan that meets no matching row behind the first one off the prefix returns all of them. -/
theorem indexScanFrom_eq_filterMap : ∀ {es : IndexMap},
    (∀ e ∈ es, ∀ img, db.readRow t ⟨tab, e.2⟩ = some img →
      evalCompiled (db.tabs tab) conds img.bytes = true →
        Db.eqPrefixMatches cols (Db.eqPrefix conds cols) img.bytes = true) →
    es.Pairwise (fun a b => ∀ x, db.readRow t ⟨tab, a.2⟩ = some x → ∀ y,
      db.readRow t ⟨tab, b.2⟩ = some y →
        Db.eqPrefixMatches cols (Db.eqPrefix conds cols) x.bytes = false →
          Db.eqPrefixMatches cols (Db.eqPrefix conds cols) y.bytes = false) →
    db.indexScanFrom t tab cols conds es =
      es.filterMap (entryRow db t tab (evalCompiled (db.tabs tab) conds)) := by
  intro es
  induction es with
  | nil => intro _ _; rfl
  | cons e es ih =>
      intro hmatch hoff
      obtain ⟨hhead, htail⟩ := List.pairwise_cons.1 hoff
      have ih := ih (fun e' he' => hmatch e' (List.mem_cons_of_mem _ he')) htail
      rw [Db.indexScanFrom.eq_def, List.filterMap_cons]
      simp only [entryRow]
      cases hread : db.readRow t ⟨tab, e.2⟩ with
      | none => exact ih
      | some img =>
          by_cases hpre : Db.eqPrefixMatches cols (Db.eqPrefix conds cols) img.bytes = true
          · by_cases heval : evalCompiled (db.tabs tab) conds img.bytes = true
            · simp only [hpre, not_true_eq_false, if_false, heval, if_true, Option.filter_some,
                Option.map_some, ih]
            · simp only [hpre, not_true_eq_false, if_false, heval, Option.filter_some, ih]
              rfl
          · have hf : Db.eqPrefixMatches cols (Db.eqPrefix conds cols) img.bytes = false := by
              simpa using hpre
            have hnone : ∀ e' ∈ e :: es,
                entryRow db t tab (evalCompiled (db.tabs tab) conds) e' = none := by
              intro e' he'
              rw [entryRow, Option.map_eq_none_iff, Option.filter_eq_none_iff]
              intro y hy hey
              have hpy := hmatch e' he' y hy hey
              rcases List.mem_cons.1 he' with rfl | he'
              · rw [hread] at hy
                cases hy
                rw [hf] at hpy
                cases hpy
              · rw [hhead e' he' img hread y hy hf] at hpy
                cases hpy
            have hnil := List.filterMap_eq_nil_iff.2 hnone
            rw [List.filterMap_cons] at hnil
            simp only [hf, entryRow, hread] at hnil ⊢
            simp only [Bool.false_eq_true, not_false_eq_true, if_true]
            exact hnil.symm

include hm hcols hlits in
/-- What the scan does not start behind is not below the start key, if there is one. -/
theorem startKey_le {key : Bytes} (hk : KeyOk cols key) (h : belowStart cols conds key = false) :
    (Db.eqPrefix conds cols).flatten = [] ∨ keyCode cols (startKey cols conds) ≤ keyCode cols key := by
  have hs := startKey_ok hm hcols hlits
  unfold belowStart at h
  split at h
  · right
    split at h
    · rw [decide_eq_false_iff_not, ixCompare_lt_iff hk hs, not_lt] at h
      exact h
    · rw [decide_eq_false_iff_not, ixCompare_le_iff hk hs, not_le] at h
      exact le_of_lt h
  · by_cases hE : (Db.eqPrefix conds cols).flatten = []
    · exact .inl hE
    · right
      rw [if_pos hE, decide_eq_false_iff_not, ixCompare_lt_iff hk hs, not_lt] at h
      exact h

/-- A filter before the row is read is one of the row's conditions. -/
theorem filterMap_filter_entryRow {p : Bytes → Bool} {q : Bytes × Rid → Bool} {r : Bytes → Bool}
    {es : IndexMap} (h : ∀ e ∈ es, ∀ img, db.readRow t ⟨tab, e.2⟩ = some img → p img.bytes = true →
      q e = r img.bytes) :
    (es.filter q).filterMap (entryRow db t tab p) =
      es.filterMap (entryRow db t tab fun b => p b && r b) := by
  rw [List.filterMap_filter]
  refine List.filterMap_congr fun e he => ?_
  unfold entryRow
  cases hread : db.readRow t ⟨tab, e.2⟩ with
  | none => simp
  | some img =>
      by_cases hp : p img.bytes = true
      · rw [h e he img hread hp]
        cases hr : r img.bytes <;> simp [Option.filter_some, hp, hr]
      · have hp : p img.bytes = false := by simpa using hp
        simp [Option.filter_some, hp]

theorem indexKey_split (cols : List ColMeta) (conds : List Txn.Condition) (data : Bytes) :
    Db.indexKey cols data = Db.indexKey (prefixCols cols conds) data ++
      Db.indexKey (suffixCols cols conds) data := by
  rw [← indexKey_append, prefix_append_suffix]

/-- Keys in order have prefixes in order. -/
theorem prefix_le {pre rest : List ColMeta} {k k' x y : Bytes} (hsplit : pre ++ rest = cols)
    (hw : ∀ c ∈ pre, Words c) (hk : KeyOk pre k) (hk' : KeyOk pre k')
    (h : keyCode cols (k ++ x) ≤ keyCode cols (k' ++ y)) : keyCode pre k ≤ keyCode pre k' := by
  rw [← hsplit, keyCode_append hw hk.length, keyCode_append hw hk'.length] at h
  by_contra hlt
  rw [not_le] at hlt
  exact absurd ((Index.append_lt_append_iff (keyCode_length hk'.length hk.length)).2 (.inl hlt))
    (not_lt_of_ge h)

end

/-- The rows of an index scan over ordered entries that hold the keys of their rows. -/
theorem indexScanFrom_scanRange {db : Db} {t : TxnId} {tab : TabName} {es : IndexMap}
    (hm : TabOk (db.tabs tab)) (hcols : ∀ c ∈ cols, (db.tabs tab).findCol c.name = some c)
    (hlits : LitsOk (db.tabs tab) cols conds) (hes : Ordered cols es)
    (hkeys : ∀ e ∈ es, EntryOk db t tab cols e) :
    db.indexScanFrom t tab cols conds (scanRange cols conds es) =
      es.filterMap (entryRow db t tab fun b =>
        evalCompiled (db.tabs tab) conds b && !missed cols conds b) := by
  have hpre := eqPrefix_forall₂ conds cols
  have hmem : ∀ c ∈ prefixCols cols conds, c ∈ cols := fun c hc => List.mem_of_mem_take hc
  obtain ⟨hE, hdisc⟩ := prefix_ok hcols hlits
  have hwords := words_of_index hm hcols
  -- the prefix check reads the prefix of the key
  have hmatches : ∀ e ∈ es, ∀ img, db.readRow t ⟨tab, e.2⟩ = some img →
      (Db.eqPrefixMatches cols (Db.eqPrefix conds cols) img.bytes = true ↔
        Db.indexKey (prefixCols cols conds) img.bytes = (Db.eqPrefix conds cols).flatten) := by
    intro e he img hread
    have hfits := fits_of_index hcols (hkeys e he img hread).2
    have hzip : cols.zip (Db.eqPrefix conds cols) =
        (prefixCols cols conds).zip (Db.eqPrefix conds cols) := by
      calc cols.zip (Db.eqPrefix conds cols)
          = (prefixCols cols conds ++ suffixCols cols conds).zip (Db.eqPrefix conds cols ++ []) := by
            rw [prefix_append_suffix, List.append_nil]
        _ = (prefixCols cols conds).zip (Db.eqPrefix conds cols) ++
              (suffixCols cols conds).zip [] := List.zip_append hpre.length_eq
        _ = (prefixCols cols conds).zip (Db.eqPrefix conds cols) := by
            rw [List.zip_nil_right, List.append_nil]
    unfold Db.eqPrefixMatches
    rw [hzip]
    exact eqPrefixMatches_iff hpre (fun c hc => hfits c (hmem c hc))
      fun c hc v hv => (eqLit_value hcols hlits (hmem c hc) hv).2
  have hfilter := scanRange_eq_filter hm hcols hlits hes
  rw [hfilter, indexScanFrom_eq_filterMap, filterMap_filter_entryRow]
  · intro e he img hread heval
    obtain ⟨hkey, hlen⟩ := hkeys e he img hread
    rw [hkey]
    exact inRange_row hm hcols hlits hlen heval
  · intro e he img hread heval
    have he := List.mem_of_mem_filter he
    exact (hmatches e he img hread).2 (indexKey_prefixCols hm hcols hlits (hkeys e he img hread).2 heval)
  · refine (hes.sorted.filter _).imp_of_mem fun {a b} ha hb hab x hx y hy hoff => ?_
    obtain ⟨ha, hin⟩ := List.mem_filter.1 ha
    have hb := List.mem_of_mem_filter hb
    rw [← Bool.not_eq_true, hmatches a ha x hx] at hoff
    rw [← Bool.not_eq_true, hmatches b hb y hy]
    intro heq
    apply hoff
    obtain ⟨hka, hla⟩ := hkeys a ha x hx
    obtain ⟨hkb, hlb⟩ := hkeys b hb y hy
    have hsplit := prefix_append_suffix cols conds
    have hPw : ∀ c ∈ prefixCols cols conds, Words c := fun c hc => hwords c (hmem c hc)
    have hPa : KeyOk (prefixCols cols conds) (Db.indexKey (prefixCols cols conds) x.bytes) :=
      ⟨indexKey_length fun c hc => fits_of_index hcols hla c (hmem c hc),
        keyNaNFree_of_discrete hdisc _⟩
    have hlow : keyCode (prefixCols cols conds) (Db.eqPrefix conds cols).flatten ≤
        keyCode (prefixCols cols conds) (Db.indexKey (prefixCols cols conds) x.bytes) := by
      rw [inRange, Bool.and_eq_true, Bool.not_eq_true'] at hin
      obtain hnil | hle := startKey_le hm hcols hlits (hes.keys a ha) hin.2
      · have hzero : keyLen (prefixCols cols conds) = 0 := by rw [← hE.length, hnil, List.length_nil]
        have hPx := List.length_eq_zero_iff.1 (hPa.length.trans hzero)
        rw [hnil, hPx]
      · rw [hka, indexKey_split cols conds] at hle
        exact prefix_le hsplit hPw hE hPa hle
    have hhigh : keyCode (prefixCols cols conds) (Db.indexKey (prefixCols cols conds) x.bytes) ≤
        keyCode (prefixCols cols conds) (Db.eqPrefix conds cols).flatten := by
      rw [ixCompare_lt_iff (hes.keys a ha) (hes.keys b hb), hka, hkb] at hab
      have hab := le_of_lt hab
      rw [indexKey_split cols conds, indexKey_split cols conds, heq] at hab
      exact prefix_le hsplit hPw hPa hE hab
    have hcode := le_antisymm hhigh hlow
    exact key_eq_of_code hPw hdisc hPa.length hE.length ((ixCompare_eq_iff hPa hE).2 hcode)

end Rmdb.Query
