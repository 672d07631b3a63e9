import Rmdb.Index.Scan
import Rmdb.Query.RangeScan
import Rmdb.Row.Load

/-!
# The index scan executor

`IndexScanExecutor` (src/execution/executor_index_scan.h) over the tree of an index.  `beginTuple`
turns the bounds into two positions, the first of which does not lie behind the second
(`notAfter`), and `position_to_match` walks `IxScan` from one to the other.  The loop over the
executor ends and returns the rows of the entries between the bounds (`indexScanRows_eq`), which
are the rows that satisfy the conditions (`indexScan_exact`).
-/

namespace Rmdb.Query

open Rmdb.Index (Rid IxCol IxKey IxIndexHandle IxScan IxOp Bound Tree Scanning NotAfter Represents
  Increasing cat entriesBetween)
open Rmdb.Txn
open Rmdb.Txn.Db (suffixCols lowerOf upperOf startSuffix endSuffix startKey endKey crossed scanRange)

/-! ## Keys of the tree -/

/-- The columns of the keys; the results below are about `INT` and `CHAR` columns. -/
def ixCol (c : ColMeta) : IxCol :=
  match c.type with
  | .int => .int
  | .float | .string => .string c.len

def ixCols (cols : List ColMeta) : List IxCol := cols.map ixCol

/-- A buffer of `col_tot_len` bytes with the key in it. -/
def keyOf (cols : List ColMeta) (key : Bytes) : IxKey (ixCols cols) where
  bytes := (key ++ List.replicate ((ixCols cols).map IxCol.len).sum 0).take
    ((ixCols cols).map IxCol.len).sum
  length_eq := by
    rw [List.length_take, List.length_append, List.length_replicate]
    omega

section

variable {c : ColMeta} {cols : List ColMeta} {a b key : Bytes}

theorem ixCol_len (hw : Words c) (hd : Discrete c) : (ixCol c).len = c.len := by
  unfold ixCol
  cases htype : c.type with
  | int => exact (hw (by rw [htype]; decide)).symm
  | float => exact absurd htype hd
  | string => rfl

theorem ixCols_len : ∀ {cols : List ColMeta}, (∀ c ∈ cols, Words c) → (∀ c ∈ cols, Discrete c) →
    ((ixCols cols).map IxCol.len).sum = keyLen cols := by
  intro cols
  induction cols with
  | nil => intro _ _; rfl
  | cons c cs ih =>
      intro hw hd
      have hrest := ih (fun d hd' => hw d (List.mem_cons_of_mem _ hd'))
        fun d hd' => hd d (List.mem_cons_of_mem _ hd')
      simp only [ixCols, keyLen] at hrest ⊢
      simp only [List.map_cons, List.sum_cons, hrest,
        ixCol_len (hw c List.mem_cons_self) (hd c List.mem_cons_self)]

theorem readInt_eq (a : Bytes) : Index.readInt a = (getWord a 0).toInt := by
  unfold Index.readInt getWord
  congr 1
  apply BitVec.eq_of_toNat_eq
  have h0 := (a.getD 0 0).toNat_lt
  have h1 := (a.getD 1 0).toNat_lt
  have h2 := (a.getD 2 0).toNat_lt
  have h3 := (a.getD 3 0).toNat_lt
  simp only [BitVec.toNat_ofNat, BitVec.toNat_append, UInt8.toNat_toBitVec, Nat.zero_add]
  rw [Nat.mod_eq_of_lt (by omega), ← Nat.shiftLeft_add_eq_or_of_lt h2,
    ← Nat.shiftLeft_add_eq_or_of_lt h1, ← Nat.shiftLeft_add_eq_or_of_lt h0]
  simp only [Nat.shiftLeft_eq]
  omega

theorem ixCompareCol_eq (hd : Discrete c) (a b : Bytes) :
    Index.ixCompareCol (ixCol c) a b = cmpBytes a b c.len c.type := by
  unfold ixCol cmpBytes
  cases htype : c.type with
  | int => simp only [Index.ixCompareCol, readInt_eq, gt_iff_lt]
  | float => exact absurd htype hd
  | string => rfl

/-- `ix_compare` on the bytes of a key is the order of the tree. -/
theorem ixCompare_ixCols : ∀ {cols : List ColMeta} {a b : Bytes}, (∀ c ∈ cols, Words c) →
    (∀ c ∈ cols, Discrete c) → Index.ixCompare (ixCols cols) a b = ixCompare cols a b := by
  intro cols
  induction cols with
  | nil => intro a b _ _; rfl
  | cons c cs ih =>
      intro a b hw hd
      have hc := hd c List.mem_cons_self
      have hrest := @ih (a.drop c.len) (b.drop c.len) (fun d hd' => hw d (List.mem_cons_of_mem _ hd'))
        fun d hd' => hd d (List.mem_cons_of_mem _ hd')
      have hstep : ixCols (c :: cs) = ixCol c :: ixCols cs := rfl
      rw [hstep, Index.ixCompare, ixCompare, ixCompareCol_eq hc,
        ixCol_len (hw c List.mem_cons_self) hc, hrest]

theorem keyOf_bytes (hw : ∀ c ∈ cols, Words c) (hd : ∀ c ∈ cols, Discrete c)
    (h : key.length = keyLen cols) : (keyOf cols key).bytes = key := by
  unfold keyOf
  simp only
  rw [ixCols_len hw hd, List.take_append_of_le_length (by omega), ← h, List.take_length]

theorem IxKey.keyOk (hw : ∀ c ∈ cols, Words c) (hd : ∀ c ∈ cols, Discrete c) (k : IxKey (ixCols cols)) :
    KeyOk cols k.bytes :=
  ⟨k.length_eq.trans (ixCols_len hw hd), keyNaNFree_of_discrete hd _⟩

theorem lt_iff_ixCompare (hw : ∀ c ∈ cols, Words c) (hd : ∀ c ∈ cols, Discrete c)
    (k k' : IxKey (ixCols cols)) : k < k' ↔ ixCompare cols k.bytes k'.bytes < 0 := by
  rw [← ixCompare_ixCols hw hd, Index.ixCompare_lt_iff]

theorem le_iff_ixCompare (hw : ∀ c ∈ cols, Words c) (hd : ∀ c ∈ cols, Discrete c)
    (k k' : IxKey (ixCols cols)) : k ≤ k' ↔ ixCompare cols k.bytes k'.bytes ≤ 0 := by
  rw [le_iff_lt_or_eq, ← Index.ixCompare_lt_iff, ← Index.ixCompare_eq_iff, ixCompare_ixCols hw hd,
    le_iff_lt_or_eq]

end

/-! ## The executor -/

/-- `IndexScanExecutor` between two calls; `mvccBuf` is the visible version under `rid` once the
table is dirty. -/
structure IndexScanExecutor where
  scan : IxScan
  rangeExhausted : Bool
  rid : Rid := ⟨-1, -1⟩
  mvccBuf : Bytes := []

section

variable (cols : List ColMeta) (conds : List Txn.Condition)

/-- The positions `lo` and `hi` of `beginTuple` as the calls that give them. -/
def loBound : Bound (IxKey (ixCols cols)) :=
  match lowerOf cols conds with
  | some e =>
      if e.inclusive then .lower (keyOf cols (startKey cols conds))
      else .upper (keyOf cols (startKey cols conds))
  | none =>
      if (Db.eqPrefix conds cols).flatten ≠ [] then .lower (keyOf cols (startKey cols conds))
      else .leafBegin

def hiBound : Bound (IxKey (ixCols cols)) :=
  match upperOf cols conds with
  | some e =>
      if e.inclusive then .upper (keyOf cols (endKey cols conds))
      else .lower (keyOf cols (endKey cols conds))
  | none =>
      if (Db.eqPrefix conds cols).length = cols.length then .upper (keyOf cols (startKey cols conds))
      else .leafEnd

end

namespace IndexScanExecutor

variable (db : Db) (t : TxnId) (tab : TabName) (cols : List ColMeta) (conds : List Txn.Condition)
  (ih : IxIndexHandle (IxKey (ixCols cols)))

/-- `position_to_match`; `none` when a page is missing or the fuel is spent.  The flags
`need_eval_` and `need_prefix_check_` skip tests that no conditions and no prefix always pass. -/
def positionToMatch : Nat → IndexScanExecutor → Option IndexScanExecutor
  | 0, _ => none
  | fuel + 1, ex =>
      if ex.rangeExhausted then some ex
      else do
        let (sc, done) ← IxScan.isEnd ih ex.scan
        if done then some { ex with scan := sc }
        else
          let (sc, rid) ← IxScan.rid ih sc
          let (sc, done) ← IxScan.isEnd ih sc
          let ex := { ex with scan := sc, rid := rid }
          if done ∨ rid.pageNo < 0 ∨ rid.slotNo < 0 then some ex
          else
            match db.readRow t ⟨tab, rid⟩ with
            | none => do
                let sc ← IxScan.next ih ex.scan
                positionToMatch fuel { ex with scan := sc }
            | some img =>
                let ex := if db.tableIsDirty tab then { ex with mvccBuf := img.bytes } else ex
                if ¬ Db.eqPrefixMatches cols (Db.eqPrefix conds cols) img.bytes then
                  some { ex with rangeExhausted := true }
                else if evalCompiled (db.tabs tab) conds img.bytes then some ex
                else do
                  let sc ← IxScan.next ih ex.scan
                  positionToMatch fuel { ex with scan := sc }

/-- `beginTuple`: bounds that cross give a scan from `lo` to `lo`. -/
def beginTuple (fuel : Nat) : Option IndexScanExecutor := do
  let lo ← ih.boundIid (loBound cols conds)
  let hi ← ih.boundIid (hiBound cols conds)
  if crossed cols conds then
    some { scan := { iid := lo, end_ := lo }, rangeExhausted := true }
  else
    positionToMatch db t tab cols conds ih fuel
      { scan := { iid := lo, end_ := hi }, rangeExhausted := false }

def isEnd (ex : IndexScanExecutor) : Option (IndexScanExecutor × Bool) :=
  if ex.rangeExhausted then some (ex, true)
  else do
    let (sc, done) ← IxScan.isEnd ih ex.scan
    some ({ ex with scan := sc }, done)

def nextTuple (fuel : Nat) (ex : IndexScanExecutor) : Option IndexScanExecutor := do
  let (ex, done) ← isEnd cols ih ex
  if done then some ex
  else
    let sc ← IxScan.next ih ex.scan
    positionToMatch db t tab cols conds ih fuel { ex with scan := sc }

/-- `Next`: the buffer of a dirty table, else the bytes of the slot. -/
def next (ex : IndexScanExecutor) : Bytes :=
  if db.tableIsDirty tab then ex.mvccBuf else (db.rows ⟨tab, ex.rid⟩).slot.data.bytes

/-- `for (beginTuple(); !is_end(); nextTuple()) Next()` from the first row on, with `rid()`. -/
def drain (fuel : Nat) : Nat → IndexScanExecutor → Option (List (Rid × Bytes))
  | 0, _ => none
  | turns + 1, ex => do
      let (ex, done) ← isEnd cols ih ex
      if done then some []
      else
        let row := (ex.rid, next db tab ex)
        let ex ← nextTuple db t tab cols conds ih fuel ex
        let rest ← drain fuel turns ex
        some (row :: rest)

end IndexScanExecutor

/-- The rows of an index scan, from the constructor on; `ihs` are the open indexes of the table. -/
def indexScanRows (db : Db) (t : TxnId) (tab : TabName)
    (ihs : (cols : List ColMeta) → IxIndexHandle (IxKey (ixCols cols))) (conds : List Condition)
    (names : List String) (fuel : Nat) : Except ExecError (Option (List (Rid × Bytes))) := do
  let cols ← getIndexMeta (db.tabs tab) names
  let conds ← fedConds tab conds
  let conds := conds.map Condition.bare
  pure do
    let ex ← IndexScanExecutor.beginTuple db t tab cols conds (ihs cols) fuel
    IndexScanExecutor.drain db t tab cols conds (ihs cols) fuel fuel ex

/-! ## The bounds -/

section

variable {m : TabMeta} {cols : List ColMeta} {conds : List Txn.Condition}
variable (hm : TabOk m) (hcols : ∀ c ∈ cols, m.findCol c.name = some c) (hlits : LitsOk m cols conds)
  (hd : ∀ c ∈ cols, Discrete c)

theorem before_lower (hw : ∀ c ∈ cols, Words c) (hd : ∀ c ∈ cols, Discrete c) {key : Bytes}
    (hk : key.length = keyLen cols) (e : IxKey (ixCols cols) × Rid) :
    (Bound.lower (keyOf cols key)).before e = decide (ixCompare cols e.1.bytes key < 0) := by
  rw [Bound.before, decide_eq_decide, lt_iff_ixCompare hw hd, keyOf_bytes hw hd hk]

theorem before_upper (hw : ∀ c ∈ cols, Words c) (hd : ∀ c ∈ cols, Discrete c) {key : Bytes}
    (hk : key.length = keyLen cols) (e : IxKey (ixCols cols) × Rid) :
    (Bound.upper (keyOf cols key)).before e = decide (ixCompare cols e.1.bytes key ≤ 0) := by
  rw [Bound.before, decide_eq_decide, le_iff_ixCompare hw hd, keyOf_bytes hw hd hk]

include hm hcols hlits hd in
theorem loBound_before (e : IxKey (ixCols cols) × Rid) :
    (loBound cols conds).before e = belowStart cols conds e.1.bytes := by
  have hw := words_of_index hm hcols
  have hk := (startKey_ok hm hcols hlits).length
  unfold loBound belowStart
  cases lowerOf cols conds with
  | some l =>
      by_cases hl : l.inclusive = true
      · simp only [if_pos hl, before_lower hw hd hk]
      · simp only [if_neg hl, before_upper hw hd hk]
  | none =>
      by_cases hE : (Db.eqPrefix conds cols).flatten ≠ []
      · simp only [if_pos hE, before_lower hw hd hk]
      · simp only [if_neg hE, Bound.before]

include hm hcols hlits hd in
theorem hiBound_before (e : IxKey (ixCols cols) × Rid) :
    (hiBound cols conds).before e = belowEnd cols conds e.1.bytes := by
  have hw := words_of_index hm hcols
  have hk := (startKey_ok hm hcols hlits).length
  have hk' := (endKey_ok hm hcols hlits).length
  unfold hiBound belowEnd
  cases upperOf cols conds with
  | some u =>
      by_cases hu : u.inclusive = true
      · simp only [if_pos hu, before_upper hw hd hk']
      · simp only [if_neg hu, before_lower hw hd hk']
  | none =>
      by_cases hn : (Db.eqPrefix conds cols).length = cols.length
      · simp only [if_pos hn, before_upper hw hd hk]
      · simp only [if_neg hn, Bound.before]

/-- Without a lower end the start key has the least values behind the prefix. -/
theorem startKey_le_endKey (hw : ∀ c ∈ cols, Words c) (hend : KeyOk cols (endKey cols conds))
    (hpre : (Db.eqPrefix conds cols).flatten.length = keyLen (prefixCols cols conds))
    (hd : ∀ c ∈ cols, Discrete c) (hl : lowerOf cols conds = none) :
    ixCompare cols (startKey cols conds) (endKey cols conds) ≤ 0 := by
  have hpw : ∀ c ∈ prefixCols cols conds, Words c := fun c hc => hw c (List.mem_of_mem_take hc)
  have hsw : ∀ c ∈ suffixCols cols conds, Words c := fun c hc => hw c (suffixCols_subset hc)
  have hsd : ∀ c ∈ suffixCols cols conds, Discrete c := fun c hc => hd c (suffixCols_subset hc)
  have hlen : (endSuffix cols conds).length = keyLen (suffixCols cols conds) := by
    have h := hend.length
    have hcut := keyLen_append (prefixCols cols conds) (suffixCols cols conds)
    rw [prefix_append_suffix] at hcut
    rw [endKey, List.length_append] at h
    omega
  have hmin := fillExtreme_length false hsw
  have hcmp := (ixCompare_extreme hsw hsd hlen).2
  have happ := @ixCompare_append (prefixCols cols conds) (suffixCols cols conds) _
    (Db.fillExtreme false (suffixCols cols conds)) (endSuffix cols conds) hpw hpre
  rw [prefix_append_suffix] at happ
  have hstart : startSuffix cols conds = Db.fillExtreme false (suffixCols cols conds) := by
    unfold startSuffix
    rw [hl]
  rw [startKey, endKey, hstart, happ]
  have hmink : KeyOk (suffixCols cols conds) (Db.fillExtreme false (suffixCols cols conds)) :=
    ⟨hmin, keyNaNFree_of_discrete hsd _⟩
  have hendk : KeyOk (suffixCols cols conds) (endSuffix cols conds) :=
    ⟨hlen, keyNaNFree_of_discrete hsd _⟩
  rw [ixCompare_le_iff hmink hendk]
  rw [← not_lt, ← ixCompare_lt_iff hendk hmink]
  omega

/-- A key below the start is at most the start key. -/
theorem le_startKey {key : Bytes} (hk : KeyOk cols key) (hs : KeyOk cols (startKey cols conds))
    (h : belowStart cols conds key = true) :
    keyCode cols key ≤ keyCode cols (startKey cols conds) := by
  unfold belowStart at h
  split at h
  · split at h
    · rw [decide_eq_true_iff, ixCompare_lt_iff hk hs] at h
      exact le_of_lt h
    · rw [decide_eq_true_iff, ixCompare_le_iff hk hs] at h
      exact h
  · split at h
    · rw [decide_eq_true_iff, ixCompare_lt_iff hk hs] at h
      exact le_of_lt h
    · cases h

include hm hcols hlits hd in
/-- **The start does not lie behind the end**, unless the bounds cross. -/
theorem belowEnd_of_belowStart {key : Bytes} (hk : KeyOk cols key)
    (hcross : crossed cols conds = false) (h : belowStart cols conds key = true) :
    belowEnd cols conds key = true := by
  have hs := startKey_ok hm hcols hlits
  have he := endKey_ok hm hcols hlits
  have hle := le_startKey hk hs h
  unfold belowEnd
  cases hu : upperOf cols conds with
  | none =>
      simp only
      split
      · rw [decide_eq_true_iff, ixCompare_le_iff hk hs]
        exact hle
      · rfl
  | some u =>
      simp only
      cases hl : lowerOf cols conds with
      | none =>
          have hpre := (prefix_ok hcols hlits).1.length
          have hse := startKey_le_endKey (words_of_index hm hcols) he hpre hd hl
          rw [ixCompare_le_iff hs he] at hse
          unfold belowStart at h
          rw [hl] at h
          simp only at h
          split at h
          · rw [decide_eq_true_iff, ixCompare_lt_iff hk hs] at h
            have hlt := lt_of_lt_of_le h hse
            split
            · rw [decide_eq_true_iff, ixCompare_le_iff hk he]
              exact le_of_lt hlt
            · rw [decide_eq_true_iff, ixCompare_lt_iff hk he]
              exact hlt
          · cases h
      | some l =>
          unfold crossed at hcross
          rw [hl, hu] at hcross
          simp only [decide_eq_false_iff_not, not_or, not_and_or, not_not, gt_iff_lt, not_lt] at hcross
          obtain ⟨hse, hboth⟩ := hcross
          split
          · rw [ixCompare_le_iff hs he] at hse
            rw [decide_eq_true_iff, ixCompare_le_iff hk he]
            exact le_trans hle hse
          · next hex =>
            have hne : ixCompare cols (startKey cols conds) (endKey cols conds) ≠ 0 :=
              hboth.resolve_right fun hincl => hex hincl.2
            have hlt : ixCompare cols (startKey cols conds) (endKey cols conds) < 0 := by omega
            rw [ixCompare_lt_iff hs he] at hlt
            rw [decide_eq_true_iff, ixCompare_lt_iff hk he]
            exact lt_of_le_of_lt hle hlt

/-! ## The entries of the tree -/

/-- An entry with the bytes of its key. -/
def keyBytes (e : IxKey (ixCols cols) × Rid) : Bytes × Rid := (e.1.bytes, e.2)

variable {ih : IxIndexHandle (IxKey (ixCols cols))} {l : List Int} {ls : List (List Int)}

include hm hcols hd in
theorem ordered_cat (h : Tree ih l ls) : Ordered cols ((cat ih l).map keyBytes) := by
  have hw := words_of_index hm hcols
  constructor
  · intro e he
    obtain ⟨e, -, rfl⟩ := List.mem_map.1 he
    exact IxKey.keyOk hw hd e.1
  · refine List.pairwise_map.2 (h.leaves.sorted.imp fun hlt => ?_)
    exact (lt_iff_ixCompare hw hd _ _).1 hlt

include hm hcols hlits hd in
theorem notAfter (hcross : crossed cols conds = false) :
    NotAfter ih l (loBound cols conds) (hiBound cols conds) := by
  intro e _ hlo
  rw [loBound_before hm hcols hlits hd] at hlo
  rw [hiBound_before hm hcols hlits hd]
  exact belowEnd_of_belowStart hm hcols hlits hd
    (IxKey.keyOk (words_of_index hm hcols) hd e.1) hcross hlo

include hm hcols hlits hd in
/-- The entries between the positions are those of the list. -/
theorem entriesBetween_eq (h : Tree ih l ls) :
    (entriesBetween ih l (loBound cols conds) (hiBound cols conds)).map keyBytes =
      scanRange cols conds ((cat ih l).map keyBytes) := by
  rw [scanRange_eq_filter hm hcols hlits (ordered_cat hm hcols hd h), List.filter_map]
  unfold entriesBetween
  congr 1
  refine List.filter_congr fun e _ => ?_
  rw [Bound.between, loBound_before hm hcols hlits hd, hiBound_before hm hcols hlits hd, Bool.and_comm]
  rfl

end

/-! ## The walk -/

namespace IndexScanExecutor

variable {db : Db} {t : TxnId} {tab : TabName} {cols : List ColMeta} {conds : List Txn.Condition}
  {ih : IxIndexHandle (IxKey (ixCols cols))} {l : List Int} {ls : List (List Int)}
  {X Y Z : List (IxKey (ixCols cols) × Rid)} {ex : IndexScanExecutor}

/-- The executor has no row: the range is exhausted, or its scan is at the end. -/
def Ended (ih : IxIndexHandle (IxKey (ixCols cols))) (l : List Int) (ex : IndexScanExecutor) : Prop :=
  ex.rangeExhausted = true ∨ ∃ X Y, Scanning ih l ex.scan X [] Y

/-- The executor is on the row of the entry `e`, with the entries `Z` behind it up to the end. -/
structure OnRow (db : Db) (t : TxnId) (tab : TabName) (ih : IxIndexHandle (IxKey (ixCols cols)))
    (l : List Int) (ex : IndexScanExecutor) (e : IxKey (ixCols cols) × Rid) (img : Image)
    (Z : List (IxKey (ixCols cols) × Rid)) : Prop where
  open_ : ex.rangeExhausted = false
  scanning : ∃ X Y, Scanning ih l ex.scan X (e :: Z) Y
  rid : ex.rid = e.2
  read : db.readRow t ⟨tab, e.2⟩ = some img
  buf : db.tableIsDirty tab = true → ex.mvccBuf = img.bytes

/-- The executor is where `position_to_match` leaves it, with `rows` still to return. -/
def Positioned (db : Db) (t : TxnId) (tab : TabName) (conds : List Txn.Condition)
    (ih : IxIndexHandle (IxKey (ixCols cols))) (l : List Int) (ex : IndexScanExecutor)
    (Z : List (IxKey (ixCols cols) × Rid)) (rows : List (Rid × Image)) : Prop :=
  (Ended ih l ex ∧ rows = []) ∨
    ∃ e img, OnRow db t tab ih l ex e img Z ∧
      rows = (e.2, img) :: db.indexScanFrom t tab cols conds (Z.map keyBytes)

/-- `position_to_match` skips entries without a matching row, up to a matching one or the end. -/
theorem positionToMatch_spec (db : Db) (t : TxnId) (tab : TabName) (conds : List Txn.Condition)
    (h : Tree ih l ls) : ∀ (Z : List (IxKey (ixCols cols) × Rid)) (n : Nat)
    (X : List (IxKey (ixCols cols) × Rid)) (ex : IndexScanExecutor), ex.rangeExhausted = false →
    Scanning ih l ex.scan X Z Y → (∀ e ∈ Z, 0 ≤ e.2.pageNo ∧ 0 ≤ e.2.slotNo) → Z.length < n →
    ∃ ex' Z', positionToMatch db t tab cols conds ih n ex = some ex' ∧ Z' <:+ Z ∧
      Positioned db t tab conds ih l ex' Z' (db.indexScanFrom t tab cols conds (Z.map keyBytes)) := by
  intro Z
  induction Z with
  | nil =>
      intro n X ex hopen hs _ hn
      obtain ⟨n, rfl⟩ := Nat.exists_eq_add_one_of_ne_zero (by omega : n ≠ 0)
      refine ⟨ex, [], ?_, List.suffix_refl _, .inl ⟨.inr ⟨X, Y, hs⟩, rfl⟩⟩
      rw [positionToMatch, if_neg (by simp [hopen]), Index.isEnd_nil h hs]
      rfl
  | cons e Z ih' =>
      intro n X ex hopen hs hrids hn
      obtain ⟨n, rfl⟩ := Nat.exists_eq_add_one_of_ne_zero (by omega : n ≠ 0)
      obtain ⟨sc1, hend1, hs1⟩ := Index.isEnd_cons h hs
      obtain ⟨sc2, hrid, hs2⟩ := Index.rid_eq h hs1
      obtain ⟨sc3, hend3, hs3⟩ := Index.isEnd_cons h hs2
      obtain ⟨sc4, hnext, hs4⟩ := Index.next_eq h hs3
      obtain ⟨hpage, hslot⟩ := hrids e List.mem_cons_self
      rw [List.length_cons] at hn
      -- what the rest of the loop does, whatever the row left in the buffer
      have hrest : ∀ buf : Bytes, ∃ ex' Z',
          positionToMatch db t tab cols conds ih n
            { ex with scan := sc4, rid := e.2, mvccBuf := buf } = some ex' ∧
          Z' <:+ e :: Z ∧
          Positioned db t tab conds ih l ex' Z' (db.indexScanFrom t tab cols conds (Z.map keyBytes)) := by
        intro buf
        obtain ⟨ex', Z', hrun, hsuf, hpos⟩ := ih' n (X ++ [e])
          { ex with scan := sc4, rid := e.2, mvccBuf := buf } hopen hs4
          (fun e' he' => hrids e' (List.mem_cons_of_mem _ he')) (by omega)
        exact ⟨ex', Z', hrun, hsuf.trans (List.suffix_cons e Z), hpos⟩
      have hnot : ¬ (false = true ∨ e.2.pageNo < 0 ∨ e.2.slotNo < 0) := by
        rintro (hf | hp | hsl)
        · cases hf
        · omega
        · omega
      have hhead : (e :: Z).map keyBytes = (e.1.bytes, e.2) :: Z.map keyBytes := rfl
      rw [positionToMatch, if_neg (by simp [hopen]), hend1]
      simp only [Option.bind_eq_bind, Option.bind_some, Bool.false_eq_true, if_false, hrid, hend3]
      rw [if_neg (by simpa using hnot), hhead, Db.indexScanFrom]
      cases hread : db.readRow t ⟨tab, e.2⟩ with
      | none =>
          simp only [hnext, Option.bind_some]
          exact hrest ex.mvccBuf
      | some img =>
          have hbuf : (if db.tableIsDirty tab = true then
                { ex with scan := sc3, rid := e.2, mvccBuf := img.bytes }
              else { ex with scan := sc3, rid := e.2 }) =
              { ex with
                scan := sc3
                rid := e.2
                mvccBuf := if db.tableIsDirty tab = true then img.bytes else ex.mvccBuf } := by
            split <;> rfl
          simp only [hbuf]
          by_cases hpre : Db.eqPrefixMatches cols (Db.eqPrefix conds cols) img.bytes = true
          · by_cases heval : evalCompiled (db.tabs tab) conds img.bytes = true
            · simp only [hpre, not_true_eq_false, if_false, heval, if_true]
              refine ⟨_, Z, rfl, List.suffix_cons e Z, .inr ⟨e, img, ⟨hopen, ⟨X, Y, hs3⟩, rfl, hread, ?_⟩, rfl⟩⟩
              intro hdirty
              simp only [hdirty, if_true]
            · simp only [hpre, not_true_eq_false, if_false, heval, hnext, Option.bind_some]
              exact hrest _
          · simp only [if_pos hpre]
            exact ⟨_, [], rfl, List.nil_suffix, .inl ⟨.inl rfl, rfl⟩⟩

/-- What a positioned executor answers to `is_end`. -/
theorem isEnd_ended (h : Tree ih l ls) (hend : Ended ih l ex) : ∃ ex', isEnd cols ih ex = some (ex', true) := by
  unfold isEnd
  obtain hx | ⟨X, Y, hs⟩ := hend
  · exact ⟨ex, by rw [if_pos hx]⟩
  · cases hx : ex.rangeExhausted with
    | true => exact ⟨ex, rfl⟩
    | false =>
        rw [if_neg Bool.false_ne_true, Index.isEnd_nil h hs]
        exact ⟨_, rfl⟩

theorem isEnd_onRow {e : IxKey (ixCols cols) × Rid} {img : Image} (h : Tree ih l ls)
    (hrow : OnRow db t tab ih l ex e img Z) :
    ∃ ex', isEnd cols ih ex = some (ex', false) ∧ OnRow db t tab ih l ex' e img Z := by
  obtain ⟨X, Y, hs⟩ := hrow.scanning
  obtain ⟨sc, hend, hs'⟩ := Index.isEnd_cons h hs
  refine ⟨{ ex with scan := sc }, ?_, hrow.open_, ⟨X, Y, hs'⟩, hrow.rid, hrow.read, hrow.buf⟩
  unfold isEnd
  rw [if_neg (by simp [hrow.open_]), hend]
  rfl

/-- `Next` gives the row the executor is on. -/
theorem next_onRow {e : IxKey (ixCols cols) × Rid} {img : Image}
    (hrow : OnRow db t tab ih l ex e img Z) : next db tab ex = img.bytes := by
  unfold next
  have hread := hrow.read
  unfold Db.readRow at hread
  cases hdirty : db.tableIsDirty tab with
  | true => exact hrow.buf hdirty
  | false =>
      rw [hdirty] at hread
      cases hread
      rw [hrow.rid]
      rfl

theorem nextTuple_onRow (conds : List Txn.Condition) {e : IxKey (ixCols cols) × Rid} {img : Image} {n : Nat} (h : Tree ih l ls)
    (hrow : OnRow db t tab ih l ex e img Z) (hrids : ∀ e ∈ Z, 0 ≤ e.2.pageNo ∧ 0 ≤ e.2.slotNo)
    (hn : Z.length < n) :
    ∃ ex' Z', nextTuple db t tab cols conds ih n ex = some ex' ∧ Z' <:+ Z ∧
      Positioned db t tab conds ih l ex' Z' (db.indexScanFrom t tab cols conds (Z.map keyBytes)) := by
  obtain ⟨ex1, hend, hrow1⟩ := isEnd_onRow h hrow
  obtain ⟨X, Y, hs⟩ := hrow1.scanning
  obtain ⟨sc, hnext, hs'⟩ := Index.next_eq h hs
  obtain ⟨ex', Z', hrun, hsuf, hpos⟩ := positionToMatch_spec db t tab conds h Z n (X ++ [e])
    { ex1 with scan := sc } hrow1.open_ hs' hrids hn
  refine ⟨ex', Z', ?_, hsuf, hpos⟩
  unfold nextTuple
  rw [hend]
  simp only [Option.bind_eq_bind, Option.bind_some, Bool.false_eq_true, if_false, hnext]
  exact hrun

/-- The loop over a positioned executor ends with the rows that are left. -/
theorem drain_spec (h : Tree ih l ls) {n : Nat} : ∀ (turns : Nat)
    (Z : List (IxKey (ixCols cols) × Rid)) (ex : IndexScanExecutor) (rows : List (Rid × Image)),
    Positioned db t tab conds ih l ex Z rows → (∀ e ∈ Z, 0 ≤ e.2.pageNo ∧ 0 ≤ e.2.slotNo) →
    Z.length < n → rows.length < turns →
    drain db t tab cols conds ih n turns ex = some (rows.map fun e => (e.1, e.2.bytes)) := by
  intro turns
  induction turns with
  | zero => intro Z ex rows _ _ _ hturns; omega
  | succ turns ih' =>
      intro Z ex rows hpos hrids hn hturns
      rw [drain]
      obtain ⟨hend, rfl⟩ | ⟨e, img, hrow, rfl⟩ := hpos
      · obtain ⟨ex', hdone⟩ := isEnd_ended h hend
        rw [hdone]
        rfl
      · obtain ⟨ex1, hend, hrow1⟩ := isEnd_onRow h hrow
        obtain ⟨ex2, Z', hrun, hsuf, hpos2⟩ := nextTuple_onRow conds h hrow1 hrids hn
        rw [hend]
        simp only [Option.bind_eq_bind, Option.bind_some, Bool.false_eq_true, if_false, hrun]
        rw [List.length_cons] at hturns
        rw [ih' Z' ex2 _ hpos2 (fun e he => hrids e (hsuf.subset he))
          (lt_of_le_of_lt hsuf.length_le hn) (by omega), next_onRow hrow1, hrow1.rid]
        rfl

theorem indexScanFrom_length (db : Db) (t : TxnId) (tab : TabName) (cols : List ColMeta)
    (conds : List Txn.Condition) : ∀ es : IndexMap,
    (db.indexScanFrom t tab cols conds es).length ≤ es.length := by
  intro es
  induction es with
  | nil => exact Nat.le_refl _
  | cons e es ih =>
      rw [Db.indexScanFrom.eq_def, List.length_cons]
      dsimp only
      split
      · omega
      · split
        · exact Nat.zero_le _
        · split
          · rw [List.length_cons]
            omega
          · omega

/-- **The executor refines the scan of the list of entries.**  It ends, with the rows that the list
of the entries between the bounds gives. -/
theorem drain_beginTuple (hm : TabOk (db.tabs tab))
    (hcols : ∀ c ∈ cols, (db.tabs tab).findCol c.name = some c) (hlits : LitsOk (db.tabs tab) cols conds)
    (hd : ∀ c ∈ cols, Discrete c) (h : Tree ih l ls)
    (hrids : ∀ e ∈ cat ih l, 0 ≤ e.2.pageNo ∧ 0 ≤ e.2.slotNo) {n : Nat} (hn : (cat ih l).length < n) :
    (do
      let ex ← beginTuple db t tab cols conds ih n
      drain db t tab cols conds ih n n ex) =
      some ((db.indexScanFrom t tab cols conds
        (scanRange cols conds ((cat ih l).map keyBytes))).map fun e => (e.1, e.2.bytes)) := by
  unfold beginTuple
  cases hcross : crossed cols conds with
  | true =>
      obtain ⟨lo, _, _, hlo, -⟩ := Index.boundIid_position h (loBound cols conds)
      obtain ⟨hi, _, _, hhi, -⟩ := Index.boundIid_position h (hiBound cols conds)
      have hpos : Positioned db t tab conds ih l
          { scan := { iid := lo, end_ := lo }, rangeExhausted := true } [] [] := .inl ⟨.inl rfl, rfl⟩
      have hrange : scanRange cols conds ((cat ih l).map keyBytes) = [] := by
        unfold scanRange
        rw [if_pos hcross]
      rw [hlo, hhi, hrange]
      simp only [Option.bind_eq_bind, Option.bind_some, if_true]
      exact drain_spec h n [] _ [] hpos (fun e he => absurd he List.not_mem_nil)
        (by rw [List.length_nil]; omega) (by rw [List.length_nil]; omega)
  | false =>
      obtain ⟨lo, hi, X, Y, hlo, hhi, hs⟩ :=
        Index.scan_start h (notAfter hm hcols hlits hd hcross)
      have hsub : ∀ e ∈ entriesBetween ih l (loBound cols conds) (hiBound cols conds), e ∈ cat ih l :=
        fun e he => List.mem_of_mem_filter he
      have hlen : (entriesBetween ih l (loBound cols conds) (hiBound cols conds)).length < n :=
        lt_of_le_of_lt (List.length_filter_le _ _) hn
      obtain ⟨ex, Z, hrun, hsuf, hpos⟩ := positionToMatch_spec db t tab conds h _ n X
        { scan := { iid := lo, end_ := hi }, rangeExhausted := false } rfl hs
        (fun e he => hrids e (hsub e he)) hlen
      have hrows := indexScanFrom_length db t tab cols conds
        ((entriesBetween ih l (loBound cols conds) (hiBound cols conds)).map keyBytes)
      rw [List.length_map] at hrows
      rw [hlo, hhi]
      simp only [Option.bind_eq_bind, Option.bind_some, Bool.false_eq_true, if_false, hrun]
      rw [← entriesBetween_eq hm hcols hlits hd h]
      exact drain_spec h n Z ex _ hpos (fun e he => hrids e (hsub e (hsuf.subset he)))
        (lt_of_le_of_lt hsuf.length_le hlen) (lt_of_le_of_lt hrows hlen)

end IndexScanExecutor

/-! ## An index with one entry for each record -/

/-- The tree of the index has exactly one entry for each record of the table, under its key. -/
structure Indexed (db : Db) (tab : TabName) (ix : List ColMeta)
    (ih : IxIndexHandle (IxKey (ixCols ix))) : Prop where
  entries : ∃ m, Represents ih m ∧ ∀ k rid, m k = some rid ↔
    rid ∈ db.rmScan tab ∧ k.bytes = Db.indexKey ix (db.rows ⟨tab, rid⟩).slot.data.bytes
  records : ∀ rid ∈ db.rmScan tab, (db.rows ⟨tab, rid⟩).slot.data.bytes.length = (db.tabs tab).recordSize

theorem mem_iff_lookup {K : Type} [LinearOrder K] : ∀ {es : List (K × Rid)}, Increasing es →
    ∀ e, e ∈ es ↔ es.lookup e.1 = some e.2 := by
  intro es
  induction es with
  | nil => intro _ e; simp
  | cons a es ih =>
      intro hinc e
      obtain ⟨hhead, htail⟩ := List.pairwise_cons.1 hinc
      rw [List.mem_cons, ih htail e, List.lookup_cons]
      by_cases heq : e.1 = a.1
      · have hnone : es.lookup a.1 = none := List.lookup_eq_none_iff.2 fun b hb =>
          bne_iff_ne.2 (ne_of_lt (hhead b hb))
        rw [heq, hnone, beq_self_eq_true]
        constructor
        · rintro (rfl | hf)
          · rfl
          · cases hf
        · intro h
          exact .inl (Prod.ext heq (Option.some.inj h).symm)
      · have hne : e ≠ a := fun h => heq (congrArg Prod.fst h)
        rw [beq_eq_false_iff_ne.2 heq]
        simp [hne]

variable {db : Db} {t : TxnId} {tab : TabName} {ix : List ColMeta} {names : List String}
  {conds : List Condition}

theorem rids_nonneg {rid : Rid} (h : rid ∈ db.rmScan tab) : 0 ≤ rid.pageNo ∧ 0 ≤ rid.slotNo := by
  obtain ⟨⟨hpage, -⟩, hslot, -⟩ := mem_slots.1 (List.mem_of_mem_filter h)
  exact ⟨by omega, hslot⟩

theorem key_eq_of_bytes {cols : List IxCol} {k k' : IxKey cols} (h : k.bytes = k'.bytes) : k = k' := by
  cases k
  cases k'
  cases h
  rfl

variable {ih : IxIndexHandle (IxKey (ixCols ix))}

/-- The leaves of the tree hold each record once, under its key. -/
theorem Indexed.tree (hm : TabOk (db.tabs tab))
    (hcols : ∀ c ∈ ix, (db.tabs tab).findCol c.name = some c) (hd : ∀ c ∈ ix, Discrete c)
    (h : Indexed db tab ix ih) : ∃ l ls, Tree ih l ls ∧
    ((cat ih l).map Prod.snd).Perm (db.rmScan tab) ∧
    ∀ e ∈ cat ih l, e.2 ∈ db.rmScan tab ∧
      e.1.bytes = Db.indexKey ix (db.rows ⟨tab, e.2⟩).slot.data.bytes := by
  obtain ⟨m, ⟨l, ls, htree, hlookup⟩, hbinds⟩ := h.entries
  have hinc := htree.leaves.sorted
  have hmem : ∀ e, e ∈ cat ih l ↔ e.2 ∈ db.rmScan tab ∧
      e.1.bytes = Db.indexKey ix (db.rows ⟨tab, e.2⟩).slot.data.bytes := fun e => by
    rw [mem_iff_lookup hinc, hlookup, hbinds]
  refine ⟨l, ls, htree, ?_, fun e he => (hmem e).1 he⟩
  have hentries : (cat ih l).Nodup := hinc.imp fun hlt heq => (ne_of_lt hlt) (congrArg Prod.fst heq)
  have hnodup : ((cat ih l).map Prod.snd).Nodup := by
    refine List.Nodup.map_on (fun a ha b hb heq => ?_) hentries
    have hkey : a.1.bytes = b.1.bytes := by
      rw [((hmem a).1 ha).2, ((hmem b).1 hb).2, heq]
    exact Prod.ext (key_eq_of_bytes hkey) heq
  refine (List.perm_ext_iff_of_nodup hnodup ((slots_nodup db tab).filter _)).2 fun rid => ?_
  rw [List.mem_map]
  constructor
  · rintro ⟨e, he, rfl⟩
    exact ((hmem e).1 he).1
  · intro hrid
    have hlen := indexKey_length (fits_of_index hcols (h.records rid hrid))
    refine ⟨(keyOf ix (Db.indexKey ix (db.rows ⟨tab, rid⟩).slot.data.bytes), rid), ?_, rfl⟩
    exact (hmem _).2 ⟨hrid, keyOf_bytes (words_of_index hm hcols) hd hlen⟩

/-- Keys that are entered once each are bound to what they were entered with. -/
theorem inserts_bind {K : Type} [DecidableEq K] : ∀ (es : List (K × Rid)) (m : K → Option Rid),
    (es.map Prod.fst).Nodup → (∀ e ∈ es, m e.1 = none) → ∀ k rid,
    ((es.map fun e => IxOp.insert e.1 e.2).foldl IxOp.applyMap m k = some rid ↔
      m k = some rid ∨ (k, rid) ∈ es) := by
  intro es
  induction es with
  | nil => intro m _ _ k rid; simp
  | cons e es ih =>
      intro m hnd hfree k rid
      obtain ⟨hnot, hnd⟩ := List.nodup_cons.1 hnd
      have hnone := hfree e List.mem_cons_self
      have hstep : (IxOp.insert e.1 e.2).applyMap m = Function.update m e.1 (some e.2) := by
        rw [IxOp.applyMap, if_neg (by rw [hnone]; simp)]
      rw [List.map_cons, List.foldl_cons, hstep, ih _ hnd]
      · by_cases hk : k = e.1
        · rw [hk, Function.update_self, hnone, List.mem_cons, Prod.ext_iff]
          simp only [Option.some.injEq, reduceCtorEq, false_or, true_and, eq_comm]
        · rw [Function.update_of_ne hk, List.mem_cons, Prod.ext_iff]
          simp [hk]
      · intro e' he'
        have hne : e'.1 ≠ e.1 := fun h => hnot (h ▸ List.mem_map_of_mem he')
        rw [Function.update_of_ne hne]
        exact hfree e' (List.mem_cons_of_mem _ he')

/-- Entering the records of a table with distinct keys into a new index gives one entry for each. -/
theorem indexed_of_inserts (db : Db) (tab : TabName) (hm : TabOk (db.tabs tab))
    (hcols : ∀ c ∈ ix, (db.tabs tab).findCol c.name = some c) (hd : ∀ c ∈ ix, Discrete c)
    (hrec : ∀ rid ∈ db.rmScan tab,
      (db.rows ⟨tab, rid⟩).slot.data.bytes.length = (db.tabs tab).recordSize)
    (hkeys : ((db.rmScan tab).map fun rid =>
      keyOf ix (Db.indexKey ix (db.rows ⟨tab, rid⟩).slot.data.bytes)).Nodup)
    {btreeOrder : Nat} (ho : 2 < btreeOrder) :
    ∃ ih, Lib.run IxOp.apply (Index.createIndex btreeOrder) ((db.rmScan tab).map fun rid =>
        .insert (keyOf ix (Db.indexKey ix (db.rows ⟨tab, rid⟩).slot.data.bytes)) rid) = some ih ∧
      Indexed db tab ix ih := by
  obtain ⟨ih, hrun, hrep⟩ := Index.run_represents ho ((db.rmScan tab).map fun rid =>
    .insert (keyOf ix (Db.indexKey ix (db.rows ⟨tab, rid⟩).slot.data.bytes)) rid)
  refine ⟨ih, hrun, ⟨_, hrep, fun k rid => ?_⟩, hrec⟩
  have hbind := inserts_bind ((db.rmScan tab).map fun rid =>
    (keyOf ix (Db.indexKey ix (db.rows ⟨tab, rid⟩).slot.data.bytes), rid)) (fun _ => none)
    (by rw [List.map_map]; exact hkeys) (fun _ _ => rfl) k rid
  rw [List.map_map] at hbind
  refine hbind.trans ?_
  simp only [reduceCtorEq, false_or, List.mem_map, Prod.mk.injEq]
  have hbytes : ∀ r ∈ db.rmScan tab,
      (keyOf ix (Db.indexKey ix (db.rows ⟨tab, r⟩).slot.data.bytes)).bytes =
        Db.indexKey ix (db.rows ⟨tab, r⟩).slot.data.bytes := fun r hr =>
    keyOf_bytes (words_of_index hm hcols) hd (indexKey_length (fits_of_index hcols (hrec r hr)))
  constructor
  · rintro ⟨r, hr, rfl, rfl⟩
    exact ⟨hr, hbytes r hr⟩
  · rintro ⟨hr, hk⟩
    exact ⟨rid, hr, key_eq_of_bytes ((hbytes rid hr).trans hk.symm), rfl⟩

/-! ## Range scans -/

section

variable {ihs : (cols : List ColMeta) → IxIndexHandle (IxKey (ixCols cols))}

theorem mem_indexes_of_meta {m : TabMeta} (h : getIndexMeta m names = .ok ix) : ix ∈ m.indexes := by
  unfold getIndexMeta at h
  split at h
  · next hfind =>
    cases h
    exact List.mem_of_find?_eq_some hfind
  · cases h

theorem indexScanRows_eq {l : List Int} {ls : List (List Int)}
    (hmeta : getIndexMeta (db.tabs tab) names = .ok ix) (hm : TabOk (db.tabs tab))
    (hd : ∀ c ∈ ix, Discrete c) (htree : Tree (ihs ix) l ls)
    (hrids : ∀ e ∈ cat (ihs ix) l, 0 ≤ e.2.pageNo ∧ 0 ≤ e.2.slotNo)
    (hconds : ∀ c ∈ conds, CondOn (db.tabs tab) tab c) {fuel : Nat}
    (hfuel : (cat (ihs ix) l).length < fuel) :
    indexScanRows db t tab ihs conds names fuel =
      .ok (some ((db.indexScanFrom t tab ix (conds.map Condition.bare)
        (scanRange ix (conds.map Condition.bare) ((cat (ihs ix) l).map keyBytes))).map
          fun e => (e.1, e.2.bytes))) := by
  have hcols := hm.indexed ix (mem_indexes_of_meta hmeta)
  unfold indexScanRows
  rw [hmeta, fedConds_ok hconds]
  show Except.ok _ = _
  exact congrArg Except.ok
    (IndexScanExecutor.drain_beginTuple hm hcols (litsOk_bare hconds hd) hd htree hrids hfuel)

/-- The index scan of a plan is the loop over the executor, when the map of the index holds the entries
of its tree. -/
theorem indexScanRows_refines {l : List Int} {ls : List (List Int)}
    (hmeta : getIndexMeta (db.tabs tab) names = .ok ix) (hm : TabOk (db.tabs tab))
    (hd : ∀ c ∈ ix, Discrete c) (htree : Tree (ihs ix) l ls)
    (hrids : ∀ e ∈ cat (ihs ix) l, 0 ≤ e.2.pageNo ∧ 0 ≤ e.2.slotNo)
    (hconds : ∀ c ∈ conds, CondOn (db.tabs tab) tab c)
    (hindex : db.index (Db.indexId tab ix) = (cat (ihs ix) l).map keyBytes) {fuel : Nat}
    (hfuel : (cat (ihs ix) l).length < fuel) :
    indexScanRows db t tab ihs conds names fuel = (indexScan db t tab conds names).map some := by
  rw [indexScanRows_eq hmeta hm hd htree hrids hconds hfuel]
  unfold indexScan
  rw [hmeta, fedConds_ok hconds, ← hindex]
  rfl

/-- **Index range scans.**  Over an index of `INT` and `CHAR` columns with one entry for each record,
the loop over the executor of a table without versions ends, and returns the records that satisfy all
conditions, each once, in the order of their keys. -/
theorem indexScan_exact (hmeta : getIndexMeta (db.tabs tab) names = .ok ix) (hm : TabOk (db.tabs tab))
    (hclean : db.tableIsDirty tab = false) (hd : ∀ c ∈ ix, Discrete c)
    (hix : Indexed db tab ix (ihs ix)) (hconds : ∀ c ∈ conds, CondOn (db.tabs tab) tab c) :
    ∃ rows turns, (∀ fuel > turns, indexScanRows db t tab ihs conds names fuel = .ok (some rows)) ∧
      rows.Perm (matchingRows db tab conds) ∧
      rows.Pairwise fun a b => ixCompare ix (Db.indexKey ix a.2) (Db.indexKey ix b.2) < 0 := by
  have hcols := hm.indexed ix (mem_indexes_of_meta hmeta)
  obtain ⟨l, ls, htree, hperm, hentry⟩ := hix.tree hm hcols hd
  have hes := ordered_cat hm hcols hd htree
  have hkeys : ∀ e ∈ (cat (ihs ix) l).map keyBytes, EntryOk db t tab ix e := by
    intro e' he' img hread
    obtain ⟨e, he, rfl⟩ := List.mem_map.1 he'
    obtain ⟨hrid, hkey⟩ := hentry e he
    rw [readRow_clean hclean] at hread
    cases hread
    exact ⟨hkey, hix.records _ hrid⟩
  have hrows := indexScanFrom_clean hm hcols hclean hd hes hkeys hconds
  refine ⟨_, (cat (ihs ix) l).length, fun fuel hfuel => indexScanRows_eq hmeta hm hd htree
    (fun e he => rids_nonneg (hentry e he).1) hconds hfuel, ?_, ?_⟩
  · unfold matchingRows heapRows
    rw [hrows, List.map_map]
    refine List.Perm.filter _ ?_
    have h := hperm.map fun rid => (rid, (db.rows ⟨tab, rid⟩).slot.data.bytes)
    rwa [List.map_map] at h
  · rw [hrows]
    refine List.Pairwise.filter _ (List.pairwise_map.2 ?_)
    refine hes.sorted.imp_of_mem fun {a b} ha hb hab => ?_
    rw [(hkeys a ha _ (readRow_clean hclean a.2)).1, (hkeys b hb _ (readRow_clean hclean b.2)).1] at hab
    exact hab

end

/-- Five records `(x, y)` in the table `c`: `(1, 3)`, `(1, 7)`, `(1, 5)`, `(2, 1)` and `(1, 4)`. -/
def fiveRows : Db :=
  Db.boot (fun _ => twoInts) (fun _ => ⟨2, 5⟩)
    (fun r => ⟨true, ⟨match r.rid.slotNo with
      | 0 => [1, 0, 0, 0, 3, 0, 0, 0]
      | 1 => [1, 0, 0, 0, 7, 0, 0, 0]
      | 2 => [1, 0, 0, 0, 5, 0, 0, 0]
      | 3 => [2, 0, 0, 0, 1, 0, 0, 0]
      | _ => [1, 0, 0, 0, 4, 0, 0, 0], none⟩⟩)
    (fun _ => [])

/-- `x = 1 AND y >= 4 AND y > -1 AND y <> 5`. -/
def fiveConds : List Condition :=
  [⟨⟨"c", "x"⟩, .eq, some [1, 0, 0, 0], ⟨"", ""⟩⟩, ⟨⟨"c", "y"⟩, .ge, some [4, 0, 0, 0], ⟨"", ""⟩⟩,
    ⟨⟨"c", "y"⟩, .gt, some [255, 255, 255, 255], ⟨"", ""⟩⟩, ⟨⟨"c", "y"⟩, .ne, some [5, 0, 0, 0], ⟨"", ""⟩⟩]

/-- The scan over the tree that the five records give, of three entries a page at most. -/
theorem indexScan_exact_c : ∃ (ih : IxIndexHandle (IxKey (ixCols [intCol "x" 0, intCol "y" 4])))
    (ihs : (cols : List ColMeta) → IxIndexHandle (IxKey (ixCols cols))),
    Lib.run IxOp.apply (Index.createIndex 3) ((fiveRows.rmScan "c").map fun rid =>
      .insert (keyOf [intCol "x" 0, intCol "y" 4]
        (Db.indexKey [intCol "x" 0, intCol "y" 4] (fiveRows.rows ⟨"c", rid⟩).slot.data.bytes)) rid) =
      some ih ∧
    ihs [intCol "x" 0, intCol "y" 4] = ih ∧
    ∃ rows turns, (∀ fuel > turns,
        indexScanRows fiveRows 0 "c" ihs fiveConds ["x", "y"] fuel = .ok (some rows)) ∧
      rows.Perm [(⟨1, 1⟩, [1, 0, 0, 0, 7, 0, 0, 0]), (⟨1, 4⟩, [1, 0, 0, 0, 4, 0, 0, 0])] ∧
      rows.Pairwise fun a b => ixCompare [intCol "x" 0, intCol "y" 4]
        (Db.indexKey [intCol "x" 0, intCol "y" 4] a.2)
          (Db.indexKey [intCol "x" 0, intCol "y" 4] b.2) < 0 := by
  have hm : TabOk (fiveRows.tabs "c") := ⟨by decide, by decide⟩
  have hd : ∀ c ∈ [intCol "x" 0, intCol "y" 4], Discrete c := by decide
  obtain ⟨ih, hrun, hix⟩ := indexed_of_inserts fiveRows "c" hm
    (hm.indexed [intCol "x" 0, intCol "y" 4] List.mem_cons_self) hd (by decide) (by decide)
    (by decide : 2 < 3)
  refine ⟨ih, fun cols => if h : cols = [intCol "x" 0, intCol "y" 4] then h ▸ ih
    else Index.createIndex 3, hrun, dif_pos rfl, ?_⟩
  have hx : (fiveRows.tabs "c").findCol "x" = some (intCol "x" 0) := by decide
  have hy : (fiveRows.tabs "c").findCol "y" = some (intCol "y" 4) := by decide
  have hconds : ∀ c ∈ fiveConds, CondOn (fiveRows.tabs "c") "c" c := by
    intro c hc
    simp only [fiveConds, List.mem_cons, List.not_mem_nil, or_false] at hc
    rcases hc with rfl | rfl | rfl | rfl
    · exact ⟨rfl, ⟨_, hx, fun v hv => by cases hv; rfl⟩, fun hv => by cases hv⟩
    · exact ⟨rfl, ⟨_, hy, fun v hv => by cases hv; rfl⟩, fun hv => by cases hv⟩
    · exact ⟨rfl, ⟨_, hy, fun v hv => by cases hv; rfl⟩, fun hv => by cases hv⟩
    · exact ⟨rfl, ⟨_, hy, fun v hv => by cases hv; rfl⟩, fun hv => by cases hv⟩
  exact indexScan_exact (by decide) hm rfl hd hix hconds

end Rmdb.Query
