import Rmdb.Query.Keys
import Rmdb.Txn.SerGraph

/-!
# The readers that a write finds

`ser_write_check` looks the readers up in the reverse indexes, where the predicates are compiled to
offsets.  It finds the transactions that a pass over all of `ser_` with `ser_record_matches` would
find (`readersHit_iff`).
-/

namespace Rmdb.Query

open Rmdb.Txn

/-! ## Predicates -/

/-- Does the record satisfy the predicate?  Columns are looked up by name at each condition; one
on an unknown column is false. -/
def serRecordMatches (tab : TabName) (m : TabMeta) (data : Bytes) : List Txn.Condition → Bool
  | [] => true
  | cond :: conds =>
      match findLhs tab m cond with
      | none => false
      | some col =>
          let rhs :=
            match cond.rhsVal with
            | some v => some v
            | none => (m.findCol cond.rhsCol).map fun rcol => data.drop rcol.offset
          match rhs with
          | none => false
          | some rhs =>
              if serCmp (data.drop col.offset) rhs col.len col.type cond.op then
                serRecordMatches tab m data conds
              else false

variable {tab : TabName} {m : TabMeta} {data : Bytes}

theorem findLhs_mem {cond : Txn.Condition} {col : ColMeta} (h : findLhs tab m cond = some col) :
    col ∈ m.cols := List.mem_of_find?_eq_some h

theorem mapM_all {α β : Type} (f : α → Option β) (p : β → Bool) : ∀ l : List α,
    ((l.mapM f).map (·.all p)).getD false = l.all fun a => ((f a).map p).getD false := by
  intro l
  induction l with
  | nil => rfl
  | cons a l ih =>
      rw [List.mapM_cons, List.all_cons, ← ih]
      cases f a with
      | none => rfl
      | some b =>
          cases l.mapM f with
          | none => simp
          | some bs => simp

/-- A compiled predicate matches the records that the predicate matches; one that does not compile
matches none. -/
theorem serRecordMatches_eq (hw : ∀ c ∈ m.cols, Words c) (conds : List Txn.Condition) :
    serRecordMatches tab m data conds =
      ((serCompilePred tab m conds).map (serCompiledMatch data)).getD false := by
  unfold serCompilePred
  refine Eq.trans ?_ (mapM_all _ (fun c : SerCompiledCond => c.matches data) conds).symm
  induction conds with
  | nil => rfl
  | cons cond conds ih =>
      unfold serRecordMatches
      rw [List.all_cons, ih]
      cases hcol : findLhs tab m cond with
      | none => rfl
      | some col =>
          cases hv : cond.rhsVal with
          | some v =>
              have hcmp : cmpBytes (data.drop col.offset) (v.take col.len) col.len col.type =
                  cmpBytes (data.drop col.offset) v col.len col.type :=
                cmpBytes_congr (hw col (findLhs_mem hcol)) rfl (by rw [List.take_take, Nat.min_self])
              simp [SerCompiledCond.matches, serCmp, hcmp]
          | none =>
              cases hrcol : m.findCol cond.rhsCol with
              | none => rfl
              | some rcol => simp [SerCompiledCond.matches]

/-! ## The buckets of the predicate index -/

variable {metas : TabName → TabMeta} {s : SerState} {t : TxnId}

/-- A transaction has one bucket for each table. -/
def OneBucket (s : SerState) : Prop := ∀ tab, ((s.predReaders tab).map Prod.fst).Nodup

theorem OneBucket.recordPred (h : OneBucket s) (m : TabMeta) (t : TxnId) (readTs : Ts) (tab : TabName)
    (conds : List Txn.Condition) : OneBucket (s.recordPred m t readTs tab conds) := by
  intro tab'
  unfold SerState.recordPred
  cases hc : serCompilePred tab m conds with
  | none => exact h tab'
  | some cc =>
      simp only [Function.update_apply]
      split
      · have hold := (h tab).sublist ((List.filter_sublist (p := fun e => e.1 ≠ t)).map Prod.fst)
        rw [List.map_append, List.nodup_append]
        refine ⟨hold, List.nodup_singleton _, ?_⟩
        intro u hu v hv
        obtain ⟨e, he, rfl⟩ := List.mem_map.1 hu
        have hne := (List.mem_filter.1 he).2
        rw [List.map_singleton, List.mem_singleton] at hv
        rw [hv]
        simpa using hne
      · exact h tab'

theorem OneBucket.drop (h : OneBucket s) (hg : s.Graph metas) (t : TxnId) : OneBucket (s.drop t) := by
  intro tab
  cases hi : s.find t with
  | none =>
      unfold SerState.drop
      rw [hi]
      exact h tab
  | some i =>
      rw [(hg.dropped hi).predReaders]
      split
      · exact (h tab).sublist (List.filter_sublist.map Prod.fst)
      · exact h tab

theorem OneBucket.addEdges (h : OneBucket s) (ok : SerState → TxnId → Bool)
    (edge : TxnId → TxnId × TxnId) : ∀ (os : List TxnId) {s' : SerState},
    s'.predReaders = s.predReaders → OneBucket (s'.addEdges ok edge os).1 := by
  intro os
  induction os with
  | nil =>
      intro s' heq tab
      show ((s'.predReaders tab).map Prod.fst).Nodup
      rw [heq]
      exact h tab
  | cons o os ih =>
      intro s' heq
      unfold SerState.addEdges
      split
      · refine ih ?_
        rw [← heq]
        unfold SerState.addEdge
        split <;> rfl
      · exact ih heq

theorem OneBucket.foldl_drop : ∀ (l : List (TxnId × SerInfo)) {s : SerState}, OneBucket s →
    s.Graph metas → OneBucket (l.foldl (fun s e => s.drop e.1) s) := by
  intro l
  induction l with
  | nil => exact fun h _ => h
  | cons e l ih => exact fun h hg => ih (h.drop hg e.1) (hg.drop e.1)

theorem OneBucket.finish (h : OneBucket s) (hg : s.Graph metas) (t : TxnId) (committed : Bool)
    (commitTs wm : Ts) : OneBucket (s.finish t committed commitTs wm) := by
  unfold SerState.finish
  split
  · exact h
  have hended : OneBucket (if committed then s.modify t fun i =>
      { i with committed := true, commitTs := commitTs } else s.drop t) ∧
      (if committed then s.modify t fun i =>
        { i with committed := true, commitTs := commitTs } else s.drop t).Graph metas := by
    split
    · exact ⟨h, hg.modify (fun _ => rfl) (fun _ => rfl) (fun _ => rfl) fun _ => rfl⟩
    · exact ⟨h.drop hg t, hg.drop t⟩
  generalize (if committed then s.modify t fun i =>
    { i with committed := true, commitTs := commitTs } else s.drop t) = s1 at hended
  dsimp only
  split
  · exact OneBucket.foldl_drop _ hended.1 hended.2
  · exact hended.1

/-- **One call keeps one bucket for each reader of a table.** -/
theorem OneBucket.call (h : OneBucket s) (hg : s.Graph metas) (c : SerState.Call) :
    OneBucket (s.call metas c) := by
  cases c with
  | recordRead t readTs r => exact h
  | recordPred t readTs tab conds => exact h.recordPred _ t readTs tab conds
  | writeCheck t readTs r data => exact h.addEdges _ _ _ rfl
  | readCheck t readTs ws => exact h.addEdges _ _ _ rfl
  | readPredCheck t ws => exact h.addEdges _ _ _ rfl
  | finish t committed commitTs wm => exact h.finish hg t committed commitTs wm

theorem calls_oneBucket (metas : TabName → TabMeta) : ∀ (calls : List SerState.Call) {s : SerState},
    s.Graph metas → OneBucket s → OneBucket (calls.foldl (SerState.call metas) s) := by
  intro calls
  induction calls with
  | nil => exact fun _ h => h
  | cons c calls ih => exact fun hg h => ih (hg.call c) (h.call hg c)

/-! ## The hits of a write -/

variable {r : RowId} {me : TxnId}

theorem lookup_eq_of_mem {l : List (TxnId × List (List SerCompiledCond))}
    (hnd : (l.map Prod.fst).Nodup) {e : TxnId × List (List SerCompiledCond)} (he : e ∈ l) :
    l.lookup e.1 = some e.2 := by
  induction l with
  | nil => cases he
  | cons d l ih =>
      rw [List.map_cons, List.nodup_cons] at hnd
      rw [List.lookup_cons]
      rcases List.mem_cons.1 he with rfl | he
      · simp
      · have hne : (e.1 == d.1) = false := by
          rw [beq_eq_false_iff_ne]
          intro heq
          exact hnd.1 (heq ▸ List.mem_map_of_mem he)
        rw [hne]
        exact ih hnd.2 he

/-- A bucket of the index is the list of the compiled predicates of its transaction. -/
theorem mem_predReaders (hg : s.Graph metas) (h : OneBucket s) {tab : TabName}
    (f : List SerCompiledCond → Bool) :
    (∃ e ∈ s.predReaders tab, e.1 = t ∧ e.2.any f = true) ↔
      (s.compiledPreds metas t tab).any f = true := by
  rw [← hg.preds t tab]
  constructor
  · rintro ⟨e, he, rfl, hf⟩
    rw [lookup_eq_of_mem (h tab) he]
    exact hf
  · intro hf
    cases hl : (s.predReaders tab).lookup t with
    | none =>
        rw [hl] at hf
        cases hf
    | some cs =>
        rw [hl] at hf
        obtain ⟨l₁, l₂, heq, -⟩ := List.lookup_eq_some_iff.1 hl
        exact ⟨(t, cs), by rw [heq]; simp, rfl, hf⟩

/-- The transactions that `ser_` holds as readers of row `r` or of its bytes. -/
def SerReader (metas : TabName → TabMeta) (s : SerState) (r : RowId) (data : Option Bytes)
    (t : TxnId) : Prop :=
  ∃ i, s.find t = some i ∧ (r ∈ i.readRids ∨ ∃ d, data = some d ∧
    ∃ p ∈ i.readPreds, p.1 = r.tab ∧ serRecordMatches r.tab (metas r.tab) d p.2 = true)

theorem compiledPreds_any (hw : ∀ c ∈ (metas r.tab).cols, Words c) :
    (s.compiledPreds metas t r.tab).any (serCompiledMatch data) = true ↔
      ∃ p ∈ (s.info t).readPreds, p.1 = r.tab ∧ serRecordMatches r.tab (metas r.tab) data p.2 = true := by
  unfold SerState.compiledPreds
  rw [List.any_filterMap, List.any_eq_true]
  simp only [List.mem_filter, decide_eq_true_eq, and_assoc]
  refine exists_congr fun p => and_congr_right fun _ => and_congr_right fun _ => ?_
  rw [serRecordMatches_eq hw]
  cases serCompilePred r.tab (metas r.tab) p.2 <;> simp

/-- **The write check finds the readers.**  After any calls, the readers that `ser_write_check`
considers are the other transactions of `ser_` that read the row or recorded a predicate on its
table that matches the bytes. -/
theorem readersHit_iff (hw : ∀ tab, ∀ c ∈ (metas tab).cols, Words c) (calls : List SerState.Call)
    (me : TxnId) (readTs : Ts) (r : RowId) (data : Option Bytes) (t : TxnId) :
    t ∈ ((calls.foldl (SerState.call metas) {}).modify me fun i =>
        { i with readTs := readTs }).readersHit me r data ↔
      t ≠ me ∧ SerReader metas (calls.foldl (SerState.call metas) {}) r data t := by
  have hg := SerState.calls_graph metas calls (SerState.init_graph metas)
  have hone := calls_oneBucket metas calls (SerState.init_graph metas)
    (fun _ => List.nodup_nil : OneBucket {})
  generalize calls.foldl (SerState.call metas) {} = s at hg hone
  have hreader : SerReader metas s r data t ↔ r ∈ (s.info t).readRids ∨ ∃ d, data = some d ∧
      ∃ p ∈ (s.info t).readPreds, p.1 = r.tab ∧ serRecordMatches r.tab (metas r.tab) d p.2 = true :=
    SerState.exists_find_iff _ (by simp)
  have hrid : t ∈ (s.ridReaders r).filter (fun o => decide (o ≠ me)) ↔
      t ≠ me ∧ r ∈ (s.info t).readRids := by
    rw [List.mem_filter, hg.rids, decide_eq_true_eq, and_comm]
  rw [hreader]
  unfold SerState.readersHit
  cases data with
  | none =>
      show t ∈ (s.ridReaders r).filter (fun o => decide (o ≠ me)) ↔ _
      rw [hrid]
      simp
  | some d =>
      have hpred : (∃ e ∈ s.predReaders r.tab, e.1 = t ∧ e.2.any (serCompiledMatch d) = true) ↔ _ :=
        mem_predReaders hg hone (serCompiledMatch d)
      rw [compiledPreds_any (hw r.tab)] at hpred
      show t ∈ (s.ridReaders r).filter (fun o => decide (o ≠ me)) ++ ((s.predReaders r.tab).filter fun e =>
        decide (e.1 ≠ me) && !((s.ridReaders r).filter fun o => decide (o ≠ me)).contains e.1 &&
          e.2.any fun cc => serCompiledMatch d cc).map Prod.fst ↔ _
      rw [List.mem_append, hrid, List.mem_map]
      constructor
      · rintro (⟨hne, hread⟩ | ⟨e, he, rfl⟩)
        · exact ⟨hne, .inl hread⟩
        · obtain ⟨hmem, hcond⟩ := List.mem_filter.1 he
          rw [Bool.and_eq_true, Bool.and_eq_true, decide_eq_true_eq] at hcond
          exact ⟨hcond.1.1, .inr ⟨d, rfl, hpred.1 ⟨e, hmem, rfl, hcond.2⟩⟩⟩
      · rintro ⟨hne, hread⟩
        by_cases hhit : r ∈ (s.info t).readRids
        · exact .inl ⟨hne, hhit⟩
        obtain hread | ⟨d', hd', hmatch⟩ := hread
        · exact absurd hread hhit
        cases hd'
        obtain ⟨e, hmem, rfl, hany⟩ := hpred.2 hmatch
        refine .inr ⟨e, List.mem_filter.2 ⟨hmem, ?_⟩, rfl⟩
        have hfresh : e.1 ∉ (s.ridReaders r).filter fun o => decide (o ≠ me) :=
          fun hin => hhit (hrid.1 hin).2
        rw [Bool.and_eq_true, Bool.and_eq_true, decide_eq_true_eq, Bool.not_eq_true']
        exact ⟨⟨hne, by simpa using hfresh⟩, hany⟩

/-- Two `INT` columns without an index. -/
def abTable : TabMeta where
  cols := [⟨"a", .int, 4, 0⟩, ⟨"b", .int, 4, 4⟩]
  indexes := []
  layout := by decide
  indexed := by decide

/-- Transactions 1 and 2 scan for `t.a = b`, 3 for `d >= 0` on a column that the table does not
have; 1 aborts. -/
def readHistory : List SerState.Call :=
  [.recordPred 1 0 "t" [⟨"a", .eq, none, "b", "t"⟩], .recordPred 2 0 "t" [⟨"a", .eq, none, "b", "t"⟩],
    .recordPred 3 0 "t" [⟨"d", .ge, some [0, 0, 0, 0], "", ""⟩], .finish 1 false 0 0]

/-- A write of `a = 5, b = 5` by transaction 4 meets the scan of 2. -/
theorem readersHit_iff_readHistory :
    2 ∈ ((readHistory.foldl (SerState.call fun _ => abTable) {}).modify 4 fun i =>
        { i with readTs := 0 }).readersHit 4 ⟨"t", ⟨1, 0⟩⟩ (some [5, 0, 0, 0, 5, 0, 0, 0]) ∧
      1 ∉ ((readHistory.foldl (SerState.call fun _ => abTable) {}).modify 4 fun i =>
        { i with readTs := 0 }).readersHit 4 ⟨"t", ⟨1, 0⟩⟩ (some [5, 0, 0, 0, 5, 0, 0, 0]) := by
  have hiff := @readersHit_iff (fun _ => abTable) (fun _ => by decide) readHistory 4 0
    ⟨"t", ⟨1, 0⟩⟩ (some [5, 0, 0, 0, 5, 0, 0, 0])
  rw [hiff, hiff]
  constructor
  · refine ⟨by decide, _, rfl, .inr ⟨_, rfl, _, List.mem_singleton_self _, rfl, by decide⟩⟩
  · rintro ⟨-, i, hi, -⟩
    cases hi

end Rmdb.Query
