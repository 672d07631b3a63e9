import Rmdb.Recovery.History

/-!
# Recovery brings back the committed rows

Whatever value of its history each row holds after the crash, undoing the losers in any
order and redoing the committed records leaves the last committed value.
-/

namespace Rmdb.Recovery

open Rmdb.Txn
open Rmdb.Lib (run run_nil run_cons run_append)

variable {v0 : Heap} {log p q : List LogRecord} {l : LogRecord} {r : RowId} {t : TxnId}
variable {s s' : RowState}

/-! ## Committed operations -/

/-- Is it an operation on `r` of a transaction that commits in `log`? -/
def isWinner (log : List LogRecord) (r : RowId) (l : LogRecord) : Bool :=
  (op? l).any fun p => decide (p.2 = r) && decide (.commit p.1 ∈ log)

theorem isWinner_of_op (h : op? l = some (t, r)) : isWinner log r l = decide (.commit t ∈ log) := by
  unfold isWinner
  rw [h]
  simp

theorem isWinner_of_no_op (h : ∀ t, op? l ≠ some (t, r)) : isWinner log r l = false := by
  unfold isWinner
  cases hl : op? l with
  | none => rfl
  | some p =>
      obtain ⟨t, r'⟩ := p
      have hrr : r' ≠ r := fun heq => h t (by rw [hl, heq])
      simp [hrr]

theorem mem_winnersOf : l ∈ winnersOf log r ↔ l ∈ log ∧ isWinner log r l = true := List.mem_filter

/-- The value of the row without its unfinished losers. -/
def RowState.durable (log : List LogRecord) (s : RowState) : Option Bytes :=
  match s.owner with
  | some t => if .commit t ∈ log then s.cur else s.committed
  | none => s.committed

/-- A transaction does not both commit and abort. -/
theorem UniqueIds.not_both (h : UniqueIds log) (hp : p ++ [.abort t] <+: log) : .commit t ∉ log := by
  obtain ⟨rest, rfl⟩ := hp
  have hbefore := (h.initial (List.prefix_append _ _)).not_finished (t := t) rfl
  intro hc
  rw [List.append_assoc, List.singleton_append, List.mem_append, List.mem_cons] at hc
  rcases hc with hc | hc | hc
  · exact hbefore (.inl hc)
  · cases hc
  · exact h p (.abort t) rest t (by rw [List.append_assoc, List.singleton_append]) (.inr rfl) _ hc rfl

theorem mem_of_concat (h : p ++ [l] <+: log) : l ∈ log :=
  h.subset (List.mem_append_right _ (List.mem_singleton_self l))

theorem prefix_of_concat (h : p ++ [l] <+: log) : p <+: log := (List.prefix_append p [l]).trans h

/-- The committed operations up to a point lead to the row's value without its losers. -/
theorem chain_winners (hu : UniqueIds log) : ∀ {p s}, p <+: log → rowAt v0 r p = some s →
    chain (v0 r) (p.filter (isWinner log r)) = some (s.durable log) := by
  intro p
  induction p using List.reverseRecOn with
  | nil =>
      intro s _ hs
      cases hs
      rfl
  | append_singleton p l ih =>
      intro s' hpre hs'
      rw [rowAt_concat] at hs'
      obtain ⟨s, hs, hstep⟩ := Option.bind_eq_some_iff.1 hs'
      have hp := prefix_of_concat hpre
      have ho := ownerOk (hu.initial hp) hs
      have hold := ih hp hs
      rw [List.filter_append, List.filter_cons, List.filter_nil]
      rcases rowStep_cases hstep with ⟨t, v, hop, hown, hv, rfl⟩ | ⟨t, rfl, hown, rfl⟩ |
        ⟨t, rfl, hown, rfl⟩ | ⟨rfl, hno, -⟩
      · rw [isWinner_of_op hop]
        by_cases hc : .commit t ∈ log
        · have hcur : s.durable log = s.cur := by
            unfold RowState.durable
            rcases hown with h | h
            · rw [h]
              exact (ho.idle h).symm
            · rw [h]
              exact if_pos hc
          have hdur : RowState.durable log { s with owner := some t, cur := v } = v := if_pos hc
          rw [hcur] at hold
          rw [hdur, if_pos (by simpa using hc), chain, run_append]
          unfold chain at hold
          rw [hold, Option.bind_some, run_cons, hv]
          rfl
        · have hdur : RowState.durable log { s with owner := some t, cur := v } = s.committed := if_neg hc
          have hcom : s.durable log = s.committed := by
            unfold RowState.durable
            rcases hown with h | h
            · rw [h]
            · rw [h]
              exact if_neg hc
          rw [hdur, if_neg (by simpa using hc), List.append_nil, hold, hcom]
      · have hcur : s.durable log = s.cur := by
          unfold RowState.durable
          rw [hown]
          exact if_pos (mem_of_concat hpre)
        rw [isWinner_of_no_op (fun _ h => (by cases h)), if_neg Bool.false_ne_true,
          List.append_nil, hold, hcur]
        rfl
      · have hcom : s.durable log = s.committed := by
          unfold RowState.durable
          rw [hown]
          exact if_neg (hu.not_both hpre)
        rw [isWinner_of_no_op (fun _ h => (by cases h)), if_neg Bool.false_ne_true,
          List.append_nil, hold, hcom]
        rfl
      · rw [isWinner_of_no_op hno, if_neg Bool.false_ne_true, List.append_nil, hold]

/-- All of them lead to the last committed value. -/
theorem chain_winnersOf (hu : UniqueIds log) (hs : rowAt v0 r log = some s) :
    chain (v0 r) (winnersOf log r) = some s.committed := by
  have h := chain_winners hu List.prefix_rfl hs
  have hdur : s.durable log = s.committed := by
    unfold RowState.durable
    cases hown : s.owner with
    | none => rfl
    | some t => exact if_neg fun hc => ((ownerOk hu hs).ops t hown).2 (.inl hc)
  rw [hdur] at h
  exact h

/-- When the committed operations only patch, the committed values and the values of winners
keep the first bytes outside of what is patched. -/
theorem agree_of_patches (hu : UniqueIds log) (hpatch : ∀ l ∈ winnersOf log r, isPatch l = true) :
    ∀ {p s}, p <+: log → rowAt v0 r p = some s →
      Agree (Patched (winnersOf log r)) s.committed (v0 r) ∧
        ∀ t, s.owner = some t → .commit t ∈ log → Agree (Patched (winnersOf log r)) s.cur (v0 r) := by
  intro p
  induction p using List.reverseRecOn with
  | nil =>
      intro s _ hs
      cases hs
      exact ⟨Agree.refl _ _, fun t h => (by cases h)⟩
  | append_singleton p l ih =>
      intro s' hpre hs'
      rw [rowAt_concat] at hs'
      obtain ⟨s, hs, hstep⟩ := Option.bind_eq_some_iff.1 hs'
      have hp := prefix_of_concat hpre
      obtain ⟨hcom, hwin⟩ := ih hp hs
      rcases rowStep_cases hstep with ⟨t, v, hop, hown, hv, rfl⟩ | ⟨t, rfl, hown, rfl⟩ |
        ⟨t, rfl, hown, rfl⟩ | ⟨rfl, -, -⟩
      · refine ⟨hcom, ?_⟩
        rintro t' ht' hc
        cases ht'
        have hmem : l ∈ winnersOf log r :=
          mem_winnersOf.2 ⟨mem_of_concat hpre, by rw [isWinner_of_op hop]; simpa using hc⟩
        have hcur : Agree (Patched (winnersOf log r)) s.cur (v0 r) := by
          rcases hown with h | h
          · rw [(ownerOk (hu.initial hp) hs).idle h]
            exact hcom
          · exact hwin t h hc
        exact chain_patches (hpatch l hmem) (fun i hi => ⟨l, hmem, hi⟩) hcur hv
      · exact ⟨hwin t hown (mem_of_concat hpre), fun t' h => (by cases h)⟩
      · exact ⟨hcom, fun t' h => (by cases h)⟩
      · exact ⟨hcom, hwin⟩

/-! ## What is undone and redone on a row -/

/-- The analysis keeps the operations of the losers. -/
theorem analyze_uncommitted (hu : UniqueIds log) (t : TxnId) : (analyze log).uncommitted t =
    if .commit t ∈ log then [] else log.filter fun l => (op? l).any fun p => decide (p.1 = t) := by
  induction log using List.reverseRecOn with
  | nil => rfl
  | append_singleton log l ih =>
      have hold := ih hu.front
      rw [analyze_concat, List.filter_append, List.filter_cons, List.filter_nil]
      cases hop : op? l with
      | some p =>
          obtain ⟨t', r'⟩ := p
          have hc : LogRecord.commit t ∈ log ++ [l] ↔ .commit t ∈ log := by
            rw [List.mem_append, List.mem_singleton, or_iff_left]
            rintro rfl
            cases hop
          rw [handleRec_of_op hop]
          simp only [hc]
          by_cases htt : t' = t
          · subst htt
            have hnot : LogRecord.commit t' ∉ log := fun h =>
              hu.not_finished (txn?_of_op hop) (.inl h)
            rw [if_neg hnot] at hold ⊢
            rw [Function.update_self, hold]
            simp
          · rw [Function.update_of_ne (Ne.symm htt), hold]
            simp [htt]
      | none =>
          cases l with
          | insert | delete | update | updateDelta => cases hop
          | begin | abort | ckpt => simpa [handleRec] using hold
          | commit t' =>
              by_cases htt : t' = t
              · subst htt
                simp [handleRec]
              · simp [handleRec, hold, Ne.symm htt]

theorem undo_row {known : TabName → Bool} (hr : known r.tab = true) (hu : UniqueIds log)
    (t : TxnId) (heap : Heap) :
    ((analyze log).uncommitted t).reverse.foldl (onRow known undoVal) heap r =
      if .commit t ∈ log then heap r else undoAll (opsOf log t r) (heap r) := by
  rw [foldl_onRow hr, analyze_uncommitted hu]
  split
  · rfl
  · rw [List.filter_reverse, List.filter_filter, undoAll_eq]
    unfold opsOf
    congr 1
    apply List.filter_congr
    intro l _
    cases op? l with
    | none => rfl
    | some p => simp [Prod.ext_iff, Bool.and_comm]

/-- `undo_pass`, seen by one row. -/
theorem undoPass_row {known : TabName → Bool} (hr : known r.tab = true) (hu : UniqueIds log) :
    ∀ (order : List TxnId) (heap : Heap), undoPass known (analyze log) order heap r =
      (order.filter fun t => decide (.commit t ∉ log)).foldl (fun v t => undoAll (opsOf log t r) v)
        (heap r) := by
  intro order
  induction order with
  | nil => exact fun _ => rfl
  | cons t order ih =>
      intro heap
      have hstep := undo_row hr hu t heap
      unfold undoPass at ih ⊢
      rw [List.foldl_cons, ih, hstep, List.filter_cons]
      by_cases hc : .commit t ∈ log <;> simp [hc]

theorem recover_row {known : TabName → Bool} (hr : known r.tab = true) (order : List TxnId)
    (log : List LogRecord) (heap : Heap) : recover known order log heap r =
      redoAll (winnersOf log r) (undoPass known (analyze log) order heap r) := by
  have hwin : winnersOf log r = log.filter fun l => (op? l).any fun p =>
      decide (p.2 = r) && decide (p.1 ∈ (analyze log).committed) := by
    unfold winnersOf
    simp only [mem_committed]
  unfold recover redo
  split
  · rename_i hnone
    have hnil : winnersOf log r = [] := by
      rw [hwin, hnone]
      simp
    rw [hnil]
    rfl
  · rw [foldl_redoOne hr, hwin]
    rfl

/-! ## The losers of a row whose committed operations only patch -/

/-- A loser starts from a value that is like the first one outside the patched bytes. -/
theorem loser_base (hu : UniqueIds log) (hs : (rowAt v0 r log).isSome)
    (hpatch : ∀ l ∈ winnersOf log r, isPatch l = true) (t : TxnId) :
    ∃ u w, Agree (Patched (winnersOf log r)) u (v0 r) ∧ chain u (opsOf log t r) = some w := by
  by_cases hops : opsOf log t r = []
  · exact ⟨v0 r, v0 r, Agree.refl _ _, by rw [hops]; rfl⟩
  · obtain ⟨u, ⟨q, sq, hq, hsq, rfl⟩, ⟨w, hw⟩, -⟩ := episode hu hs t hops
    exact ⟨sq.committed, w, (agree_of_patches hu hpatch hq hsq).1, hw⟩

/-- Undoing any losers keeps the row near its first value. -/
theorem undo_near (hu : UniqueIds log) (hs : (rowAt v0 r log).isSome)
    (hpatch : ∀ l ∈ winnersOf log r, isPatch l = true) {T : Nat → Prop} {D : Prop}
    (hT : ∀ i, Patched (winnersOf log r) i → T i) : ∀ (ts : List TxnId) (x : Option Bytes),
    Near T D (v0 r) x → Near T D (v0 r) (ts.foldl (fun v t => undoAll (opsOf log t r) v) x) := by
  intro ts
  induction ts with
  | nil => exact fun _ h => h
  | cons t ts ih =>
      intro x hx
      obtain ⟨u, w, hbase, hc⟩ := loser_base hu hs hpatch t
      exact ih _ (undoAll_near hx hbase hT hc)

theorem undo_agree (hu : UniqueIds log) (hs : (rowAt v0 r log).isSome)
    (hpatch : ∀ l ∈ winnersOf log r, isPatch l = true) (ts : List TxnId) {x : Option Bytes}
    (hx : Agree (Patched (winnersOf log r)) x (v0 r)) :
    Agree (Patched (winnersOf log r)) (ts.foldl (fun v t => undoAll (opsOf log t r) v) x) (v0 r) :=
  (undo_near hu hs hpatch (D := False) (fun _ h => h) ts x (.inl hx)).resolve_right fun h => h.1

/-- Undoing the losers, the one whose value the row holds among them, brings the row back to its
first value outside the patched bytes. -/
theorem undo_losers (hu : UniqueIds log) (hs : (rowAt v0 r log).isSome)
    (hpatch : ∀ l ∈ winnersOf log r, isPatch l = true) {losers : List TxnId}
    (hlosers : ∀ t, .commit t ∉ log → opsOf log t r ≠ [] → t ∈ losers) {x : Option Bytes}
    (hx : Passed v0 log r x) :
    Agree (Patched (winnersOf log r)) (losers.foldl (fun v t => undoAll (opsOf log t r) v) x) (v0 r) := by
  obtain ⟨q, sq, hq, hsq, rfl⟩ := hx
  obtain ⟨hcom, hwin⟩ := agree_of_patches hu hpatch hq hsq
  have ho := ownerOk (hu.initial hq) hsq
  cases hown : sq.owner with
  | none =>
      rw [ho.idle hown]
      exact undo_agree hu hs hpatch losers hcom
  | some t =>
      by_cases hc : .commit t ∈ log
      · exact undo_agree hu hs hpatch losers (hwin t hown hc)
      · obtain ⟨more, hmore⟩ := opsOf_initial hq t r
        have hops : opsOf log t r ≠ [] := by
          rw [hmore]
          exact fun h => (ho.ops t hown).1 (List.append_eq_nil_iff.1 h).1
        obtain ⟨o1, o2, rfl⟩ := List.append_of_mem (hlosers t hc hops)
        obtain ⟨u, ⟨q', sq', hq', hsq', rfl⟩, ⟨w, hw⟩, howns⟩ := episode hu hs t hops
        have hbase := (agree_of_patches hu hpatch hq' hsq').1
        rw [List.foldl_append, List.foldl_cons]
        apply undo_agree hu hs hpatch o2
        apply undoAll_own hbase hw
        by_cases hres : ∃ l ∈ opsOf log t r, isReset l = true
        · exact .inl hres
        · right
          have hno : ∀ l ∈ opsOf q t r ++ more, isReset l = false := by
            intro l hl
            rw [← hmore] at hl
            simpa using fun h => hres ⟨l, hl, h⟩
          have hnear := chain_near hbase (howns q sq hq hsq hown) hno
          rw [← hmore] at hnear
          exact undo_near hu hs hpatch (fun _ h => .inl h) o1 _ hnear

/-! ## Undo, then redo -/

/-- Recovery of a well-formed log gives every row its last committed value. -/
theorem recover_committed {known : TabName → Bool} {order : List TxnId} {heap : Heap}
    (hwf : WellFormed v0 log) (horder : ∀ t, (analyze log).uncommitted t ≠ [] → t ∈ order)
    (hheap : ∀ r, Passed v0 log r (heap r)) (hr : known r.tab = true)
    (hs : rowAt v0 r log = some s) : recover known order log heap r = s.committed := by
  have hu := hwf.ids
  have hwinners := chain_winnersOf hu hs
  rw [recover_row hr]
  by_cases hpatch : ∀ l ∈ winnersOf log r, isPatch l = true
  · rw [undoPass_row hr hu]
    have hlosers : ∀ t, .commit t ∉ log → opsOf log t r ≠ [] →
        t ∈ order.filter fun t => decide (.commit t ∉ log) := by
      intro t hc hops
      refine List.mem_filter.2 ⟨horder t ?_, by simpa using hc⟩
      obtain ⟨l, hl⟩ := List.exists_mem_of_ne_nil _ hops
      obtain ⟨hmem, hop⟩ := List.mem_filter.1 hl
      rw [analyze_uncommitted hu, if_neg hc]
      apply List.ne_nil_of_mem (a := l)
      refine List.mem_filter.2 ⟨hmem, ?_⟩
      rw [of_decide_eq_true hop]
      simp
    have hagree := undo_losers hu (hwf.rows r) hpatch hlosers (hheap r)
    exact ((redoAll_patches _ _ _ hwinners hpatch hagree).mono fun _ h => h.2 h.1).eq
  · have hany : ∃ l ∈ winnersOf log r, isPatch l = false := by
      simpa using hpatch
    exact redoAll_any _ _ _ hwinners hany

/-- A loser's update and delete undone, and the byte of a committed patch redone. -/
theorem recover_committed_patch : ∃ (v0 : Heap) (log : List LogRecord) (s : RowState),
    rowAt v0 ⟨"t", ⟨1, 0⟩⟩ log = some s ∧ s.committed = some [9, 2] ∧
      recover (fun _ => true) [2] log (fun _ => none) ⟨"t", ⟨1, 0⟩⟩ = s.committed := by
  let r0 : RowId := ⟨"t", ⟨1, 0⟩⟩
  let v0 : Heap := fun r => if r = r0 then some [1, 2] else none
  let log : List LogRecord := [.updateDelta 1 r0 [(0, [1], [9])], .commit 1,
    .update 2 r0 [9, 2] [7, 7], .delete 2 r0 [7, 7]]
  have hself : rowAt v0 r0 log = some ⟨some [9, 2], some 2, none⟩ := by decide
  have hother : ∀ r, r ≠ r0 → rowAt v0 r log = some ⟨none, none, none⟩ := by
    intro r hr
    simp [rowAt, run, rowStep, op?, log, v0, hr, Ne.symm hr]
  have hids : UniqueIds log := by
    refine UniqueIds.cons (UniqueIds.cons (UniqueIds.cons (UniqueIds.cons ?_ ?_) ?_) ?_) ?_
    · intro pre l post t heq
      cases pre <;> cases heq
    all_goals
      rintro t (h | h)
      all_goals cases h
    decide
  refine ⟨v0, log, _, hself, rfl, recover_committed ⟨?_, hids⟩ ?_ ?_ rfl hself⟩
  · intro r
    by_cases hr : r = r0
    · rw [hr, hself]
      rfl
    · rw [hother r hr]
      rfl
  · intro t ht
    rw [analyze_uncommitted hids] at ht
    by_contra hmem
    simp [log, op?] at ht hmem
    exact hmem (ht.2 (Ne.symm ht.1)).symm
  · intro r
    by_cases hr : r = r0
    · rw [hr]
      exact ⟨log, _, List.prefix_rfl, hself, rfl⟩
    · exact ⟨log, _, List.prefix_rfl, hother r hr, rfl⟩

end Rmdb.Recovery
