import Rmdb.Recovery.Value

/-!
# The history of a row in the log

A log is well formed when the operations on a row are those of one unfinished transaction at
a time and every before-image is the row's value: the last committed one, as changed by the
same transaction.
-/

namespace Rmdb.Recovery

open Rmdb.Txn
open Rmdb.Lib (run run_nil run_cons run_append)

/-! ## Well-formed logs -/

/-- The history of one row: the last committed value, and the value of the unfinished
transaction that works on it. -/
structure RowState where
  committed : Option Bytes
  owner : Option TxnId
  cur : Option Bytes
deriving DecidableEq, Repr

def rowStep (r : RowId) (s : RowState) (l : LogRecord) : Option RowState :=
  match op? l with
  | some (t, r') =>
      if r' = r then
        if s.owner = none ∨ s.owner = some t then
          (applyRec l s.cur).map fun v => { s with owner := some t, cur := v }
        else none
      else some s
  | none =>
      match l with
      | .commit t => if s.owner = some t then some ⟨s.cur, none, s.cur⟩ else some s
      | .abort t => if s.owner = some t then some ⟨s.committed, none, s.committed⟩ else some s
      | _ => some s

/-- The state of row `r` after a log that starts with the rows `v0`. -/
def rowAt (v0 : Heap) (r : RowId) (log : List LogRecord) : Option RowState :=
  run (rowStep r) ⟨v0 r, none, v0 r⟩ log

/-- The transaction of a record. -/
def txn? : LogRecord → Option TxnId
  | .insert t _ _ | .delete t _ _ | .update t _ _ _ | .updateDelta t _ _ | .begin t | .commit t
  | .abort t => some t
  | .ckpt => none

/-- An id stands for one transaction, which ends once. -/
def UniqueIds (log : List LogRecord) : Prop :=
  ∀ pre l post t, log = pre ++ l :: post → (l = .commit t ∨ l = .abort t) →
    ∀ l' ∈ post, txn? l' ≠ some t

structure WellFormed (v0 : Heap) (log : List LogRecord) : Prop where
  rows : ∀ r, (rowAt v0 r log).isSome
  ids : UniqueIds log

/-- A value that row `r` has had at some point of the log. -/
def Passed (v0 : Heap) (log : List LogRecord) (r : RowId) (v : Option Bytes) : Prop :=
  ∃ pre s, pre <+: log ∧ rowAt v0 r pre = some s ∧ v = s.cur

/-- Has `t` ended in the log? -/
def Finished (log : List LogRecord) (t : TxnId) : Prop := .commit t ∈ log ∨ .abort t ∈ log

/-! ## The last record of a log -/

variable {v0 : Heap} {log p q : List LogRecord} {l : LogRecord} {r : RowId} {t : TxnId}
variable {s s' : RowState}

theorem UniqueIds.front (h : UniqueIds (p ++ [l])) : UniqueIds p := by
  intro pre l' post t heq hend l'' hl''
  refine h pre l' (post ++ [l]) t ?_ hend l'' (List.mem_append_left _ hl'')
  rw [heq, List.append_assoc, List.cons_append]

theorem UniqueIds.cons (hp : UniqueIds p)
    (hl : ∀ t, (l = .commit t ∨ l = .abort t) → ∀ l' ∈ p, txn? l' ≠ some t) : UniqueIds (l :: p) := by
  intro pre l' post t heq hend
  cases pre with
  | nil =>
      cases heq
      exact hl t hend
  | cons x pre =>
      cases heq
      exact hp pre l' post t rfl hend

/-- A record of `t` means that `t` has not ended before. -/
theorem UniqueIds.not_finished (h : UniqueIds (p ++ [l])) (ht : txn? l = some t) : ¬ Finished p t := by
  intro hend
  have hmem : ∀ e, (e = LogRecord.commit t ∨ e = .abort t) → e ∈ p → False := by
    intro e he hmem
    obtain ⟨pre, post, rfl⟩ := List.append_of_mem hmem
    refine h pre e (post ++ [l]) t ?_ he l (List.mem_append_right _ (List.mem_singleton_self l)) ht
    rw [List.append_assoc, List.cons_append]
  rcases hend with hc | ha
  · exact hmem _ (.inl rfl) hc
  · exact hmem _ (.inr rfl) ha

theorem UniqueIds.initial (h : UniqueIds log) (hp : p <+: log) : UniqueIds p := by
  obtain ⟨rest, rfl⟩ := hp
  induction rest using List.reverseRecOn with
  | nil => rwa [List.append_nil] at h
  | append_singleton rest l ih =>
      rw [← List.append_assoc] at h
      exact ih h.front

theorem rowAt_concat (v0 : Heap) (r : RowId) (p : List LogRecord) (l : LogRecord) :
    rowAt v0 r (p ++ [l]) = (rowAt v0 r p).bind fun s => rowStep r s l := by
  unfold rowAt
  rw [run_append]
  cases run (rowStep r) ⟨v0 r, none, v0 r⟩ p with
  | none => rfl
  | some s =>
      rw [Option.bind_some, Option.bind_some, run_cons]
      cases rowStep r s l with
      | none => rfl
      | some s' => rfl

/-- What one record can do to a row. -/
theorem rowStep_cases (h : rowStep r s l = some s') :
    (∃ t v, op? l = some (t, r) ∧ (s.owner = none ∨ s.owner = some t) ∧
      applyRec l s.cur = some v ∧ s' = { s with owner := some t, cur := v }) ∨
    (∃ t, l = .commit t ∧ s.owner = some t ∧ s' = ⟨s.cur, none, s.cur⟩) ∨
    (∃ t, l = .abort t ∧ s.owner = some t ∧ s' = ⟨s.committed, none, s.committed⟩) ∨
    (s' = s ∧ (∀ t, op? l ≠ some (t, r)) ∧ ∀ t, s.owner = some t → l ≠ .commit t ∧ l ≠ .abort t) := by
  unfold rowStep at h
  split at h
  · rename_i t r' hop
    have hend : ∀ t', l ≠ .commit t' ∧ l ≠ .abort t' := by
      intro t'
      constructor <;> rintro rfl <;> cases hop
    split at h
    · rename_i hrr
      subst hrr
      obtain ⟨hown, h⟩ := Option.ite_none_right_eq_some.1 h
      obtain ⟨v, hv, rfl⟩ := Option.map_eq_some_iff.1 h
      exact .inl ⟨t, v, hop, hown, hv, rfl⟩
    · rename_i hrr
      cases h
      refine .inr (.inr (.inr ⟨rfl, ?_, fun t' _ => hend t'⟩))
      intro t' ht'
      rw [hop] at ht'
      cases ht'
      exact hrr rfl
  · rename_i hop
    have hno : ∀ t, op? l ≠ some (t, r) := fun t ht => by rw [hop] at ht; cases ht
    split at h
    · rename_i t
      split at h
      · rename_i hown
        cases h
        exact .inr (.inl ⟨t, rfl, hown, rfl⟩)
      · rename_i hown
        cases h
        refine .inr (.inr (.inr ⟨rfl, hno, fun t' ht' => ⟨?_, fun hne => (by cases hne)⟩⟩))
        rintro heq
        cases heq
        exact hown ht'
    · rename_i t
      split at h
      · rename_i hown
        cases h
        exact .inr (.inr (.inl ⟨t, rfl, hown, rfl⟩))
      · rename_i hown
        cases h
        refine .inr (.inr (.inr ⟨rfl, hno, fun t' ht' => ⟨fun hne => (by cases hne), ?_⟩⟩))
        rintro heq
        cases heq
        exact hown ht'
    · rename_i hnc hna
      cases h
      refine .inr (.inr (.inr ⟨rfl, hno, fun t' _ => ⟨?_, ?_⟩⟩))
      · rintro rfl
        exact hnc t' rfl
      · rintro rfl
        exact hna t' rfl

theorem opsOf_concat (p : List LogRecord) (l : LogRecord) (t : TxnId) (r : RowId) :
    opsOf (p ++ [l]) t r = opsOf p t r ++ if op? l = some (t, r) then [l] else [] := by
  unfold opsOf
  rw [List.filter_append]
  congr 1
  by_cases h : op? l = some (t, r) <;> simp [h]

theorem opsOf_initial (h : q <+: p) (t : TxnId) (r : RowId) :
    ∃ more, opsOf p t r = opsOf q t r ++ more := by
  obtain ⟨rest, rfl⟩ := h
  exact ⟨opsOf rest t r, List.filter_append _ _⟩

theorem txn?_of_op (h : op? l = some (t, r)) : txn? l = some t := by
  cases l <;> cases h <;> rfl

/-! ## Owners -/

/-- The owner of a row has operations on it and has not ended; who had operations on it owns it
or has ended. -/
structure OwnerOk (p : List LogRecord) (r : RowId) (s : RowState) : Prop where
  idle : s.owner = none → s.cur = s.committed
  ops : ∀ t, s.owner = some t → opsOf p t r ≠ [] ∧ ¬ Finished p t
  past : ∀ t, opsOf p t r ≠ [] → s.owner = some t ∨ Finished p t

theorem Finished.mono (h : Finished p t) (l : LogRecord) : Finished (p ++ [l]) t :=
  h.imp (List.mem_append_left _) (List.mem_append_left _)

theorem finished_concat (h : Finished (p ++ [l]) t) : Finished p t ∨ l = .commit t ∨ l = .abort t := by
  unfold Finished at h ⊢
  simp only [List.mem_append, List.mem_singleton] at h
  rcases h with (h | h) | (h | h)
  · exact .inl (.inl h)
  · exact .inr (.inl h.symm)
  · exact .inl (.inr h)
  · exact .inr (.inr h.symm)

theorem ownerOk (hu : UniqueIds p) : ∀ {s}, rowAt v0 r p = some s → OwnerOk p r s := by
  induction p using List.reverseRecOn with
  | nil =>
      intro s hs
      cases hs
      exact ⟨fun _ => rfl, fun t ht => (by cases ht), fun t ht => absurd rfl ht⟩
  | append_singleton p l ih =>
      intro s' hs'
      rw [rowAt_concat] at hs'
      obtain ⟨s, hs, hstep⟩ := Option.bind_eq_some_iff.1 hs'
      have ho := ih hu.front hs
      have hkeep : ∀ t, op? l ≠ some (t, r) → opsOf (p ++ [l]) t r = opsOf p t r := by
        intro t ht
        rw [opsOf_concat, if_neg ht, List.append_nil]
      rcases rowStep_cases hstep with ⟨t, v, hop, hown, -, rfl⟩ | ⟨t, rfl, hown, rfl⟩ |
        ⟨t, rfl, hown, rfl⟩ | ⟨rfl, hno, hnend⟩
      · have hnot := hu.not_finished (txn?_of_op hop)
        refine ⟨fun h => (by cases h), ?_, ?_⟩
        · rintro t' ht'
          cases ht'
          refine ⟨by rw [opsOf_concat, if_pos hop]; simp, fun hend => ?_⟩
          rcases finished_concat hend with hend | rfl | rfl
          · exact hnot hend
          · cases hop
          · cases hop
        · intro t' ht'
          by_cases htt : t' = t
          · exact .inl (congrArg some htt.symm)
          · right
            rw [hkeep t' fun h => htt (by rw [hop] at h; cases h; rfl)] at ht'
            rcases ho.past t' ht' with h | h
            · rcases hown with hn | hn
              · rw [hn] at h
                cases h
              · rw [hn] at h
                exact absurd (Option.some.inj h).symm htt
            · exact h.mono l
      · refine ⟨fun _ => rfl, fun t' ht' => (by cases ht'), ?_⟩
        intro t' ht'
        rw [hkeep t' (fun h => by cases h)] at ht'
        right
        rcases ho.past t' ht' with h | h
        · rw [hown] at h
          cases h
          exact .inl (List.mem_append_right _ (List.mem_singleton_self _))
        · exact h.mono _
      · refine ⟨fun _ => rfl, fun t' ht' => (by cases ht'), ?_⟩
        intro t' ht'
        rw [hkeep t' (fun h => by cases h)] at ht'
        right
        rcases ho.past t' ht' with h | h
        · rw [hown] at h
          cases h
          exact .inr (List.mem_append_right _ (List.mem_singleton_self _))
        · exact h.mono _
      · refine ⟨ho.idle, ?_, ?_⟩
        · intro t' ht'
          rw [hkeep t' (hno t')]
          refine ⟨(ho.ops t' ht').1, fun hend => ?_⟩
          rcases finished_concat hend with hend | h | h
          · exact (ho.ops t' ht').2 hend
          · exact (hnend t' ht').1 h
          · exact (hnend t' ht').2 h
        · intro t' ht'
          rw [hkeep t' (hno t')] at ht'
          exact (ho.past t' ht').imp_right fun h => h.mono l

/-! ## The operations of one transaction -/

/-- The operations of `t` on the row start from a committed value `u`, and lead to the row's
value whenever `t` owns the row. -/
structure Episode (v0 : Heap) (p : List LogRecord) (r : RowId) (t : TxnId) (u : Option Bytes) :
    Prop where
  base : ∃ q s, q <+: p ∧ rowAt v0 r q = some s ∧ u = s.committed
  chain : ∃ w, chain u (opsOf p t r) = some w
  owns : ∀ q s, q <+: p → rowAt v0 r q = some s → s.owner = some t →
    Recovery.chain u (opsOf q t r) = some s.cur

theorem prefix_concat (h : q <+: p ++ [l]) : q <+: p ∨ q = p ++ [l] := by
  rcases List.prefix_concat_iff.1 h with rfl | h
  · exact .inr rfl
  · exact .inl h

theorem episode (hu : UniqueIds p) (hs : (rowAt v0 r p).isSome) (t : TxnId)
    (hops : opsOf p t r ≠ []) : ∃ u, Episode v0 p r t u := by
  induction p using List.reverseRecOn with
  | nil => exact absurd rfl hops
  | append_singleton p l ih =>
      obtain ⟨s', hs'⟩ := Option.isSome_iff_exists.1 hs
      have hs1 := hs'
      rw [rowAt_concat] at hs1
      obtain ⟨s, hsp, hstep⟩ := Option.bind_eq_some_iff.1 hs1
      have ho := ownerOk hu.front hsp
      have hself : s'.owner = some t → ∀ u, (∀ q s, q <+: p → rowAt v0 r q = some s →
          s.owner = some t → chain u (opsOf q t r) = some s.cur) →
          chain u (opsOf (p ++ [l]) t r) = some s'.cur →
          ∀ q s, q <+: p ++ [l] → rowAt v0 r q = some s → s.owner = some t →
            chain u (opsOf q t r) = some s.cur := by
        intro _ u hold hnew q s'' hq hs'' hown
        rcases prefix_concat hq with hq | rfl
        · exact hold q s'' hq hs'' hown
        · rw [hs'] at hs''
          cases hs''
          exact hnew
      by_cases hop : op? l = some (t, r)
      · -- an operation of `t` on the row
        have hopseq : opsOf (p ++ [l]) t r = opsOf p t r ++ [l] := by rw [opsOf_concat, if_pos hop]
        rcases rowStep_cases hstep with ⟨t', v, hop', hown, hv, rfl⟩ | ⟨t', rfl, -⟩ |
          ⟨t', rfl, -⟩ | ⟨-, hno, -⟩
        · rw [hop] at hop'
          cases hop'
          have hext : ∀ u, chain u (opsOf p t r) = some s.cur →
              chain u (opsOf (p ++ [l]) t r) = some v := by
            intro u hc
            rw [hopseq, chain, run_append]
            unfold chain at hc
            rw [hc]
            show (applyRec l s.cur).bind _ = _
            rw [hv]
            rfl
          by_cases hfirst : opsOf p t r = []
          · -- its first one: it starts from the committed value
            have hidle : s.cur = s.committed := by
              refine ho.idle (hown.resolve_right fun h => ?_)
              exact (ho.ops t h).1 hfirst
            have hc : chain s.committed (opsOf p t r) = some s.cur := by
              rw [hfirst, hidle]
              rfl
            refine ⟨s.committed, ⟨p, s, List.prefix_append _ _, hsp, rfl⟩, ⟨v, hext _ hc⟩,
              hself rfl _ ?_ (hext _ hc)⟩
            intro q s'' hq hs'' hown''
            have hne := ((ownerOk (hu.front.initial hq) hs'').ops t hown'').1
            obtain ⟨more, hmore⟩ := opsOf_initial hq t r
            rw [hfirst] at hmore
            exact absurd (List.append_eq_nil_iff.1 hmore.symm).1 hne
          · obtain ⟨u, hb, -, howns⟩ := ih hu.front (by rw [hsp]; rfl) hfirst
            have hown' : s.owner = some t := by
              rcases ho.past t hfirst with h | h
              · exact h
              · exact absurd h (hu.not_finished (txn?_of_op hop))
            have hc := howns p s List.prefix_rfl hsp hown'
            obtain ⟨q, s0, hq, hs0, rfl⟩ := hb
            exact ⟨s0.committed, ⟨q, s0, hq.trans (List.prefix_append _ _), hs0, rfl⟩, ⟨v, hext _ hc⟩,
              hself rfl _ howns (hext _ hc)⟩
        · cases hop
        · cases hop
        · exact absurd hop (hno t)
      · have hopseq : opsOf (p ++ [l]) t r = opsOf p t r := by
          rw [opsOf_concat, if_neg hop, List.append_nil]
        rw [hopseq] at hops
        obtain ⟨u, hb, ⟨w, hw⟩, howns⟩ := ih hu.front (by rw [hsp]; rfl) hops
        obtain ⟨q0, s0, hq0, hs0, rfl⟩ := hb
        refine ⟨s0.committed, ⟨q0, s0, hq0.trans (List.prefix_append _ _), hs0, rfl⟩,
          ⟨w, by rw [hopseq]; exact hw⟩, ?_⟩
        intro q s'' hq hs'' hown
        rcases prefix_concat hq with hq | rfl
        · exact howns q s'' hq hs'' hown
        · rw [hs'] at hs''
          cases hs''
          rw [hopseq]
          -- `t` owned the row before, with the same value
          rcases rowStep_cases hstep with ⟨t', v, hop', -, -, rfl⟩ | ⟨t', -, -, rfl⟩ |
            ⟨t', -, -, rfl⟩ | ⟨rfl, -, -⟩
          · cases hown
            exact absurd hop' hop
          · cases hown
          · cases hown
          · exact howns p s' List.prefix_rfl hsp hown

end Rmdb.Recovery
