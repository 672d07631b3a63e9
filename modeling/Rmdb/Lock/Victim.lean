import Rmdb.Lock.Manager
import Rmdb.Lib.Cycle

/-!
# The search for a cycle

`detect_deadlock_victim` (src/transaction/concurrency/lock_manager.cpp) on any `wait_for_` map.
The ids may be of any ordered type (`findVictim`); with those of the lock manager it is
`detectDeadlockVictim`.  The guard only stops walks that never come back to their start: a
cycle has no more elements than the map has entries (`OnCycle.exists_le_card`).
-/

namespace Rmdb.Lock

open Rmdb.Lib (follow follow_succ OnCycle cycle mem_cycle_iff self_mem_cycle)

variable {ι : Type} [LinearOrder ι]

/-- The `while` of `detect_deadlock_victim`, with `guard` before the condition. -/
def walkFrom (waitFor : AList fun _ : ι => ι) (start : ι) : Nat → ι → ι → Option ι
  | 0, _, _ => none
  | guard + 1, cur, youngest =>
      if cur = start then some youngest
      else
        match waitFor.lookup cur with
        | none => none
        | some next => walkFrom waitFor start guard next (if cur > youngest then cur else youngest)

/-- `detect_deadlock_victim`; `false` is `none`. -/
def findVictim (waitFor : AList fun _ : ι => ι) (start : ι) : Option ι :=
  match waitFor.lookup start with
  | none => none
  | some cur => walkFrom waitFor start (waitFor.entries.length + 1) cur start

theorem walk_eq_walkFrom (wf : WaitFor) (start : Txn.TxnId) (guard : Nat) (cur youngest : Txn.TxnId) :
    walk wf start guard cur youngest = walkFrom wf start guard cur youngest := by
  induction guard generalizing cur youngest with
  | zero => rfl
  | succ guard ih =>
      unfold walk walkFrom
      split
      · rfl
      · cases wf.lookup cur with
        | none => rfl
        | some next =>
            have hmax : max youngest cur = if cur > youngest then cur else youngest := by
              by_cases hlt : youngest < cur
              · rw [if_pos hlt, max_eq_right hlt.le]
              · rw [if_neg hlt, max_eq_left (not_lt.1 hlt)]
            simp only [ih, hmax]

theorem detectDeadlockVictim_eq_findVictim (wf : WaitFor) (start : Txn.TxnId) :
    detectDeadlockVictim wf start = findVictim wf start := by
  unfold detectDeadlockVictim findVictim
  cases wf.lookup start with
  | none => rfl
  | some cur => exact walk_eq_walkFrom ..

variable {waitFor : AList fun _ : ι => ι} {start : ι}

/-- What the walk has passed when it is back, with the youngest of before. -/
def passed (waitFor : AList fun _ : ι => ι) (n : Nat) (cur youngest : ι) : Set ι :=
  {b | b = youngest ∨ ∃ m < n, follow waitFor.lookup m cur = some b}

theorem isGreatest_passed_zero (cur y : ι) : IsGreatest (passed waitFor 0 cur y) y := by
  refine ⟨.inl rfl, ?_⟩
  rintro b (rfl | ⟨m, hm, -⟩)
  · exact le_rfl
  · omega

/-- One step of the walk. -/
theorem isGreatest_passed_succ {cur next y v : ι} {n : Nat} (hnext : waitFor.lookup cur = some next)
    (h : IsGreatest (passed waitFor n next (if cur > y then cur else y)) v) :
    IsGreatest (passed waitFor (n + 1) cur y) v := by
  have hfollow : ∀ m, follow waitFor.lookup (m + 1) cur = follow waitFor.lookup m next := by
    intro m
    show (waitFor.lookup cur).bind (follow waitFor.lookup m) = _
    rw [hnext]
    rfl
  have hy : (if cur > y then cur else y) ≤ v := h.2 (.inl rfl)
  constructor
  · rcases h.1 with hv | ⟨m, hm, hv⟩
    · by_cases hlt : cur > y
      · rw [if_pos hlt] at hv
        exact .inr ⟨0, Nat.succ_pos n, congrArg some hv.symm⟩
      · rw [if_neg hlt] at hv
        exact .inl hv
    · exact .inr ⟨m + 1, by omega, (hfollow m).trans hv⟩
  · rintro b (rfl | ⟨m, hm, hb⟩)
    · refine le_trans ?_ hy
      split
      · next hlt => exact le_of_lt hlt
      · exact le_rfl
    · cases m with
      | zero =>
          obtain rfl : cur = b := Option.some.inj hb
          refine le_trans ?_ hy
          split
          · exact le_rfl
          · next hle => exact not_lt.1 hle
      | succ m =>
          refine h.2 (.inr ⟨m, by omega, ?_⟩)
          rw [← hfollow m]
          exact hb

/-- A walk that comes back has passed what is between, and returns the greatest of it. -/
theorem walkFrom_some {guard : Nat} {cur y v : ι} (h : walkFrom waitFor start guard cur y = some v) :
    ∃ n < guard, follow waitFor.lookup n cur = some start ∧ IsGreatest (passed waitFor n cur y) v := by
  induction guard generalizing cur y with
  | zero => cases h
  | succ guard ih =>
      unfold walkFrom at h
      by_cases hs : cur = start
      · rw [if_pos hs] at h
        rw [← Option.some.inj h]
        exact ⟨0, Nat.succ_pos guard, congrArg some hs, isGreatest_passed_zero cur y⟩
      · rw [if_neg hs] at h
        cases hnext : waitFor.lookup cur with
        | none => simp [hnext] at h
        | some next =>
            simp only [hnext] at h
            obtain ⟨n, hn, hback, hgreat⟩ := ih h
            refine ⟨n + 1, by omega, ?_, isGreatest_passed_succ hnext hgreat⟩
            show (waitFor.lookup cur).bind (follow waitFor.lookup n) = some start
            rw [hnext]
            exact hback

/-- A walk that is back within its guard returns something. -/
theorem walkFrom_isSome {guard n : Nat} (hn : n < guard) {cur : ι} (y : ι)
    (hback : follow waitFor.lookup n cur = some start) : (walkFrom waitFor start guard cur y).isSome := by
  induction guard generalizing n cur y with
  | zero => omega
  | succ guard ih =>
      unfold walkFrom
      by_cases hs : cur = start
      · rw [if_pos hs]
        rfl
      · rw [if_neg hs]
        cases n with
        | zero => exact absurd (Option.some.inj hback) hs
        | succ n =>
            obtain ⟨next, hnext, hrest⟩ := Option.bind_eq_some_iff.1 hback
            simp only [hnext]
            exact ih (by omega) _ hrest

theorem findVictim_some {v : ι} (h : findVictim waitFor start = some v) :
    OnCycle waitFor.lookup start ∧ IsGreatest (cycle waitFor.lookup start) v := by
  unfold findVictim at h
  cases hcur : waitFor.lookup start with
  | none => simp [hcur] at h
  | some cur =>
      simp only [hcur] at h
      obtain ⟨n, -, hback, hgreat⟩ := walkFrom_some h
      have hround : OnCycle waitFor.lookup start := by
        refine ⟨n, ?_⟩
        show (waitFor.lookup start).bind (follow waitFor.lookup n) = some start
        rw [hcur]
        exact hback
      have hset : cycle waitFor.lookup start = passed waitFor n cur start :=
        Set.ext fun c => mem_cycle_iff hcur hback
      exact ⟨hround, by rw [hset]; exact hgreat⟩

theorem findVictim_isSome (h : OnCycle waitFor.lookup start) : (findVictim waitFor start).isSome := by
  obtain ⟨cur, n, hcur, hn, hback⟩ := h.exists_le_card (K := waitFor.keys.toFinset) fun b c hb => by
    rw [List.mem_toFinset]
    exact AList.lookup_isSome.1 (by rw [hb]; rfl)
  have hlen : waitFor.keys.toFinset.card ≤ waitFor.entries.length :=
    (List.toFinset_card_le _).trans_eq (List.length_map ..)
  unfold findVictim
  simp only [hcur]
  exact walkFrom_isSome (by omega) start hback

/-- The search returns a victim exactly when its start is on a cycle, and then the greatest id
on that cycle. -/
theorem findVictim_iff (waitFor : AList fun _ : ι => ι) (start : ι) :
    ((findVictim waitFor start).isSome ↔ OnCycle waitFor.lookup start) ∧
      ∀ v, findVictim waitFor start = some v → IsGreatest (cycle waitFor.lookup start) v := by
  refine ⟨⟨fun h => ?_, findVictim_isSome⟩, fun v h => (findVictim_some h).2⟩
  obtain ⟨v, hv⟩ := Option.isSome_iff_exists.1 h
  exact (findVictim_some hv).1

end Rmdb.Lock
