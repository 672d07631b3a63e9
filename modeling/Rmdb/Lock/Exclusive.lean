import Rmdb.Lock.Manager

/-!
# Record locks exclude each other

What a step does to the owners, the lock sets and the latches of the entries (`StepOf`), the
invariant that ties them together (`Exclusive`), and what it says of every run
(`run_exclusive`).
-/

namespace Rmdb.Lock

open Rmdb.Txn (TxnId)
open Rmdb.Lib (run Along run_invariant run_invariant_along)

/-- The lock whose `unlock` is next. -/
def Pc.unlocks : Pc → Option LockDataId
  | .releasing (r :: _) => some r
  | _ => none

/-- The entry a call is about to get. -/
def Pc.grants : Pc → Option LockDataId
  | .granting r | .granted r => some r
  | _ => none

/-- The lock inside whose `unlock` the thread is, past the entry. -/
def Pc.erases : Pc → Option LockDataId
  | .erasing r _ => some r
  | _ => none

/-- The lock the thread got by its last call, if it has not called again. -/
def Pc.got : Pc → Option LockDataId
  | .returned r true => some r
  | _ => none

/-- The thread of `me` goes to `p`, and this is all that a step may do to the locks. -/
inductive StepOf (me : TxnId) (m m' : LockManager) (p : Pc) : Prop
  | quiet (howner : m'.owner = m.owner) (hset : m'.lockSet = m.lockSet) (hmtx : m'.mtx = m.mtx)
      (hholds : p.holds = (m.pc me).holds) (herases : p.erases = none) (hpast : (m.pc me).erases = none)
      (hgrants : ∀ r, p.grants = some r →
        (m.pc me).grants = some r ∨ m.owner r = none ∨ m.owner r = some me)
      (hgot : ∀ r, p.got = some r → r ∈ m.lockSet me)
  | take (r : LockDataId) (howner : m'.owner = m.owner) (hset : m'.lockSet = m.lockSet)
      (hfree : m.mtx r = none) (hmtx : m'.mtx = Function.update m.mtx r (some me))
      (hholds : p.holds = some r) (herases : p.erases = none) (hpast : (m.pc me).erases = none)
      (hgrants : p.grants = none) (hgot : p.got = none)
  | give (r : LockDataId) (howner : m'.owner = m.owner) (hset : m'.lockSet = m.lockSet)
      (hheld : (m.pc me).holds = some r) (hmtx : m'.mtx = Function.update m.mtx r none)
      (hholds : p.holds = none) (herases : p.erases = none) (hpast : (m.pc me).erases = none)
      (hgrants : p.grants = none) (hgot : p.got = none)
  | grant (r : LockDataId) (howner : m'.owner = Function.update m.owner r (some me))
      (hset : m'.lockSet = Function.update m.lockSet me (insert r (m.lockSet me)))
      (hmtx : m'.mtx = Function.update m.mtx r none) (hpc : m.pc me = .granted r)
      (hp : p = .returned r true)
  | release (r : LockDataId) (ids : List LockDataId)
      (howner : m'.owner = if m.owner r = some me then Function.update m.owner r none else m.owner)
      (hset : m'.lockSet = m.lockSet) (hmtx : m'.mtx = m.mtx) (hfree : m.mtx r = none)
      (hpc : m.pc me = .releasing (r :: ids)) (hmem : r ∈ m.lockSet me) (hp : p = .erasing r ids)
  | erase (r : LockDataId) (ids : List LockDataId) (howner : m'.owner = m.owner)
      (hset : m'.lockSet = Function.update m.lockSet me ((m.lockSet me).erase r))
      (hmtx : m'.mtx = m.mtx) (hpc : m.pc me = .erasing r ids) (hp : p = .releasing ids)

variable {m m' : LockManager} {me : TxnId} {r : LockDataId} {p : Pc}

/-- A step that only moves its thread, to no point that says something of a lock. -/
theorem StepOf.move (howner : m'.owner = m.owner) (hset : m'.lockSet = m.lockSet) (hmtx : m'.mtx = m.mtx)
    (hholds : p.holds = (m.pc me).holds) (hpast : (m.pc me).erases = none) (herases : p.erases = none)
    (hgrants : p.grants = none) (hgot : p.got = none) : StepOf me m m' p := by
  refine .quiet howner hset hmtx hholds herases hpast ?_ ?_
  · intro r hr
    rw [hgrants] at hr
    cases hr
  · intro r hr
    rw [hgot] at hr
    cases hr

namespace LockManager

theorem recordWait_stepOf (u : TxnId) (hpc : m.pc me = .recording r) :
    ∃ p, (m.recordWait me r u).pc = Function.update m.pc me p ∧ StepOf me m (m.recordWait me r u) p := by
  cases hd : detectDeadlockVictim (m.waitFor.insert me u) me with
  | none =>
      rw [recordWait_none hd]
      exact ⟨_, rfl, .move rfl rfl rfl (by rw [hpc]; rfl) (by rw [hpc]; rfl) rfl rfl rfl⟩
  | some victim =>
      by_cases hv : victim = me
      · subst hv
        rw [recordWait_self hd]
        exact ⟨_, rfl, .give r rfl rfl (by rw [hpc]; rfl) rfl rfl rfl (by rw [hpc]; rfl) rfl rfl⟩
      · rw [recordWait_other hd hv]
        exact ⟨_, rfl, .move rfl rfl rfl (by rw [hpc]; rfl) (by rw [hpc]; rfl) rfl rfl rfl⟩

theorem flagAt_fields (t : Option TxnId) :
    (m.flagAt t).owner = m.owner ∧ (m.flagAt t).lockSet = m.lockSet ∧ (m.flagAt t).mtx = m.mtx ∧
      (m.flagAt t).pc = m.pc := by
  cases t <;> exact ⟨rfl, rfl, rfl, rfl⟩

theorem release_fields (m : LockManager) (me : TxnId) (r : LockDataId) :
    (m.release me r).lockSet = m.lockSet ∧ (m.release me r).mtx = m.mtx ∧
    (m.release me r).pc = m.pc ∧
    (m.release me r).owner = if m.owner r = some me then Function.update m.owner r none else m.owner := by
  unfold release
  split <;> exact ⟨rfl, rfl, rfl, rfl⟩

theorem next_stepOf (h : m.next me = some m') :
    ∃ p, m'.pc = Function.update m.pc me p ∧ StepOf me m m' p := by
  unfold next at h
  split at h
  · cases h
  · cases h
  · next r hpc =>
      cases h
      exact ⟨_, rfl, .move rfl rfl rfl (by rw [hpc]; rfl) (by rw [hpc]; rfl) rfl rfl rfl⟩
  · next r hpc =>
      obtain ⟨hfree, h⟩ := Option.ite_none_right_eq_some.1 h
      cases h
      exact ⟨_, rfl, .take r rfl rfl hfree rfl rfl rfl (by rw [hpc]; rfl) rfl rfl⟩
  · next r hpc =>
      split at h
      · next hown =>
          cases h
          refine ⟨_, rfl, .quiet rfl rfl rfl (by rw [hpc]; rfl) rfl (by rw [hpc]; rfl) ?_ (by simp [Pc.got])⟩
          intro r' hr'
          cases hr'
          exact .inr hown
      · split at h <;> cases h <;>
          exact ⟨_, rfl, .move rfl rfl rfl (by rw [hpc]; rfl) (by rw [hpc]; rfl) rfl rfl rfl⟩
  · next r hpc =>
      obtain ⟨u, hu, rfl⟩ := Option.map_eq_some_iff.1 h
      exact recordWait_stepOf u hpc
  · next r victim hpc =>
      cases h
      exact ⟨_, rfl, .move rfl rfl rfl (by rw [hpc]; rfl) (by rw [hpc]; rfl) rfl rfl rfl⟩
  · next r victim hpc =>
      cases h
      obtain ⟨ho, hs, hm, hp⟩ := flagAt_fields (m := m) victim
      exact ⟨_, congrArg (Function.update · me _) hp, .move ho hs hm (by rw [hpc]; rfl)
        (by rw [hpc]; rfl) rfl rfl rfl⟩
  · next r hpc =>
      split at h <;> cases h <;>
        exact ⟨_, rfl, .move rfl rfl rfl (by rw [hpc]; rfl) (by rw [hpc]; rfl) rfl rfl rfl⟩
  · next r hpc =>
      split at h
      · cases h
        exact ⟨_, rfl, .move rfl rfl rfl (by rw [hpc]; rfl) (by rw [hpc]; rfl) rfl rfl rfl⟩
      · cases h
        exact ⟨_, rfl, .give r rfl rfl (by rw [hpc]; rfl) rfl rfl rfl (by rw [hpc]; rfl) rfl rfl⟩
  · next r hpc =>
      obtain ⟨⟨hfree, hwakes⟩, h⟩ := Option.ite_none_right_eq_some.1 h
      cases h
      exact ⟨_, rfl, .take r rfl rfl hfree rfl rfl rfl (by rw [hpc]; rfl) rfl rfl⟩
  · next r hpc =>
      cases h
      exact ⟨_, rfl, .move rfl rfl rfl (by rw [hpc]; rfl) (by rw [hpc]; rfl) rfl rfl rfl⟩
  · next r hpc =>
      split at h <;> cases h <;>
        exact ⟨_, rfl, .move rfl rfl rfl (by rw [hpc]; rfl) (by rw [hpc]; rfl) rfl rfl rfl⟩
  · next r hpc =>
      cases h
      exact ⟨_, rfl, .move rfl rfl rfl (by rw [hpc]; rfl) (by rw [hpc]; rfl) rfl rfl rfl⟩
  · next r hpc =>
      cases h
      exact ⟨_, rfl, .give r rfl rfl (by rw [hpc]; rfl) rfl rfl rfl (by rw [hpc]; rfl) rfl rfl⟩
  · next r hpc =>
      cases h
      refine ⟨_, rfl, .quiet rfl rfl rfl (by rw [hpc]; rfl) rfl (by rw [hpc]; rfl) ?_ (by simp [Pc.got])⟩
      intro r' hr'
      cases hr'
      exact .inl (by rw [hpc]; rfl)
  · next r hpc =>
      cases h
      exact ⟨_, rfl, .grant r rfl rfl rfl hpc rfl⟩
  · next ids hpc =>
      cases h
      exact ⟨_, rfl, .move rfl rfl rfl (by rw [hpc]; rfl) (by rw [hpc]; rfl) rfl rfl rfl⟩
  · next hpc =>
      cases h
      exact ⟨_, rfl, .move rfl rfl rfl (by rw [hpc]; rfl) (by rw [hpc]; rfl) rfl rfl rfl⟩
  · next r ids hpc =>
      split at h
      · cases h
        exact ⟨_, rfl, .move rfl rfl rfl (by rw [hpc]; rfl) (by rw [hpc]; rfl) rfl rfl rfl⟩
      · next hmem =>
          obtain ⟨hfree, h⟩ := Option.ite_none_right_eq_some.1 h
          cases h
          obtain ⟨hs, hm, hp, ho⟩ := release_fields m me r
          exact ⟨_, congrArg (Function.update · me _) hp,
            .release r ids ho hs hm hfree hpc (not_not.1 hmem) rfl⟩
  · next r ids hpc =>
      cases h
      exact ⟨_, rfl, .erase r ids rfl rfl rfl hpc rfl⟩

end LockManager

theorem step_stepOf {m m' : LockManager} {me : TxnId} {a : Act} (h : step m (me, a) = some m') :
    ∃ p, m'.pc = Function.update m.pc me p ∧ StepOf me m m' p := by
  have hout : (m.pc me).outside = true → (m.pc me).holds = none ∧ (m.pc me).erases = none := by
    cases m.pc me <;> simp [Pc.outside, Pc.holds, Pc.erases]
  unfold step at h
  cases a with
  | next => exact LockManager.next_stepOf h
  | lockExclusiveOnRecord r =>
      obtain ⟨ho, h⟩ := Option.ite_none_right_eq_some.1 h
      obtain ⟨hh, he⟩ := hout ho
      split at h
      · next hmem =>
          cases h
          refine ⟨_, rfl, .quiet rfl rfl rfl (by rw [hh]; rfl) rfl he (by simp [Pc.grants]) ?_⟩
          intro r' hr'
          cases hr'
          exact hmem
      · cases h
        exact ⟨_, rfl, .move rfl rfl rfl (by rw [hh]; rfl) he rfl rfl rfl⟩
  | unlock r =>
      obtain ⟨ho, h⟩ := Option.ite_none_right_eq_some.1 h
      obtain ⟨hh, he⟩ := hout ho
      cases h
      exact ⟨_, rfl, .move rfl rfl rfl (by rw [hh]; rfl) he rfl rfl rfl⟩
  | unlockAll ids =>
      obtain ⟨⟨ho, -⟩, h⟩ := Option.ite_none_right_eq_some.1 h
      obtain ⟨hh, he⟩ := hout ho
      cases h
      exact ⟨_, rfl, .move rfl rfl rfl (by rw [hh]; rfl) he rfl rfl rfl⟩

/-! ## The invariant -/

structure Exclusive (m : LockManager) : Prop where
  held : ∀ t r, (m.pc t).holds = some r → m.mtx r = some t
  free : ∀ t r, (m.pc t).grants = some r → m.owner r = none ∨ m.owner r = some t
  owns : ∀ t r, (m.pc t).erases ≠ some r → (r ∈ m.lockSet t ↔ m.owner r = some t)
  past : ∀ t r, (m.pc t).erases = some r → m.owner r ≠ some t
  got : ∀ t r, (m.pc t).got = some r → r ∈ m.lockSet t

theorem Pc.holds_of_grants (h : p.grants = some r) : p.holds = some r := by
  cases p <;> simp_all [Pc.grants, Pc.holds]

theorem Exclusive.start : Exclusive start where
  held := fun _ _ h => (by cases h)
  free := fun _ _ h => (by cases h)
  owns := fun _ _ _ => ⟨fun h => (by cases h), fun h => (by cases h)⟩
  past := fun _ _ h => (by cases h)
  got := fun _ _ h => (by cases h)

/-- No two threads hold one entry. -/
theorem Exclusive.eq_of_holds (h : Exclusive m) {t u : TxnId} (ht : (m.pc t).holds = some r)
    (hu : (m.pc u).holds = some r) : t = u := by
  have := (h.held t r ht).symm.trans (h.held u r hu)
  injection this

theorem Exclusive.step_held (h : Exclusive m) (hpc : m'.pc = Function.update m.pc me p)
    (hs : StepOf me m m' p) (t : TxnId) (r : LockDataId) (ht : (m'.pc t).holds = some r) :
    m'.mtx r = some t := by
  rw [hpc] at ht
  by_cases htm : t = me
  · subst htm
    rw [Function.update_self] at ht
    cases hs with
    | quiet howner hset hmtx hholds => rw [hmtx]; exact h.held t r (hholds ▸ ht)
    | take r' howner hset hfree hmtx hholds =>
        rw [hholds] at ht
        cases ht
        rw [hmtx, Function.update_self]
    | give r' howner hset hheld hmtx hholds => rw [hholds] at ht; cases ht
    | grant r' howner hset hmtx hpc' hp => rw [hp] at ht; cases ht
    | release r' ids howner hset hmtx hfree hpc' hmem hp => rw [hp] at ht; cases ht
    | erase r' ids howner hset hmtx hpc' hp => rw [hp] at ht; cases ht
  · rw [Function.update_of_ne htm] at ht
    have hold := h.held t r ht
    cases hs with
    | quiet howner hset hmtx => rw [hmtx]; exact hold
    | take r' howner hset hfree hmtx =>
        rw [hmtx, Function.update_of_ne]
        · exact hold
        · rintro rfl
          rw [hfree] at hold
          cases hold
    | give r' howner hset hheld hmtx =>
        rw [hmtx, Function.update_of_ne]
        · exact hold
        · rintro rfl
          exact htm (h.eq_of_holds ht hheld)
    | grant r' howner hset hmtx hpc' =>
        rw [hmtx, Function.update_of_ne]
        · exact hold
        · rintro rfl
          exact htm (h.eq_of_holds ht (by rw [hpc']; rfl))
    | release r' ids howner hset hmtx => rw [hmtx]; exact hold
    | erase r' ids howner hset hmtx => rw [hmtx]; exact hold

theorem Exclusive.step_free (h : Exclusive m) (hpc : m'.pc = Function.update m.pc me p)
    (hs : StepOf me m m' p) (t : TxnId) (r : LockDataId) (ht : (m'.pc t).grants = some r) :
    m'.owner r = none ∨ m'.owner r = some t := by
  rw [hpc] at ht
  by_cases htm : t = me
  · subst htm
    rw [Function.update_self] at ht
    cases hs with
    | quiet howner hset hmtx hholds herases hpast hgrants =>
        rw [howner]
        rcases hgrants r ht with hg | hg
        · exact h.free t r hg
        · exact hg
    | take r' howner hset hfree hmtx hholds herases hpast hgrants => rw [hgrants] at ht; cases ht
    | give r' howner hset hheld hmtx hholds herases hpast hgrants => rw [hgrants] at ht; cases ht
    | grant r' howner hset hmtx hpc' hp => rw [hp] at ht; cases ht
    | release r' ids howner hset hmtx hfree hpc' hmem hp => rw [hp] at ht; cases ht
    | erase r' ids howner hset hmtx hpc' hp => rw [hp] at ht; cases ht
  · rw [Function.update_of_ne htm] at ht
    have hold := h.free t r ht
    cases hs with
    | quiet howner => rw [howner]; exact hold
    | take r' howner => rw [howner]; exact hold
    | give r' howner => rw [howner]; exact hold
    | grant r' howner hset hmtx hpc' =>
        rw [howner, Function.update_of_ne]
        · exact hold
        · rintro rfl
          exact htm (h.eq_of_holds (Pc.holds_of_grants ht) (by rw [hpc']; rfl))
    | release r' ids howner =>
        rw [howner]
        split
        · by_cases hr : r = r'
          · subst hr
            exact .inl (Function.update_self ..)
          · rw [Function.update_of_ne hr]
            exact hold
        · exact hold
    | erase r' ids howner => rw [howner]; exact hold

theorem Exclusive.step_owns (h : Exclusive m) (hpc : m'.pc = Function.update m.pc me p)
    (hs : StepOf me m m' p) (t : TxnId) (r : LockDataId) (ht : (m'.pc t).erases ≠ some r) :
    r ∈ m'.lockSet t ↔ m'.owner r = some t := by
  have hsame : m'.owner = m.owner → m'.lockSet = m.lockSet → (m.pc me).erases = none →
      (r ∈ m'.lockSet t ↔ m'.owner r = some t) := by
    intro howner hset hpast
    rw [howner, hset]
    refine h.owns t r ?_
    by_cases htm : t = me
    · rw [htm, hpast]
      exact fun hc => (by cases hc)
    · rwa [hpc, Function.update_of_ne htm] at ht
  cases hs with
  | quiet howner hset hmtx hholds herases hpast => exact hsame howner hset hpast
  | take r' howner hset hfree hmtx hholds herases hpast => exact hsame howner hset hpast
  | give r' howner hset hheld hmtx hholds herases hpast => exact hsame howner hset hpast
  | grant r' howner hset hmtx hpc' hp =>
      have hfree := h.free me r' (by rw [hpc']; rfl)
      rw [howner, hset]
      by_cases htm : t = me
      · subst htm
        rw [Function.update_self, Finset.mem_insert]
        by_cases hr : r = r'
        · simp [hr]
        · rw [Function.update_of_ne hr, or_iff_right hr]
          exact h.owns t r (by rw [hpc']; exact fun hc => (by cases hc))
      · rw [Function.update_of_ne htm]
        rw [hpc, Function.update_of_ne htm] at ht
        by_cases hr : r = r'
        · subst hr
          rw [Function.update_self, h.owns t r ht]
          refine ⟨fun ho => ?_, fun ho => absurd (Option.some.inj ho).symm htm⟩
          rcases hfree with hf | hf
          · rw [hf] at ho
            cases ho
          · rw [hf] at ho
            exact absurd (Option.some.inj ho).symm htm
        · rw [Function.update_of_ne hr]
          exact h.owns t r ht
  | release r' ids howner hset hmtx hfree hpc' hmem hp =>
      have hmine : m.owner r' = some me :=
        (h.owns me r' (by rw [hpc']; exact fun hc => (by cases hc))).1 hmem
      rw [if_pos hmine] at howner
      rw [howner, hset]
      by_cases hr : r = r'
      · subst hr
        have htm : t ≠ me := by
          rintro rfl
          rw [hpc, Function.update_self, hp] at ht
          exact ht rfl
        rw [hpc, Function.update_of_ne htm] at ht
        rw [Function.update_self, h.owns t r ht, hmine]
        exact ⟨fun ho => absurd (Option.some.inj ho).symm htm, fun ho => (by cases ho)⟩
      · rw [Function.update_of_ne hr]
        refine h.owns t r ?_
        by_cases htm : t = me
        · rw [htm, hpc']
          exact fun hc => (by cases hc)
        · rwa [hpc, Function.update_of_ne htm] at ht
  | erase r' ids howner hset hmtx hpc' hp =>
      rw [howner, hset]
      by_cases htm : t = me
      · subst htm
        rw [Function.update_self, Finset.mem_erase]
        by_cases hr : r = r'
        · subst hr
          have := h.past t r (by rw [hpc']; rfl)
          simp [this]
        · rw [and_iff_right hr]
          refine h.owns t r ?_
          rw [hpc']
          exact fun hc => hr (Option.some.inj hc).symm
      · rw [Function.update_of_ne htm]
        rw [hpc, Function.update_of_ne htm] at ht
        exact h.owns t r ht

theorem Exclusive.step_past (h : Exclusive m) (hpc : m'.pc = Function.update m.pc me p)
    (hs : StepOf me m m' p) (t : TxnId) (r : LockDataId) (ht : (m'.pc t).erases = some r) :
    m'.owner r ≠ some t := by
  rw [hpc] at ht
  by_cases htm : t = me
  · subst htm
    rw [Function.update_self] at ht
    cases hs with
    | quiet howner hset hmtx hholds herases => rw [herases] at ht; cases ht
    | take r' howner hset hfree hmtx hholds herases => rw [herases] at ht; cases ht
    | give r' howner hset hheld hmtx hholds herases => rw [herases] at ht; cases ht
    | grant r' howner hset hmtx hpc' hp => rw [hp] at ht; cases ht
    | release r' ids howner hset hmtx hfree hpc' hmem hp =>
        rw [hp] at ht
        cases ht
        rw [howner]
        split
        · rw [Function.update_self]
          exact fun hc => (by cases hc)
        · assumption
    | erase r' ids howner hset hmtx hpc' hp => rw [hp] at ht; cases ht
  · rw [Function.update_of_ne htm] at ht
    have hold := h.past t r ht
    cases hs with
    | quiet howner => rw [howner]; exact hold
    | take r' howner => rw [howner]; exact hold
    | give r' howner => rw [howner]; exact hold
    | grant r' howner =>
        rw [howner]
        by_cases hr : r = r'
        · subst hr
          rw [Function.update_self]
          exact fun hc => htm (Option.some.inj hc).symm
        · rw [Function.update_of_ne hr]
          exact hold
    | release r' ids howner =>
        rw [howner]
        split
        · by_cases hr : r = r'
          · subst hr
            rw [Function.update_self]
            exact fun hc => (by cases hc)
          · rw [Function.update_of_ne hr]
            exact hold
        · exact hold
    | erase r' ids howner => rw [howner]; exact hold

theorem Exclusive.step_got (h : Exclusive m) (hpc : m'.pc = Function.update m.pc me p)
    (hs : StepOf me m m' p) (t : TxnId) (r : LockDataId) (ht : (m'.pc t).got = some r) :
    r ∈ m'.lockSet t := by
  rw [hpc] at ht
  by_cases htm : t = me
  · subst htm
    rw [Function.update_self] at ht
    cases hs with
    | quiet howner hset hmtx hholds herases hpast hgrants hgot => rw [hset]; exact hgot r ht
    | take r' howner hset hfree hmtx hholds herases hpast hgrants hgot => rw [hgot] at ht; cases ht
    | give r' howner hset hheld hmtx hholds herases hpast hgrants hgot => rw [hgot] at ht; cases ht
    | grant r' howner hset hmtx hpc' hp =>
        rw [hp] at ht
        cases ht
        rw [hset, Function.update_self]
        exact Finset.mem_insert_self ..
    | release r' ids howner hset hmtx hfree hpc' hmem hp => rw [hp] at ht; cases ht
    | erase r' ids howner hset hmtx hpc' hp => rw [hp] at ht; cases ht
  · rw [Function.update_of_ne htm] at ht
    have hold := h.got t r ht
    have hset : m'.lockSet t = m.lockSet t := by
      cases hs with
      | quiet howner hset => rw [hset]
      | take r' howner hset => rw [hset]
      | give r' howner hset => rw [hset]
      | grant r' howner hset => rw [hset, Function.update_of_ne htm]
      | release r' ids howner hset => rw [hset]
      | erase r' ids howner hset => rw [hset, Function.update_of_ne htm]
    rw [hset]
    exact hold

theorem Exclusive.step {act : TxnId × Act} (h : Exclusive m) (hstep : step m act = some m') :
    Exclusive m' := by
  obtain ⟨p, hpc, hs⟩ := step_stepOf hstep
  exact ⟨h.step_held hpc hs, h.step_free hpc hs, h.step_owns hpc hs, h.step_past hpc hs,
    h.step_got hpc hs⟩

theorem exclusive_of_run {acts : List (TxnId × Act)} (hrun : run step start acts = some m) :
    Exclusive m :=
  run_invariant (fun _ _ _ => Exclusive.step) acts _ m Exclusive.start hrun

/-! ## Runs -/

/-- The step is the section of `t`'s own `unlock` of `r` under the entry's `mtx`. -/
def Unlocks (t : TxnId) (r : LockDataId) (m : LockManager) (act : TxnId × Act) : Prop :=
  act = (t, .next) ∧ (m.pc t).unlocks = some r

instance (t : TxnId) (r : LockDataId) (m : LockManager) (act : TxnId × Act) :
    Decidable (Unlocks t r m act) :=
  inferInstanceAs (Decidable (_ ∧ _))

/-- A thread that got `r` and is not inside its `unlock` of `r` keeps the entry. -/
theorem Exclusive.step_owner (h : Exclusive m) {t : TxnId} {act : TxnId × Act}
    (hstep : Lock.step m act = some m') (hact : ¬ Unlocks t r m act) (hown : m.owner r = some t) :
    m'.owner r = some t := by
  obtain ⟨me, a⟩ := act
  obtain ⟨p, hpc, hs⟩ := step_stepOf hstep
  cases hs with
  | quiet howner => rw [howner]; exact hown
  | take r' howner => rw [howner]; exact hown
  | give r' howner => rw [howner]; exact hown
  | grant r' howner hset hmtx hpc' =>
      rw [howner]
      by_cases hr : r = r'
      · subst hr
        rw [Function.update_self]
        rcases h.free me r (by rw [hpc']; rfl) with hf | hf
        · rw [hf] at hown
          cases hown
        · exact hf.symm.trans hown
      · rw [Function.update_of_ne hr]
        exact hown
  | release r' ids howner hset hmtx hfree hpc' =>
      rw [howner]
      split
      · next hmine =>
          by_cases hr : r = r'
          · subst hr
            obtain rfl : t = me := Option.some.inj (hown.symm.trans hmine)
            refine absurd ⟨?_, by rw [hpc']; rfl⟩ hact
            -- a call starts outside, and `t` is at its `unlock`
            cases a with
            | next => rfl
            | lockExclusiveOnRecord r' => simp [Lock.step, hpc', Pc.outside] at hstep
            | unlock r' => simp [Lock.step, hpc', Pc.outside] at hstep
            | unlockAll ids => simp [Lock.step, hpc', Pc.outside] at hstep
          · rw [Function.update_of_ne hr]
            exact hown
      · exact hown
  | erase r' ids howner => rw [howner]; exact hown

/-- In every state reached a lock set holds exactly the records whose entries its transaction
owns, but for the one inside whose `unlock` it is; and from a successful
`lock_exclusive_on_record` of `t` for `r` on, until the section of `t`'s `unlock` of `r`, the
entry is `t`'s and no other transaction's call for `r` returns true. -/
theorem run_exclusive (acts : List (TxnId × Act)) (hrun : run step start acts = some m) :
    (∀ t r, (∀ ids, m.pc t ≠ .erasing r ids) → (r ∈ m.lockSet t ↔ m.owner r = some t)) ∧
      ∀ t r, m.pc t = .returned r true → ∀ acts' m',
        Along step (fun m act => ¬ Unlocks t r m act) m acts' → run step m acts' = some m' →
          m'.owner r = some t ∧ ∀ u ≠ t, m'.pc u ≠ .returned r true := by
  have hex : Exclusive m := exclusive_of_run hrun
  refine ⟨?_, ?_⟩
  · intro t r hout
    refine hex.owns t r ?_
    intro he
    cases hpc : m.pc t with
    | erasing r' ids =>
        rw [hpc] at he
        obtain rfl : r' = r := Option.some.inj he
        exact hout ids hpc
    | _ => rw [hpc] at he; cases he
  · intro t r hpc acts' m' halong hrun'
    have hmem : r ∈ m.lockSet t := hex.got t r (by rw [hpc]; rfl)
    have hown : m.owner r = some t := (hex.owns t r (by rw [hpc]; exact fun hc => (by cases hc))).1 hmem
    obtain ⟨hex', hown'⟩ := run_invariant_along (I := fun m => Exclusive m ∧ m.owner r = some t)
      (fun s act s' hI hP hs => ⟨hI.1.step hs, hI.1.step_owner hs hP hI.2⟩) acts' m m' ⟨hex, hown⟩
      halong hrun'
    refine ⟨hown', fun u hut hu => ?_⟩
    have humem : r ∈ m'.lockSet u := hex'.got u r (by rw [hu]; rfl)
    have huown := (hex'.owns u r (by rw [hu]; exact fun hc => (by cases hc))).1 humem
    exact hut (Option.some.inj (huown.symm.trans hown'))

/-- Transaction 0 gets a record and transaction 1 goes to sleep on it. -/
theorem run_exclusive_two :
    ∃ m m', run step start [(0, .lockExclusiveOnRecord ⟨3, ⟨1, 0⟩⟩), (0, .next), (0, .next), (0, .next),
        (0, .next), (0, .next)] = some m ∧
      run step m [(1, .lockExclusiveOnRecord ⟨3, ⟨1, 0⟩⟩), (1, .next), (1, .next), (1, .next), (1, .next),
        (1, .next), (1, .next)] = some m' ∧
      m'.pc 1 = .asleep ⟨3, ⟨1, 0⟩⟩ ∧ m'.owner ⟨3, ⟨1, 0⟩⟩ = some 0 ∧
      ∀ u ≠ 0, m'.pc u ≠ .returned ⟨3, ⟨1, 0⟩⟩ true := by
  have hvals : (run step start [(0, .lockExclusiveOnRecord ⟨3, ⟨1, 0⟩⟩), (0, .next), (0, .next), (0, .next),
        (0, .next), (0, .next)]).map (fun m => (decide (m.pc 0 = .returned ⟨3, ⟨1, 0⟩⟩ true),
        (run step m [(1, .lockExclusiveOnRecord ⟨3, ⟨1, 0⟩⟩), (1, .next), (1, .next), (1, .next), (1, .next),
          (1, .next), (1, .next)]).map fun m' => m'.pc 1,
        decide (Along step (fun m act => ¬ Unlocks 0 ⟨3, ⟨1, 0⟩⟩ m act) m
          [(1, .lockExclusiveOnRecord ⟨3, ⟨1, 0⟩⟩), (1, .next), (1, .next), (1, .next), (1, .next),
            (1, .next), (1, .next)]))) = some (true, some (.asleep ⟨3, ⟨1, 0⟩⟩), true) := by
    decide +kernel
  obtain ⟨m, hrun, hm⟩ := Option.map_eq_some_iff.1 hvals
  obtain ⟨hgot, hm⟩ := Prod.mk.inj hm
  obtain ⟨hasleep, halong⟩ := Prod.mk.inj hm
  obtain ⟨m', hrun', hpc⟩ := Option.map_eq_some_iff.1 hasleep
  exact ⟨m, m', hrun, hrun', hpc,
    (run_exclusive _ hrun).2 0 _ (of_decide_eq_true hgot) _ m' (of_decide_eq_true halong) hrun'⟩

end Rmdb.Lock
