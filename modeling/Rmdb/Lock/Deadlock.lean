import Rmdb.Lock.Exclusive
import Rmdb.Lib.Chase

/-!
# Deadlocks and the wait-for graph

`waitsFor` is the wait as it is: a transaction waits for whoever owns its entry now.  The edge
in `wait_for_` is the owner at the time the wait began, and `unlock` hands the entry on without
touching the edges of those who wait for it.  A cycle is searched once, when its last wait
begins; it is found if the edges on it are those of the moment (`Careful`), and then no set
of transactions is left waiting for each other (`run_not_deadlocked`).  `deadlocked_handed_on`
is a run in which an edge was out of date.
-/

namespace Rmdb.Lock

open Rmdb.Txn (TxnId)
open Rmdb.Lib (run Along run_invariant_along chase Closed chase_or_closed chase_subset)

/-- The entry whose wait the thread is about to record. -/
def Pc.records : Pc → Option LockDataId
  | .recording r => some r
  | _ => none

/-- The id of the thread's transaction is in `waiting_txn_`. -/
def Pc.registered : Pc → Bool
  | .entering _ | .looping _ | .recording _ | .marking .. | .flagging .. | .checking _ | .testing _
  | .asleep _ | .woken _ | .unwaited _ | .failing _ | .granting _ => true
  | _ => false

/-- Whom the thread is about to flag. -/
def Pc.victim : Pc → Option TxnId
  | .marking _ v => some v
  | .flagging _ v => v
  | _ => none

namespace LockManager

variable (m : LockManager)

/-- The owner of the entry `t` waits on. -/
def waitsFor (t : TxnId) : Option TxnId := (m.pc t).waits.bind m.owner

/-- All of `S` sleep in `cv.wait` unflagged, each on an entry that one of `S` owns. -/
def Deadlocked (S : Set TxnId) : Prop :=
  S.Nonempty ∧ ∀ t ∈ S, ∃ r, m.pc t = .asleep r ∧ m.lockAbort t = false ∧ ∃ u ∈ S, m.owner r = some u

/-- Whom one meets from `u` on, going from each to the owner of the entry it waits on. -/
def waitChain (u : TxnId) : List TxnId := chase m.waitsFor m.waitFor.entries.length u

end LockManager

/-- If the wait that the step begins closes a cycle, someone on it is flagged already or the
edges recorded for the others are the owners of the moment. -/
def Careful (m : LockManager) (act : TxnId × Act) : Prop :=
  act.2 = .next → ∀ r ∈ (m.pc act.1).records, ∀ u ∈ m.owner r, act.1 ∈ m.waitChain u →
    (∃ v ∈ m.waitChain u, m.lockAbort v = true) ∨
      ∀ v ∈ m.waitChain u, v ≠ act.1 → m.waitFor.lookup v = m.waitsFor v

instance (m : LockManager) (act : TxnId × Act) : Decidable (Careful m act) :=
  inferInstanceAs (Decidable (_ → _))

/-! ## The search -/

theorem walk_mono {wf : WaitFor} {start v : TxnId} : ∀ {g g' : Nat} {cur y : TxnId}, g ≤ g' →
    walk wf start g cur y = some v → walk wf start g' cur y = some v := by
  intro g
  induction g with
  | zero => intro g' cur y _ h; cases h
  | succ g ih =>
      intro g' cur y hg h
      obtain ⟨g', rfl⟩ : ∃ k, g' = k + 1 := ⟨g' - 1, by omega⟩
      unfold walk at h ⊢
      split
      · next hs => rwa [if_pos hs] at h
      · next hs =>
          rw [if_neg hs] at h
          cases hl : wf.lookup cur with
          | none => simp [hl] at h
          | some nx =>
              simp only [hl] at h ⊢
              exact ih (by omega) h

/-- Where the edges are those of `next`, the search finds its start, and a victim on the way. -/
theorem walk_of_chase {wf : WaitFor} {next : TxnId → Option TxnId} {start : TxnId} :
    ∀ (n : Nat) (cur y : TxnId), (∀ v ∈ chase next n cur, v ≠ start → wf.lookup v = next v) →
      start ∈ chase next n cur →
      ∃ v, walk wf start (n + 1) cur y = some v ∧ (v = y ∨ v ∈ chase next n cur) := by
  intro n
  induction n with
  | zero =>
      intro cur y _ hmem
      obtain rfl : start = cur := List.mem_singleton.1 hmem
      refine ⟨y, ?_, .inl rfl⟩
      unfold walk
      rw [if_pos rfl]
  | succ n ih =>
      intro cur y hl hmem
      by_cases hs : cur = start
      · refine ⟨y, ?_, .inl rfl⟩
        unfold walk
        rw [if_pos hs]
      · unfold chase at hl hmem ⊢
        have hcur := hl cur List.mem_cons_self hs
        cases hn : next cur with
        | none =>
            simp only [hn, List.mem_singleton] at hmem
            exact absurd hmem.symm hs
        | some d =>
            simp only [hn] at hl hmem ⊢
            rw [hn] at hcur
            have hmem' := (List.mem_cons.1 hmem).resolve_left fun h => hs h.symm
            obtain ⟨v, hv, hin⟩ := ih d (max y cur) (fun v hv => hl v (List.mem_cons_of_mem _ hv)) hmem'
            refine ⟨v, ?_, ?_⟩
            · unfold walk
              rw [if_neg hs]
              simp only [hcur]
              exact hv
            · rcases hin with rfl | hin
              · rcases max_choice y cur with h | h
                · exact .inl h
                · exact .inr (by rw [h]; exact List.mem_cons_self)
              · exact .inr (List.mem_cons_of_mem _ hin)

/-! ## Steps -/

/-- What a step of `me` to `p` may do to the waits, the recording of an edge apart. -/
inductive WaitStep (me : TxnId) (m m' : LockManager) (p : Pc) : Prop
  | leave (hp : p.waits = none) (hvictim : (m.pc me).victim = none)
      (howner : ∀ r, m'.owner r = m.owner r ∨ m'.owner r = none ∨ m'.owner r = some me)
      (hedge : ∀ t ≠ me, t ∈ m.waitFor → t ∈ m'.waitFor)
      (hknown : ∀ t ≠ me, m.waitingTxn t = true → m'.waitingTxn t = true)
      (hflag : ∀ t ≠ me, m.lockAbort t = true → m'.lockAbort t = true)
      (hreg : p.registered = true → m'.waitingTxn me = true ∨
        (m.pc me).registered = true ∧ m'.waitingTxn me = m.waitingTxn me)
  | stay (hp : p.waits = (m.pc me).waits) (howner : m'.owner = m.owner) (hedge : m'.waitFor = m.waitFor)
      (hknown : m'.waitingTxn = m.waitingTxn)
      (hflag : ∀ t, m.lockAbort t = true → m'.lockAbort t = true)
      (hvictim : ∀ v, (m.pc me).victim = some v → m.waitingTxn v = true →
        p.victim = some v ∨ m'.lockAbort v = true)
      (hreg : p.registered = true → (m.pc me).registered = true)

variable {m m' : LockManager} {me : TxnId} {r : LockDataId} {p : Pc}

/-- A step that only moves its thread, which waits neither before nor after or goes on waiting. -/
theorem WaitStep.goto (hp : p.waits = none ∨ p.waits = (m.pc me).waits) (hv : (m.pc me).victim = none)
    (hr : p.registered = true → (m.pc me).registered = true) : WaitStep me m (m.goto me p) p := by
  rcases hp with hp | hp
  · exact .leave hp hv (fun r => .inl rfl) (fun _ _ h => h) (fun _ _ h => h) (fun _ _ h => h)
      (fun h => .inr ⟨hr h, rfl⟩)
  · refine .stay hp rfl rfl rfl (fun _ h => h) ?_ hr
    intro v h
    rw [hv] at h
    cases h

namespace LockManager

theorem clearLockAbort_of_ne {t : TxnId} (ht : t ≠ me) : (m.clearLockAbort me).lockAbort t = m.lockAbort t :=
  Function.update_of_ne ht ..

theorem clearWfgState_waitStep (hp : p.waits = none) (hv : (m.pc me).victim = none)
    (hr : p.registered = false) : WaitStep me m ((m.clearWfgState me).goto me p) p := by
  refine .leave hp hv (fun r => .inl rfl) (fun t ht h => AList.mem_erase.2 ⟨ht, h⟩) ?_ (fun _ _ h => h)
    (fun h => by rw [hr] at h; cases h)
  intro t ht h
  show Function.update m.waitingTxn me false t = true
  rwa [Function.update_of_ne ht]

theorem flagAt_waitStep {v : Option TxnId} (hpc : m.pc me = .flagging r v) :
    WaitStep me m ((m.flagAt v).goto me (.checking r)) (.checking r) := by
  cases v with
  | none =>
      refine .goto (.inr ?_) ?_ (fun _ => ?_)
      · rw [hpc]; rfl
      · rw [hpc]; rfl
      · rw [hpc]; rfl
  | some v =>
      refine .stay (by rw [hpc]; rfl) rfl rfl rfl ?_ ?_ (fun _ => by rw [hpc]; rfl)
      · intro t ht
        show Function.update m.lockAbort v true t = true
        by_cases htv : t = v
        · rw [htv, Function.update_self]
        · rwa [Function.update_of_ne htv]
      · intro v' hv' _
        rw [hpc] at hv'
        obtain rfl : v = v' := Option.some.inj hv'
        exact .inr (Function.update_self ..)

theorem release_owner (r' : LockDataId) :
    (m.release me r).owner r' = m.owner r' ∨ (m.release me r).owner r' = none := by
  unfold release
  split
  · by_cases hr : r' = r
    · subst hr
      exact .inr (Function.update_self ..)
    · exact .inl (Function.update_of_ne hr ..)
  · exact .inl rfl

theorem release_waits (m : LockManager) (me : TxnId) (r : LockDataId) : (m.release me r).waitFor = m.waitFor ∧
    (m.release me r).waitingTxn = m.waitingTxn ∧ (m.release me r).lockAbort = m.lockAbort := by
  unfold release
  split <;> exact ⟨rfl, rfl, rfl⟩

theorem grant_waitStep (hv : (m.pc me).victim = none) :
    WaitStep me m ((((m.clearLockAbort me).grant me r).unlockMtx r).goto me (.returned r true))
      (.returned r true) := by
  refine .leave rfl hv ?_ (fun _ _ h => h) (fun _ _ h => h) ?_ (fun h => (by cases h))
  · intro r'
    show Function.update m.owner r (some me) r' = m.owner r' ∨ Function.update m.owner r (some me) r' = none ∨
      Function.update m.owner r (some me) r' = some me
    by_cases hr : r' = r
    · subst hr
      exact .inr (.inr (Function.update_self ..))
    · exact .inl (Function.update_of_ne hr ..)
  · intro t ht h
    show (m.clearLockAbort me).lockAbort t = true
    rwa [clearLockAbort_of_ne ht]

theorem next_waitStep (h : m.next me = some m') (hrec : (m.pc me).records = none) :
    ∃ p, m'.pc = Function.update m.pc me p ∧ WaitStep me m m' p := by
  unfold next at h
  split at h
  · cases h
  · cases h
  · next r hpc =>
      cases h
      refine ⟨_, rfl, .leave rfl (by rw [hpc]; rfl) (fun r => .inl rfl) (fun _ _ h => h) ?_ (fun _ _ h => h)
        (fun _ => .inl (Function.update_self ..))⟩
      intro t ht h
      show Function.update m.waitingTxn me true t = true
      rwa [Function.update_of_ne ht]
  · next r hpc =>
      obtain ⟨-, h⟩ := Option.ite_none_right_eq_some.1 h
      cases h
      exact ⟨_, rfl, .leave rfl (by rw [hpc]; rfl) (fun r => .inl rfl) (fun _ _ h => h) (fun _ _ h => h)
        (fun _ _ h => h) (fun _ => .inr ⟨by rw [hpc]; rfl, rfl⟩)⟩
  · next r hpc =>
      have hgo : ∀ p : Pc, p.waits = none → WaitStep me m (m.goto me p) p := fun p hp =>
        .goto (.inl hp) (by rw [hpc]; rfl) (fun _ => by rw [hpc]; rfl)
      split at h
      · cases h
        exact ⟨_, rfl, hgo _ rfl⟩
      · split at h
        · cases h
          exact ⟨_, rfl, hgo _ rfl⟩
        · cases h
          exact ⟨_, rfl, hgo _ rfl⟩
  · next r hpc =>
      rw [hpc] at hrec
      cases hrec
  · next r victim hpc =>
      cases h
      refine ⟨_, rfl, .stay (by rw [hpc]; rfl) rfl rfl rfl (fun _ h => h) ?_ (fun _ => by rw [hpc]; rfl)⟩
      intro v hv hknown
      rw [hpc] at hv
      obtain rfl : victim = v := Option.some.inj hv
      left
      show (if m.waitingTxn victim = true then some victim else none) = some victim
      rw [if_pos hknown]
  · next r victim hpc =>
      cases h
      exact ⟨_, congrArg (Function.update · me _) (flagAt_fields victim).2.2.2, flagAt_waitStep hpc⟩
  · next r hpc =>
      split at h
      · cases h
        exact ⟨_, rfl, .goto (.inl rfl) (by rw [hpc]; rfl) (fun _ => by rw [hpc]; rfl)⟩
      · cases h
        refine ⟨_, rfl, .goto (.inr ?_) ?_ (fun _ => ?_)⟩
        · rw [hpc]; rfl
        · rw [hpc]; rfl
        · rw [hpc]; rfl
  · next r hpc =>
      split at h
      · cases h
        exact ⟨_, rfl, .goto (.inl rfl) (by rw [hpc]; rfl) (fun _ => by rw [hpc]; rfl)⟩
      · cases h
        refine ⟨_, rfl, .stay (by rw [hpc]; rfl) rfl rfl rfl (fun _ h => h) ?_ (fun _ => by rw [hpc]; rfl)⟩
        intro v hv
        rw [hpc] at hv
        cases hv
  · next r hpc =>
      obtain ⟨-, h⟩ := Option.ite_none_right_eq_some.1 h
      cases h
      exact ⟨_, rfl, .leave rfl (by rw [hpc]; rfl) (fun r => .inl rfl) (fun _ _ h => h) (fun _ _ h => h)
        (fun _ _ h => h) (fun _ => .inr ⟨by rw [hpc]; rfl, rfl⟩)⟩
  · next r hpc =>
      cases h
      exact ⟨_, rfl, .leave rfl (by rw [hpc]; rfl) (fun r => .inl rfl)
        (fun t ht h => AList.mem_erase.2 ⟨ht, h⟩) (fun _ _ h => h) (fun _ _ h => h)
        (fun _ => .inr ⟨by rw [hpc]; rfl, rfl⟩)⟩
  · next r hpc =>
      split at h
      · cases h
        exact ⟨_, rfl, .goto (.inl rfl) (by rw [hpc]; rfl) (fun _ => by rw [hpc]; rfl)⟩
      · cases h
        exact ⟨_, rfl, .goto (.inl rfl) (by rw [hpc]; rfl) (fun _ => by rw [hpc]; rfl)⟩
  · next r hpc =>
      cases h
      exact ⟨_, rfl, clearWfgState_waitStep rfl (by rw [hpc]; rfl) rfl⟩
  · next r hpc =>
      cases h
      refine ⟨_, rfl, .leave rfl (by rw [hpc]; rfl) (fun r => .inl rfl) (fun _ _ h => h) (fun _ _ h => h) ?_
        (fun h => (by cases h))⟩
      intro t ht h
      show (m.clearLockAbort me).lockAbort t = true
      rwa [clearLockAbort_of_ne ht]
  · next r hpc =>
      cases h
      exact ⟨_, rfl, clearWfgState_waitStep rfl (by rw [hpc]; rfl) rfl⟩
  · next r hpc =>
      cases h
      exact ⟨_, rfl, grant_waitStep (by rw [hpc]; rfl)⟩
  · next ids hpc =>
      cases h
      exact ⟨_, rfl, clearWfgState_waitStep rfl (by rw [hpc]; rfl) rfl⟩
  · next hpc =>
      cases h
      exact ⟨_, rfl, .goto (.inl rfl) (by rw [hpc]; rfl) (fun h => (by cases h))⟩
  · next r ids hpc =>
      split at h
      · cases h
        exact ⟨_, rfl, .goto (.inl rfl) (by rw [hpc]; rfl) (fun h => (by cases h))⟩
      · obtain ⟨-, h⟩ := Option.ite_none_right_eq_some.1 h
        cases h
        obtain ⟨hw, hk, hf⟩ := release_waits m me r
        refine ⟨_, congrArg (Function.update · me _) (release_fields m me r).2.2.1,
          .leave rfl (by rw [hpc]; rfl) ?_ ?_ ?_ ?_ (fun h => (by cases h))⟩
        · intro r'
          exact (release_owner r').imp_right .inl
        · intro t _ h
          exact hw ▸ h
        · intro t _ h
          exact hk ▸ h
        · intro t _ h
          exact hf ▸ h
  · next r ids hpc =>
      cases h
      exact ⟨_, rfl, .leave rfl (by rw [hpc]; rfl) (fun r => .inl rfl) (fun _ _ h => h) (fun _ _ h => h)
        (fun _ _ h => h) (fun h => (by cases h))⟩

end LockManager

theorem step_waitStep {a : Act} (h : step m (me, a) = some m') (hrec : a = .next → (m.pc me).records = none) :
    ∃ p, m'.pc = Function.update m.pc me p ∧ WaitStep me m m' p := by
  have hout : (m.pc me).outside = true → (m.pc me).victim = none := by
    cases m.pc me <;> simp [Pc.outside, Pc.victim]
  have hclear : ∀ p : Pc, p.waits = none → (m.pc me).victim = none → p.registered = false →
      WaitStep me m ((m.clearLockAbort me).goto me p) p := by
    intro p hp hv hr
    refine .leave hp hv (fun r => .inl rfl) (fun _ _ h => h) (fun _ _ h => h) ?_
      (fun h => by rw [hr] at h; cases h)
    intro t ht h
    show (m.clearLockAbort me).lockAbort t = true
    rwa [LockManager.clearLockAbort_of_ne ht]
  unfold step at h
  cases a with
  | next => exact LockManager.next_waitStep h (hrec rfl)
  | lockExclusiveOnRecord r =>
      obtain ⟨ho, h⟩ := Option.ite_none_right_eq_some.1 h
      split at h
      · cases h
        exact ⟨_, rfl, .goto (.inl rfl) (hout ho) (fun h => (by cases h))⟩
      · cases h
        exact ⟨_, rfl, hclear _ rfl (hout ho) rfl⟩
  | unlock r =>
      obtain ⟨ho, h⟩ := Option.ite_none_right_eq_some.1 h
      cases h
      exact ⟨_, rfl, .goto (.inl rfl) (hout ho) (fun h => (by cases h))⟩
  | unlockAll ids =>
      obtain ⟨⟨ho, -⟩, h⟩ := Option.ite_none_right_eq_some.1 h
      cases h
      exact ⟨_, rfl, hclear _ rfl (hout ho) rfl⟩

/-! ## The invariant -/

/-- Whoever waits has its edge recorded and can be found, and in every set of transactions
that wait for each other someone is flagged, or about to be by one of them. -/
structure Resolved (m : LockManager) : Prop where
  edge : ∀ t r, (m.pc t).waits = some r → t ∈ m.waitFor
  known : ∀ t, (m.pc t).registered = true → m.waitingTxn t = true
  chosen : ∀ S : Set TxnId, S.Nonempty → Closed m.waitsFor S →
    ∃ v ∈ S, m.lockAbort v = true ∨ ∃ w ∈ S, (m.pc w).victim = some v

theorem Resolved.start : Resolved start where
  edge := fun _ _ h => (by cases h)
  known := fun _ h => (by cases h)
  chosen := by
    rintro S ⟨t, ht⟩ hS
    obtain ⟨u, -, hu⟩ := hS t ht
    cases hu

theorem Pc.registered_of_waits (h : p.waits = some r) : p.registered = true := by
  cases p <;> simp_all [Pc.waits, Pc.registered]

theorem LockManager.waitsFor_eq_some {t u : TxnId} (h : m.waitsFor t = some u) :
    ∃ r, (m.pc t).waits = some r ∧ m.owner r = some u := by
  obtain ⟨r, hr, hu⟩ := Option.bind_eq_some_iff.1 h
  exact ⟨r, hr, hu⟩

/-- The waits of those who do not move and wait for others than `me` were there before. -/
theorem WaitStep.closed (hpc : m'.pc = Function.update m.pc me p) (hs : WaitStep me m m' p)
    (hp : p.waits = none) {S : Set TxnId} (hS : Closed m'.waitsFor S) : me ∉ S ∧ Closed m.waitsFor S := by
  have hme : me ∉ S := by
    intro hme
    obtain ⟨u, -, hu⟩ := hS me hme
    obtain ⟨r, hr, -⟩ := LockManager.waitsFor_eq_some hu
    rw [hpc, Function.update_self, hp] at hr
    cases hr
  refine ⟨hme, fun t ht => ?_⟩
  obtain ⟨u, hu, htu⟩ := hS t ht
  refine ⟨u, hu, ?_⟩
  obtain ⟨r, hr, hown⟩ := LockManager.waitsFor_eq_some htu
  have htm : t ≠ me := fun h => hme (h ▸ ht)
  rw [hpc, Function.update_of_ne htm] at hr
  have howner : m.owner r = some u := by
    cases hs with
    | leave hp hvictim howner =>
        rcases howner r with h | h | h
        · exact h ▸ hown
        · rw [h] at hown
          cases hown
        · rw [h] at hown
          cases hown
          exact absurd hu hme
    | stay hp' howner => exact howner ▸ hown
  unfold LockManager.waitsFor
  rw [hr]
  exact howner

theorem Resolved.waitStep (h : Resolved m) (hpc : m'.pc = Function.update m.pc me p)
    (hs : WaitStep me m m' p) : Resolved m' := by
  cases hs with
  | leave hp hvictim howner hedge hknown hflag hreg =>
      have hne : ∀ t r, (m'.pc t).waits = some r → t ≠ me ∧ (m.pc t).waits = some r := by
        intro t r ht
        have htm : t ≠ me := by
          rintro rfl
          rw [hpc, Function.update_self, hp] at ht
          cases ht
        rw [hpc, Function.update_of_ne htm] at ht
        exact ⟨htm, ht⟩
      refine ⟨?_, ?_, ?_⟩
      · intro t r ht
        obtain ⟨htm, ht⟩ := hne t r ht
        exact hedge t htm (h.edge t r ht)
      · intro t ht
        rw [hpc] at ht
        by_cases htm : t = me
        · subst htm
          rw [Function.update_self] at ht
          rcases hreg ht with hr | ⟨hr, hsame⟩
          · exact hr
          · rw [hsame]
            exact h.known t hr
        · rw [Function.update_of_ne htm] at ht
          exact hknown t htm (h.known t ht)
      · intro S hne hS
        obtain ⟨hme, hold⟩ :=
          WaitStep.closed hpc (.leave hp hvictim howner hedge hknown hflag hreg) hp hS
        obtain ⟨v, hv, hvf⟩ := h.chosen S hne hold
        have hvm : v ≠ me := fun heq => hme (heq ▸ hv)
        refine ⟨v, hv, ?_⟩
        rcases hvf with hvf | ⟨w, hwS, hw⟩
        · exact .inl (hflag v hvm hvf)
        · have hwm : w ≠ me := by
            rintro rfl
            rw [hvictim] at hw
            cases hw
          right
          refine ⟨w, hwS, ?_⟩
          rw [hpc, Function.update_of_ne hwm]
          exact hw
  | stay hp howner hedge hknown hflag hvictim hreg =>
      have hwaits : ∀ t, (m'.pc t).waits = (m.pc t).waits := by
        intro t
        rw [hpc]
        by_cases htm : t = me
        · rw [htm, Function.update_self, hp]
        · rw [Function.update_of_ne htm]
      have hfor : m'.waitsFor = m.waitsFor := by
        funext t
        unfold LockManager.waitsFor
        rw [hwaits, howner]
      refine ⟨?_, ?_, ?_⟩
      · intro t r ht
        rw [hedge]
        exact h.edge t r (hwaits t ▸ ht)
      · intro t ht
        rw [hknown]
        refine h.known t ?_
        rw [hpc] at ht
        by_cases htm : t = me
        · subst htm
          rw [Function.update_self] at ht
          exact hreg ht
        · rwa [Function.update_of_ne htm] at ht
      · intro S hne hS
        rw [hfor] at hS
        obtain ⟨v, hv, hvf⟩ := h.chosen S hne hS
        refine ⟨v, hv, ?_⟩
        rcases hvf with hvf | ⟨w, hwS, hw⟩
        · exact .inl (hflag v hvf)
        · by_cases hwm : w = me
          · subst hwm
            obtain ⟨u, -, hu⟩ := hS v hv
            obtain ⟨r, hr, -⟩ := LockManager.waitsFor_eq_some hu
            rcases hvictim v hw (h.known v (Pc.registered_of_waits hr)) with hp | hf
            · right
              refine ⟨w, hwS, ?_⟩
              rw [hpc, Function.update_self]
              exact hp
            · exact .inl hf
          · right
            refine ⟨w, hwS, ?_⟩
            rw [hpc, Function.update_of_ne hwm]
            exact hw

/-! ## Recording an edge -/

/-- A set that the recorded wait of `me` for `u` closes: someone in it is flagged, or about to
be by another of it, or the search finds a victim in it. -/
theorem Resolved.found (h : Resolved m) (hpc : m.pc me = .recording r) {u : TxnId}
    (hown : m.owner r = some u) (hcare : Careful m (me, .next)) {S : Set TxnId} (hu : u ∈ S)
    (hS : ∀ t ∈ S, t ≠ me → ∃ w ∈ S, m.waitsFor t = some w) :
    (∃ v ∈ S, m.lockAbort v = true ∨ ∃ w ∈ S, (m.pc w).victim = some v) ∨
      ∃ v, detectDeadlockVictim (m.waitFor.insert me u) me = some v ∧ (v = me ∨ v ∈ S) := by
  have hnone : m.waitsFor me = none := by
    unfold LockManager.waitsFor
    rw [hpc]
    rfl
  have hkeys : ∀ t ∈ S, t ≠ me → t ∈ m.waitFor.keys.toFinset := by
    intro t ht htm
    obtain ⟨w, -, hw⟩ := hS t ht htm
    obtain ⟨r', hr', -⟩ := LockManager.waitsFor_eq_some hw
    exact List.mem_toFinset.2 (AList.mem_keys.1 (h.edge t r' hr'))
  have hcard : m.waitFor.keys.toFinset.card = m.waitFor.entries.length := by
    rw [List.toFinset_card_of_nodup m.waitFor.keys_nodup]
    exact List.length_map ..
  rcases chase_or_closed hS hu hkeys with hmem | ⟨S', hsub, hne, -, hclosed⟩
  · rw [hcard] at hmem
    have hsub := chase_subset hS hnone m.waitFor.entries.length u hu
    rcases hcare rfl r (by rw [hpc]; rfl) u hown hmem with ⟨v, hv, hvf⟩ | hcur
    · exact .inl ⟨v, hsub v hv, .inl hvf⟩
    · right
      have hlook : ∀ v ∈ chase m.waitsFor m.waitFor.entries.length u, v ≠ me →
          (m.waitFor.insert me u).lookup v = m.waitsFor v := by
        intro v hv hvm
        rw [AList.lookup_insert_ne hvm]
        exact hcur v hv hvm
      obtain ⟨v, hwalk, hv⟩ := walk_of_chase _ u me hlook hmem
      refine ⟨v, ?_, hv.imp_right (hsub v)⟩
      unfold detectDeadlockVictim
      rw [AList.lookup_insert, Option.bind_some]
      refine walk_mono ?_ hwalk
      have hlen : (m.waitFor.insert me u).keys.length = (m.waitFor.keys.erase me).length + 1 := by
        rw [AList.keys_insert, List.length_cons]
      have hle : m.waitFor.keys.length ≤ (m.waitFor.keys.erase me).length + 1 := by
        by_cases hm : me ∈ m.waitFor.keys
        · rw [List.length_erase_of_mem hm]
          omega
        · rw [List.erase_of_not_mem hm]
          omega
      have h1 : (m.waitFor.insert me u).keys.length = (m.waitFor.insert me u).entries.length :=
        List.length_map ..
      have h2 : m.waitFor.keys.length = m.waitFor.entries.length := List.length_map ..
      omega
  · obtain ⟨v, hv, hvf⟩ := h.chosen S' hne hclosed
    exact .inl ⟨v, hsub hv, hvf.imp_right fun ⟨w, hw, hwv⟩ => ⟨w, hsub hw, hwv⟩⟩

theorem Resolved.recordWait (h : Resolved m) (hpc : m.pc me = .recording r) {u : TxnId}
    (hown : m.owner r = some u) (hcare : Careful m (me, .next)) : Resolved (m.recordWait me r u) := by
  have hknown : m.waitingTxn me = true := h.known me (by rw [hpc]; rfl)
  -- what a thread that goes on waiting leaves, at either of the two points it may go to
  have hgo : ∀ p : Pc, p.waits = some r → p.victim = detectDeadlockVictim (m.waitFor.insert me u) me →
      p.victim ≠ some me → Resolved ((m.addWait me r u).goto me p) := by
    intro p hp hfind hvm
    have hpc' : ((m.addWait me r u).goto me p).pc = Function.update m.pc me p := rfl
    have hwaits : ∀ t ≠ me, ((m.addWait me r u).goto me p).waitsFor t = m.waitsFor t := by
      intro t htm
      unfold LockManager.waitsFor
      rw [hpc', Function.update_of_ne htm]
      rfl
    have hwme : ((m.addWait me r u).goto me p).waitsFor me = some u := by
      unfold LockManager.waitsFor
      rw [hpc', Function.update_self, hp]
      exact hown
    have hvictim : ∀ (S : Set TxnId) v, (∃ w ∈ S, (m.pc w).victim = some v) →
        ∃ w ∈ S, (((m.addWait me r u).goto me p).pc w).victim = some v := by
      rintro S v ⟨w, hwS, hw⟩
      have hwm : w ≠ me := by
        rintro rfl
        rw [hpc] at hw
        cases hw
      refine ⟨w, hwS, ?_⟩
      rw [hpc', Function.update_of_ne hwm]
      exact hw
    refine ⟨?_, ?_, ?_⟩
    · intro t r' ht
      refine (AList.mem_insert m.waitFor).2 ?_
      by_cases htm : t = me
      · exact .inl htm
      · rw [hpc', Function.update_of_ne htm] at ht
        exact .inr (h.edge t r' ht)
    · intro t ht
      by_cases htm : t = me
      · rw [htm]
        exact hknown
      · rw [hpc', Function.update_of_ne htm] at ht
        exact h.known t ht
    · intro S hne hS
      by_cases hme : me ∈ S
      · have hS' : ∀ t ∈ S, t ≠ me → ∃ w ∈ S, m.waitsFor t = some w := by
          intro t ht htm
          obtain ⟨w, hw, htw⟩ := hS t ht
          exact ⟨w, hw, (hwaits t htm).symm.trans htw⟩
        have hu : u ∈ S := by
          obtain ⟨w, hw, hmw⟩ := hS me hme
          exact Option.some.inj (hmw.symm.trans hwme) ▸ hw
        rcases h.found hpc hown hcare hu hS' with ⟨v, hv, hvf⟩ | ⟨v, hfound, hv⟩
        · exact ⟨v, hv, hvf.imp_right (hvictim S v)⟩
        · have hvS : v ∈ S := hv.resolve_left fun heq => hvm (by rw [hfind, hfound, heq])
          refine ⟨v, hvS, .inr ⟨me, hme, ?_⟩⟩
          rw [hpc', Function.update_self, hfind, hfound]
      · obtain ⟨v, hv, hvf⟩ := h.chosen S hne fun t ht => by
          obtain ⟨w, hw, htw⟩ := hS t ht
          exact ⟨w, hw, (hwaits t fun heq => hme (heq ▸ ht)).symm.trans htw⟩
        exact ⟨v, hv, hvf.imp_right (hvictim S v)⟩
  cases hd : detectDeadlockVictim (m.waitFor.insert me u) me with
  | none =>
      rw [LockManager.recordWait_none hd]
      exact hgo (.checking r) rfl hd.symm (fun hc => (by cases hc))
  | some v =>
      by_cases hv : v = me
      · subst hv
        rw [LockManager.recordWait_self hd]
        refine h.waitStep (p := .returned r false) rfl
          (.leave rfl (by rw [hpc]; rfl) (fun r => .inl rfl) ?_ (fun _ _ h => h) ?_ (fun h => (by cases h)))
        · intro t ht hin
          exact AList.mem_erase.2 ⟨ht, (AList.mem_insert m.waitFor).2 (.inr hin)⟩
        · intro t ht hf
          show (m.clearLockAbort v).lockAbort t = true
          rwa [LockManager.clearLockAbort_of_ne ht]
      · rw [LockManager.recordWait_other hd hv]
        exact hgo (.marking r v) rfl hd.symm fun hc => hv (Option.some.inj hc)

theorem Resolved.step {act : TxnId × Act} (h : Resolved m) (hcare : Careful m act)
    (hstep : step m act = some m') : Resolved m' := by
  obtain ⟨me, a⟩ := act
  by_cases hrec : a = .next → (m.pc me).records = none
  · obtain ⟨p, hpc, hs⟩ := step_waitStep hstep hrec
    exact h.waitStep hpc hs
  · obtain rfl : a = .next := by
      by_contra ha
      exact hrec fun h => absurd h ha
    cases hpc : m.pc me with
    | recording r =>
        have hnext : (m.owner r).map (fun u => m.recordWait me r u) = some m' := by
          have : m.next me = some m' := hstep
          unfold LockManager.next at this
          simpa only [hpc] using this
        obtain ⟨u, hu, rfl⟩ := Option.map_eq_some_iff.1 hnext
        exact h.recordWait hpc hu hcare
    | _ => rw [hpc] at hrec; exact absurd (fun _ => rfl) hrec

/-- In a set of sleepers that wait for each other nobody is about to flag another. -/
theorem Resolved.not_deadlocked (h : Resolved m) (S : Set TxnId) : ¬ m.Deadlocked S := by
  rintro ⟨hne, hS⟩
  have hclosed : Closed m.waitsFor S := by
    intro t ht
    obtain ⟨r, hpc, -, u, hu, hown⟩ := hS t ht
    refine ⟨u, hu, ?_⟩
    unfold LockManager.waitsFor
    rw [hpc]
    exact hown
  obtain ⟨v, hv, hvf | ⟨w, hw, hwv⟩⟩ := h.chosen S hne hclosed
  · obtain ⟨r, -, hflag, -⟩ := hS v hv
    rw [hflag] at hvf
    cases hvf
  · obtain ⟨r, hpc, -⟩ := hS w hw
    rw [hpc] at hwv
    cases hwv

/-- In a run in which every wait that closes a cycle finds the edges of the moment, no
transactions are ever left asleep on each other. -/
theorem run_not_deadlocked (acts : List (TxnId × Act)) (hcare : Along step Careful start acts)
    (hrun : run step start acts = some m) (S : Set TxnId) : ¬ m.Deadlocked S :=
  (run_invariant_along (fun _ _ _ h hP hs => Resolved.step h hP hs) acts start m Resolved.start hcare
    hrun).not_deadlocked S

/-! ## Two runs -/

/-- A call of `lock_exclusive_on_record` with `n` steps of its thread. -/
def lockCall (t : TxnId) (r : LockDataId) (n : Nat) : List (TxnId × Act) :=
  (t, .lockExclusiveOnRecord r) :: List.replicate n (t, .next)

/-- 0 sleeps on a record of 1, and 1 gives up when it asks for one of 0. -/
def crossed : List (TxnId × Act) :=
  lockCall 0 ⟨3, ⟨1, 0⟩⟩ 5 ++ lockCall 1 ⟨3, ⟨1, 1⟩⟩ 5 ++ lockCall 0 ⟨3, ⟨1, 1⟩⟩ 6 ++
    lockCall 1 ⟨3, ⟨1, 0⟩⟩ 4

theorem run_not_deadlocked_crossed : ∃ m, run step start crossed = some m ∧
    m.pc 0 = .asleep ⟨3, ⟨1, 1⟩⟩ ∧ m.pc 1 = .returned ⟨3, ⟨1, 0⟩⟩ false ∧
    ¬ m.Deadlocked {0, 1} := by
  have hvals : (run step start crossed).map (fun m => (m.pc 0, m.pc 1)) =
      some (.asleep ⟨3, ⟨1, 1⟩⟩, .returned ⟨3, ⟨1, 0⟩⟩ false) := by
    decide +kernel
  obtain ⟨m, hrun, hm⟩ := Option.map_eq_some_iff.1 hvals
  obtain ⟨h0, h1⟩ := Prod.mk.inj hm
  exact ⟨m, hrun, h0, h1, run_not_deadlocked crossed (by decide +kernel) hrun {0, 1}⟩

/-- 1 sleeps on a record of 0, which hands it on to 2, which then asks for a record of 1: the
edge of 1 still leads to 0. -/
def handedOn : List (TxnId × Act) :=
  lockCall 0 ⟨3, ⟨1, 0⟩⟩ 5 ++ lockCall 1 ⟨3, ⟨1, 1⟩⟩ 5 ++ lockCall 1 ⟨3, ⟨1, 0⟩⟩ 6 ++
    [(0, .unlock ⟨3, ⟨1, 0⟩⟩), (0, .next), (0, .next), (0, .next)] ++
    lockCall 2 ⟨3, ⟨1, 0⟩⟩ 5 ++ lockCall 2 ⟨3, ⟨1, 1⟩⟩ 6

theorem deadlocked_handed_on :
    ¬ ∀ acts m, run step start acts = some m → ∀ S, ¬ m.Deadlocked S := by
  intro hall
  have hvals : (run step start handedOn).map (fun m =>
      ([m.pc 1, m.pc 2], [m.lockAbort 1, m.lockAbort 2], [m.owner ⟨3, ⟨1, 0⟩⟩, m.owner ⟨3, ⟨1, 1⟩⟩])) =
      some ([.asleep ⟨3, ⟨1, 0⟩⟩, .asleep ⟨3, ⟨1, 1⟩⟩], [false, false], [some 2, some 1]) := by
    decide +kernel
  obtain ⟨m, hrun, hm⟩ := Option.map_eq_some_iff.1 hvals
  simp only [Prod.mk.injEq, List.cons.injEq, and_true] at hm
  obtain ⟨⟨hpc1, hpc2⟩, ⟨hf1, hf2⟩, hown2, hown1⟩ := hm
  refine hall handedOn m hrun {1, 2} ⟨⟨1, .inl rfl⟩, ?_⟩
  rintro t (rfl | rfl)
  · exact ⟨_, hpc1, hf1, 2, .inr rfl, hown2⟩
  · exact ⟨_, hpc2, hf2, 1, .inl rfl, hown1⟩

end Rmdb.Lock
