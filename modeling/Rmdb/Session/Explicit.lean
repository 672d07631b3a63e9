import Rmdb.Session.Handlers

/-!
# The count of explicit transactions

`active_explicit_count_` exceeds the number of live explicit transactions by the number of
`BEGIN`s met inside an explicit transaction (`step_excess`): `BEGIN` raises the count again for
a transaction that is counted already, and its end lowers it once.  So the two agree in a run
exactly when no `BEGIN` of the run is nested (`run_activeExplicitCount_iff`).
-/

namespace Rmdb.Session

open Rmdb.Txn (TxnId IsolationLevel TransactionState)

namespace Server

/-- The live transactions whose `txn_mode` is set. -/
def liveExplicit (s : Server) : Nat := ((Finset.range s.nextTxnId).filter fun t => s.isExplicit t).card

/-- The count is `n` above the number of live explicit transactions. -/
structure Excess (n : Nat) (s : Server) : Prop where
  count : s.activeExplicitCount = s.liveExplicit + n
  fresh : ∀ t, s.nextTxnId ≤ t → s.txnMap t = none

variable {s : Server} {n : Nat} {t : TxnId} {c : ConnId} {conn : Conn} {x : Transaction}

theorem Excess.lt (h : Excess n s) (hx : s.txnMap t = some x) : t < s.nextTxnId := by
  by_contra hlt
  have hnone := h.fresh t (not_lt.1 hlt)
  rw [hx] at hnone
  cases hnone

theorem isExplicit_update_self (o : Option Transaction) :
    isExplicit { s with txnMap := Function.update s.txnMap t o } t = o.any fun x => x.txnMode && x.live := by
  show (Function.update s.txnMap t o t).any _ = _
  rw [Function.update_self]

theorem isExplicit_update_of_ne {u : TxnId} (hu : u ≠ t) (o : Option Transaction) :
    isExplicit { s with txnMap := Function.update s.txnMap t o } u = s.isExplicit u := by
  show (Function.update s.txnMap t o u).any _ = _
  rw [Function.update_of_ne hu]
  rfl

/-- A change of one entry of `txn_map` counts or discounts that entry only. -/
theorem liveExplicit_update (ht : t < s.nextTxnId) (o : Option Transaction) :
    liveExplicit { s with txnMap := Function.update s.txnMap t o } + (if s.isExplicit t then 1 else 0) =
      s.liveExplicit + (if o.any fun x => x.txnMode && x.live then 1 else 0) := by
  have hmem : t ∈ Finset.range s.nextTxnId := Finset.mem_range.2 ht
  unfold liveExplicit
  rw [Finset.card_filter, Finset.card_filter, ← Finset.add_sum_erase _ _ hmem,
    ← Finset.add_sum_erase (Finset.range s.nextTxnId) (fun u => if s.isExplicit u = true then 1 else 0) hmem]
  have hothers : ∀ u ∈ (Finset.range s.nextTxnId).erase t,
      (if isExplicit { s with txnMap := Function.update s.txnMap t o } u = true then 1 else 0) =
        if s.isExplicit u = true then 1 else 0 := by
    intro u hu
    rw [isExplicit_update_of_ne (Finset.ne_of_mem_erase hu)]
  rw [Finset.sum_congr rfl hothers, isExplicit_update_self]
  omega

/-! ## The transaction manager -/

theorem Excess.setConns (h : Excess n s) (conns : ConnId → Option Conn) :
    Excess n { s with conns := conns } := ⟨h.count, h.fresh⟩

/-- Storing `x` for a transaction of the map, with the count moved as the entry is. -/
theorem Excess.update (h : Excess n s) (ht : t < s.nextTxnId) (o : Option Transaction) {count m : Nat}
    (hcount : count + (if s.isExplicit t then 1 else 0) + n =
      s.activeExplicitCount + (if o.any fun x => x.txnMode && x.live then 1 else 0) + m) :
    Excess m { s with txnMap := Function.update s.txnMap t o, activeExplicitCount := count } where
  count := by
    have hlive := liveExplicit_update ht o
    have heq : liveExplicit { s with txnMap := Function.update s.txnMap t o, activeExplicitCount := count } =
      liveExplicit { s with txnMap := Function.update s.txnMap t o } := rfl
    have hc := h.count
    show count = _ + m
    rw [heq]
    omega
  fresh := by
    intro u hu
    show Function.update s.txnMap t o u = none
    have hu : s.nextTxnId ≤ u := hu
    rw [Function.update_of_ne (by rintro rfl; exact absurd ht (not_lt.2 hu))]
    exact h.fresh u hu

theorem Excess.begin (h : Excess n s) (iso : IsolationLevel) : Excess n (s.begin iso) where
  count := by
    have hold : ∀ u ∈ Finset.range s.nextTxnId, (s.begin iso).isExplicit u = s.isExplicit u := by
      intro u hu
      have hne : u ≠ s.nextTxnId := by
        have := Finset.mem_range.1 hu
        omega
      show ((Function.update s.txnMap s.nextTxnId _) u).any _ = _
      rw [Function.update_of_ne hne]
      rfl
    have hnew : (s.begin iso).isExplicit s.nextTxnId = false := by
      show ((Function.update s.txnMap s.nextTxnId _) s.nextTxnId).any _ = _
      rw [Function.update_self]
      rfl
    show s.activeExplicitCount = _ + n
    unfold liveExplicit
    show s.activeExplicitCount =
      (Finset.filter (fun u => (s.begin iso).isExplicit u = true) (Finset.range (s.nextTxnId + 1))).card + n
    rw [Finset.range_add_one, Finset.filter_insert, if_neg (by rw [hnew]; decide),
      Finset.filter_congr fun u hu => by rw [hold u hu]]
    exact h.count
  fresh := by
    intro u hu
    have hu : s.nextTxnId + 1 ≤ u := hu
    show Function.update s.txnMap s.nextTxnId _ u = none
    rw [Function.update_of_ne (Nat.ne_of_gt hu)]
    exact h.fresh u (Nat.le_of_succ_le hu)

theorem Excess.endTxn (h : Excess n s) {state : TransactionState}
    (hstate : state = .committed ∨ state = .aborted) : Excess n (s.endTxn t state) := by
  unfold Server.endTxn
  split
  · exact h
  rename_i x hx
  split
  · rename_i hlive
    refine h.update (h.lt hx) _ ?_
    have hdead : (some { x with state := state }).any (fun x => x.txnMode && x.live) = false := by
      rcases hstate with rfl | rfl <;> simp [Transaction.live]
    have hexp : s.isExplicit t = x.txnMode := by
      unfold isExplicit
      rw [hx, Option.any_some, hlive, Bool.and_true]
    rw [hdead, hexp]
    cases hmode : x.txnMode with
    | false => simp
    | true =>
        -- an explicit live transaction is counted, so the test `> 0` passes
        have hpos : 0 < s.liveExplicit := by
          refine Finset.card_pos.2 ⟨t, Finset.mem_filter.2 ⟨Finset.mem_range.2 (h.lt hx), ?_⟩⟩
          rw [hexp, hmode]
        have hc := h.count
        rw [Bool.true_and, if_pos (by simp; omega)]
        simp only [if_true, Bool.false_eq_true, if_false]
        omega
  · exact h

theorem Excess.commit (h : Excess n s) : Excess n (s.commit t) := h.endTxn (.inl rfl)

theorem Excess.abort (h : Excess n s) : Excess n (s.abort t) := h.endTxn (.inr rfl)

theorem Excess.reap (h : Excess n s) : Excess n (s.reap t) := by
  unfold Server.reap
  split
  · exact h
  rename_i x hx
  split
  · exact h
  · rename_i hdead
    refine h.update (h.lt hx) none (?_ : s.activeExplicitCount + _ + _ = _)
    have hexp : s.isExplicit t = false := by
      unfold isExplicit
      rw [hx, Option.any_some, Bool.eq_false_iff.2 hdead, Bool.and_false]
    rw [hexp]
    simp

/-- `BEGIN` raises the excess when its transaction is explicit already. -/
theorem Excess.beginExplicit (h : Excess n s) (hlive : s.isLive t) :
    Excess (n + if s.isExplicit t then 1 else 0) (s.beginExplicit t) := by
  unfold isLive at hlive
  obtain ⟨x, hx, hxl⟩ := (Option.any_eq_true _ _).1 hlive
  unfold Server.beginExplicit
  rw [hx]
  refine h.update (h.lt hx) _ ?_
  have hnew : (some { x with txnMode := true }).any (fun x => x.txnMode && x.live) = true := by
    rw [Option.any_some, Bool.true_and]
    exact hxl
  rw [if_pos hnew]
  omega

/-! ## Statements -/

theorem Excess.setTransaction (h : Excess n s) (conn : Conn) : Excess n (s.setTransaction conn).2 := by
  unfold Server.setTransaction
  split
  · exact h
  · exact h.begin conn.sessIso

theorem Excess.autocommit (h : Excess n s) : Excess n (s.autocommit t) := by
  unfold Server.autocommit
  split
  · exact h
  · exact h.commit

/-- `SetTransaction` answers with a live transaction. -/
theorem setTransaction_live (s : Server) (conn : Conn) :
    (s.setTransaction conn).2.isLive (s.setTransaction conn).1 := by
  unfold Server.setTransaction
  split
  · rename_i t ht
    exact (Option.filter_eq_some_iff.1 ht).2
  · show ((Function.update s.txnMap s.nextTxnId _) s.nextTxnId).any _ = _
    rw [Function.update_self]
    rfl

/-- Is the connection inside an explicit transaction? -/
def inExplicit (s : Server) (conn : Conn) : Bool := (s.current conn.txnId).any s.isExplicit

theorem setTransaction_explicit (s : Server) (conn : Conn) :
    (s.setTransaction conn).2.isExplicit (s.setTransaction conn).1 = s.inExplicit conn := by
  unfold Server.setTransaction inExplicit
  split
  · rename_i t ht
    rw [ht]
    rfl
  · rename_i hnone
    rw [hnone]
    show ((Function.update s.txnMap s.nextTxnId _) s.nextTxnId).any _ = _
    rw [Function.update_self]
    rfl

/-- Is the statement a `BEGIN` inside an explicit transaction? -/
def nested (s : Server) (conn : Conn) (sql : Sql) : Bool := sql = .begin && s.inExplicit conn

theorem Excess.runSqlStatement (h : Excess n s) (conn : Conn) (sql : Sql) :
    Excess (n + if s.nested conn sql then 1 else 0) (s.runSqlStatement c conn sql).2 := by
  have hset := h.setTransaction conn
  have hlive := setTransaction_live s conn
  have hexp := setTransaction_explicit s conn
  unfold Server.runSqlStatement
  generalize s.setTransaction conn = r at hset hlive hexp
  obtain ⟨t, s1⟩ := r
  have hexec : Excess (n + if s.nested conn sql then 1 else 0) (s1.execSql t sql).2 := by
    cases sql with
    | begin =>
        have hb := hset.beginExplicit hlive
        rw [hexp] at hb
        simpa [nested, execSql] using hb
    | commit throws => cases throws <;> simp [nested, execSql, hset, hset.commit]
    | rollback throws => cases throws <;> simp [nested, execSql, hset, hset.abort]
    | abort throws => cases throws <;> simp [nested, execSql, hset, hset.abort]
    | other outcome => cases outcome <;> simp [nested, execSql, hset, hset.abort]
  exact (hexec.autocommit.reap).setConns _

/-! ## Frames -/

theorem Excess.load (h : Excess n s) (conn : Conn) (throws wire : Bool) :
    Excess n (s.load c conn throws wire) := by
  have hset := h.setTransaction conn
  unfold Server.load
  generalize s.setTransaction conn = r at hset
  obtain ⟨t, s1⟩ := r
  dsimp only
  cases throws with
  | true => exact hset.abort.setConns _
  | false =>
      cases wire with
      | true => exact hset.autocommit.reap.setConns _
      | false => exact hset.autocommit.setConns _

theorem Excess.probe (h : Excess n s) : Excess n s.probe := by
  have hset := h.setTransaction {}
  unfold Server.probe
  generalize s.setTransaction {} = r at hset
  obtain ⟨t, s1⟩ := r
  dsimp only
  split
  · exact hset.reap
  · exact hset.abort.reap

theorem Excess.probes (h : Excess n s) : ∀ k, Excess n (Nat.repeat Server.probe k s)
  | 0 => h
  | k + 1 => (Excess.probes h k).probe

/-- The nested `BEGIN`s among the operations that are run. -/
def nestedOps (c : ConnId) : Server → List Op → Nat
  | _, [] => 0
  | _, .undecodable :: _ => 0
  | s, .run sql :: ops =>
      match s.conns c with
      | none => 0
      | some conn =>
          (if s.nested conn sql then 1 else 0) +
            match s.runSqlStatement c conn sql with
            | (.ok, s') => nestedOps c s' ops
            | _ => 0

theorem Excess.runOps : ∀ (ops : List Op) {s : Server} {n : Nat}, Excess n s →
    Excess (n + nestedOps c s ops) (runOps c s ops).2 := by
  intro ops
  induction ops with
  | nil => exact fun h => h
  | cons op ops ih =>
      intro s n h
      cases op with
      | undecodable => exact h
      | run sql =>
          unfold Server.runOps nestedOps
          cases s.conns c with
          | none => exact h
          | some conn =>
              have hrun := h.runSqlStatement (c := c) conn sql
              dsimp only
              rw [← Nat.add_assoc]
              generalize s.runSqlStatement c conn sql = r at hrun
              obtain ⟨outcome, s'⟩ := r
              cases outcome with
              | ok => exact ih hrun
              | abort => exact hrun
              | error => exact hrun

theorem Excess.abortExplicit (h : Excess n s) : Excess n (s.abortExplicit c) := by
  unfold Server.abortExplicit
  split
  · exact h
  · split
    · exact h.abort
    · exact h

theorem Excess.execBatch (h : Excess n s) (ops : List Op) :
    Excess (n + nestedOps c s ops) (s.execBatch c ops) := by
  have hops := Excess.runOps (c := c) ops h
  unfold Server.execBatch
  generalize Server.runOps c s ops = r at hops
  obtain ⟨outcome, s1⟩ := r
  dsimp only
  split
  · exact hops
  · exact hops.abortExplicit

theorem Excess.disconnect (h : Excess n s) : Excess n (s.disconnect c) := by
  unfold Server.disconnect
  refine Excess.setConns ?_ _
  split
  · exact h
  · split
    · exact h.abort
    · exact h.reap

/-- The nested `BEGIN`s of a frame. -/
def nestedBegins (s : Server) : ConnId × Frame → Nat
  | (c, .sql sql) => if (s.conns c).any fun conn => s.nested conn sql then 1 else 0
  | (c, .execBatch ops) => nestedOps c s ops
  | _ => 0

end Server

open Server

variable {s s' : Server} {n : Nat}

/-- **A frame's excess.** -/
theorem step_excess (h : Excess n s) {a : ConnId × Frame} (hstep : step s a = some s') :
    Excess (n + s.nestedBegins a) s' := by
  obtain ⟨c, frame⟩ := a
  cases hconn : s.conns c with
  | none =>
      cases frame <;> simp only [step, hconn, Option.some.injEq, reduceCtorEq] at hstep
      case connect =>
        subst hstep
        exact h.setConns _
  | some conn =>
      cases frame <;> simp only [step, hconn, Option.some.injEq, reduceCtorEq] at hstep <;> subst hstep
      case sql sql =>
        have hrun := h.runSqlStatement (c := c) conn sql
        simpa only [nestedBegins, hconn, Option.any_some] using hrun
      case load throws wire => exact h.load conn throws wire
      case setIsolation iso => exact h.setConns _
      case prepareSet probes => exact h.probes probes
      case execBatch ops => exact h.execBatch ops
      case disconnect => exact h.disconnect

/-- The nested `BEGIN`s of a run. -/
def nestedInRun : Server → List (ConnId × Frame) → Nat
  | _, [] => 0
  | s, a :: as => s.nestedBegins a + (step s a).elim 0 fun s' => nestedInRun s' as

theorem run_excess : ∀ (as : List (ConnId × Frame)) {s s' : Server} {n : Nat}, Excess n s →
    Lib.run step s as = some s' → Excess (n + nestedInRun s as) s' := by
  intro as
  induction as with
  | nil =>
      intro s s' n h hrun
      cases hrun
      exact h
  | cons a as ih =>
      intro s s' n h hrun
      obtain ⟨s1, hs1, hrest⟩ := Option.bind_eq_some_iff.1 hrun
      have h1 := ih (step_excess h hs1) hrest
      rw [nestedInRun, hs1, Option.elim_some, ← Nat.add_assoc]
      exact h1

theorem init_excess : Excess 0 {} := ⟨rfl, fun _ _ => rfl⟩

/-- A run without nested `BEGIN`s is one whose every frame has none. -/
theorem nestedInRun_eq_zero : ∀ (as : List (ConnId × Frame)) (s : Server),
    nestedInRun s as = 0 ↔ Lib.Along step (fun s a => s.nestedBegins a = 0) s as := by
  intro as
  induction as with
  | nil => exact fun s => ⟨fun _ => trivial, fun _ => rfl⟩
  | cons a as ih =>
      intro s
      unfold nestedInRun Lib.Along
      rw [Nat.add_eq_zero_iff]
      cases step s a with
      | none => simp
      | some s1 => simp [ih]

/-- **The explicit transaction counter.**  `active_explicit_count_` is the number of live explicit
transactions after a run exactly when no `BEGIN` of it met an explicit transaction. -/
theorem run_activeExplicitCount_iff (as : List (ConnId × Frame)) (s : Server)
    (hrun : Lib.run step {} as = some s) :
    s.activeExplicitCount = s.liveExplicit ↔
      Lib.Along step (fun s a => s.nestedBegins a = 0) {} as := by
  rw [← nestedInRun_eq_zero]
  have hcount := (run_excess as init_excess hrun).count
  rw [Nat.zero_add] at hcount
  omega

/-- Two connections, with a batch whose failure ends its explicit transaction, and a `COMMIT`. -/
theorem run_activeExplicitCount_iff_two :
    ∃ s, Lib.run step {} [(0, .connect), (1, .connect), (0, .sql .begin),
        (1, .execBatch [.run .begin, .run (.other .error)]), (0, .sql (.commit false))] = some s ∧
      s.activeExplicitCount = s.liveExplicit := by
  obtain ⟨s, hs⟩ : ∃ s, Lib.run step {} [(0, .connect), (1, .connect), (0, .sql .begin),
      (1, .execBatch [.run .begin, .run (.other .error)]), (0, .sql (.commit false))] = some s :=
    ⟨_, rfl⟩
  exact ⟨s, hs, (run_activeExplicitCount_iff _ s hs).2 (by decide +kernel)⟩

/-- `BEGIN; BEGIN` counts one transaction twice. -/
theorem not_activeExplicitCount_nested :
    ∃ s, Lib.run step {} [(0, .connect), (0, .sql .begin), (0, .sql .begin)] = some s ∧
      s.activeExplicitCount ≠ s.liveExplicit :=
  ⟨_, rfl, by decide +kernel⟩

end Rmdb.Session
