import Rmdb.Row.Finish

/-!
# Steps of the system and the state invariant

`Stepped` is the inversion of `step`: a statement is a chain of row operations followed by
the release of its writes or by an abort, an autocommit statement a transaction of its own.
`Inv` holds in every state a run reaches: transaction ids, snapshots and the counters are what
they stand for, and the versions of a chain are in commit order.
-/

namespace Rmdb.Txn

open Rmdb.Index (Rid)

inductive Stepped (db : Db) : Action → Db → Prop where
  | begin (iso : IsolationLevel) : Stepped db (.begin iso) (db.begin true iso)
  | stmt {t : TxnId} {s : Stmt} {db1 : Db} (hopen : db.open? t) (h : Rows t db db1) :
      Stepped db (.stmt t s) (db1.releaseStatementWrites t)
  | stmtAbort {t : TxnId} {s : Stmt} {db1 : Db} (hopen : db.open? t) (h : Rows t db db1) :
      Stepped db (.stmt t s) (db1.abort t)
  | auto {iso : IsolationLevel} {s : Stmt} {db1 db' : Db}
      (h : Rows db.nextTxnId (db.begin false iso) db1) (hc : db1.commit db.nextTxnId = some db') :
      Stepped db (.auto iso s) db'
  | autoAbort {iso : IsolationLevel} {s : Stmt} {db1 : Db}
      (h : Rows db.nextTxnId (db.begin false iso) db1) :
      Stepped db (.auto iso s) (db1.abort db.nextTxnId)
  | commit {t : TxnId} {db' : Db} (hopen : db.open? t) (hc : db.commit t = some db') :
      Stepped db (.commit t) db'
  | abort {t : TxnId} (hopen : db.open? t) : Stepped db (.abort t) (db.abort t)
  | createIndex {tab : TabName} {names : List String} {cols : List ColMeta} :
      Stepped db (.createIndex tab names) (db.createIndex tab cols)

variable {db db' : Db} {a : Action} {t : TxnId}

theorem begin_chainsDirty (h : db.ChainsDirty) (explicit : Bool) (iso : IsolationLevel) :
    (db.begin explicit iso).ChainsDirty := h

theorem step_stepped (hd : db.ChainsDirty) (h : step db a = some db') : Stepped db a db' := by
  cases a with
  | begin iso =>
      cases h
      exact .begin iso
  | stmt t s =>
      simp only [step] at h
      split at h
      · cases h
      · rename_i hopen
        have hopen' : db.open? t := by simpa using hopen
        have hrows := exec_rows hd t s
        cases hout : db.exec t s with
        | next db1 | done db1 =>
            rw [hout] at h hrows
            cases h
            exact .stmt hopen' hrows
        | abort db1 =>
            rw [hout] at h hrows
            cases h
            exact .stmtAbort hopen' hrows
        | stop =>
            rw [hout] at h
            cases h
  | auto iso s =>
      simp only [step] at h
      have hrows := exec_rows (begin_chainsDirty hd false iso) db.nextTxnId s
      cases hout : (db.begin false iso).exec db.nextTxnId s with
      | next db1 | done db1 =>
          rw [hout] at h hrows
          exact .auto hrows h
      | abort db1 =>
          rw [hout] at h hrows
          cases h
          exact .autoAbort hrows
      | stop =>
          rw [hout] at h
          cases h
  | commit t =>
      simp only [step] at h
      split at h
      · rename_i hopen
        exact .commit hopen h
      · cases h
  | abort t =>
      simp only [step] at h
      split at h
      · rename_i hopen
        cases h
        exact .abort hopen
      · cases h
  | createIndex tab names =>
      simp only [step] at h
      split at h
      · cases h
      · split at h
        · cases h
        · cases h
          exact .createIndex

/-! ## The state invariant -/

/-- The transactions that have begun and not ended. -/
def Db.Live (db : Db) (u : TxnId) : Prop := ∃ x, db.txns u = some x ∧ x.live

instance (db : Db) (u : TxnId) : Decidable (db.Live u) :=
  match h : db.txns u with
  | none => isFalse (by rintro ⟨x, hx, -⟩; rw [h] at hx; cases hx)
  | some x =>
      if hl : x.live then isTrue ⟨x, h, hl⟩
      else isFalse (by rintro ⟨y, hy, hl'⟩; rw [h] at hy; cases hy; exact hl hl')

/-- The versions of a row are in commit order, none later than `ts`. -/
def HistOk (ts : Ts) (row : Row) : Prop :=
  ∀ c, row.chain = some c →
    (∀ v ∈ c.hist, v.commitTs ≤ ts) ∧ c.hist.Pairwise fun v w => v.commitTs < w.commitTs

structure Inv (db : Db) : Prop where
  chains : db.ChainsDirty
  fresh : ∀ u, db.nextTxnId ≤ u → db.txns u = none
  ended : ∀ u x, db.txns u = some x → ¬ x.live → x.writeSet = [] ∧ x.overlay = fun _ => none
  snapshots : ∀ u x, db.txns u = some x → x.readTs ≤ db.lastCommitTs
  overlays : ∀ u r, ((db.txn u).overlay r).isSome →
    (db.txn u).touches r ∧ db.tableIsDirty r.tab = true
  hist : ∀ r, HistOk db.lastCommitTs (db.rows r)
  count : db.activeExplicitCount = ((Finset.range db.nextTxnId).filter fun u => db.open? u).card
  active : ∀ ts, db.activeRts.count ts =
    ((Finset.range db.nextTxnId).filter fun u => db.Live u ∧ (db.txn u).readTs = ts).card

theorem live_iff {u : TxnId} :
    db.Live u ↔ (db.txns u).isSome ∧ (db.txn u).state = .default := by
  unfold Db.Live Db.txn Transaction.live
  cases db.txns u with
  | none => simp
  | some x => simp

theorem open_iff {u : TxnId} :
    db.open? u = true ↔ (db.txns u).isSome ∧ (db.txn u).txnMode = true ∧ (db.txn u).state = .default := by
  unfold Db.open? Db.txn Transaction.live
  cases db.txns u with
  | none => simp
  | some x => simp

theorem live_of_open {u : TxnId} (h : db.open? u = true) : db.Live u := by
  obtain ⟨h1, -, h3⟩ := open_iff.1 h
  exact live_iff.2 ⟨h1, h3⟩

theorem Db.Live.live (h : db.Live t) : (db.txn t).live := by
  simp [Transaction.live, (live_iff.1 h).2]

theorem Inv.lt_next (hI : Inv db) {u : TxnId} (h : db.Live u) : u < db.nextTxnId := by
  obtain ⟨x, hx, -⟩ := h
  by_contra hge
  rw [hI.fresh u (Nat.not_lt.1 hge)] at hx
  cases hx

section RowOps

variable {r : RowId} {row : Row} {ws : List WriteRecord} {mark : Bool}

theorem RowWrite.txns_isSome (h : RowWrite db db' t r row ws mark) (ht : (db.txns t).isSome)
    (u : TxnId) : (db'.txns u).isSome = (db.txns u).isSome := by
  rcases eq_or_ne u t with rfl | hu
  · rw [ht, h.isSome ht]
  · rw [h.others u hu]

theorem RowWrite.live_iff (h : RowWrite db db' t r row ws mark) (ht : (db.txns t).isSome)
    (u : TxnId) : db'.Live u ↔ db.Live u := by
  rw [Txn.live_iff, Txn.live_iff, h.txns_isSome ht, h.state]

theorem RowWrite.open_eq (h : RowWrite db db' t r row ws mark) (ht : (db.txns t).isSome)
    (u : TxnId) : db'.open? u = db.open? u := by
  rw [Bool.eq_iff_iff, open_iff, open_iff, h.txns_isSome ht, h.state, h.txnMode]

theorem RowWrite.touches (h : RowWrite db db' t r row ws mark) {u : TxnId} {r' : RowId}
    (hu : (db.txn u).touches r') : (db'.txn u).touches r' := by
  rcases eq_or_ne u t with rfl | hne
  · rw [Transaction.touches, h.writeSet, List.any_append]
    exact Bool.or_eq_true _ _ ▸ .inl hu
  · rwa [h.txn_other hne]

/-- What a row operation does to the versions of its row. -/
theorem RowChange.hist (h : RowChange db t r row ws mark) {c : MvccChain} (hc : row.chain = some c) :
    c.hist = (db.chainOf r).hist ∨ (∃ old, c.hist = [⟨old, 0, false, none⟩]) ∨ c.hist = [] := by
  have hbase : ∀ old, (db.withBase t r (db.chainOf r) old).hist = (db.chainOf r).hist ∨
      (db.withBase t r (db.chainOf r) old).hist = [⟨old, 0, false, none⟩] := by
    intro old
    unfold Db.withBase
    split
    · exact .inr rfl
    · exact .inl rfl
  cases h with
  | same | updatedInPlace _ | deletedInPlace _ | insertedInPlace _ _ =>
      left
      rw [Db.chainOf, show (db.rows r).chain = some c from hc]
      rfl
  | refused why =>
      cases hc
      exact .inl rfl
  | failed free base =>
      cases hc
      exact (hbase _).imp_right fun h => .inl ⟨_, h⟩
  | written free base origin hhold =>
      cases hc
      exact (hbase _).imp_right fun h => .inl ⟨_, h⟩
  | inserted free =>
      cases hc
      exact .inr (.inr rfl)

theorem HistOk.chainOf {ts : Ts} (h : HistOk ts (db.rows r)) :
    (∀ v ∈ (db.chainOf r).hist, v.commitTs ≤ ts) ∧
      (db.chainOf r).hist.Pairwise fun v w => v.commitTs < w.commitTs := by
  unfold Db.chainOf
  cases hc : (db.rows r).chain with
  | none => exact ⟨fun v hv => (List.not_mem_nil hv).elim, List.Pairwise.nil⟩
  | some c => exact h c hc

theorem RowChange.histOk (h : RowChange db t r row ws mark) {ts : Ts}
    (hh : HistOk ts (db.rows r)) : HistOk ts row := by
  intro c hc
  rcases h.hist hc with heq | ⟨old, heq⟩ | heq
  · rw [heq]
    exact hh.chainOf
  · rw [heq]
    exact ⟨fun v hv => by rw [List.mem_singleton.1 hv]; exact Nat.zero_le _,
      List.pairwise_singleton _ _⟩
  · rw [heq]
    exact ⟨fun v hv => (List.not_mem_nil hv).elim, List.Pairwise.nil⟩

/-- A write of one row keeps the invariant when it keeps the order of versions and marks the
table of a new chain. -/
theorem RowWrite.inv (hw : RowWrite db db' t r row ws mark) (ht : db.Live t) (hI : Inv db)
    (hhist : HistOk db.lastCommitTs row)
    (hmark : row.chain.isSome → (db.rows r).chain.isSome ∨ mark = true) : Inv db' := by
  have hts := (Txn.live_iff.1 ht).1
  refine ⟨?_, ?_, ?_, ?_, ?_, ?_, ?_, ?_⟩
  · intro r' hr'
    rcases eq_or_ne r' r with rfl | hne
    · rw [hw.row_self] at hr'
      rcases hmark hr' with h | rfl
      · exact hw.tableIsDirty (hI.chains r' h)
      · exact hw.tableIsDirty_self
    · rw [hw.row_other hne] at hr'
      exact hw.tableIsDirty (hI.chains r' hr')
  · intro u hu
    have hu' : u ≠ t := by
      rintro rfl
      exact absurd (hI.lt_next ht) (Nat.not_lt.2 (hw.nextTxnId ▸ hu))
    rw [hw.others u hu']
    exact hI.fresh u (hw.nextTxnId ▸ hu)
  · intro u x hx hnl
    rcases eq_or_ne u t with rfl | hu
    · exact absurd (((hw.live_iff hts u).2 ht)) (by
        rintro ⟨y, hy, hl⟩
        rw [hx] at hy
        cases hy
        exact hnl hl)
    · rw [hw.others u hu] at hx
      exact hI.ended u x hx hnl
  · intro u x hx
    have hr : x.readTs = (db.txn u).readTs := by
      rw [← hw.readTs u, Db.txn, hx]
      rfl
    have hs : (db.txns u).isSome := by
      rw [← hw.txns_isSome hts u, hx]
      rfl
    obtain ⟨y, hy⟩ := Option.isSome_iff_exists.1 hs
    rw [hr, Db.txn, hy, hw.lastCommitTs]
    exact hI.snapshots u y hy
  · intro u r' hov
    rw [hw.overlay] at hov
    have h := hI.overlays u r' hov
    exact ⟨hw.touches h.1, hw.tableIsDirty h.2⟩
  · intro r'
    rw [hw.lastCommitTs]
    rcases eq_or_ne r' r with rfl | hr
    · rw [hw.row_self]
      exact hhist
    · rw [hw.row_other hr]
      exact hI.hist r'
  · rw [hw.activeExplicitCount, hw.nextTxnId, hI.count]
    simp only [hw.open_eq hts]
  · intro ts
    rw [hw.activeRts, hw.nextTxnId, hI.active]
    simp only [hw.live_iff hts, hw.readTs]

theorem RowChange.marks (h : RowChange db t r row ws mark) :
    row.chain.isSome → (db.rows r).chain.isSome ∨ mark = true := by
  intro hs
  cases mark with
  | true => exact .inr rfl
  | false => exact .inl (h.chain_eq ▸ hs)

theorem RowOp.inv (h : RowOp t r db db') (ht : db.Live t) (hI : Inv db) : Inv db' := by
  obtain ⟨row, ws, mark, hw, hc⟩ := h
  exact hw.inv ht hI (hc.histOk (hI.hist r)) hc.marks

theorem Rows.inv (h : Rows t db db') (ht : db.Live t) (hI : Inv db) : Inv db' ∧ db'.Live t := by
  induction h with
  | refl => exact ⟨hI, ht⟩
  | tail _ hop ih =>
      obtain ⟨r, hop⟩ := hop
      refine ⟨hop.inv ih.2 ih.1, ?_⟩
      obtain ⟨row, ws, mark, hw, -⟩ := hop
      exact (hw.live_iff (Txn.live_iff.1 ih.2).1 t).2 ih.2

end RowOps

/-! ## Begin, release and the ends of transactions -/

theorem begin_txns_ne {explicit : Bool} {iso : IsolationLevel} {u : TxnId} (hu : u ≠ db.nextTxnId) :
    (db.begin explicit iso).txns u = db.txns u := Function.update_of_ne hu _ _

theorem begin_txns_self (db : Db) (explicit : Bool) (iso : IsolationLevel) :
    (db.begin explicit iso).txns db.nextTxnId =
      some { txnMode := explicit, isolation := iso, readTs := db.lastCommitTs } :=
  Function.update_self _ _ _

theorem begin_live (db : Db) (explicit : Bool) (iso : IsolationLevel) :
    (db.begin explicit iso).Live db.nextTxnId := ⟨_, begin_txns_self db explicit iso, rfl⟩

/-- The transactions below the next id are those before it and the new one. -/
theorem card_begin {p q : TxnId → Prop} [DecidablePred p] [DecidablePred q] {n : Nat}
    (h : ∀ u < n, p u ↔ q u) :
    ((Finset.range (n + 1)).filter p).card =
      ((Finset.range n).filter q).card + if p n then 1 else 0 := by
  rw [Finset.range_add_one, Finset.filter_insert]
  have heq : (Finset.range n).filter p = (Finset.range n).filter q :=
    Finset.filter_congr fun u hu => h u (Finset.mem_range.1 hu)
  split
  · rw [Finset.card_insert_of_notMem (by simp), heq]
  · rw [heq, Nat.add_zero]

theorem begin_inv (hI : Inv db) (explicit : Bool) (iso : IsolationLevel) :
    Inv (db.begin explicit iso) := by
  have hne : ∀ u < db.nextTxnId, (db.begin explicit iso).txns u = db.txns u :=
    fun u hu => begin_txns_ne (Nat.ne_of_lt hu)
  have hself := begin_txns_self db explicit iso
  refine ⟨hI.chains, ?_, ?_, ?_, ?_, hI.hist, ?_, ?_⟩
  · intro u hu
    have hu' : db.nextTxnId < u := Nat.lt_of_succ_le hu
    rw [begin_txns_ne (Nat.ne_of_gt hu')]
    exact hI.fresh u (Nat.le_of_lt hu')
  · intro u x hx hnl
    by_cases hu : u = db.nextTxnId
    · subst hu
      rw [hself] at hx
      cases hx
      exact absurd rfl hnl
    · rw [begin_txns_ne hu] at hx
      exact hI.ended u x hx hnl
  · intro u x hx
    by_cases hu : u = db.nextTxnId
    · subst hu
      rw [hself] at hx
      cases hx
      exact le_rfl
    · rw [begin_txns_ne hu] at hx
      exact hI.snapshots u x hx
  · intro u r hov
    by_cases hu : u = db.nextTxnId
    · subst hu
      rw [Db.txn, hself] at hov
      cases hov
    · rw [Db.txn_congr (begin_txns_ne hu)] at hov ⊢
      exact hI.overlays u r hov
  · show db.activeExplicitCount + _ = ((Finset.range (db.nextTxnId + 1)).filter _).card
    rw [card_begin (q := fun u => db.open? u = true), hI.count]
    · congr 1
      unfold Db.open?
      rw [hself]
      cases explicit <;> rfl
    · intro u hu
      unfold Db.open?
      rw [hne u hu]
  · intro ts
    show (db.lastCommitTs :: db.activeRts).count ts =
      ((Finset.range (db.nextTxnId + 1)).filter _).card
    rw [card_begin (q := fun u => db.Live u ∧ (db.txn u).readTs = ts), List.count_cons, hI.active]
    · congr 1
      have hlive := begin_live db explicit iso
      simp only [hlive, true_and, Db.txn, hself, Option.getD_some, beq_iff_eq]
    · intro u hu
      unfold Db.Live Db.txn
      rw [hne u hu]

theorem restored_chain {r : RowId} {c : MvccChain} (h : (db.restored t r).chain = some c) :
    c.hist = (db.chainOf r).hist := by
  unfold Db.restored Db.restoreWritersFromOverlays at h
  dsimp only at h
  split at h
  · rw [Db.chainOf, h]
    rfl
  · cases h
    rfl

theorem restored_histOk {r : RowId} {ts : Ts} (h : HistOk ts (db.rows r)) :
    HistOk ts (db.restored t r) := by
  intro c hc
  rw [restored_chain hc]
  exact h.chainOf

theorem releasable_some {r : RowId} {c : MvccChain} (h : db.releasable t r = some c) :
    (db.txn t).touches r ∧ (db.rows r).chain = some c ∧ c.writer = some t ∧
      c.holdWriterToCommit = false := by
  unfold Db.releasable at h
  split at h
  · rename_i htouch
    obtain ⟨hchain, hp⟩ := Option.filter_eq_some_iff.1 h
    simp only [Bool.and_eq_true, decide_eq_true_eq, Bool.not_eq_true'] at hp
    exact ⟨htouch, hchain, hp.1, hp.2⟩
  · cases h

theorem release_txns_ne {u : TxnId} (hu : u ≠ t) :
    (db.releaseStatementWrites t).txns u = db.txns u := by
  unfold Db.releaseStatementWrites
  split
  · rfl
  · exact Function.update_of_ne hu _ _

/-- Releasing changes the overlays of its transaction only. -/
theorem release_txn (db : Db) (t : TxnId) : ∃ ov,
    (db.releaseStatementWrites t).txn t = { db.txn t with overlay := ov } ∧
      ((db.txns t).isSome → ((db.releaseStatementWrites t).txns t).isSome) := by
  refine ⟨((db.releaseStatementWrites t).txn t).overlay, ?_⟩
  unfold Db.releaseStatementWrites
  split
  · exact ⟨rfl, id⟩
  · refine ⟨?_, ?_⟩
    · simp only [Db.txn, Function.update_self]
      rfl
    · intro _
      simp

/-- Releasing row by row: the write moves from the chain to the overlay, or nothing changes. -/
theorem release_row (db : Db) (t : TxnId) (r : RowId) :
    ((db.releaseStatementWrites t).rows r = db.rows r ∧
      ((db.releaseStatementWrites t).txn t).overlay r = (db.txn t).overlay r) ∨
      ∃ c, (db.txn t).touches r ∧ (db.rows r).chain = some c ∧ c.writer = some t ∧
        c.holdWriterToCommit = false ∧
        (db.releaseStatementWrites t).rows r =
          { db.rows r with
            chain := some { c with writer := none, writerDel := false, writerData := .empty }
            pending := some t } ∧
        ((db.releaseStatementWrites t).txn t).overlay r = some ⟨c.writerData, c.writerDel⟩ := by
  unfold Db.releaseStatementWrites
  split
  · exact .inl ⟨rfl, rfl⟩
  · simp only [Db.txn, Function.update_self, Option.getD_some]
    split
    · exact .inl ⟨rfl, rfl⟩
    · rename_i c hc
      obtain ⟨h1, h2, h3, h4⟩ := releasable_some hc
      exact .inr ⟨c, h1, h2, h3, h4, rfl, rfl⟩

theorem release_proj {α : Type} (f : Transaction → α) (hf : ∀ x ov, f { x with overlay := ov } = f x)
    (u : TxnId) : f ((db.releaseStatementWrites t).txn u) = f (db.txn u) := by
  rcases eq_or_ne u t with rfl | hu
  · obtain ⟨ov, hov, -⟩ := release_txn db u
    rw [hov, hf]
  · rw [Db.txn_congr (release_txns_ne hu)]

theorem release_isSome (ht : (db.txns t).isSome) (u : TxnId) :
    ((db.releaseStatementWrites t).txns u).isSome = (db.txns u).isSome := by
  rcases eq_or_ne u t with rfl | hu
  · obtain ⟨ov, -, hsome⟩ := release_txn db u
    rw [ht, hsome ht]
  · rw [release_txns_ne hu]

theorem release_live_iff (ht : (db.txns t).isSome) (u : TxnId) :
    (db.releaseStatementWrites t).Live u ↔ db.Live u := by
  rw [live_iff, live_iff, release_isSome ht, release_proj Transaction.state (fun _ _ => rfl)]

theorem release_open_eq (ht : (db.txns t).isSome) (u : TxnId) :
    (db.releaseStatementWrites t).open? u = db.open? u := by
  rw [Bool.eq_iff_iff, open_iff, open_iff, release_isSome ht,
    release_proj Transaction.state (fun _ _ => rfl), release_proj Transaction.txnMode (fun _ _ => rfl)]

theorem release_fields (db : Db) (t : TxnId) :
    (db.releaseStatementWrites t).nextTxnId = db.nextTxnId ∧
    (db.releaseStatementWrites t).lastCommitTs = db.lastCommitTs ∧
    (db.releaseStatementWrites t).activeRts = db.activeRts ∧
    (db.releaseStatementWrites t).activeExplicitCount = db.activeExplicitCount ∧
    (db.releaseStatementWrites t).anyMvccDirty = db.anyMvccDirty ∧
    (db.releaseStatementWrites t).mvccDirty = db.mvccDirty ∧
    (db.releaseStatementWrites t).tabs = db.tabs := by
  unfold Db.releaseStatementWrites
  split
  · exact ⟨rfl, rfl, rfl, rfl, rfl, rfl, rfl⟩
  · exact ⟨rfl, rfl, rfl, rfl, rfl, rfl, rfl⟩

theorem release_inv (hI : Inv db) (ht : db.Live t) : Inv (db.releaseStatementWrites t) := by
  obtain ⟨hnext, hlast, hrts, hcount, hany, hdirty, -⟩ := release_fields db t
  have hts := (live_iff.1 ht).1
  have hd : ∀ tab, (db.releaseStatementWrites t).tableIsDirty tab = db.tableIsDirty tab := by
    intro tab
    rw [Db.tableIsDirty, hany, hdirty]
    rfl
  refine ⟨?_, ?_, ?_, ?_, ?_, ?_, ?_, ?_⟩
  · intro r hr
    rw [hd]
    rcases release_row db t r with ⟨h, -⟩ | ⟨c, -, hc, -⟩
    · rw [h] at hr
      exact hI.chains r hr
    · exact hI.chains r (by rw [hc]; rfl)
  · intro u hu
    rw [hnext] at hu
    have hnone := hI.fresh u hu
    have := release_isSome hts u
    rw [hnone] at this
    simpa using this
  · intro u x hx hnl
    rcases eq_or_ne u t with rfl | hu
    · refine absurd ((release_live_iff hts u).2 ht) ?_
      rintro ⟨y, hy, hl⟩
      rw [hx] at hy
      cases hy
      exact hnl hl
    · rw [release_txns_ne hu] at hx
      exact hI.ended u x hx hnl
  · intro u x hx
    have hr : x.readTs = (db.txn u).readTs := by
      rw [← release_proj (t := t) Transaction.readTs (fun _ _ => rfl) u, Db.txn, hx]
      rfl
    have hs : (db.txns u).isSome := by
      rw [← release_isSome hts u, hx]
      rfl
    obtain ⟨y, hy⟩ := Option.isSome_iff_exists.1 hs
    rw [hr, Db.txn, hy, hlast]
    exact hI.snapshots u y hy
  · intro u r hov
    rw [release_proj (fun x => x.touches r) (fun _ _ => rfl), hd]
    rcases eq_or_ne u t with rfl | hu
    · rcases release_row db u r with ⟨-, h⟩ | ⟨c, htouch, hc, -⟩
      · rw [h] at hov
        exact hI.overlays u r hov
      · exact ⟨htouch, hI.chains r (by rw [hc]; rfl)⟩
    · rw [Db.txn_congr (release_txns_ne hu)] at hov
      exact hI.overlays u r hov
  · intro r
    rw [hlast]
    rcases release_row db t r with ⟨h, -⟩ | ⟨c, -, hc, -, -, h, -⟩
    · rw [h]
      exact hI.hist r
    · rw [h]
      intro c' hc'
      cases hc'
      exact hI.hist r c hc
  · rw [hcount, hnext, hI.count]
    simp only [release_open_eq hts]
  · intro ts
    rw [hrts, hnext, hI.active]
    simp only [release_live_iff hts, release_proj Transaction.readTs (fun _ _ => rfl)]

end Rmdb.Txn
