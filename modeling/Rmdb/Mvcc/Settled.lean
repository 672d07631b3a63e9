import Rmdb.Mvcc.Written

/-!
# From the write of a row to its commit

While a transaction owns a row, nobody else's step changes the row or what the transaction has of it
(`execStep_stays`).  At the end of a statement it is settled what the transaction reads of a row that it
has written, and what its commit leaves in the newest version and in the heap (`Settled`): the image
written, or that of an older overlay when the write stays in the chain (`Db.shadowed`).
-/

namespace Rmdb.Txn

open Rmdb.Index (Rid)
open Rmdb.Lib (run run_cons run_append run_invariant run_invariant_along along_of_forall)

variable {db db' : Db} {t : TxnId} {r : RowId}

/-! ## What stays while a transaction owns a row -/

/-- The row, and what `t` has of it, are as they were. -/
structure Stays (db db' : Db) (t : TxnId) (r : RowId) : Prop where
  live : db'.Live t
  row : db'.rows r = db.rows r
  overlay : (db'.txn t).overlay r = (db.txn t).overlay r
  txnMode : (db'.txn t).txnMode = (db.txn t).txnMode
  touched : (db.txn t).touches r = true → (db'.txn t).touches r = true

/-- The transaction has ended. -/
def Db.Dead (db : Db) (t : TxnId) : Prop := (db.txns t).isSome ∧ ¬ db.Live t

/-- What `t` owns is kept from the others. -/
theorem held_of_owner {u v : TxnId} (ho : db.Owns v r) (hne : v ≠ u) : db.held u r = true := by
  have hn : some v ≠ some u := fun h => hne (Option.some.inj h)
  unfold Db.held Db.heldByOther
  rw [Bool.or_eq_true]
  rcases ho with ⟨c, hc, hw⟩ | hp
  · right
    rw [chainOf_some hc, hw]
    simp [hne]
  · left
    rw [hp]
    simp [hne]

/-- Does the operation write the row on behalf of `t`? -/
def ExecOp.writes (t : TxnId) (r : RowId) : ExecOp → Prop
  | .insert u tab _ rid | .update u tab _ rid | .delete u tab rid => u = t ∧ (⟨tab, rid⟩ : RowId) = r
  | _ => False

theorem RowOp.stays {u : TxnId} {r' : RowId} (h : RowOp u r' db db')
    (hv : db.needsVersioning (db.txn u) r'.tab = true) (hu : db.Live u) (ht : db.Live t)
    (ho : db.Owns t r) (hrec : (db.rows r).slot.isRecord = true)
    (hchain : (db.rows r).chain.isSome) (hne : ¬ (u = t ∧ r' = r)) : Stays db db' t r := by
  have hlive := (h.live_iff hu t).2 ht
  obtain ⟨row, ws, mark, hw, hc⟩ := h
  refine ⟨hlive, ?_, congrFun (hw.overlay t) r, hw.txnMode t, hw.touches⟩
  rcases eq_or_ne r' r with rfl | hr
  · have hheld := held_of_owner ho fun heq => hne ⟨heq.symm, rfl⟩
    rw [hw.row_self]
    cases hc with
    | same => rfl
    | refused why =>
        obtain ⟨c, hc⟩ := Option.isSome_iff_exists.1 hchain
        unfold Row.withChain
        rw [chainOf_some hc, ← hc]
    | failed free base => exact absurd hheld free
    | written free base origin hhold => exact absurd hheld free
    | inserted free =>
        rw [hrec] at free
        cases free
    | updatedInPlace inPlace | deletedInPlace inPlace | insertedInPlace inPlace free =>
        rw [hv] at inPlace
        cases inPlace
  · exact hw.row_other hr.symm

theorem Stays.trans {db'' : Db} (h : Stays db db' t r) (h' : Stays db' db'' t r) :
    Stays db db'' t r :=
  ⟨h'.live, h'.row.trans h.row, h'.overlay.trans h.overlay, h'.txnMode.trans h.txnMode,
    fun htouch => h'.touched (h.touched htouch)⟩

/-- The end of another transaction. -/
theorem Ended.stays {u : TxnId} (he : Ended db db' u) (hne : t ≠ u) (ht : db.Live t)
    (hrow : db'.rows r = db.rows r) : Stays db db' t r := by
  have htxn := Db.txn_congr (he.others t hne)
  exact ⟨(he.live_iff hne).2 ht, hrow, by rw [htxn], by rw [htxn], fun h => by rw [htxn]; exact h⟩

theorem Ended.dead (he : Ended db db' t) : db'.Dead t := by
  obtain ⟨x, hx, -⟩ := he.self
  exact ⟨by rw [hx]; rfl, he.not_live⟩

/-- A row that `t` owns is in no other write set. -/
theorem untouched_of_owner (hh : Held db) (ho : db.Owns t r) {u : TxnId} (hu : db.Live u)
    (hne : t ≠ u) : (db.txn u).touches r = false := by
  by_contra h
  rw [Bool.not_eq_false] at h
  exact hne (hh.unique ho (hh.owns u r hu h))

theorem Held.abort_stays {u : TxnId} (hh : Held db) (ho : db.Owns t r) (ht : db.Live t) (hu : db.Live u) :
    (db.abort u).Dead t ∨ Stays db (db.abort u) t r := by
  have ha := abort_spec hu.live
  rcases eq_or_ne t u with rfl | hne
  · exact .inl ha.ended.dead
  · exact .inr (ha.ended.stays hne ht (ha.untouched hh (untouched_of_owner hh ho hu hne)))

/-- A row of a statement that is not a write of `r` by `t`. -/
theorem afterRow_stays {u : TxnId} {r' : RowId} {out : RowResult} {P : Db → Prop} (hout : out.Ends P)
    (hP : ∀ db1, P db1 → RowOp u r' db db1 ∧ Held db1)
    (hv : db.needsVersioning (db.txn u) r'.tab = true) (hu : db.Live u) (ht : db.Live t)
    (ho : db.Owns t r) (hrec : (db.rows r).slot.isRecord = true)
    (hchain : (db.rows r).chain.isSome) (hne : ¬ (u = t ∧ r' = r))
    (hstep : afterRow u out = some db') : db'.Dead t ∨ Stays db db' t r := by
  cases out with
  | next db1 | done db1 =>
      cases hstep
      exact .inr ((hP _ hout).1.stays hv hu ht ho hrec hchain hne)
  | abort db1 =>
      cases hstep
      obtain ⟨hop, hh⟩ := hP db1 hout
      have hs := hop.stays hv hu ht ho hrec hchain hne
      have ho1 : db1.Owns t r := by
        unfold Db.Owns
        rw [hs.row]
        exact ho
      rcases hh.abort_stays ho1 hs.live ((hop.live_iff hu u).2 hu) with hdead | hs'
      · exact .inl hdead
      · exact .inr (hs.trans hs')
  | stop => cases hstep

theorem begin_stays (hn : Neat db.Live db) (ht : db.Live t) (explicit : Bool) (iso : IsolationLevel) :
    Stays db (db.begin explicit iso) t r := by
  have hne : t ≠ db.nextTxnId := by
    rintro rfl
    have hsome := (Txn.live_iff.1 ht).1
    rw [hn.held.inv.fresh _ le_rfl] at hsome
    cases hsome
  have htxn : (db.begin explicit iso).txn t = db.txn t := Db.txn_congr (begin_txns_ne hne)
  refine ⟨?_, rfl, by rw [htxn], by rw [htxn], fun h => by rw [htxn]; exact h⟩
  unfold Db.Live
  rw [begin_txns_ne hne]
  exact ht

theorem release_stays {u : TxnId} (hh : Held db) (ht : db.Live t) (ho : db.Owns t r) (hu : db.Live u)
    (hne : t ≠ u) : Stays db (db.releaseStatementWrites u) t r := by
  have htxn : (db.releaseStatementWrites u).txn t = db.txn t := Db.txn_congr (release_txns_ne hne)
  refine ⟨(release_live_iff (Txn.live_iff.1 hu).1 t).2 ht, ?_, by rw [htxn], by rw [htxn],
    fun h => by rw [htxn]; exact h⟩
  rcases release_row db u r with ⟨heq, -⟩ | ⟨c, -, hc, hw, -⟩
  · exact heq
  · exact absurd (hh.unique ho (.inl ⟨c, hc, hw⟩)) hne

/-- **What a transaction owns stays.** -/
theorem execStep_stays {a : ExecOp} (hn : Neat db.Live db) (ht : db.Live t) (ho : db.Owns t r)
    (hchain : (db.rows r).chain.isSome) (hquiet : ¬ a.writes t r) (hend : a ≠ .endStmt t)
    (hstep : execStep db a = some db') : db'.Dead t ∨ Stays db db' t r := by
  have hrec := hn.held.isRecord ho
  cases a with
  | begin explicit iso =>
      cases hstep
      exact .inr (begin_stays hn ht explicit iso)
  | insert u tab data rid =>
      obtain ⟨⟨hu, hv, hlen⟩, hstep⟩ := Option.ite_none_right_eq_some.1 hstep
      exact afterRow_stays (insertRow_insertOp u tab db (data, rid))
        (fun db1 h => ⟨h.rowOp, (h.neat hv hn hu hlen).held⟩) hv hu ht ho hrec hchain hquiet hstep
  | update u tab sets rid =>
      obtain ⟨⟨hu, hv, hrec', -⟩, hstep⟩ := Option.ite_none_right_eq_some.1 hstep
      exact afterRow_stays (updateRow_op u tab sets db rid fun hc => hn.held.inv.chains.any hc)
        (fun db1 h => ⟨h, h.held hv hn.held hu hrec'⟩) hv hu ht ho hrec hchain hquiet hstep
  | delete u tab rid =>
      obtain ⟨⟨hu, hv, hrec', hread⟩, hstep⟩ := Option.ite_none_right_eq_some.1 hstep
      obtain ⟨img, hread⟩ := Option.isSome_iff_exists.1 hread
      exact afterRow_stays (deleteRow_op u tab true db rid
          (fun _ => readRow_baseOk hn.held.inv.chains hread) (fun hf => absurd rfl hf))
        (fun db1 h => ⟨h, h.held hv hn.held hu hrec'⟩) hv hu ht ho hrec hchain hquiet hstep
  | endStmt u =>
      obtain ⟨hu, heq⟩ := Option.ite_none_right_eq_some.1 hstep
      cases heq
      exact .inr (release_stays hn.held ht ho hu fun heq => hend (by rw [heq]))
  | commit u =>
      obtain ⟨hu, hcommit⟩ := Option.ite_none_right_eq_some.1 hstep
      have hc := commit_spec hu.live hcommit
      rcases eq_or_ne t u with rfl | hne
      · exact .inl hc.ended.dead
      · have htouch := untouched_of_owner hn.held ho hu hne
        refine .inr (hc.ended.stays hne ht ?_)
        rw [hc.untouched r htouch, restored_untouched hn.held.inv htouch]
  | abort u =>
      obtain ⟨hu, heq⟩ := Option.ite_none_right_eq_some.1 hstep
      cases heq
      exact hn.held.abort_stays ho ht hu

/-! ## Ended transactions -/

theorem Ended.keeps_dead {u : TxnId} (he : Ended db db' u) (hd : db.Dead t) : db'.Dead t := by
  rcases eq_or_ne t u with rfl | hne
  · exact he.dead
  · refine ⟨?_, fun hl => hd.2 ((he.live_iff hne).1 hl)⟩
    rw [he.others t hne]
    exact hd.1

theorem RowOp.keeps_dead {u : TxnId} (h : RowOp u r db db') (hu : db.Live u) (hd : db.Dead t) :
    db'.Dead t := by
  refine ⟨?_, fun hl => hd.2 ((h.live_iff hu t).1 hl)⟩
  obtain ⟨row, ws, mark, hw, -⟩ := h
  rw [hw.txns_isSome (Txn.live_iff.1 hu).1]
  exact hd.1

theorem afterRow_dead {u : TxnId} {out : RowResult} (hout : out.Ends (RowOp u r db)) (hu : db.Live u)
    (hd : db.Dead t) (hstep : afterRow u out = some db') : db'.Dead t := by
  cases out with
  | next db1 | done db1 =>
      cases hstep
      exact RowOp.keeps_dead hout hu hd
  | abort db1 =>
      cases hstep
      have hop : RowOp u r db db1 := hout
      exact (abort_spec ((hop.live_iff hu u).2 hu).live).ended.keeps_dead (hop.keeps_dead hu hd)
  | stop => cases hstep

/-- Ids are not given out twice, so an ended transaction stays ended. -/
theorem execStep_dead {a : ExecOp} (hn : Neat db.Live db) (hd : db.Dead t)
    (hstep : execStep db a = some db') : db'.Dead t := by
  cases a with
  | begin explicit iso =>
      cases hstep
      have hne : t ≠ db.nextTxnId := by
        rintro rfl
        have hsome := hd.1
        rw [hn.held.inv.fresh _ le_rfl] at hsome
        cases hsome
      unfold Db.Dead Db.Live
      rw [begin_txns_ne hne]
      exact hd
  | insert u tab data rid =>
      obtain ⟨⟨hu, -⟩, hstep⟩ := Option.ite_none_right_eq_some.1 hstep
      exact afterRow_dead (insertRow_op u tab db (data, rid)) hu hd hstep
  | update u tab sets rid =>
      obtain ⟨⟨hu, -⟩, hstep⟩ := Option.ite_none_right_eq_some.1 hstep
      exact afterRow_dead (updateRow_op u tab sets db rid fun hc => hn.held.inv.chains.any hc) hu hd hstep
  | delete u tab rid =>
      obtain ⟨⟨hu, -, -, hread⟩, hstep⟩ := Option.ite_none_right_eq_some.1 hstep
      obtain ⟨img, hread⟩ := Option.isSome_iff_exists.1 hread
      exact afterRow_dead (deleteRow_op u tab true db rid
        (fun _ => readRow_baseOk hn.held.inv.chains hread) (fun hf => absurd rfl hf)) hu hd hstep
  | endStmt u =>
      obtain ⟨hu, heq⟩ := Option.ite_none_right_eq_some.1 hstep
      cases heq
      have hsome := (Txn.live_iff.1 hu).1
      refine ⟨?_, fun hl => hd.2 ((release_live_iff hsome t).1 hl)⟩
      rw [release_isSome hsome]
      exact hd.1
  | commit u =>
      obtain ⟨hu, hcommit⟩ := Option.ite_none_right_eq_some.1 hstep
      exact (commit_spec hu.live hcommit).ended.keeps_dead hd
  | abort u =>
      obtain ⟨hu, heq⟩ := Option.ite_none_right_eq_some.1 hstep
      cases heq
      exact (abort_spec hu.live).ended.keeps_dead hd

/-! ## Settled writes -/

/-- `t` reads `img` of the row, and commits it. -/
structure Settled (db : Db) (t : TxnId) (r : RowId) (img : Image) : Prop where
  live : db.Live t
  touched : (db.txn t).touches r = true
  pending : ∃ c, (db.rows r).chain = some c ∧
    ((db.txn t).overlay r = none ∧ c.writer = some t ∧ c.writerDel = false ∧ c.writerData = img ∨
      (db.txn t).overlay r = some ⟨img, false⟩ ∧
        (c.writer = some t → c.holdWriterToCommit = true ∨ (db.txn t).txnMode = false))

variable {img : Image}

theorem Settled.owns (h : Settled db t r img) (hh : Held db) : db.Owns t r :=
  hh.owns t r h.live h.touched

theorem Settled.stays (h : Settled db t r img) (hs : Stays db db' t r) : Settled db' t r img := by
  refine ⟨hs.live, hs.touched h.touched, ?_⟩
  rw [hs.row, hs.overlay, hs.txnMode]
  exact h.pending

/-- The release moves a write that is not held to the overlay. -/
theorem release_moves {c : MvccChain} (hmode : (db.txn t).txnMode = true)
    (htouch : (db.txn t).touches r = true) (hc : (db.rows r).chain = some c)
    (hw : c.writer = some t) (hhold : c.holdWriterToCommit = false) :
    ((db.releaseStatementWrites t).rows r).chain =
        some { c with writer := none, writerDel := false, writerData := .empty } ∧
      ((db.releaseStatementWrites t).txn t).overlay r = some ⟨c.writerData, c.writerDel⟩ := by
  have hrel : db.releasable t r = some c := by
    unfold Db.releasable
    rw [if_pos htouch, hc, Option.filter_some, if_pos (by simp [hw, hhold])]
  unfold Db.releaseStatementWrites
  rw [hmode]
  simp [Db.txn, hrel]

/-- It leaves any other write where it is. -/
theorem release_keeps (hkeep : ∀ c, (db.rows r).chain = some c → c.writer = some t →
    c.holdWriterToCommit = true ∨ (db.txn t).txnMode = false) :
    (db.releaseStatementWrites t).rows r = db.rows r ∧
      ((db.releaseStatementWrites t).txn t).overlay r = (db.txn t).overlay r := by
  rcases release_row db t r with hsame | ⟨c, -, hc, hw, hhold, -⟩
  · exact hsame
  · rcases hkeep c hc hw with h | hmode
    · rw [hhold] at h
      cases h
    · unfold Db.releaseStatementWrites
      rw [hmode]
      exact ⟨rfl, rfl⟩

theorem release_txnMode (db : Db) (t u : TxnId) :
    ((db.releaseStatementWrites t).txn u).txnMode = (db.txn u).txnMode :=
  release_proj (fun x => x.txnMode) (fun _ _ => rfl) u

theorem release_touches (db : Db) (t u : TxnId) (r : RowId) :
    ((db.releaseStatementWrites t).txn u).touches r = (db.txn u).touches r :=
  release_proj (fun x => x.touches r) (fun _ _ => rfl) u

theorem release_live (ht : db.Live t) : (db.releaseStatementWrites t).Live t :=
  (release_live_iff (Txn.live_iff.1 ht).1 t).2 ht

/-- A write that no overlay stands for, or that goes to the overlay, settles as it is. -/
theorem release_settles {c : MvccChain} (ht : db.Live t) (htouch : (db.txn t).touches r = true)
    (hc : (db.rows r).chain = some c) (hw : c.writer = some t) (hdel : c.writerDel = false)
    (hfree : (db.txn t).overlay r = none ∨
      c.holdWriterToCommit = false ∧ (db.txn t).txnMode = true) :
    Settled (db.releaseStatementWrites t) t r c.writerData := by
  refine ⟨release_live ht, by rw [release_touches, htouch], ?_⟩
  by_cases hmove : c.holdWriterToCommit = false ∧ (db.txn t).txnMode = true
  · obtain ⟨hchain, hov⟩ := release_moves hmove.2 htouch hc hw hmove.1
    refine ⟨_, hchain, .inr ⟨?_, fun hnone => by cases hnone⟩⟩
    rw [hov, hdel]
  · have hkeep : ∀ c', (db.rows r).chain = some c' → c'.writer = some t →
        c'.holdWriterToCommit = true ∨ (db.txn t).txnMode = false := by
      intro c' hc' _
      rw [hc] at hc'
      cases hc'
      rw [not_and_or, Bool.not_eq_false, Bool.not_eq_true] at hmove
      exact hmove
    obtain ⟨hrow, hov⟩ := release_keeps hkeep
    rw [hrow, hov]
    exact ⟨c, hc, .inl ⟨hfree.resolve_right hmove, hw, hdel, rfl⟩⟩

/-- Under an overlay that stays, it settles as the overlay. -/
theorem release_shadows {c : MvccChain} (ht : db.Live t) (htouch : (db.txn t).touches r = true)
    (hc : (db.rows r).chain = some c) (hov : (db.txn t).overlay r = some ⟨img, false⟩)
    (hkeep : c.holdWriterToCommit = true ∨ (db.txn t).txnMode = false) :
    Settled (db.releaseStatementWrites t) t r img := by
  have hkeep' : ∀ c', (db.rows r).chain = some c' → c'.writer = some t →
      c'.holdWriterToCommit = true ∨ (db.txn t).txnMode = false := by
    intro c' hc' _
    rw [hc] at hc'
    cases hc'
    exact hkeep
  obtain ⟨hrow, hov'⟩ := release_keeps hkeep'
  refine ⟨release_live ht, by rw [release_touches, htouch], ?_⟩
  rw [hrow, hov', release_txnMode]
  exact ⟨c, hc, .inr ⟨hov, fun _ => hkeep⟩⟩

theorem Settled.release (h : Settled db t r img) : Settled (db.releaseStatementWrites t) t r img := by
  obtain ⟨c, hc, ⟨hov, hw, hdel, rfl⟩ | ⟨hov, hkeep⟩⟩ := h.pending
  · exact release_settles h.live h.touched hc hw hdel (.inl hov)
  · have hkeep' : ∀ c', (db.rows r).chain = some c' → c'.writer = some t →
        c'.holdWriterToCommit = true ∨ (db.txn t).txnMode = false := by
      intro c' hc' hw
      rw [hc] at hc'
      cases hc'
      exact hkeep hw
    obtain ⟨hrow, hov'⟩ := release_keeps hkeep'
    refine ⟨release_live h.live, by rw [release_touches, h.touched], ?_⟩
    rw [hrow, hov', release_txnMode]
    exact ⟨c, hc, .inr ⟨hov, hkeep⟩⟩

theorem execStep_settled {a : ExecOp} (hn : Neat db.Live db) (h : Settled db t r img)
    (hquiet : ¬ a.writes t r) (hstep : execStep db a = some db') :
    db'.Dead t ∨ Settled db' t r img := by
  by_cases hend : a = .endStmt t
  · subst hend
    obtain ⟨-, heq⟩ := Option.ite_none_right_eq_some.1 hstep
    cases heq
    exact .inr h.release
  · obtain ⟨c, hc, -⟩ := h.pending
    rcases execStep_stays hn h.live (h.owns hn.held) (by rw [hc]; rfl) hquiet hend hstep with hd | hs
    · exact .inl hd
    · exact .inr (h.stays hs)

/-- What is settled is what `t` reads. -/
theorem Settled.read (h : Settled db t r img) (hI : Inv db) : db.mvccRead t r = some img := by
  obtain ⟨c, hc, hpend⟩ := h.pending
  unfold Db.mvccRead
  rw [hI.chains.any (by rw [hc]; rfl), Bool.not_true, if_neg Bool.false_ne_true]
  rcases hpend with ⟨hov, hw, hdel, rfl⟩ | ⟨hov, -⟩
  · rw [hov]
    dsimp only
    rw [hc]
    dsimp only
    rw [Db.chainRead, if_pos hw, hdel, if_neg Bool.false_ne_true]
  · rw [hov]
    rfl

/-! ## What the commit leaves -/

/-- The bytes of the newest committed version; a row without versions has those of the heap. -/
def Db.version (db : Db) (r : RowId) : Option Bytes :=
  match (db.rows r).chain.bind fun c => c.hist.getLast? with
  | none => some (db.rows r).slot.data.bytes
  | some v => if v.isDeleted then none else some v.data.bytes

/-- The newest version and the heap hold `b`. -/
structure Db.Stored (db : Db) (r : RowId) (b : Bytes) : Prop where
  version : db.version r = some b
  isRecord : (db.rows r).slot.isRecord = true
  heap : (db.rows r).slot.data.bytes = b

theorem version_of_none (h : (db.rows r).chain = none) :
    db.version r = some (db.rows r).slot.data.bytes := by
  unfold Db.version
  rw [h]
  rfl

theorem Settled.restored (h : Settled db t r img) {c : MvccChain}
    (hc : (db.restored t r).chain = some c) : c.writerDel = false ∧ c.writerData = img := by
  obtain ⟨c0, hc0, ⟨hov, -, hdel, hdata⟩ | ⟨hov, -⟩⟩ := h.pending
  · rw [restored_of_none hov, hc0] at hc
    cases hc
    exact ⟨hdel, hdata⟩
  · unfold Db.restored Db.restoreWritersFromOverlays at hc
    simp only [hov] at hc
    cases hc
    exact ⟨rfl, rfl⟩

theorem Settled.sized (h : Settled db t r img) (hn : Neat db.Live db) : db.sized r img := by
  obtain ⟨c, hc, ⟨-, hw, hdel, rfl⟩ | ⟨hov, -⟩⟩ := h.pending
  · exact (hn.writer t r c h.live hc hw).2 hdel
  · exact hn.overlay t r _ h.live hov rfl

/-- **What is settled is what the commit stores.** -/
theorem Settled.commit (h : Settled db t r img) (hn : Neat db.Live db)
    (hcommit : db.commit t = some db') : db'.Stored r img.bytes := by
  have hrec := hn.held.isRecord (h.owns hn.held)
  obtain ⟨c, slot, row, hchain, -, rfl, hrow, hslot⟩ :=
    (commit_spec h.live.live hcommit).published hn.held h.live h.touched
  obtain ⟨hdel, rfl⟩ := h.restored hchain
  -- an image without bytes is that of a table without columns
  have hheap : slot.isRecord = true ∧ slot.data.bytes = c.writerData.bytes := by
    rcases hslot with ⟨hdel', -⟩ | ⟨-, hempty, rfl⟩ | ⟨-, -, -, rfl⟩
    · rw [hdel] at hdel'
      cases hdel'
    · have hlen : c.writerData.bytes.length = (db.tabs r.tab).recordSize := h.sized hn
      have hold : (db.rows r).slot.data.bytes.length = (db.tabs r.tab).recordSize := hn.heap r hrec
      rw [hempty, List.length_nil] at hlen
      rw [← hlen] at hold
      exact ⟨hrec, by rw [hempty, List.eq_nil_of_length_eq_zero hold]⟩
    · exact ⟨hrec, rfl⟩
  have hslot' : (db'.rows r).slot = slot := by rw [hrow, reclaimRow_slot]
  refine ⟨?_, by rw [hslot', hheap.1], by rw [hslot', hheap.2]⟩
  have hnone : (db'.rows r).chain = none → db'.version r = some c.writerData.bytes := by
    intro hc
    rw [version_of_none hc, hslot', hheap.2]
  rcases reclaimRow_cases (db.watermark t) { db.restored t r with
    slot := slot
    chain := Db.pruneMvccAfterCommit (c.published t (db.nextCts t)) (db.watermark t)
      (db.nextCts t) } with heq | ⟨c0, v0, -, -, -, -, -, -, heq⟩
  · rw [heq] at hrow
    cases hprune : Db.pruneMvccAfterCommit (c.published t (db.nextCts t)) (db.watermark t)
        (db.nextCts t) with
    | none => exact hnone (by rw [hrow, hprune])
    | some c' =>
        unfold Db.version
        rw [hrow]
        dsimp only
        rw [hprune, Option.bind_some, prune_getLast hprune]
        simp [MvccChain.published, hdel]
  · exact hnone (by rw [hrow, heq])

/-! ## From the statement to the commit -/

/-- Does an overlay stand for the row once an update has written it? -/
def Db.shadowed (db : Db) (t : TxnId) (r : RowId) (sets : List SetClause) : Prop :=
  ((db.txn t).overlay r).isSome = true ∧
    ((db.chainOf r).holdWriterToCommit = true ∨ takesDelta (db.tabs r.tab) sets = true ∨
      (db.txn t).txnMode = false)

instance (db : Db) (t : TxnId) (r : RowId) (sets : List SetClause) : Decidable (db.shadowed t r sets) :=
  inferInstanceAs (Decidable (_ ∧ _))

theorem run_dead {ops : List ExecOp} (hn : Neat db.Live db) (hd : db.Dead t)
    (hrun : run execStep db ops = some db') : db'.Dead t :=
  (run_invariant (I := fun db => Neat db.Live db ∧ db.Dead t)
    (fun _ _ _ h hs => ⟨execStep_neat h.1 hs, execStep_dead h.1 h.2 hs⟩) ops _ _ ⟨hn, hd⟩ hrun).2

/-- Until the end of its statement. -/
theorem run_stays {ops : List ExecOp} (hn : Neat db.Live db) (ht : db.Live t) (ho : db.Owns t r)
    (hchain : (db.rows r).chain.isSome) (hquiet : ∀ a ∈ ops, ¬ a.writes t r ∧ a ≠ .endStmt t)
    (hrun : run execStep db ops = some db') :
    Neat db'.Live db' ∧ (db'.Dead t ∨ Stays db db' t r) := by
  have hstep : ∀ s a s', (Neat s.Live s ∧ (s.Dead t ∨ Stays db s t r)) →
      ¬ a.writes t r ∧ a ≠ .endStmt t → execStep s a = some s' →
        Neat s'.Live s' ∧ (s'.Dead t ∨ Stays db s' t r) := by
    rintro s a s' ⟨hns, hd | hs⟩ ⟨hq, hend⟩ hstep
    · exact ⟨execStep_neat hns hstep, .inl (execStep_dead hns hd hstep)⟩
    · refine ⟨execStep_neat hns hstep, ?_⟩
      have ho' : s.Owns t r := by
        unfold Db.Owns
        rw [hs.row]
        exact ho
      exact (execStep_stays hns hs.live ho' (by rw [hs.row]; exact hchain) hq hend hstep).imp_right hs.trans
  exact run_invariant_along hstep ops _ _ ⟨hn, .inr ⟨ht, rfl, rfl, rfl, id⟩⟩
    (along_of_forall ops db hquiet) hrun

/-- Until its next write of the row. -/
theorem run_settled {ops : List ExecOp} (hn : Neat db.Live db) (h : Settled db t r img)
    (hquiet : ∀ a ∈ ops, ¬ a.writes t r) (hrun : run execStep db ops = some db') :
    Neat db'.Live db' ∧ (db'.Dead t ∨ Settled db' t r img) := by
  have hstep : ∀ s a s', (Neat s.Live s ∧ (s.Dead t ∨ Settled s t r img)) →
      ¬ a.writes t r → execStep s a = some s' →
        Neat s'.Live s' ∧ (s'.Dead t ∨ Settled s' t r img) := by
    rintro s a s' ⟨hns, hd | hs⟩ hq hstep
    · exact ⟨execStep_neat hns hstep, .inl (execStep_dead hns hd hstep)⟩
    · exact ⟨execStep_neat hns hstep, execStep_settled hns hs hq hstep⟩
  exact run_invariant_along hstep ops _ _ ⟨hn, .inr h⟩ (along_of_forall ops db hquiet) hrun

/-- An update of a row after which its transaction goes on has written the row. -/
theorem update_wrote {tab : TabName} {sets : List SetClause} {rid : Rid} (hn : Neat db.Live db)
    (hstep : execStep db (.update t tab sets rid) = some db') (hd : ¬ db'.Dead t) :
    Db.updateRow t tab sets db rid = .next db' ∧ db.Live t ∧
      db.needsVersioning (db.txn t) tab = true := by
  obtain ⟨⟨ht, hv, -, -⟩, hstep⟩ := Option.ite_none_right_eq_some.1 hstep
  have hop := updateRow_op t tab sets db rid fun hc => hn.held.inv.chains.any hc
  cases hout : Db.updateRow t tab sets db rid with
  | next db1 =>
      rw [hout] at hstep
      cases hstep
      exact ⟨rfl, ht, hv⟩
  | done db1 => exact absurd hout (updateRow_not_done t tab sets db rid db1)
  | abort db1 =>
      rw [hout] at hop hstep
      cases hstep
      have hop : RowOp t ⟨tab, rid⟩ db db1 := hop
      exact absurd (abort_spec ((hop.live_iff ht t).2 ht).live).ended.dead hd
  | stop =>
      rw [hout] at hstep
      cases hstep

/-- What it has written, as it stands in the chain. -/
structure Fresh (db db' : Db) (t : TxnId) (r : RowId) (sets : List SetClause) (visible new : Image) :
    Prop where
  read : db.mvccRead t r = some visible
  assigned : db.assigned t r visible.bytes sets = some new.bytes
  live : db'.Live t
  touched : (db'.txn t).touches r = true
  overlay : (db'.txn t).overlay r = (db.txn t).overlay r
  txnMode : (db'.txn t).txnMode = (db.txn t).txnMode
  chain : ∃ c, (db'.rows r).chain = some c ∧ c.writer = some t ∧ c.writerDel = false ∧
    c.writerData = new ∧
    c.holdWriterToCommit = ((db.chainOf r).holdWriterToCommit || takesDelta (db.tabs r.tab) sets)

theorem updateRow_fresh {tab : TabName} {sets : List SetClause} {rid : Rid} (hn : Neat db.Live db)
    (ht : db.Live t) (hv : db.needsVersioning (db.txn t) tab = true)
    (h : Db.updateRow t tab sets db rid = .next db') :
    ∃ visible new, Fresh db db' t ⟨tab, rid⟩ sets visible new := by
  obtain ⟨visible, db1, new, hread, hout, hframe⟩ := updateRow_next hv h
  obtain ⟨-, hw, hassigned⟩ := chooseWrite_written hout
  have hlive1 := hw.live ht
  have htouch : (db1.txn t).touches ⟨tab, rid⟩ = true := by
    refine RowWrite.touches_of hw ?_
    exact (touched_or_record hn.held.inv (hn.recorded t _ ht) _).imp_right
      fun hmem => ⟨rfl, _, hmem, rfl⟩
  refine ⟨visible, new, hread, hassigned, hframe.live hlive1, hframe.touches htouch, ?_, ?_, ?_⟩
  · rw [hframe.overlay, hw.overlay]
  · rw [hframe.txnMode, hw.txnMode]
  · rw [hframe.row_self, hw.row_self]
    exact ⟨_, rfl, rfl, rfl, rfl, rfl⟩

theorem Fresh.stays {db'' : Db} {sets : List SetClause} {visible new : Image}
    (h : Fresh db db' t r sets visible new) (hs : Stays db' db'' t r) :
    Fresh db db'' t r sets visible new := by
  refine ⟨h.read, h.assigned, hs.live, hs.touched h.touched, by rw [hs.overlay, h.overlay],
    by rw [hs.txnMode, h.txnMode], ?_⟩
  rw [hs.row]
  exact h.chain

/-- What `t` reads of a row it has an overlay of is the overlay. -/
theorem mvccRead_overlay {visible : Image} (hI : Inv db) (hread : db.mvccRead t r = some visible)
    (hov : ((db.txn t).overlay r).isSome = true) : (db.txn t).overlay r = some ⟨visible, false⟩ := by
  have hdirty := (hI.overlays t r hov).2
  unfold Db.tableIsDirty at hdirty
  rw [Bool.and_eq_true] at hdirty
  obtain ⟨ov, hov⟩ := Option.isSome_iff_exists.1 hov
  unfold Db.mvccRead at hread
  rw [hdirty.1, Bool.not_true, if_neg Bool.false_ne_true, hov] at hread
  dsimp only at hread
  split at hread
  · cases hread
  · rename_i hdel
    rw [Bool.not_eq_true] at hdel
    cases hread
    rw [hov, ← hdel]

/-- The image that is settled at the end of the statement. -/
theorem Fresh.settles {sets : List SetClause} {visible new : Image} (hI : Inv db)
    (h : Fresh db db' t r sets visible new) :
    Settled (db'.releaseStatementWrites t) t r (if db.shadowed t r sets then visible else new) := by
  obtain ⟨c, hc, hw, hdel, rfl, hhold⟩ := h.chain
  split
  · rename_i hshadow
    obtain ⟨hov, hkeep⟩ := hshadow
    refine release_shadows h.live h.touched hc ?_ ?_
    · rw [h.overlay, mvccRead_overlay hI h.read hov]
    · rw [hhold, h.txnMode, Bool.or_eq_true, or_assoc]
      exact hkeep
  · rename_i hshadow
    refine release_settles h.live h.touched hc hw hdel ?_
    rw [h.overlay, hhold, h.txnMode]
    unfold Db.shadowed at hshadow
    cases hov : (db.txn t).overlay r with
    | none => exact .inl rfl
    | some ov =>
        rw [hov] at hshadow
        simp only [Option.isSome_some, true_and, not_or, Bool.not_eq_true, Bool.not_eq_false] at hshadow
        exact .inr ⟨by rw [hshadow.1, hshadow.2.1]; rfl, hshadow.2.2⟩

/-- **An update settles the row at the end of its statement.** -/
theorem update_settles {tab : TabName} {sets : List SetClause} {rid : Rid} {db1 : Db}
    {ops : List ExecOp} (hn : Neat db.Live db)
    (hstep : execStep db (.update t tab sets rid) = some db1)
    (hrun : run execStep db1 ops = some db') (hquiet : ∀ a ∈ ops, ¬ a.writes t ⟨tab, rid⟩)
    (hend : .endStmt t ∈ ops) (hlive : db'.Live t) :
    ∃ visible new, db.mvccRead t ⟨tab, rid⟩ = some visible ∧
      db.assigned t ⟨tab, rid⟩ visible.bytes sets = some new.bytes ∧ Neat db'.Live db' ∧
      Settled db' t ⟨tab, rid⟩ (if db.shadowed t ⟨tab, rid⟩ sets then visible else new) := by
  have hn1 := execStep_neat hn hstep
  have hdead : ∀ {d : Db} {as : List ExecOp}, Neat d.Live d → run execStep d as = some db' →
      ¬ d.Dead t := fun hnd hr hd => (run_dead hnd hd hr).2 hlive
  obtain ⟨hout, ht, hv⟩ := update_wrote hn hstep (hdead hn1 hrun)
  obtain ⟨visible, new, hfresh⟩ := updateRow_fresh hn ht hv hout
  obtain ⟨pre, post, rfl, hfirst⟩ := List.eq_append_cons_of_mem hend
  rw [run_append] at hrun
  obtain ⟨db2, hpre, hrun⟩ := Option.bind_eq_some_iff.1 hrun
  obtain ⟨c, hc, hw, -⟩ := hfresh.chain
  obtain ⟨hn2, hs⟩ := run_stays hn1 hfresh.live (.inl ⟨c, hc, hw⟩) (by rw [hc]; rfl)
    (fun a ha => ⟨hquiet a (List.mem_append_left _ ha), fun heq => hfirst (heq ▸ ha)⟩) hpre
  have hfresh2 := hfresh.stays (hs.resolve_left (hdead hn2 hrun))
  rw [run_cons] at hrun
  obtain ⟨db3, hrel, hpost⟩ := Option.bind_eq_some_iff.1 hrun
  have hn3 := execStep_neat hn2 hrel
  obtain ⟨-, heq⟩ := Option.ite_none_right_eq_some.1 hrel
  cases heq
  obtain ⟨hn', hset⟩ := run_settled hn3 (hfresh2.settles hn.held.inv)
    (fun a ha => hquiet a (List.mem_append_right _ (List.mem_cons_of_mem _ ha))) hpost
  exact ⟨visible, new, hfresh.read, hfresh.assigned, hn',
    hset.resolve_left fun hd => hd.2 hlive⟩

/-- `t` updates the row in `db`, which leaves `db1`; in `db2` its statement has ended and `t` has not
written the row again; its commit leaves `db3`. -/
structure UpdateRun (boot : Db) (t : TxnId) (r : RowId) (sets : List SetClause) (db db1 db2 db3 : Db) :
    Prop where
  before : ∃ ops, run execStep boot ops = some db
  update : execStep db (.update t r.tab sets r.rid) = some db1
  rest : ∃ ops, (∀ a ∈ ops, ¬ a.writes t r) ∧ .endStmt t ∈ ops ∧ run execStep db1 ops = some db2
  commit : execStep db2 (.commit t) = some db3

theorem UpdateRun.neat {tabs : TabName → TabMeta} {files : TabName → RmFileHdr} {heap : RowId → Slot}
    {index : IndexId → IndexMap} {sets : List SetClause} {db1 db2 db3 : Db}
    (hheap : ∀ r, (heap r).isRecord = true → (heap r).data.bytes.length = (tabs r.tab).recordSize)
    (h : UpdateRun (Db.boot tabs files heap index) t r sets db db1 db2 db3) : Neat db.Live db := by
  obtain ⟨before, hbefore⟩ := h.before
  exact run_neat hheap hbefore

/-- The row of the update has not thrown. -/
theorem UpdateRun.next {boot db1 db2 db3 : Db} {sets : List SetClause} (hn : Neat db.Live db)
    (h : UpdateRun boot t r sets db db1 db2 db3) :
    Db.updateRow t r.tab sets db r.rid = .next db1 ∧ db.Live t ∧
      db.needsVersioning (db.txn t) r.tab = true := by
  obtain ⟨ops, -, -, hrun⟩ := h.rest
  obtain ⟨hlive, -⟩ := Option.ite_none_right_eq_some.1 h.commit
  exact update_wrote hn h.update fun hd => (run_dead (execStep_neat hn h.update) hd hrun).2 hlive

/-- **What `t` reads after the statement, and what its commit stores, is the image that the update has
settled.** -/
theorem UpdateRun.stored {tabs : TabName → TabMeta} {files : TabName → RmFileHdr} {heap : RowId → Slot}
    {index : IndexId → IndexMap} {sets : List SetClause} {db1 db2 db3 : Db}
    (hheap : ∀ r, (heap r).isRecord = true → (heap r).data.bytes.length = (tabs r.tab).recordSize)
    (h : UpdateRun (Db.boot tabs files heap index) t r sets db db1 db2 db3) :
    ∃ visible new img, db.mvccRead t r = some visible ∧
      db.assigned t r visible.bytes sets = some new.bytes ∧
      img = (if db.shadowed t r sets then visible else new) ∧
      db2.mvccRead t r = some img ∧ db3.Stored r img.bytes := by
  have hn := h.neat hheap
  obtain ⟨ops, hquiet, hend, hrun⟩ := h.rest
  obtain ⟨hlive, hcommit⟩ := Option.ite_none_right_eq_some.1 h.commit
  obtain ⟨visible, new, hread, hassigned, hn2, hset⟩ :=
    update_settles hn h.update hrun hquiet hend hlive
  exact ⟨visible, new, _, hread, hassigned, rfl, hset.read hn2.held.inv, hset.commit hn2 hcommit⟩

end Rmdb.Txn
