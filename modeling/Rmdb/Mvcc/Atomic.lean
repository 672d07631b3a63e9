import Rmdb.Lib.Run
import Rmdb.Mvcc.Visible

/-!
# Commits become visible at once

In a run whose sections are careful every read of a transaction shows its row as of its snapshot, so the
reads of one transaction see all of another's commit or nothing of it, and a repeated read gives the same
value.  Without that, `begin` can take the timestamp of a commit that is still publishing, and an index
scan can read a deleted row back from its cleared slot.
-/

namespace Rmdb.Txn

open Rmdb.Index (Rid)
open Rmdb.Lib (run Along run_invariant_along)
open Db (visibleVer verImage)

namespace Latched

section
variable (st : Latched)

/-- The timestamps that somebody reads at, now or later. -/
def Sees (ts : Ts) : Prop :=
  (∃ u, st.Reader u ∧ (st.db.txn u).readTs = ts) ∨ st.db.lastCommitTs ≤ ts

/-- The transaction has its timestamp for good. -/
def Stamped (w : TxnId) : Prop :=
  w < st.db.nextTxnId ∧ (st.db.Live w → (st.commitAt w).early = false)

/-- The read shows the row as it was when `w` had committed, or later. -/
def Reflects (w : TxnId) (x : Read) : Prop :=
  ∀ v ∈ st.history x.row, v.writerTxn = some w →
    ∃ ts, v.commitTs ≤ ts ∧ x.result = view (st.history x.row) ts

/-- The read shows the row as it was before `w` committed. -/
def Ignores (w : TxnId) (x : Read) : Prop :=
  ∀ v ∈ st.history x.row, v.writerTxn = some w →
    ∃ ts, ts < v.commitTs ∧ x.result = view (st.history x.row) ts

/-- Reads of rows that the reader has not written reflect all of a commit or nothing of it, and are
repeatable. -/
def Atomic : Prop :=
  ∀ t, (∀ w, (∀ x ∈ st.reads t, x.own = false → st.Reflects w x) ∨
      ∀ x ∈ st.reads t, x.own = false → st.Ignores w x) ∧
    ∀ x ∈ st.reads t, ∀ y ∈ st.reads t, x.own = false → y.own = false → x.row = y.row →
      x.result = y.result

end

structure Versions (st : Latched) : Prop where
  rows : ∀ r, RowOk st.Sees st.db.lastCommitTs (st.db.rows r) (st.history r)
  reads : ∀ u x, x ∈ st.reads u → x.own = false →
    x.result = view (st.history x.row) (st.db.txn u).readTs
  heapData : ∀ u r d, st.heapData u = some (r, d) → st.Reader u →
    some d = view (st.history r) (st.db.txn u).readTs ∨
      view (st.history r) (st.db.txn u).readTs = none ∨ (st.db.rows r).Late (st.db.txn u).readTs
  unread : ∀ u, st.db.nextTxnId ≤ u → st.heapData u = none
  authors : ∀ r v w, v ∈ st.history r → v.writerTxn = some w →
    v.commitTs = st.stampOf w ∧ st.Stamped w

variable {st st' : Latched} {t : TxnId} {r : RowId}

theorem Versions.atomic (h : Versions st) : Atomic st := by
  intro t
  refine ⟨fun w => ?_, fun x hx y hy hxo hyo hrow => ?_⟩
  · rcases Nat.lt_or_ge (st.db.txn t).readTs (st.stampOf w) with hlt | hge
    · refine .inr fun x hx hxo v hv hw => ⟨(st.db.txn t).readTs, ?_, h.reads t x hx hxo⟩
      rw [(h.authors x.row v w hv hw).1]
      exact hlt
    · refine .inl fun x hx hxo v hv hw => ⟨(st.db.txn t).readTs, ?_, h.reads t x hx hxo⟩
      rw [(h.authors x.row v w hv hw).1]
      exact hge
  · rw [h.reads t x hx hxo, h.reads t y hy hyo, hrow]

theorem Reader.lt_next (hl : Locks st) {u : TxnId} (hu : st.Reader u) : u < st.db.nextTxnId := by
  obtain ⟨⟨x, hx, -⟩, -⟩ := hu
  by_contra hge
  rw [(hl.fresh u (Nat.le_of_not_lt hge)).1] at hx
  cases hx

theorem reads_lt_next (hl : Locks st) {u : TxnId} {x : Read} (hx : x ∈ st.reads u) :
    u < st.db.nextTxnId := by
  by_contra hge
  rw [(hl.fresh u (Nat.le_of_not_lt hge)).2] at hx
  cases hx

theorem Frame.sees (hf : Frame st st' t) {ts : Ts} (h : st'.Sees ts) : st.Sees ts := by
  rcases h with ⟨u, hu, hts⟩ | hle
  · exact .inl ⟨u, hf.reader_of hu, by rw [← hf.readTs_eq]; exact hts⟩
  · exact .inr (le_trans hf.now hle)

theorem Versions.of_frame (h : Versions st) (hl : Locks st) (hf : Frame st st' t)
    (hreads : st'.reads = st.reads) (hheap : st'.heapData = st.heapData)
    (hhist : ∀ r, ∃ vs, st'.history r = st.history r ++ vs ∧ ∀ v ∈ vs,
      (∀ u, u < st.db.nextTxnId → (st.db.txn u).readTs < v.commitTs) ∧
        ∀ w, v.writerTxn = some w → v.commitTs = st'.stampOf w ∧ st'.Stamped w)
    (hrows : ∀ r, RowOk st.Sees st'.db.lastCommitTs (st'.db.rows r) (st'.history r))
    (hlate : ∀ r u, st'.Reader u → (st.db.rows r).Late (st.db.txn u).readTs →
      (st'.db.rows r).Late (st.db.txn u).readTs)
    (hself : st.Stamped t → (st'.db.Live t → (st'.commitAt t).early = false) ∧
      st'.stampOf t = st.stampOf t) : Versions st' where
  rows := fun r => (hrows r).mono (fun ts => hf.sees) le_rfl
  reads := by
    intro u x hx hxo
    rw [hreads] at hx
    obtain ⟨vs, heq, hvs⟩ := hhist x.row
    rw [hf.readTs_eq, heq, view_append fun v hv => (hvs v hv).1 u (reads_lt_next hl hx)]
    exact h.reads u x hx hxo
  heapData := by
    intro u r d hd hu
    rw [hheap] at hd
    rw [hf.readTs_eq]
    have hu' := hf.reader_of hu
    obtain ⟨vs, heq', hvs⟩ := hhist r
    rw [heq', view_append fun v hv => (hvs v hv).1 u (hu'.lt_next hl)]
    exact (h.heapData u r d hd hu').imp_right (Or.imp_right (hlate r u hu))
  unread := by
    intro u hu
    rw [hf.next] at hu
    rw [hheap]
    exact h.unread u hu
  authors := by
    intro r v w hv hw
    obtain ⟨vs, heq, hvs⟩ := hhist r
    rw [heq] at hv
    rcases List.mem_append.1 hv with hv | hv
    · obtain ⟨h1, h2⟩ := h.authors r v w hv hw
      rcases eq_or_ne w t with rfl | hne
      · obtain ⟨hlive, hst⟩ := hself h2
        rw [hst]
        exact ⟨h1, by rw [hf.next]; exact h2.1, hlive⟩
      · rw [hf.stampOf w hne]
        refine ⟨h1, by rw [hf.next]; exact h2.1, fun hlw => ?_⟩
        rw [hf.commitAt w hne]
        exact h2.2 ((hf.toOthers.live_iff hne).1 hlw)
    · exact (hvs v hv).2 w hw

/-- A step that publishes nothing. -/
theorem Versions.of_silent (h : Versions st) (hl : Locks st) (hf : Frame st st' t)
    (hreads : st'.reads = st.reads) (hheap : st'.heapData = st.heapData)
    (hhist : st'.history = st.history)
    (hrows : ∀ r, RowOk st.Sees st.db.lastCommitTs (st'.db.rows r) (st.history r))
    (hlate : ∀ r u, st'.Reader u → (st.db.rows r).Late (st.db.txn u).readTs →
      (st'.db.rows r).Late (st.db.txn u).readTs)
    (hself : st.Stamped t → (st'.db.Live t → (st'.commitAt t).early = false) ∧
      st'.stampOf t = st.stampOf t) : Versions st' := by
  refine h.of_frame hl hf hreads hheap ?_ ?_ hlate hself
  · intro r
    rw [hhist]
    exact ⟨[], (List.append_nil _).symm, fun v hv => by cases hv⟩
  · intro r
    rw [hhist]
    exact (hrows r).mono (fun _ => id) hf.now

/-- A step that leaves the rows alone. -/
theorem Versions.of_still (h : Versions st) (hl : Locks st) (hf : Frame st st' t)
    (hreads : st'.reads = st.reads) (hheap : st'.heapData = st.heapData)
    (hhist : st'.history = st.history) (hrows : st'.db.rows = st.db.rows)
    (hself : st.Stamped t → (st'.db.Live t → (st'.commitAt t).early = false) ∧
      st'.stampOf t = st.stampOf t) : Versions st' := by
  refine h.of_silent hl hf hreads hheap hhist ?_ ?_ hself
  · intro r
    rw [hrows]
    exact h.rows r
  · intro r u _ hlt
    rwa [hrows]

/-- A transaction on the way to its watermark has no version. -/
theorem Stamped.absurd_early (hl : st.db.Live t) (he : (st.commitAt t).early = true) {p : Prop}
    (hs : st.Stamped t) : p := by
  rw [hs.2 hl] at he
  cases he

theorem Ready.early (ht : st.Ready t) : (st.commitAt t).early = true := by
  rw [ht.2.1]
  rfl

theorem Ready.sees (ht : st.Ready t) : st.Sees (st.db.txn t).readTs := .inl ⟨t, ⟨ht.1, ht.2.1⟩, rfl⟩

theorem sees_now (st : Latched) : st.Sees st.db.lastCommitTs := .inr le_rfl

/-! ## Writes -/

/-- A row without a chain is in nobody's way. -/
theorem Locks.clear (hl : Locks st) (hnone : (st.db.rows r).chain = none)
    (hw : st.db.held t r = true ∨ st.db.overtaken t r = true) : False := by
  have hchain : st.db.chainOf r = {} := by
    rw [Db.chainOf, hnone]
    rfl
  have hpend : (st.db.rows r).pending = none := by
    cases hp : (st.db.rows r).pending with
    | none => rfl
    | some u =>
        have hc := ((hl.rows r).pending u hp).2.2.1
        rw [hnone] at hc
        cases hc
  rcases hw with hw | hw
  · rw [Db.held, Db.heldByOther, hchain, hpend] at hw
    cases hw
  · rw [Db.overtaken, hchain] at hw
    cases hw

theorem hasRead_spec {old : Image} (h : st.hasRead t r old = true) :
    ∃ x ∈ st.reads t, x.row = r ∧ x.result = some old := by
  obtain ⟨x, hx, hd⟩ := List.any_eq_true.1 h
  exact ⟨x, hx, of_decide_eq_true hd⟩

/-- What a transaction that has not claimed the row has read of it is what it sees. -/
theorem Versions.read_view (h : Versions st) (ht : st.Ready t) {old : Image}
    (hread : st.hasRead t r old = true) (hfree : ¬ st.Claims t r) :
    rowView (st.db.rows r) (st.db.txn t).readTs = some old := by
  obtain ⟨x, hx, hrow, hres⟩ := hasRead_spec hread
  have hown : x.own = false := by
    by_contra hne
    exact hfree (.inr ⟨x, hx, hrow, by simpa using hne⟩)
  rw [(h.rows r).sees _ ht.sees, ← hrow, ← h.reads t x hx hown, hres]

/-- The base version of a chain is what the heap has. -/
theorem Versions.withBase (h : Versions st) (hl : Locks st) (ht : st.Ready t) {old : Image}
    (hrec : (st.db.rows r).slot.isRecord = true) (hread : st.hasRead t r old = true) :
    (∃ c, (st.db.rows r).chain = some c ∧
        (st.db.withBase t r (st.db.chainOf r) old).hist = c.hist) ∨
      ((st.db.rows r).chain = none ∧ (st.db.withBase t r (st.db.chainOf r) old).hist =
        [⟨(st.db.rows r).slot.data, 0, false, none⟩]) := by
  have hclaims : ∀ {c : MvccChain}, c.writer = none → (st.db.rows r).chain = some c →
      (st.db.txn t).overlay r = none → ¬ st.Claims t r := by
    intro c hw hc hov hclaim
    rcases (hl.rows r).owns t ht.1 ht.2.1 hclaim with hown | hp
    · rw [Row.writer_chain hc, hw] at hown
      cases hown
    · have ho := ((hl.rows r).pending t hp).2.1
      change ((st.db.txn t).overlay r).isSome = true at ho
      rw [hov] at ho
      cases ho
  cases hc : (st.db.rows r).chain with
  | some c =>
      refine .inl ⟨c, rfl, ?_⟩
      rw [chainOf_of_some hc]
      unfold Db.withBase
      split
      · rename_i hb
        obtain ⟨hnil, hw, hov⟩ := hb
        have hview := h.read_view ht hread (hclaims hw hc hov)
        rw [rowView_chain hc, hnil] at hview
        cases hview
      · rfl
  | none =>
      refine .inr ⟨rfl, ?_⟩
      have hclaim : ¬ st.Claims t r := by
        intro hclaim
        rcases (hl.rows r).owns t ht.1 ht.2.1 hclaim with hown | hp
        · rw [Row.writer, hc] at hown
          cases hown
        · have hsome := ((hl.rows r).pending t hp).2.2.1
          rw [hc] at hsome
          cases hsome
      have hov : (st.db.txn t).overlay r = none := by
        by_contra hne
        exact hclaim (.inl ((hl.rows r).touches t (Option.isSome_iff_ne_none.2 hne)))
      have hview := h.read_view ht hread hclaim
      rw [rowView_heap hc, if_pos hrec] at hview
      have hchain : st.db.chainOf r = {} := by
        rw [Db.chainOf, hc]
        rfl
      unfold Db.withBase
      rw [hchain, if_pos ⟨rfl, rfl, hov⟩, Option.some.inj hview]

/-- A row that the transaction has read is still there, or deleted behind its snapshot. -/
theorem Versions.standing (h : Versions st) (hl : Locks st) : Standing st := by
  intro t r old ht hread
  by_cases hrec : (st.db.rows r).slot.isRecord = true
  · exact .inl hrec
  right
  have hrow := h.rows r
  have hheld := fun hor => hrec ((hl.rows r).held hor)
  have hwriter : (st.db.rows r).writer = none := by
    by_contra hne
    exact hheld (.inl (Option.isSome_iff_ne_none.2 hne))
  have hclaim : ¬ st.Claims t r := fun hclaim =>
    hheld (((hl.rows r).owns t ht.1 ht.2.1 hclaim).imp (fun hw => by rw [hw]; rfl) fun hp => by rw [hp]; rfl)
  have hview := h.read_view ht hread hclaim
  -- a version that everybody will see would be in the heap
  have hnow : view (st.history r) st.db.lastCommitTs = none := by
    cases hv : view (st.history r) st.db.lastCommitTs with
    | none => rfl
    | some img => exact absurd (by rw [hrow.slot_of_view hv]) hrec
  cases hc : (st.db.rows r).chain with
  | none =>
      rw [rowView_heap hc, if_neg hrec] at hview
      cases hview
  | some c =>
      rw [← hrow.sees _ (sees_now st)] at hnow
      rw [rowView_chain hc] at hview hnow
      unfold view at hview hnow
      cases hlast : c.hist.getLast? with
      | none =>
          rw [List.getLast?_eq_none_iff.1 hlast] at hview
          cases hview
      | some v =>
          rw [visibleVer_last hlast (hrow.chain c hc v (List.mem_of_getLast? hlast))] at hnow
          have hdel : v.isDeleted = true := by
            by_contra hd
            rw [verImage_data (by simpa using hd)] at hnow
            cases hnow
          refine ⟨by rw [chainOf_writer, hwriter], v, ?_, hdel⟩
          rw [chainOf_of_some hc, Db.newerVer, hlast]
          refine Option.filter_eq_some_iff.2 ⟨rfl, decide_eq_true ?_⟩
          by_contra hle
          rw [visibleVer_last hlast (Nat.not_lt.1 hle), verImage_tomb hdel] at hview
          cases hview

theorem Versions.row_write (h : Versions st) (hl : Locks st) (ht : st.Ready t) {db' : Db} {row : Row}
    {ws : List WriteRecord} {mark : Bool} (hw : RowWrite st.db db' t r row ws mark)
    (hrow : RowOk st.Sees st.db.lastCommitTs row (st.history r))
    (hlate : ∀ ts, (st.db.rows r).Late ts → row.Late ts) : Versions { st with db := db' } := by
  refine h.of_silent hl (RowWrite.frame hw ht.1) rfl rfl rfl ?_ ?_
    fun hs => hs.absurd_early ht.1 ht.early
  · intro r'
    show RowOk _ _ (db'.rows r') _
    rcases eq_or_ne r' r with rfl | hne
    · rw [hw.row_self]
      exact hrow
    · rw [hw.row_other hne]
      exact h.rows r'
  · intro r' u _ hlt
    show (db'.rows r').Late _
    rcases eq_or_ne r' r with rfl | hne
    · rw [hw.row_self]
      exact hlate _ hlt
    · rwa [hw.row_other hne]

/-- A write that takes nothing leaves what the row shows. -/
theorem Versions.touched (h : Versions st) (hl : Locks st) (ht : st.Ready t) {db' : Db}
    (hw : RowWrite st.db db' t r ((st.db.rows r).withChain (st.db.chainOf r)) [] true)
    (why : st.db.held t r = true ∨ st.db.overtaken t r = true) : Versions { st with db := db' } := by
  cases hc : (st.db.rows r).chain with
  | none => exact (hl.clear hc why).elim
  | some c =>
      rw [chainOf_of_some hc] at hw
      exact h.row_write hl ht hw ((h.rows r).same rfl hc rfl rfl) fun ts hlt => hlt.same hc rfl rfl

theorem Versions.refused (h : Versions st) (hl : Locks st) (ht : st.Ready t) {db' : Db}
    (hr : Refused st.db t r db') : Versions { st with db := db' } := by
  rcases hr with rfl | ⟨hw, why⟩
  · exact h
  · exact h.touched hl ht hw why

theorem Versions.versioned (h : Versions st) (hl : Locks st) (ht : st.Ready t) {old : Image}
    (hrec : (st.db.rows r).slot.isRecord = true) (hread : st.hasRead t r old = true) {db' : Db}
    (hv : Versioned st.db t r old db') : Versions { st with db := db' } := by
  cases hv with
  | same => exact h
  | touched hw why => exact h.touched hl ht hw why
  | took hw free hwriter hhist hdata hws =>
      rcases h.withBase hl ht hrec hread with ⟨c0, hc, hsame⟩ | ⟨hc, hbase⟩
      · exact h.row_write hl ht hw ((h.rows r).same rfl hc rfl (hhist.trans hsame))
          fun ts hlt => hlt.same hc rfl (hhist.trans hsame)
      · refine h.row_write hl ht hw ((h.rows r).base rfl hrec hc rfl (hhist.trans hbase)) ?_
        rintro ts ⟨c1, hc1, -⟩
        rw [hc] at hc1
        cases hc1

theorem Versions.insert (h : Versions st) (hl : Locks st) {data : Bytes}
    (hcare : st.Careful (.mvccInsert t r data)) (hs : st.insert t r data = some st') :
    Versions st' := by
  obtain ⟨⟨ht, hfree, -⟩, heq⟩ := Option.ite_none_right_eq_some.1 hs
  cases heq
  refine h.row_write hl ht (insert_write st.db t r data) ((h.rows r).insert hfree ?_ rfl rfl)
    fun ts _ => Row.Late.insert rfl rfl
  rintro ts (⟨u, hu, rfl⟩ | hle)
  · exact .inr (hcare u (hu.lt_next hl) hu)
  · exact .inl hle

/-! ## Statement ends and abort -/

theorem Versions.release (h : Versions st) (hl : Locks st) (hs : st.release t = some st') :
    Versions st' := by
  obtain ⟨ht, heq⟩ := Option.ite_none_right_eq_some.1 hs
  cases heq
  refine h.of_silent hl (release_frame ht) rfl rfl rfl ?_ ?_ fun hs => hs.absurd_early ht.1 ht.early
  · intro r
    show RowOk _ _ ((st.db.releaseStatementWrites t).rows r) _
    rcases release_row st.db t r with ⟨heq, -⟩ | ⟨c, -, hc, -, -, heq, -⟩
    · rw [heq]
      exact h.rows r
    · rw [heq]
      exact (h.rows r).same rfl hc rfl rfl
  · intro r u _ hlt
    show ((st.db.releaseStatementWrites t).rows r).Late _
    rcases release_row st.db t r with ⟨heq, -⟩ | ⟨c, -, hc, -, -, heq, -⟩
    · rwa [heq]
    · rw [heq]
      exact hlt.same hc rfl rfl

/-- A row with the overlay of `t` back in its chain. -/
theorem restored_same {c : MvccChain} (hl : Locks st) (ht : st.Ready t)
    (hc : (st.db.restored t r).chain = some c) : ∃ c0, (st.db.rows r).chain = some c0 ∧ c.hist = c0.hist := by
  have hhist := restored_chain hc
  cases hc0 : (st.db.rows r).chain with
  | some c0 =>
      rw [chainOf_of_some hc0] at hhist
      exact ⟨c0, rfl, hhist⟩
  | none =>
      cases hov : (st.db.txn t).overlay r with
      | none =>
          rw [restored_of_none hov, hc0] at hc
          cases hc
      | some ov =>
          have hp := (hl.rows r).overlay t ht.1 (.inl ht.2.1) (by
            show ((st.db.txn t).overlay r).isSome = true
            rw [hov]
            rfl)
          have hsome := ((hl.rows r).pending t hp).2.2.1
          rw [hc0] at hsome
          cases hsome

theorem Versions.abort (h : Versions st) (hl : Locks st) (hs : st.abort t = some st') :
    Versions st' := by
  obtain ⟨ht, heq⟩ := Option.ite_none_right_eq_some.1 hs
  cases heq
  refine h.of_silent hl (abort_frame ht) rfl rfl rfl ?_ ?_ fun hs => hs.absurd_early ht.1 ht.early
  · intro r
    show RowOk _ _ ((st.db.abort t).rows r) _
    rcases hl.abort_row ht r with ⟨-, heq⟩ | ⟨c, hc, -, -, heq⟩
    · rw [heq]
      exact h.rows r
    · obtain ⟨c0, hc0, hhist⟩ := restored_same hl ht hc
      rw [heq]
      exact ((h.rows r).same (restored_slot st.db t r) hc0 hc hhist).undo hc (sees_now st)
  · intro r u _ hlt
    show ((st.db.abort t).rows r).Late _
    rcases hl.abort_row ht r with ⟨-, heq⟩ | ⟨c, hc, -, -, heq⟩
    · rwa [heq]
    · obtain ⟨c0, hc0, hhist⟩ := restored_same hl ht hc
      rw [heq]
      exact hlt.same hc0 rfl hhist

/-! ## Commit -/

theorem Versions.startCommit (h : Versions st) (hl : Locks st) (hs : st.startCommit t = some st') :
    Versions st' := by
  obtain ⟨ht, hsec, hc⟩ := startCommit_section hs
  have heq : st' = st.setCommitAt t (.restoring (st.overlayRows t)) :=
    (Option.some.inj (Option.ite_none_right_eq_some.1 hs).2).symm
  refine h.of_still hl (hsec.frame (by rw [heq]; exact le_rfl) (by rw [hc]; simp)
    (by rw [heq]; exact fun _ _ => rfl)) (by rw [heq]; rfl) hsec.heapData (by rw [heq]; rfl)
    (by rw [heq]; rfl) fun hs => hs.absurd_early ht.1 ht.early

theorem Versions.restore (h : Versions st) (hl : Locks st) (hs : st.restore t r = some st') :
    Versions st' := by
  obtain ⟨todo, ov, hc, hov, hmem, heq⟩ := restore_spec hs
  obtain ⟨hsec, -, todo', -, -, hc', -⟩ := restore_section hs
  obtain ⟨hlive, -⟩ := hl.busy t (by rw [hc]; simp)
  have hp : (st.db.rows r).pending = some t := by
    refine (hl.rows r).overlay t hlive (.inr ⟨todo, hc, hmem⟩) ?_
    show ((st.db.txn t).overlay r).isSome = true
    rw [hov]
    rfl
  obtain ⟨c, hchain⟩ := Option.isSome_iff_exists.1 ((hl.rows r).pending t hp).2.2.1
  have hrow : (restoreRow t ov (st.db.rows r)).chain = some { c with
      writer := some t, writerDel := ov.isDeleted, writerData := ov.data } := by
    unfold restoreRow
    rw [hchain]
    rfl
  have hrows : st'.db.rows = Function.update st.db.rows r (restoreRow t ov (st.db.rows r)) := by
    rw [heq]
    rfl
  refine h.of_silent hl (hsec.frame (by rw [heq]; exact le_rfl) (by rw [hc']; simp)
    (by rw [heq]; exact fun _ _ => rfl)) (by rw [heq]; rfl) hsec.heapData (by rw [heq]; rfl) ?_ ?_
    fun hs => hs.absurd_early hlive (by rw [hc]; rfl)
  · intro r'
    rw [hrows]
    rcases eq_or_ne r' r with rfl | hne
    · rw [Function.update_self]
      exact (h.rows r').same rfl hchain hrow rfl
    · rw [Function.update_of_ne hne]
      exact h.rows r'
  · intro r' u _ hlt
    rw [hrows]
    rcases eq_or_ne r' r with rfl | hne
    · rw [Function.update_self]
      exact hlt.same hchain hrow rfl
    · rwa [Function.update_of_ne hne]

theorem Section.all_reads (hs : Section st st' t) : st'.reads = st.reads := by
  funext u
  rcases eq_or_ne u t with rfl | hne
  · exact hs.ownReads
  · exact hs.reads u hne

theorem Versions.stamp (h : Versions st) (hl : Locks st) (hs : st.stamp t = some st') :
    Versions st' := by
  obtain ⟨hc, -, hsec, hrows, hhist, -⟩ := stamp_spec hs
  exact h.of_still hl (stamp_frame hs) hsec.all_reads hsec.heapData hhist hrows
    fun hst => hst.absurd_early (hl.busy t (by rw [hc]; simp)).1 (by rw [hc]; rfl)

theorem Versions.watermark (h : Versions st) (hl : Locks st) (hs : st.watermark t = some st') :
    Versions st' := by
  obtain ⟨cts, hc, -, hsec, hrows, hhist, -⟩ := watermark_spec hs
  exact h.of_still hl (watermark_frame hs) hsec.all_reads hsec.heapData hhist hrows
    fun hst => hst.absurd_early (hl.busy t (by rw [hc]; simp)).1 (by rw [hc]; rfl)

theorem Clock.floor (h : Clock st) {wm : Ts} (hwm : (st.commitAt t).wm? = some wm) {ts : Ts}
    (hts : st.Sees ts) : wm ≤ ts := by
  obtain ⟨hnow, hreaders⟩ := h.watermark t wm hwm
  rcases hts with ⟨u, hu, rfl⟩ | hle
  · exact hreaders u hu
  · exact le_trans hnow hle

theorem Versions.publish (h : Versions st) (hl : Locks st) (hk : Clock st)
    (hs : st.publish t = some st') : Versions st' := by
  obtain ⟨cts, wm, todo, hc, hsec, -, -, hnow, hstamp, hcase⟩ := publish_spec hs
  have hframe := publish_frame hs
  have hwm : (st.commitAt t).wm? = some wm := by rw [hc]; rfl
  obtain ⟨hst, hcts⟩ := hk.stamp t cts (by rw [hc]; rfl)
  have hlt := Reader.lt_next (u := t) hl
  rcases hcase with ⟨-, hc', hrows, hhist⟩ | ⟨w, ws, row, htodo, hc', hpub, hrows, hhist⟩
  · refine h.of_still hl hframe hsec.all_reads hsec.heapData hhist hrows fun _ => ⟨fun _ => ?_, by rw [hstamp]⟩
    rw [hc']
    rfl
  · have howing : st.owing t = w :: ws := by
      unfold Latched.owing
      rw [hc, htodo]
    have hsnap := hk.owing t (by rw [howing]; exact List.cons_ne_nil w ws)
    rw [hst] at hsnap
    refine h.of_frame hl hframe hsec.all_reads hsec.heapData ?_ ?_ ?_ fun _ => ⟨fun _ => ?_, by rw [hstamp]⟩
    · intro r
      rw [hhist]
      rcases eq_or_ne r w.row with rfl | hne
      · refine ⟨_, Function.update_self _ _ _, fun v hv => ?_⟩
        have hver : v.commitTs = cts ∧ v.writerTxn = some t := by
          by_cases hw : (st.db.rows w.row).writer = some t
          · obtain ⟨c, hchain, hcw⟩ := Row.writer_some.1 hw
            rw [publishedVer_of hchain hcw] at hv
            rw [List.mem_singleton.1 hv]
            exact ⟨rfl, rfl⟩
          · rw [publishedVer_nil hw] at hv
            cases hv
        rw [hver.1, hver.2]
        refine ⟨hsnap, fun u hu => ?_⟩
        rw [← Option.some.inj hu, hstamp]
        refine ⟨hst.symm, ?_, fun _ => by rw [hc']; rfl⟩
        rw [hframe.next]
        obtain ⟨x, hx, -⟩ := (hl.busy t (by rw [hc]; simp)).1
        by_contra hge
        rw [(hl.fresh t (Nat.le_of_not_lt hge)).1] at hx
        cases hx
      · rw [Function.update_of_ne hne]
        exact ⟨[], (List.append_nil _).symm, fun v hv => by cases hv⟩
    · intro r
      rw [hrows, hhist, hnow]
      rcases eq_or_ne r w.row with rfl | hne
      · rw [Function.update_self, Function.update_self]
        exact (h.rows w.row).publish (fun ts hts => hk.floor hwm hts) hcts
          (fun c hchain hcw => (hl.rows w.row).data c t hchain hcw) hpub
      · rw [Function.update_of_ne hne, Function.update_of_ne hne]
        exact h.rows r
    · intro r u hu hlate
      have hu' := hframe.reader_of hu
      rw [hrows]
      rcases eq_or_ne r w.row with rfl | hne
      · rw [Function.update_self]
        exact hlate.publish (hk.floor hwm (.inl ⟨u, hu', rfl⟩)) (hsnap u (hu'.lt_next hl)) hpub
      · rwa [Function.update_of_ne hne]
    · rw [hc']
      rfl

theorem Versions.reclaim (h : Versions st) (hl : Locks st) (hk : Clock st)
    (hs : st.reclaim t = some st') : Versions st' := by
  obtain ⟨cts, wm, todo, hc, hcase⟩ := reclaim_spec hs
  have hwm : (st.commitAt t).wm? = some wm := by rw [hc]; rfl
  rcases hcase with ⟨-, heq⟩ | ⟨w, ws, -, hc', hsec, hrows, hhist, -, -, hnow, hstamp⟩
  · have hf : Finished st st' t := by
      rw [heq]
      exact finished (hl.not_pending (not_unrestored hc (by simp) (by simp)))
    exact h.of_still hl hf.frame hf.allReads hf.heapData hf.history hf.rows
      fun _ => ⟨fun hlive => absurd hlive hf.not_live, by rw [hf.stampOf]⟩
  · have hframe : Frame st st' t :=
      hsec.frame (le_of_eq hnow.symm) (by rw [hc']; simp) fun u _ => by rw [hstamp]
    refine h.of_silent hl hframe hsec.all_reads hsec.heapData hhist ?_ ?_
      fun _ => ⟨fun _ => by rw [hc']; rfl, by rw [hstamp]⟩
    · intro r
      rw [hrows]
      rcases eq_or_ne r w.row with rfl | hne
      · rw [Function.update_self]
        exact (h.rows w.row).reclaim (fun ts hts => hk.floor hwm hts) (sees_now st)
      · rw [Function.update_of_ne hne]
        exact h.rows r
    · intro r u hu hlate
      rw [hrows]
      rcases eq_or_ne r w.row with rfl | hne
      · rw [Function.update_self]
        exact hlate.reclaim (hk.floor hwm (.inl ⟨u, hframe.reader_of hu, rfl⟩))
      · rwa [Function.update_of_ne hne]

/-! ## Begin and reads -/

theorem Versions.beginRead (h : Versions st) (hl : Locks st) {explicit : Bool} {iso : IsolationLevel}
    (hs : st.beginRead explicit iso = some st') : Versions st' := by
  obtain ⟨-, heq⟩ := Option.ite_none_right_eq_some.1 hs
  have hself : (st'.db.txn st.db.nextTxnId).readTs = st.db.lastCommitTs := by
    cases heq
    simp [Db.txn]
  have hother : ∀ u, u ≠ st.db.nextTxnId → st'.db.txns u = st.db.txns u := by
    intro u hu
    cases heq
    exact Function.update_of_ne hu _ _
  have hrts : ∀ u, u ≠ st.db.nextTxnId → (st'.db.txn u).readTs = (st.db.txn u).readTs :=
    fun u hu => by rw [Db.txn_congr (hother u hu)]
  have hreader : ∀ u, u ≠ st.db.nextTxnId → st'.Reader u → st.Reader u := by
    rintro u hu ⟨⟨x, hx, hxl⟩, hout⟩
    rw [hother u hu] at hx
    refine ⟨⟨x, hx, hxl⟩, ?_⟩
    cases heq
    exact hout
  have hnow : st'.db.lastCommitTs = st.db.lastCommitTs := by
    cases heq
    rfl
  have hsees : ∀ ts, st'.Sees ts → st.Sees ts := by
    rintro ts (⟨u, hu, rfl⟩ | hle)
    · rcases eq_or_ne u st.db.nextTxnId with rfl | hne
      · rw [hself]
        exact sees_now st
      · rw [hrts u hne]
        exact .inl ⟨u, hreader u hne hu, rfl⟩
    · rw [hnow] at hle
      exact .inr hle
  refine ⟨fun r => ?_, ?_, ?_, ?_, ?_⟩
  · have hrow : st'.db.rows r = st.db.rows r ∧ st'.history r = st.history r := by
      cases heq
      exact ⟨rfl, rfl⟩
    rw [hrow.1, hrow.2, hnow]
    exact (h.rows r).mono hsees le_rfl
  · intro u x hx hxo
    have hsame : st'.reads u = st.reads u ∧ st'.history x.row = st.history x.row := by
      cases heq
      exact ⟨rfl, rfl⟩
    rw [hsame.1] at hx
    rw [hsame.2, hrts u (Nat.ne_of_lt (reads_lt_next hl hx))]
    exact h.reads u x hx hxo
  · intro u r d hd hu
    have hsame : st'.heapData u = st.heapData u ∧ st'.history r = st.history r ∧
        st'.db.rows r = st.db.rows r := by
      cases heq
      exact ⟨rfl, rfl, rfl⟩
    rw [hsame.1] at hd
    have hne : u ≠ st.db.nextTxnId := by
      rintro rfl
      rw [h.unread _ le_rfl] at hd
      cases hd
    rw [hsame.2.1, hsame.2.2, hrts u hne]
    exact h.heapData u r d hd (hreader u hne hu)
  · intro u hu
    have hsame : st'.heapData u = st.heapData u ∧ st'.db.nextTxnId = st.db.nextTxnId + 1 := by
      cases heq
      exact ⟨rfl, rfl⟩
    rw [hsame.2] at hu
    rw [hsame.1]
    exact h.unread u (Nat.le_of_succ_le hu)
  · intro r v w hv hw
    have hsame : st'.history r = st.history r ∧ st'.stampOf = st.stampOf ∧
        st'.commitAt = st.commitAt ∧ st'.db.nextTxnId = st.db.nextTxnId + 1 := by
      cases heq
      exact ⟨rfl, rfl, rfl, rfl⟩
    rw [hsame.1] at hv
    obtain ⟨h1, hlt, hearly⟩ := h.authors r v w hv hw
    rw [hsame.2.1]
    refine ⟨h1, by rw [hsame.2.2.2]; exact Nat.lt_succ_of_lt hlt, ?_⟩
    rintro ⟨x, hx, hxl⟩
    rw [hother w (Nat.ne_of_lt hlt)] at hx
    rw [hsame.2.2.1]
    exact hearly ⟨x, hx, hxl⟩

theorem Versions.register (h : Versions st) (hs : st.register = some st') : Versions st' := by
  unfold Latched.register at hs
  split at hs
  · cases hs
  · cases hs
    exact ⟨h.rows, h.reads, h.heapData, h.unread, h.authors⟩

/-- The bytes of a slot are what the snapshot shows, unless it shows nothing or the row has a newer
version. -/
theorem Versions.slot_view (h : Versions st) (ht : st.Ready t) (r : RowId) :
    some (st.db.rows r).slot.data = view (st.history r) (st.db.txn t).readTs ∨
      view (st.history r) (st.db.txn t).readTs = none ∨
      (st.db.rows r).Late (st.db.txn t).readTs := by
  have hrow := h.rows r
  have hsees := hrow.sees _ ht.sees
  cases hc : (st.db.rows r).chain with
  | none =>
      rw [rowView_heap hc] at hsees
      split at hsees
      · exact .inl hsees
      · exact .inr (.inl hsees.symm)
  | some c =>
      by_cases hlate : ∀ v, c.hist.getLast? = some v → (st.db.txn t).readTs < v.commitTs
      · exact .inr (.inr ⟨c, hc, hlate⟩)
      · -- the newest version is in the snapshot: a delete, or in the heap
        push Not at hlate
        obtain ⟨v, hlast, hle⟩ := hlate
        rw [rowView_chain hc, view, visibleVer_last hlast hle] at hsees
        cases hdel : v.isDeleted with
        | true =>
            rw [verImage_tomb hdel] at hsees
            exact .inr (.inl hsees.symm)
        | false =>
            have hnow : view (st.history r) st.db.lastCommitTs = some v.data := by
              rw [← hrow.sees _ (sees_now st), rowView_chain hc, view,
                visibleVer_last hlast (hrow.chain c hc v (List.mem_of_getLast? hlast)), verImage_data hdel]
            rw [verImage_data hdel] at hsees
            left
            rw [← hsees, hrow.slot_of_view hnow]

theorem Versions.readHeap (h : Versions st) (hl : Locks st) (hs : st.readHeap t r = some st') :
    Versions st' := by
  obtain ⟨ht, heq⟩ := Option.ite_none_right_eq_some.1 hs
  cases heq
  refine ⟨h.rows, h.reads, ?_, ?_, h.authors⟩
  · intro u r' d hd hu
    change Function.update st.heapData t _ u = some (r', d) at hd
    rcases eq_or_ne u t with rfl | hne
    · rw [Function.update_self] at hd
      cases hd
      exact h.slot_view ht r
    · rw [Function.update_of_ne hne] at hd
      exact h.heapData u r' d hd hu
  · intro u hu
    have hne : u ≠ t := by
      rintro rfl
      exact absurd (Reader.lt_next hl ⟨ht.1, ht.2.1⟩) (Nat.not_lt.2 hu)
    show Function.update st.heapData t _ u = none
    rw [Function.update_of_ne hne]
    exact h.unread u hu

/-- A read that meets no write of its own gives what the snapshot shows. -/
theorem Versions.result (h : Versions st) (hl : Locks st) (ht : st.Ready t) {heap : Image}
    (hcare : st.Careful (.mvccRead t)) (hh : st.heapData t = some (r, heap)) (hown : st.db.ownWrite t r = false) :
    st.db.mvccReadOf t r heap = view (st.history r) (st.db.txn t).readTs := by
  have hnone : (st.db.rows r).chain = none →
      some heap = view (st.history r) (st.db.txn t).readTs := by
    intro hc
    rcases h.heapData t r heap hh ⟨ht.1, ht.2.1⟩ with heq | hnone | ⟨c, hc', -⟩
    · exact heq
    · have hrec := hcare (r, heap) hh (by rw [hc]; rfl)
      rw [← (h.rows r).sees _ ht.sees, rowView_heap hc, if_pos hrec] at hnone
      cases hnone
    · rw [hc] at hc'
      cases hc'
  simp only [Db.ownWrite, Bool.or_eq_false_iff, Option.isSome_eq_false_iff,
    Option.isNone_iff_eq_none] at hown
  obtain ⟨hov, hw⟩ := hown
  unfold Db.mvccReadOf
  split
  · rename_i hclean
    refine hnone ?_
    by_contra hne
    rw [hl.dirty.any (Option.isSome_iff_ne_none.2 hne)] at hclean
    cases hclean
  · rw [hov]
    dsimp only
    cases hc : (st.db.rows r).chain with
    | none => exact hnone hc
    | some c =>
        rw [hc, Option.any_some, decide_eq_false_iff_not] at hw
        show Db.chainRead c t (st.db.txn t).readTs = _
        rw [chainRead_eq hw, ← rowView_chain hc]
        exact (h.rows r).sees _ ht.sees

theorem Versions.mvccRead (h : Versions st) (hl : Locks st) (hcare : st.Careful (.mvccRead t))
    (hs : st.mvccRead t = some st') : Versions st' := by
  obtain ⟨r, heap, hh, ht, heq⟩ := mvccRead_spec hs
  subst heq
  refine ⟨h.rows, ?_, ?_, ?_, h.authors⟩
  · intro u x hx hxo
    change x ∈ Function.update st.reads t _ u at hx
    rcases eq_or_ne u t with rfl | hne
    · rw [Function.update_self] at hx
      rcases List.mem_cons.1 hx with rfl | hx
      · exact h.result hl ht hcare hh hxo
      · exact h.reads u x hx hxo
    · rw [Function.update_of_ne hne] at hx
      exact h.reads u x hx hxo
  · intro u r' d hd hu
    change Function.update st.heapData t none u = some (r', d) at hd
    rcases eq_or_ne u t with rfl | hne
    · rw [Function.update_self] at hd
      cases hd
    · rw [Function.update_of_ne hne] at hd
      exact h.heapData u r' d hd hu
  · intro u hu
    show Function.update st.heapData t none u = none
    rcases eq_or_ne u t with rfl | hne
    · exact Function.update_self _ _ _
    · rw [Function.update_of_ne hne]
      exact h.unread u hu

/-! ## Runs -/

/-- The three invariants together. -/
structure Sound (st : Latched) : Prop where
  locks : Locks st
  clock : Clock st
  versions : Versions st

theorem Sound.step (h : Sound st) {a : LatchAct} (hcare : st.Careful a) (hs : st.step a = some st') :
    Sound st' := by
  have hl := h.locks
  have hv := h.versions
  have hstand := hv.standing hl
  have hdelta : ∀ r ∈ a.deltaRow, (st.db.rows r).slot.isRecord = true := by
    intro r hr
    cases a with
    | mvccWriteColDelta => exact Option.some.inj hr ▸ hcare
    | _ => cases hr
  refine ⟨hl.step hstand hdelta hs, h.clock.step hl hcare hs, ?_⟩
  have hwrite : a.writes = true → Versions st' := by
    intro ha
    obtain ⟨t, r, old, db', ht, hread, hver, heq⟩ := write_standing hstand hdelta hs ha
    rw [heq]
    rcases hver with ⟨hrec, hver⟩ | hr
    · exact hv.versioned hl ht hrec hread hver
    · exact hv.refused hl ht hr
  cases a with
  | beginRead explicit iso => exact hv.beginRead hl hs
  | register => exact hv.register hs
  | mvccInsert t r data => exact hv.insert hl hcare hs
  | mvccWrite t r old new => exact hwrite rfl
  | mvccWriteColDelta t r visible off type deltaF deltaI => exact hwrite rfl
  | mvccWriteColPatch t r visible patches => exact hwrite rfl
  | release t => exact hv.release hl hs
  | abort t => exact hv.abort hl hs
  | startCommit t => exact hv.startCommit hl hs
  | restore t r => exact hv.restore hl hs
  | stamp t => exact hv.stamp hl hs
  | watermark t => exact hv.watermark hl hs
  | publish t => exact hv.publish hl h.clock hs
  | reclaim t => exact hv.reclaim hl h.clock hs
  | readHeap t r => exact hv.readHeap hl hs
  | mvccRead t => exact hv.mvccRead hl hcare hs

theorem boot_sound (tabs : TabName → TabMeta) (files : TabName → RmFileHdr) (heap : RowId → Slot)
    (index : IndexId → IndexMap) : Sound (boot tabs files heap index) := by
  refine ⟨boot_locks tabs files heap index, boot_clock tabs files heap index, ?_⟩
  refine ⟨fun r => RowOk.start rfl, fun u x hx => (by cases hx), fun u r d hd => (by cases hd),
    fun _ _ => rfl, ?_⟩
  intro r v w hv hw
  have hhist : (boot tabs files heap index).history r = baseHistory (heap r) := rfl
  rw [hhist] at hv
  unfold baseHistory at hv
  split at hv
  · rw [List.mem_singleton.1 hv] at hw
    cases hw
  · cases hv

theorem twoRows_layout : ColsAt 0 [⟨"a", .int, 4, 0⟩] := by decide

theorem twoRows_indexed : ∀ ix ∈ ([] : List (List ColMeta)), ∀ c ∈ ix, c ∈ ([⟨"a", .int, 4, 0⟩] : List ColMeta) := by
  decide

/-- A table of one `INT` column with two records. -/
def twoRows : Latched :=
  boot (fun _ => ⟨[⟨"a", .int, 4, 0⟩], [], twoRows_layout, twoRows_indexed⟩) (fun _ => ⟨2, 4⟩)
    (fun r => ⟨decide (r.rid.slotNo < 2), ⟨[1, 0, 0, 0], none⟩⟩) (fun _ => [])

/-- Transaction 0 changes both rows and takes its commit timestamp. -/
def stampTwo : List LatchAct :=
  [.beginRead true .snapshotIsolation, .register,
    .readHeap 0 ⟨"t", ⟨1, 0⟩⟩, .mvccRead 0, .readHeap 0 ⟨"t", ⟨1, 1⟩⟩, .mvccRead 0,
    .mvccWrite 0 ⟨"t", ⟨1, 0⟩⟩ ⟨[1, 0, 0, 0], none⟩ (some [2, 0, 0, 0]),
    .mvccWrite 0 ⟨"t", ⟨1, 1⟩⟩ ⟨[1, 0, 0, 0], none⟩ (some [2, 0, 0, 0]), .startCommit 0, .stamp 0]

/-- Both rows are published and reclaimed. -/
def publishTwo : List LatchAct :=
  [.watermark 0, .publish 0, .publish 0, .publish 0, .reclaim 0, .reclaim 0, .reclaim 0]

/-- A snapshot from before a commit and one from after it. -/
def beforeAfter : List LatchAct :=
  [.beginRead true .snapshotIsolation, .register, .beginRead true .snapshotIsolation, .register,
    .readHeap 0 ⟨"t", ⟨1, 0⟩⟩, .mvccRead 0,
    .mvccWrite 0 ⟨"t", ⟨1, 0⟩⟩ ⟨[1, 0, 0, 0], none⟩ (some [2, 0, 0, 0]), .startCommit 0, .stamp 0,
    .watermark 0, .publish 0, .publish 0, .reclaim 0, .reclaim 0,
    .readHeap 1 ⟨"t", ⟨1, 0⟩⟩, .mvccRead 1, .beginRead true .snapshotIsolation, .register,
    .readHeap 2 ⟨"t", ⟨1, 0⟩⟩, .mvccRead 2]

/-- Transaction 1 begins while the commit of 0 is publishing, and reads one row before and one after. -/
def beginBetween : List LatchAct :=
  stampTwo ++ [.beginRead true .snapshotIsolation, .register, .readHeap 1 ⟨"t", ⟨1, 0⟩⟩, .mvccRead 1] ++
    publishTwo ++ [.readHeap 1 ⟨"t", ⟨1, 1⟩⟩, .mvccRead 1]

/-- Transaction 0 deletes one row, changes the other and commits; 1 begins, comes to the cleared slot and
to the changed row. -/
def readCleared : List LatchAct :=
  [.beginRead true .snapshotIsolation, .register,
    .readHeap 0 ⟨"t", ⟨1, 0⟩⟩, .mvccRead 0, .readHeap 0 ⟨"t", ⟨1, 1⟩⟩, .mvccRead 0,
    .mvccWrite 0 ⟨"t", ⟨1, 0⟩⟩ ⟨[1, 0, 0, 0], none⟩ none,
    .mvccWrite 0 ⟨"t", ⟨1, 1⟩⟩ ⟨[1, 0, 0, 0], none⟩ (some [2, 0, 0, 0]), .startCommit 0, .stamp 0] ++
    publishTwo ++
    [.beginRead true .snapshotIsolation, .register,
      .readHeap 1 ⟨"t", ⟨1, 0⟩⟩, .mvccRead 1, .readHeap 1 ⟨"t", ⟨1, 1⟩⟩, .mvccRead 1]

/-- The chain of a deleted row is gone when the commit ends, and a read of its slot gives the deleted
bytes. -/
theorem not_atomic_cleared : ∃ st, run Latched.step twoRows readCleared = some st ∧ ¬ Atomic st := by
  have hvals : (run Latched.step twoRows readCleared).map
        (fun st => (st.reads 1, st.history ⟨"t", ⟨1, 0⟩⟩, st.history ⟨"t", ⟨1, 1⟩⟩)) =
      some ([⟨⟨"t", ⟨1, 1⟩⟩, some ⟨[2, 0, 0, 0], some 0⟩, false⟩,
          ⟨⟨"t", ⟨1, 0⟩⟩, some ⟨[1, 0, 0, 0], none⟩, false⟩],
        [⟨⟨[1, 0, 0, 0], none⟩, 0, false, none⟩] ++ [⟨.empty, 1, true, some 0⟩],
        [⟨⟨[1, 0, 0, 0], none⟩, 0, false, none⟩] ++ [⟨⟨[2, 0, 0, 0], some 0⟩, 1, false, some 0⟩]) := by
    decide +kernel
  obtain ⟨st, hst, hvals⟩ := Option.map_eq_some_iff.1 hvals
  obtain ⟨hreads, hvals⟩ := Prod.mk.inj hvals
  obtain ⟨hfirst, hsecond⟩ := Prod.mk.inj hvals
  refine ⟨st, hst, fun h => ?_⟩
  rcases (h 1).1 0 with hall | hall
  · -- the delete shows nothing from its timestamp on
    obtain ⟨ts, hts, heq⟩ := hall ⟨⟨"t", ⟨1, 0⟩⟩, some ⟨[1, 0, 0, 0], none⟩, false⟩ (by rw [hreads]; simp) rfl
      ⟨.empty, 1, true, some 0⟩ (by rw [hfirst]; simp) rfl
    dsimp only at hts heq
    rw [hfirst, view, visibleVer_append, if_pos hts] at heq
    exact absurd heq (by decide)
  · obtain ⟨ts, hts, heq⟩ := hall ⟨⟨"t", ⟨1, 1⟩⟩, some ⟨[2, 0, 0, 0], some 0⟩, false⟩ (by rw [hreads]; simp) rfl
      ⟨⟨[2, 0, 0, 0], some 0⟩, 1, false, some 0⟩ (by rw [hsecond]; simp) rfl
    dsimp only at hts heq
    rw [hsecond, view, visibleVer_append, if_neg (Nat.not_le.2 hts),
      visibleVer_last rfl (Nat.zero_le ts)] at heq
    exact absurd heq (by decide)

end Latched

end Rmdb.Txn
