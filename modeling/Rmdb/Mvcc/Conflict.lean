import Rmdb.Mvcc.Recent

/-!
# Writes of a row that has a newer version

A row that another transaction has changed since the snapshot of `t` is overtaken.  `mvcc_write`
takes a delete of such a row to `rebase_write_delta`, which reads the null image
(`deleteSafe_iff`).  `mvcc_write` and `mvcc_write_col_patch` turn the update of a deleted row down,
`mvcc_write_col_delta` reads the tombstone and goes on (`refusesTombstone_iff`).
-/

namespace Rmdb.Txn

open Rmdb.Index (Rid)
open Rmdb.Lib (run)

variable {db : Db} {t : TxnId} {r : RowId}

/-- Whoever could write the row and has not written it finds it without a writer. -/
theorem writer_none (hfree : ¬ db.held t r) (hown : ¬ db.Owns t r) : (db.chainOf r).writer = none :=
  (writer_of_free hfree).resolve_right fun hw => hown (owns_of_writer hw)

/-! ## Deletes -/

/-- A versioned delete reads nothing through its null `new_data`, and is refused when another
transaction has committed to the row since the snapshot. -/
structure DeleteSafe (db : Db) (t : TxnId) (r : RowId) (old : Image) : Prop where
  noNullRead : db.mvccWrite t r old none ≠ .nullRead
  firstUpdater : (db.newerVer t (db.chainOf r)).isSome → ¬ db.Owns t r →
    ∃ db', db.mvccWrite t r old none = .refused db'

/-- A write of the row is put on top of a newer version: nobody holds the row, and its newest
version is newer than the snapshot, not deleted and of the size of a record. -/
def Db.rebases (db : Db) (t : TxnId) (r : RowId) : Prop :=
  ¬ db.held t r ∧ (db.chainOf r).writer = none ∧ ∃ last, db.newerVer t (db.chainOf r) = some last ∧
    last.isDeleted = false ∧ last.data.bytes.length = (db.tabs r.tab).recordSize

theorem mvccWrite_held (h : db.held t r) (old : Image) (new : Option Bytes) :
    db.mvccWrite t r old new = .refused (db.touchChain t r) := by
  simp only [Db.mvccWrite, touchChain_held, if_pos h]

/-- A free row with a newer version. -/
theorem mvccWrite_newer (hfree : ¬ db.held t r) (hw : (db.chainOf r).writer = none) {last : MvccVer}
    (hlast : db.newerVer t (db.chainOf r) = some last) (old : Image) (new : Option Bytes)
    (hbad : last.isDeleted = true ∨ last.data.bytes.length ≠ (db.tabs r.tab).recordSize) :
    db.mvccWrite t r old new = .refused (db.touchChain t r) := by
  have hnewer := (touchChain_write db t r).newerVer (db.chainOf r)
  simp only [Db.mvccWrite, touchChain_held, if_neg hfree, hw, hnewer, hlast, if_true, if_pos hbad]

theorem mvccWrite_rebase (hfree : ¬ db.held t r) (hw : (db.chainOf r).writer = none) {last : MvccVer}
    (hlast : db.newerVer t (db.chainOf r) = some last) (old : Image) (hdel : last.isDeleted = false)
    (hlen : last.data.bytes.length = (db.tabs r.tab).recordSize) :
    db.mvccWrite t r old none = .nullRead := by
  have hnewer := (touchChain_write db t r).newerVer (db.chainOf r)
  simp only [Db.mvccWrite, touchChain_held, if_neg hfree, hw, hnewer, hlast, if_true, hdel, hlen]
  simp

/-- A write whose row has no newer version, or has the transaction's own write on top. -/
theorem mvccWrite_on_top (hfree : ¬ db.held t r)
    (hnone : (if (db.chainOf r).writer = none then db.newerVer t (db.chainOf r) else none) = none)
    (old : Image) : ∃ db', db.mvccWrite t r old none = .written db' .empty := by
  have hnewer := (touchChain_write db t r).newerVer (db.chainOf r)
  simp only [Db.mvccWrite, touchChain_held, if_neg hfree, hnewer, hnone]
  exact ⟨_, rfl⟩

/-- **Versioned deletes.**  A delete is safe unless it is put on top of a newer version. -/
theorem deleteSafe_iff (db : Db) (t : TxnId) (r : RowId) (old : Image) :
    DeleteSafe db t r old ↔ ¬ db.rebases t r := by
  constructor
  · rintro hsafe ⟨hfree, hw, last, hlast, hdel, hlen⟩
    exact hsafe.noNullRead (mvccWrite_rebase hfree hw hlast old hdel hlen)
  · intro hnot
    by_cases hheld : db.held t r
    · have h := mvccWrite_held hheld old none
      exact ⟨by rw [h]; simp, fun _ _ => ⟨_, h⟩⟩
    · cases hn : (if (db.chainOf r).writer = none then db.newerVer t (db.chainOf r) else none) with
      | none =>
          obtain ⟨db', h⟩ := mvccWrite_on_top hheld hn old
          refine ⟨by rw [h]; simp, fun hsome hown => ?_⟩
          rw [if_pos (writer_none hheld hown)] at hn
          rw [hn] at hsome
          cases hsome
      | some last =>
          obtain ⟨hw, hlast⟩ := Option.ite_none_right_eq_some.1 hn
          have hbad : last.isDeleted = true ∨
              last.data.bytes.length ≠ (db.tabs r.tab).recordSize := by
            by_contra hgood
            rw [not_or, Bool.not_eq_true, not_not] at hgood
            exact hnot ⟨hheld, hw, last, hlast, hgood.1, hgood.2⟩
          have h := mvccWrite_newer hheld hw hlast old none hbad
          exact ⟨by rw [h]; simp, fun _ _ => ⟨_, h⟩⟩

theorem twoSnapshots_layout : ColsAt 0 [⟨"a", .int, 4, 0⟩] := by decide

theorem twoSnapshots_indexed : ∀ ix ∈ ([] : List (List ColMeta)), ∀ c ∈ ix, c ∈ ([⟨"a", .int, 4, 0⟩] : List ColMeta) := by
  decide

/-- The two transactions of the runs below on a table with one `INT` column and one record. -/
def twoSnapshots : Db :=
  (Db.boot (fun _ => ⟨[⟨"a", .int, 4, 0⟩], [], twoSnapshots_layout, twoSnapshots_indexed⟩) (fun _ => ⟨2, 4⟩)
    (fun r => ⟨decide (r.rid.slotNo = 0), ⟨[1, 0, 0, 0], none⟩⟩) (fun _ => []))

/-- Transaction 0 updates the record after transaction 1 has taken its snapshot; the delete of
transaction 1 reads the null image. -/
theorem not_deleteSafe_overtaken : ∃ db, run serStep twoSnapshots
    [.op (.begin true .snapshotIsolation), .op (.begin true .snapshotIsolation),
      .op (.mvccWrite 0 ⟨"t", ⟨1, 0⟩⟩ ⟨[1, 0, 0, 0], none⟩ [7, 0, 0, 0]), .op (.commit 0)] = some db ∧
      db.Live 1 ∧ ¬ DeleteSafe db 1 ⟨"t", ⟨1, 0⟩⟩ ⟨[1, 0, 0, 0], none⟩ := by
  refine ⟨_, rfl, by decide +kernel, fun hsafe => hsafe.noNullRead ?_⟩
  exact mvccWrite_rebase (by decide +kernel) (by decide +kernel)
    (show _ = some (⟨⟨[7, 0, 0, 0], some 0⟩, 1, false, some 0⟩ : MvccVer) by decide +kernel) _ rfl rfl

/-! ## Updates of a deleted row -/

/-- An update of one row by one of the three routines. -/
inductive UpdateCall where
  | write (old : Image) (new : Bytes)
  | colDelta (visible : Image) (off : Nat) (type : ColType) (deltaF deltaI : BitVec 32)
  | colPatch (visible : Image) (patches : List MvccColPatch)

namespace UpdateCall

def run (db : Db) (t : TxnId) (r : RowId) : UpdateCall → WriteOutcome
  | write old new => db.mvccWrite t r old (some new)
  | colDelta visible off type deltaF deltaI =>
      db.mvccWriteColDelta t r visible off type deltaF deltaI
  | colPatch visible patches => db.mvccWriteColPatch t r visible patches

/-- Does the column of a delta lie outside the record, or is it no number? -/
def misfits (db : Db) (r : RowId) (off : Nat) (type : ColType) : Bool :=
  decide (type = .string) || decide (off + 4 > (db.tabs r.tab).recordSize)

/-- The committed version whose bytes the routine reads: `latest_rec` of `rebase_write_delta`,
`base_rec` of the column writes. -/
def reads (db : Db) (t : TxnId) (r : RowId) (call : UpdateCall) : Option MvccVer :=
  let newer := if (db.chainOf r).writer = some t then none else db.newerVer t (db.chainOf r)
  let whole := newer.filter fun last =>
    !last.isDeleted && decide (last.data.bytes.length = (db.tabs r.tab).recordSize)
  if db.held t r then none
  else
    match call with
    | write _ _ => whole
    | colDelta _ off type _ _ => if misfits db r off type then none else newer
    | colPatch _ patches => if patches.isEmpty then none else whole

/-- Is the routine one that looks for a tombstone, or the row out of its reach? -/
def guarded (db : Db) (t : TxnId) (r : RowId) : UpdateCall → Prop
  | colDelta _ off type _ _ => db.held t r = true ∨ misfits db r off type = true
  | _ => True

end UpdateCall

/-- The update of a deleted row is refused, without a look at the tombstone's bytes. -/
def RefusesTombstone (db : Db) (t : TxnId) (r : RowId) (call : UpdateCall) : Prop :=
  (∃ db', call.run db t r = .refused db') ∧ call.reads db t r = none

section

variable {last : MvccVer}

/-- What a column write finds on a row that it has not written. -/
theorem newer_of_not_owned (hlast : db.newerVer t (db.chainOf r) = some last)
    (hfree : ¬ db.held t r) (hown : ¬ db.Owns t r) :
    (if (db.chainOf r).writer = some t then none else db.newerVer t (db.chainOf r)) = some last := by
  rw [if_neg, hlast]
  rw [writer_none hfree hown]
  exact fun h => by cases h

theorem reads_held (h : db.held t r) (call : UpdateCall) : call.reads db t r = none := by
  unfold UpdateCall.reads
  rw [if_pos h]

theorem write_refuses (hlast : db.newerVer t (db.chainOf r) = some last)
    (hdel : last.isDeleted = true) (hown : ¬ db.Owns t r) (old : Image) (new : Bytes) :
    RefusesTombstone db t r (.write old new) := by
  by_cases hheld : db.held t r
  · exact ⟨⟨_, mvccWrite_held hheld old (some new)⟩, reads_held hheld _⟩
  · refine ⟨⟨_, mvccWrite_newer hheld (writer_none hheld hown) hlast old _ (.inl hdel)⟩, ?_⟩
    simp only [UpdateCall.reads, if_neg hheld, newer_of_not_owned hlast hheld hown]
    simp [Option.filter, hdel]

theorem colPatch_refuses (hlast : db.newerVer t (db.chainOf r) = some last)
    (hdel : last.isDeleted = true) (hown : ¬ db.Owns t r) (visible : Image)
    (patches : List MvccColPatch) : RefusesTombstone db t r (.colPatch visible patches) := by
  by_cases hempty : patches.isEmpty
  · refine ⟨⟨db, by simp only [UpdateCall.run, Db.mvccWriteColPatch, if_pos hempty]⟩, ?_⟩
    simp [UpdateCall.reads, hempty]
  · by_cases hheld : db.held t r
    · refine ⟨⟨db.touchChain t r, ?_⟩, reads_held hheld _⟩
      simp only [UpdateCall.run, Db.mvccWriteColPatch, if_neg hempty, touchChain_held, if_pos hheld]
    · have hn := newer_of_not_owned hlast hheld hown
      constructor
      · have hb := (touchChain_write db t r).withBase (db.chainOf r) visible
        have hnew := touchChain_newer db t r visible
        rw [hb] at hnew
        simp only [UpdateCall.run, Db.mvccWriteColPatch, if_neg hempty, touchChain_held, if_neg hheld,
          hb, hnew, hn, Option.any_some, hdel, Bool.true_or, if_true]
        exact ⟨_, rfl⟩
      · simp only [UpdateCall.reads, if_neg hheld, hn]
        simp [Option.filter, hdel]

theorem colDelta_refuses_iff (hlast : db.newerVer t (db.chainOf r) = some last)
    (hown : ¬ db.Owns t r) (visible : Image) (off : Nat) (type : ColType) (deltaF deltaI : BitVec 32) :
    RefusesTombstone db t r (.colDelta visible off type deltaF deltaI) ↔
      db.held t r = true ∨ UpdateCall.misfits db r off type = true := by
  by_cases hheld : db.held t r
  · refine ⟨fun _ => .inl hheld, fun _ => ⟨⟨db.touchChain t r, ?_⟩, reads_held hheld _⟩⟩
    simp only [UpdateCall.run, Db.mvccWriteColDelta, touchChain_held, if_pos hheld]
  · have hmisfit : UpdateCall.misfits db r off type = true ↔
        type = .string ∨ off + 4 > (db.tabs r.tab).recordSize := by
      simp [UpdateCall.misfits]
    rw [or_iff_right hheld]
    constructor
    · rintro ⟨-, hreads⟩
      by_contra hfit
      simp only [UpdateCall.reads, if_neg hheld, if_neg hfit, newer_of_not_owned hlast hheld hown]
        at hreads
      cases hreads
    · intro hbad
      constructor
      · simp only [UpdateCall.run, Db.mvccWriteColDelta, touchChain_held, if_neg hheld,
          if_pos (hmisfit.1 hbad)]
        exact ⟨_, rfl⟩
      · simp only [UpdateCall.reads, if_neg hheld, if_pos hbad]

/-- **Updates of a deleted row.**  The update of a row whose newest version is a tombstone that the
snapshot does not have is refused without a look at it, except by `mvcc_write_col_delta` on a row
that nobody holds. -/
theorem refusesTombstone_iff (hlast : db.newerVer t (db.chainOf r) = some last)
    (hdel : last.isDeleted = true) (hown : ¬ db.Owns t r) (call : UpdateCall) :
    RefusesTombstone db t r call ↔ call.guarded db t r := by
  cases call with
  | write old new => exact ⟨fun _ => trivial, fun _ => write_refuses hlast hdel hown old new⟩
  | colDelta visible off type deltaF deltaI =>
      exact colDelta_refuses_iff hlast hown visible off type deltaF deltaI
  | colPatch visible patches =>
      exact ⟨fun _ => trivial, fun _ => colPatch_refuses hlast hdel hown visible patches⟩

end

/-- Transaction 0 deletes the record after transaction 1 has taken its snapshot. -/
def deletedBehind : Option Db := run serStep twoSnapshots
  [.op (.begin true .snapshotIsolation), .op (.begin true .snapshotIsolation),
    .mvccDelete 0 ⟨"t", ⟨1, 0⟩⟩ ⟨[1, 0, 0, 0], none⟩, .op (.commit 0)]

theorem deletedBehind_spec : ∃ db, deletedBehind = some db ∧
    db.newerVer 1 (db.chainOf ⟨"t", ⟨1, 0⟩⟩) = some ⟨.empty, 1, true, some 0⟩ ∧
      db.held 1 ⟨"t", ⟨1, 0⟩⟩ = false ∧ ¬ db.Owns 1 ⟨"t", ⟨1, 0⟩⟩ := by
  refine ⟨_, rfl, by decide +kernel, by decide +kernel, ?_⟩
  rintro (⟨c, hc, hw⟩ | hp)
  · cases hc
    cases hw
  · cases hp

/-- `UPDATE t SET a = 5` by way of `mvcc_write` is refused. -/
theorem refusesTombstone_iff_write : ∃ db, deletedBehind = some db ∧
    (RefusesTombstone db 1 ⟨"t", ⟨1, 0⟩⟩ (.write ⟨[1, 0, 0, 0], none⟩ [5, 0, 0, 0]) ↔
      (UpdateCall.write ⟨[1, 0, 0, 0], none⟩ [5, 0, 0, 0]).guarded db 1 ⟨"t", ⟨1, 0⟩⟩) := by
  obtain ⟨db, hdb, hlast, -, hown⟩ := deletedBehind_spec
  exact ⟨db, hdb, refusesTombstone_iff hlast rfl hown _⟩

/-- `UPDATE t SET a = a + 1` by way of `mvcc_write_col_delta` goes through. -/
theorem not_refusesTombstone_colDelta : ∃ db, deletedBehind = some db ∧
    db.newerVer 1 (db.chainOf ⟨"t", ⟨1, 0⟩⟩) = some ⟨.empty, 1, true, some 0⟩ ∧
      ¬ db.Owns 1 ⟨"t", ⟨1, 0⟩⟩ ∧
        ¬ RefusesTombstone db 1 ⟨"t", ⟨1, 0⟩⟩ (.colDelta ⟨[1, 0, 0, 0], none⟩ 0 .int 0 1) := by
  obtain ⟨db, hdb, hlast, hfree, hown⟩ := deletedBehind_spec
  refine ⟨db, hdb, hlast, hown, fun h => ?_⟩
  have hsize : (db.tabs "t").recordSize = 4 := by
    have hrun : deletedBehind.map (fun db => (db.tabs "t").recordSize) = some 4 := by decide +kernel
    rw [hdb] at hrun
    exact Option.some.inj hrun
  rcases (colDelta_refuses_iff hlast hown _ _ _ _ _).1 h with hheld | hbad
  · rw [hfree] at hheld
    cases hheld
  · simp [UpdateCall.misfits, hsize] at hbad

end Rmdb.Txn
