import Rmdb.Row.Assigned
import Rmdb.Mvcc.Refused

/-!
# Runs of statements

Statements on the versioned path, one row at a time, with the transactions in any order (`execStep`).
Records keep the size of their table and every row that a live transaction owns is in its write set
(`Neat`).
-/

namespace Rmdb.Txn

open Rmdb.Index (Rid)
open Rmdb.Lib (run run_append run_invariant)

/-! ## Runs of statements -/

/-- One row of a statement, the end of a statement, or the begin or the end of a transaction. -/
inductive ExecOp where
  | begin (explicit : Bool) (iso : IsolationLevel)
  | insert (t : TxnId) (tab : TabName) (data : Bytes) (rid : Rid)
  | update (t : TxnId) (tab : TabName) (sets : List SetClause) (rid : Rid)
  | delete (t : TxnId) (tab : TabName) (rid : Rid)
  | endStmt (t : TxnId)
  | commit (t : TxnId)
  | abort (t : TxnId)

/-- A row that throws `TransactionAbortException` aborts its transaction. -/
def afterRow (t : TxnId) : RowResult → Option Db
  | .next db | .done db => some db
  | .abort db => some (db.abort t)
  | .stop => none

/-- The executors work on records, with clauses that `do_analyze` has checked; a statement deletes rows
that it reads. -/
def execStep (db : Db) : ExecOp → Option Db
  | .begin explicit iso => some (db.begin explicit iso)
  | .insert t tab data rid =>
      if db.Live t ∧ db.needsVersioning (db.txn t) tab = true ∧
          data.length = (db.tabs tab).recordSize then
        afterRow t (Db.insertRow t tab db (data, rid))
      else none
  | .update t tab sets rid =>
      if db.Live t ∧ db.needsVersioning (db.txn t) tab = true ∧
          (db.rows ⟨tab, rid⟩).slot.isRecord = true ∧
          sets.all (SetClause.checked (db.tabs tab)) = true then
        afterRow t (Db.updateRow t tab sets db rid)
      else none
  | .delete t tab rid =>
      if db.Live t ∧ db.needsVersioning (db.txn t) tab = true ∧
          (db.rows ⟨tab, rid⟩).slot.isRecord = true ∧ (db.readRow t ⟨tab, rid⟩).isSome then
        afterRow t (Db.deleteRow t tab true db rid)
      else none
  | .endStmt t => if db.Live t then some (db.releaseStatementWrites t) else none
  | .commit t => if db.Live t then db.commit t else none
  | .abort t => if db.Live t then some (db.abort t) else none

/-! ## The invariant -/

variable {db db' : Db} {t : TxnId} {r : RowId} {p q : TxnId → Prop}

/-- The size of a record of the table. -/
def Db.sized (db : Db) (r : RowId) (img : Image) : Prop :=
  img.bytes.length = (db.tabs r.tab).recordSize

/-- The image of an uncommitted version: a delete has no bytes. -/
def Db.uncommitted (db : Db) (r : RowId) (del : Bool) (img : Image) : Prop :=
  (del = true → img.bytes = []) ∧ (del = false → db.sized r img)

/-- The invariant, as far as it is about the transactions of `p`: they have write records of the rows
that they own, and records have the size of their table. -/
structure Neat (p : TxnId → Prop) (db : Db) : Prop where
  held : Held db
  begun : ∀ u r, db.Owns u r → (db.txns u).isSome
  recorded : ∀ u r, p u → db.Owns u r → (db.txn u).touches r = true
  heap : ∀ r, (db.rows r).slot.isRecord = true → db.sized r (db.rows r).slot.data
  hist : ∀ r c, (db.rows r).chain = some c → ∀ v ∈ c.hist, v.isDeleted = false → db.sized r v.data
  writer : ∀ u r c, p u → (db.rows r).chain = some c → c.writer = some u →
    db.uncommitted r c.writerDel c.writerData
  overlay : ∀ u r ov, p u → (db.txn u).overlay r = some ov → ov.isDeleted = false →
    db.sized r ov.data

theorem Neat.mono (h : Neat p db) (hqp : ∀ u, q u → p u) : Neat q db :=
  ⟨h.held, h.begun, fun u r hu => h.recorded u r (hqp u hu), h.heap, h.hist,
    fun u r c hu => h.writer u r c (hqp u hu), fun u r ov hu => h.overlay u r ov (hqp u hu)⟩

/-- The size of a record is a matter of the tables. -/
theorem sized_congr (h : db'.tabs = db.tabs) (r : RowId) (img : Image) :
    db'.sized r img ↔ db.sized r img := by
  unfold Db.sized
  rw [h]

theorem uncommitted_congr (h : db'.tabs = db.tabs) (r : RowId) (del : Bool) (img : Image) :
    db'.uncommitted r del img ↔ db.uncommitted r del img := by
  unfold Db.uncommitted
  rw [sized_congr h]

/-- What a transaction reads has the size of a record. -/
theorem Neat.mvccRead_sized (h : Neat p db) (ht : p t) (hrec : (db.rows r).slot.isRecord = true)
    {img : Image} (hread : db.mvccRead t r = some img) : db.sized r img := by
  unfold Db.mvccRead at hread
  split at hread
  · cases hread
    exact h.heap r hrec
  split at hread
  · rename_i ov hov
    split at hread
    · cases hread
    · rename_i hdel
      cases hread
      exact h.overlay t r ov ht hov (by simpa using hdel)
  · split at hread
    · cases hread
      exact h.heap r hrec
    · rename_i c hc
      have hver : ∀ v : Option MvccVer, (∀ w, v = some w → w ∈ c.hist) →
          Db.verImage v = some img → db.sized r img := by
        intro v hmem hv
        cases v with
        | none => cases hv
        | some w =>
            simp only [Db.verImage] at hv
            split at hv
            · cases hv
            · rename_i hdel
              cases hv
              exact h.hist r c hc w (hmem w rfl) (by simpa using hdel)
      unfold Db.chainRead at hread
      split at hread
      · rename_i hw
        split at hread
        · cases hread
        · rename_i hdel
          cases hread
          exact (h.writer t r c ht hc hw).2 (by simpa using hdel)
      split at hread
      · exact hver _ (fun w hw => List.mem_of_getLast? hw) hread
      · refine hver _ (fun w hw => ?_) hread
        exact List.mem_reverse.1 (List.mem_of_find?_eq_some hw)

/-! ## One row -/

theorem RowWrite.held_frame (hw : RowWrite db db' t r (db.rows r) [] false) (hh : Held db)
    (ht : db.Live t) : Held db' := by
  have hrow : ∀ r', db'.rows r' = db.rows r' := by
    intro r'
    rcases eq_or_ne r' r with rfl | hr
    · exact hw.row_self
    · exact hw.row_other hr
  refine ⟨hw.inv ht hh.inv (hh.inv.hist r) .inl, ?_, ?_, ?_, ?_⟩
  · intro r' c u v hc hu hv
    rw [hrow] at hc hv
    exact hh.owner r' c u v hc hu hv
  · intro r' u
    rw [hrow, hw.overlay]
    exact hh.pending r' u
  · intro u r' hl htouch
    rw [hw.live_iff (Txn.live_iff.1 ht).1] at hl
    rw [hw.touches_eq] at htouch
    unfold Db.Owns
    rw [hrow]
    exact hh.owns u r' hl htouch
  · intro r' hfree
    rw [hrow] at hfree ⊢
    exact hh.free r' hfree

/-- A row operation on the versioned path does to its row what `Taken` says. -/
theorem RowOp.held (h : RowOp t r db db') (hv : db.needsVersioning (db.txn t) r.tab = true)
    (hh : Held db) (ht : db.Live t) (hrec : (db.rows r).slot.isRecord = true) : Held db' := by
  obtain ⟨row, ws, mark, hw, hc⟩ := h
  cases hc with
  | same => exact hw.held_frame hh ht
  | refused why => exact (Taken.touched hw).held hh ht hrec
  | failed free base =>
      exact (Taken.took hw free rfl (writtenChain_hist _ _ _ _ _ _ _) (fun w hw => by cases hw)).held
        hh ht hrec
  | written free base origin hhold =>
      refine (Taken.took hw free rfl (writtenChain_hist _ _ _ _ _ _ _) fun w hw => ?_).held hh ht hrec
      rw [newRecord_row hw]
  | inserted free =>
      rw [hrec] at free
      cases free
  | updatedInPlace inPlace | deletedInPlace inPlace | insertedInPlace inPlace free =>
      rw [hv] at inPlace
      cases inPlace

/-- A write of one row keeps the invariant when it does at its row. -/
theorem RowWrite.neat {c : MvccChain} {s : Slot} {ws : List WriteRecord} {mark : Bool}
    (hw : RowWrite db db' t r { db.rows r with slot := s, chain := some c } ws mark) (h : Neat p db)
    (hh : Held db') (hslot : s.isRecord = true → db.sized r s.data)
    (hhist : ∀ v ∈ c.hist, v.isDeleted = false → db.sized r v.data)
    (ht : db.Live t) (hwriter : ∀ u, c.writer = some u → u = t ∨ db.Owns u r)
    (hown : p t → c.writer = some t → (db.txn t).touches r = true ∨ ∃ w ∈ ws, w.row = r)
    (hdata : ∀ u, p u → c.writer = some u → db.uncommitted r c.writerDel c.writerData) :
    Neat p db' := by
  have hsize := sized_congr hw.tabs
  have hsome := (Txn.live_iff.1 ht).1
  refine ⟨hh, ?_, ?_, ?_, ?_, ?_, ?_⟩
  · intro u r' ho
    rw [hw.txns_isSome hsome]
    rcases RowWrite.owns hw ho with ho | ⟨rfl, hwu⟩
    · exact h.begun u r' ho
    · rcases hwriter u hwu with rfl | ho
      · exact hsome
      · exact h.begun u r' ho
  · intro u r' hu ho
    refine RowWrite.touches_of hw ?_
    rcases RowWrite.owns hw ho with ho | ⟨rfl, hwu⟩
    · exact .inl (h.recorded u r' hu ho)
    · rcases hwriter u hwu with rfl | ho
      · exact (hown hu hwu).imp_right fun hmem => ⟨rfl, hmem⟩
      · exact .inl (h.recorded u r' hu ho)
  · intro r' hrec
    rw [hsize]
    rcases eq_or_ne r' r with rfl | hr
    · rw [hw.row_self] at hrec ⊢
      exact hslot hrec
    · rw [hw.row_other hr] at hrec ⊢
      exact h.heap r' hrec
  · intro r' c' hc v hv hdel
    rw [hsize]
    rcases eq_or_ne r' r with rfl | hr
    · rw [hw.row_self] at hc
      cases hc
      exact hhist v hv hdel
    · rw [hw.row_other hr] at hc
      exact h.hist r' c' hc v hv hdel
  · intro u r' c' hu hc hwu
    rw [uncommitted_congr hw.tabs]
    rcases eq_or_ne r' r with rfl | hr
    · rw [hw.row_self] at hc
      cases hc
      exact hdata u hu hwu
    · rw [hw.row_other hr] at hc
      exact h.writer u r' c' hu hc hwu
  · intro u r' ov hu hov hdel
    rw [hsize]
    rw [hw.overlay] at hov
    exact h.overlay u r' ov hu hov hdel

theorem RowWrite.neat_frame (hw : RowWrite db db' t r (db.rows r) [] false) (h : Neat p db)
    (ht : db.Live t) : Neat p db' := by
  have hrow : ∀ r', db'.rows r' = db.rows r' := by
    intro r'
    rcases eq_or_ne r' r with rfl | hr
    · exact hw.row_self
    · exact hw.row_other hr
  have hsize := sized_congr hw.tabs
  refine ⟨RowWrite.held_frame hw h.held ht, ?_, ?_, ?_, ?_, ?_, ?_⟩
  · intro u r' ho
    unfold Db.Owns at ho
    rw [hrow] at ho
    rw [hw.txns_isSome (Txn.live_iff.1 ht).1]
    exact h.begun u r' ho
  · intro u r' hu ho
    unfold Db.Owns at ho
    rw [hrow] at ho
    rw [hw.touches_eq]
    exact h.recorded u r' hu ho
  · intro r' hrec
    rw [hrow] at hrec
    rw [hsize, hrow]
    exact h.heap r' hrec
  · intro r' c hc v hv hdel
    rw [hrow] at hc
    rw [hsize]
    exact h.hist r' c hc v hv hdel
  · intro u r' c hu hc hwu
    rw [hrow] at hc
    rw [uncommitted_congr hw.tabs]
    exact h.writer u r' c hu hc hwu
  · intro u r' ov hu hov hdel
    rw [hw.overlay] at hov
    rw [hsize]
    exact h.overlay u r' ov hu hov hdel

theorem chainOf_hist {v : MvccVer} (h : v ∈ (db.chainOf r).hist) :
    ∃ c, (db.rows r).chain = some c ∧ v ∈ c.hist := by
  cases hc : (db.rows r).chain with
  | none =>
      rw [Db.chainOf, hc] at h
      cases h
  | some c =>
      rw [chainOf_some hc] at h
      exact ⟨c, rfl, h⟩

theorem chain_of_writer {u : TxnId} (h : (db.chainOf r).writer = some u) :
    ∃ c, (db.rows r).chain = some c := by
  cases hc : (db.rows r).chain with
  | none =>
      rw [Db.chainOf, hc] at h
      cases h
  | some c => exact ⟨c, rfl⟩

/-- The versions of a written chain are those before it, or the heap's. -/
theorem Neat.written_hist (h : Neat p db) (hrec : (db.rows r).slot.isRecord = true) {old data : Image}
    {del hold : Bool} (hbase : db.BaseOk t r old) :
    ∀ v ∈ (db.writtenChain t r old del data hold).hist, v.isDeleted = false → db.sized r v.data := by
  intro v hv hdel
  change v ∈ (db.withBase t r (db.chainOf r) old).hist at hv
  unfold Db.withBase at hv
  split at hv
  · rename_i hempty
    obtain ⟨hnil, hw, hov⟩ := hempty
    rw [List.mem_singleton.1 hv, (hbase hnil hw hov).2]
    exact h.heap r hrec
  · obtain ⟨c, hc, hmem⟩ := chainOf_hist hv
    exact h.hist r c hc v hmem hdel

/-- For everybody else a row operation keeps the invariant. -/
theorem RowOp.neat_others (h : RowOp t r db db') (hv : db.needsVersioning (db.txn t) r.tab = true)
    (hn : Neat p db) (ht : db.Live t) (hrec : (db.rows r).slot.isRecord = true) :
    Neat (fun u => p u ∧ u ≠ t) db' := by
  have hh := h.held hv hn.held ht hrec
  have hn' : Neat (fun u => p u ∧ u ≠ t) db := hn.mono fun _ hu => hu.1
  obtain ⟨row, ws, mark, hw, hc⟩ := h
  -- the new owner of the row is `t`
  have htook : ∀ {c : MvccChain}, c.writer = some t →
      (∀ v ∈ c.hist, v.isDeleted = false → db.sized r v.data) →
        RowWrite db db' t r ((db.rows r).withChain c) ws mark → Neat (fun u => p u ∧ u ≠ t) db' := by
    intro c hwriter hhist hw
    refine RowWrite.neat hw hn' hh (fun _ => hn.heap r hrec) hhist ht ?_ (fun hp => absurd rfl hp.2) ?_
    · intro u hwu
      rw [hwriter] at hwu
      exact .inl (Option.some.inj hwu).symm
    · intro u hu hwu
      rw [hwriter] at hwu
      exact absurd (Option.some.inj hwu).symm hu.2
  cases hc with
  | same => exact RowWrite.neat_frame hw hn' ht
  | refused why =>
      refine RowWrite.neat hw hn' hh (fun _ => hn.heap r hrec) ?_ ht
        (fun u hwu => .inr (owns_of_writer hwu)) (fun hp => absurd rfl hp.2) ?_
      · intro v hv hdel
        obtain ⟨c, hc, hmem⟩ := chainOf_hist hv
        exact hn.hist r c hc v hmem hdel
      · intro u hu hwu
        obtain ⟨c, hc⟩ := chain_of_writer hwu
        rw [chainOf_some hc] at hwu ⊢
        exact hn.writer u r c hu.1 hc hwu
  | failed free base => exact htook rfl (hn.written_hist hrec base) hw
  | written free base origin hhold => exact htook rfl (hn.written_hist hrec base) hw
  | inserted free =>
      rw [hrec] at free
      cases free
  | updatedInPlace inPlace | deletedInPlace inPlace | insertedInPlace inPlace free =>
      rw [hv] at inPlace
      cases inPlace

/-! ## The rows of statements -/

/-- What an update that goes through has done to its row. -/
theorem updateRow_next {tab : TabName} {sets : List SetClause} {rid : Rid}
    (hv : db.needsVersioning (db.txn t) tab = true) (h : Db.updateRow t tab sets db rid = .next db') :
    ∃ visible db1 new, db.mvccRead t ⟨tab, rid⟩ = some visible ∧
      db.chooseWrite t ⟨tab, rid⟩ visible sets = .written db1 new ∧
        RowWrite db1 db' t ⟨tab, rid⟩ (db1.rows ⟨tab, rid⟩) [] false := by
  unfold Db.updateRow at h
  dsimp only at h
  rw [if_pos hv] at h
  split at h
  · cases h
  · rename_i visible hread
    split at h
    · cases h
    · cases h
    · rename_i db1 new hout
      have hw := chooseWrite_wrote db t ⟨tab, rid⟩ visible sets
      rw [hout] at hw
      have h1 := (RowWrite.serCheck db1 t ⟨tab, rid⟩ visible.bytes).andThen
        (RowWrite.serCheck _ t ⟨tab, rid⟩ new.bytes)
      split at h
      · cases h
      · cases h
        refine ⟨visible, db1, new, hread, hout, h1.andThen (finishUpdate_versioned _ t _ sets _ new ?_)⟩
        rw [h1.anyMvccDirty, hw.written_dirty]
        rfl

/-- A write that goes through keeps the invariant. -/
theorem Wrote.neat {old data : Image} {del keeps : Bool} {P : Image → Prop}
    (hw : Wrote db t r old del P keeps (.written db' data)) (h : Neat db.Live db) (ht : db.Live t)
    (hrec : (db.rows r).slot.isRecord = true) (hbase : db.BaseOk t r old)
    (hdata : db.uncommitted r del data) : Neat db.Live db' := by
  have hh := (hw.taken rfl).held h.held ht hrec
  cases hw with
  | written hw free origin value =>
  exact RowWrite.neat hw h hh (fun _ => h.heap r hrec) (h.written_hist hrec hbase) ht
    (fun u hwu => .inl (Option.some.inj hwu).symm)
    (fun _ _ => (touched_or_record h.held.inv (h.recorded t r ht) _).imp_right
      fun hmem => ⟨_, hmem, rfl⟩)
    (fun _ _ _ => hdata)

/-- An uncommitted version with bytes has the size of a record. -/
theorem Neat.writerData_length (h : Neat db.Live db) (ht : db.Live t)
    (hwriter : (db.chainOf r).writer = some t) (hne : (db.chainOf r).writerData.bytes ≠ []) :
    (db.chainOf r).writerData.bytes.length = (db.tabs r.tab).recordSize := by
  obtain ⟨c, hc⟩ := chain_of_writer hwriter
  rw [chainOf_some hc] at hwriter hne ⊢
  obtain ⟨hdel, hkept⟩ := h.writer t r c ht hc hwriter
  cases hd : c.writerDel with
  | true => exact absurd (hdel hd) hne
  | false => exact hkept hd

theorem chooseWrite_neat {visible new : Image} {sets : List SetClause} (h : Neat db.Live db)
    (ht : db.Live t) (hrec : (db.rows r).slot.isRecord = true)
    (hsets : sets.all (SetClause.checked (db.tabs r.tab)) = true)
    (hread : db.mvccRead t r = some visible)
    (hout : db.chooseWrite t r visible sets = .written db' new) : Neat db.Live db' := by
  have hw := chooseWrite_wrote db t r visible sets
  rw [hout] at hw
  refine hw.neat h ht hrec (mvccRead_baseOk (fun hc => h.held.inv.chains.any hc) hread) ?_
  refine ⟨fun hdel => (by cases hdel), fun _ => ?_⟩
  exact chooseWrite_length hsets (h.mvccRead_sized ht hrec hread) (h.writerData_length ht) hout

theorem deleteRow_next {tab : TabName} {rid : Rid} (h : Db.deleteRow t tab true db rid = .next db') :
    ∃ db1 new, db.mvccWrite t ⟨tab, rid⟩ (db.rows ⟨tab, rid⟩).slot.data none = .written db1 new ∧
      RowWrite db1 db' t ⟨tab, rid⟩ (db1.rows ⟨tab, rid⟩) [] false := by
  unfold Db.deleteRow at h
  dsimp only at h
  rw [if_pos rfl] at h
  split at h
  · cases h
  · cases h
  · rename_i db1 new hout
    have h1 := (RowWrite.serCheck db1 t ⟨tab, rid⟩ (db.rows ⟨tab, rid⟩).slot.data.bytes).andThen
      (RowWrite.writeLog _ t ⟨tab, rid⟩ (.delete t ⟨tab, rid⟩ (db.rows ⟨tab, rid⟩).slot.data.bytes))
    split at h
    · cases h
    · cases h
      exact ⟨db1, new, hout, h1⟩

/-- A row of an insert keeps the invariant, however it ends. -/
theorem InsertOp.neat {data : Bytes} (h : InsertOp t r data db db')
    (hv : db.needsVersioning (db.txn t) r.tab = true) (hn : Neat db.Live db) (ht : db.Live t)
    (hlen : data.length = (db.tabs r.tab).recordSize) : Neat db.Live db' := by
  obtain ⟨row, ws, mark, hw, hi⟩ := h
  cases hi with
  | same => exact RowWrite.neat_frame hw hn ht
  | inserted free =>
      exact RowWrite.neat hw hn (RowWrite.held_inserted hw hn.held ht free rfl) (fun _ => hlen)
        (fun v hv => by cases hv) ht (fun u hwu => .inl (Option.some.inj hwu).symm)
        (fun _ _ => .inr ⟨_, List.mem_singleton_self _, rfl⟩)
        (fun _ _ _ => ⟨fun hdel => (by cases hdel), fun _ => hlen⟩)
  | inPlace inPlace free =>
      rw [hv] at inPlace
      cases inPlace

/-! ## The end of a transaction -/

/-- The end of `t` keeps the invariant for the others when it does at the rows of `t`. -/
theorem Ended.neat (he : Ended db db' t) (h : Neat p db) (hh : Held db') (htabs : db'.tabs = db.tabs)
    (hq : ∀ u, q u → p u ∧ u ≠ t)
    (howns : ∀ u r, db'.Owns u r → (db.txn t).touches r = false ∧ db.Owns u r)
    (huntouched : ∀ r, (db.txn t).touches r = false → db'.rows r = db.rows r)
    (hslot : ∀ r, (db.txn t).touches r = true → (db'.rows r).slot.isRecord = true →
      db.sized r (db'.rows r).slot.data)
    (hhist : ∀ r, (db.txn t).touches r = true → ∀ c, (db'.rows r).chain = some c → ∀ v ∈ c.hist,
      v.isDeleted = false → db.sized r v.data) : Neat q db' := by
  have hsize := sized_congr htabs
  refine ⟨hh, ?_, ?_, ?_, ?_, ?_, ?_⟩
  · intro u r ho
    rcases eq_or_ne u t with rfl | hu
    · obtain ⟨x, hx, -⟩ := he.self
      rw [hx]
      rfl
    · rw [he.others u hu]
      exact h.begun u r (howns u r ho).2
  · intro u r hu ho
    rw [Db.txn_congr (he.others u (hq u hu).2)]
    exact h.recorded u r (hq u hu).1 (howns u r ho).2
  · intro r hrec
    rw [hsize]
    cases htouch : (db.txn t).touches r with
    | true => exact hslot r htouch hrec
    | false =>
        rw [huntouched r htouch] at hrec ⊢
        exact h.heap r hrec
  · intro r c hc v hv hdel
    rw [hsize]
    cases htouch : (db.txn t).touches r with
    | true => exact hhist r htouch c hc v hv hdel
    | false =>
        rw [huntouched r htouch] at hc
        exact h.hist r c hc v hv hdel
  · intro u r c hu hc hwu
    rw [uncommitted_congr htabs]
    obtain ⟨htouch, -⟩ := howns u r (.inl ⟨c, hc, hwu⟩)
    rw [huntouched r htouch] at hc
    exact h.writer u r c (hq u hu).1 hc hwu
  · intro u r ov hu hov hdel
    rw [hsize]
    rw [Db.txn_congr (he.others u (hq u hu).2)] at hov
    exact h.overlay u r ov (hq u hu).1 hov hdel

theorem Ended.live_ne (he : Ended db db' t) {u : TxnId} (hu : db'.Live u) : db.Live u ∧ u ≠ t := by
  have hne : u ≠ t := by
    rintro rfl
    exact he.not_live hu
  exact ⟨(he.live_iff hne).1 hu, hne⟩

/-- The versions of a row that commit or abort has its overlay put back in. -/
theorem Neat.restored_hist (h : Neat p db) {c : MvccChain} (hc : (db.restored t r).chain = some c) :
    ∀ v ∈ c.hist, v.isDeleted = false → db.sized r v.data := by
  intro v hv hdel
  rw [restored_chain hc] at hv
  obtain ⟨c0, hc0, hmem⟩ := chainOf_hist hv
  exact h.hist r c0 hc0 v hmem hdel

theorem abort_neat (h : Neat (fun u => db.Live u ∧ u ≠ t) db) (ht : db.Live t) :
    Neat (db.abort t).Live (db.abort t) := by
  have ha := abort_spec ht.live
  refine ha.ended.neat h (ha.held h.held ht) ha.tabs (fun u hu => ⟨ha.ended.live_ne hu, (ha.ended.live_ne hu).2⟩)
    (fun u r => ha.owns h.held ht) (fun r => ha.untouched h.held) ?_ ?_
  · intro r htouch hrec
    obtain ⟨c, hc, -, hrow⟩ := ha.undone h.held ht htouch
    rw [hrow] at hrec ⊢
    unfold Db.undoVersionedRow at hrec ⊢
    dsimp only at hrec ⊢
    rw [restored_slot] at hrec ⊢
    split at hrec
    · exact h.heap r hrec
    · rename_i last hlast
      split at hrec
      · rename_i hgood
        rw [if_pos hgood]
        exact h.restored_hist hc last (List.mem_of_getLast? hlast) (by simpa using hgood.1)
      · rename_i hbad
        rw [if_neg hbad]
        exact h.heap r hrec
  · intro r htouch c' hc' v hv hdel
    obtain ⟨c, hc, -, hrow⟩ := ha.undone h.held ht htouch
    rw [hrow] at hc'
    cases hc'
    exact h.restored_hist hc v hv hdel

/-- The uncommitted version that commit finds. -/
theorem Neat.restored_sized (h : Neat db.Live db) (ht : db.Live t) {c : MvccChain}
    (hc : (db.restored t r).chain = some c) (hw : c.writer = some t) (hdel : c.writerDel = false) :
    db.sized r c.writerData := by
  cases hov : (db.txn t).overlay r with
  | none =>
      rw [restored_of_none hov] at hc
      exact (h.writer t r c ht hc hw).2 hdel
  | some ov =>
      unfold Db.restored Db.restoreWritersFromOverlays at hc
      simp only [hov] at hc
      cases hc
      exact h.overlay t r ov ht hov hdel

theorem reclaimRow_slot (wm : Ts) (row : Row) : (Db.reclaimRow wm row).slot = row.slot := by
  rcases reclaimRow_cases wm row with heq | ⟨c, v, -, -, -, -, -, -, heq⟩ <;> rw [heq]

/-- What commit makes of a row that its transaction has written. -/
theorem Committed.published (h : Committed db db' t) (hh : Held db) (ht : db.Live t)
    (htouch : (db.txn t).touches r = true) : ∃ c slot row,
      (db.restored t r).chain = some c ∧ c.writer = some t ∧
      row = { db.restored t r with
        slot := slot
        chain := Db.pruneMvccAfterCommit (c.published t (db.nextCts t)) (db.watermark t)
          (db.nextCts t) } ∧
      db'.rows r = Db.reclaimRow (db.watermark t) row ∧
      (c.writerDel = true ∧ slot = { (db.rows r).slot with isRecord := false } ∨
        c.writerDel = false ∧ c.writerData.bytes = [] ∧ slot = (db.rows r).slot ∨
        c.writerDel = false ∧ c.writerData.bytes ≠ [] ∧ (db.rows r).slot.isRecord = true ∧
          slot = { (db.rows r).slot with data := c.writerData }) := by
  obtain ⟨-, c, hchain, hw⟩ := hh.restored ht htouch
  obtain ⟨row, hpub, hrow⟩ := h.touched r htouch
  rcases publishRow_cases hpub with ⟨-, hne⟩ | ⟨c', slot, hc', hw', heq, hslot⟩
  · exact absurd hw (hne c hchain)
  · rw [restored_slot] at hslot
    exact ⟨c', slot, row, hc', hw', heq, hrow, hslot⟩

theorem commit_neat (h : Neat db.Live db) (ht : db.Live t) (hcommit : db.commit t = some db') :
    Neat db'.Live db' := by
  have hc := commit_spec ht.live hcommit
  refine hc.ended.neat h (hc.held h.held ht) hc.tabs (fun u hu => hc.ended.live_ne hu)
    (fun u r => hc.owns h.held ht) ?_ ?_ ?_
  · intro r htouch
    rw [hc.untouched r htouch, restored_untouched h.held.inv htouch]
  · intro r htouch hrec
    obtain ⟨c, slot, row, hchain, hw, rfl, hrow, hslot⟩ := hc.published h.held ht htouch
    rw [hrow, reclaimRow_slot] at hrec ⊢
    change slot.isRecord = true at hrec
    change db.sized r slot.data
    rcases hslot with ⟨-, rfl⟩ | ⟨-, -, rfl⟩ | ⟨hdel, -, -, rfl⟩
    · cases hrec
    · exact h.heap r hrec
    · exact h.restored_sized ht hchain hw hdel
  · intro r htouch c' hc' v hv hdel
    obtain ⟨c, slot, row, hchain, hw, rfl, hrow, -⟩ := hc.published h.held ht htouch
    rw [hrow] at hc'
    have hprune : Db.pruneMvccAfterCommit (c.published t (db.nextCts t)) (db.watermark t)
        (db.nextCts t) = some c' := by
      rcases reclaimRow_cases (db.watermark t) { db.restored t r with
        slot := slot
        chain := Db.pruneMvccAfterCommit (c.published t (db.nextCts t)) (db.watermark t)
          (db.nextCts t) } with heq | ⟨c0, v0, -, -, -, -, -, -, heq⟩
      · rwa [heq] at hc'
      · rw [heq] at hc'
        cases hc'
    rcases List.mem_append.1 ((prune_suffix hprune).2.subset hv) with hold | hnew
    · exact h.restored_hist hchain v hold hdel
    · rw [List.mem_singleton.1 hnew] at hdel ⊢
      have hkept : c.writerDel = false := hdel
      rw [hkept, if_neg Bool.false_ne_true]
      exact h.restored_sized ht hchain hw hkept

theorem release_neat (h : Neat db.Live db) (ht : db.Live t) :
    Neat (db.releaseStatementWrites t).Live (db.releaseStatementWrites t) := by
  have hsome := (live_iff.1 ht).1
  have htabs : (db.releaseStatementWrites t).tabs = db.tabs :=
    (release_fields db t).2.2.2.2.2.2
  have hsize := sized_congr htabs
  have hlive := release_live_iff hsome
  refine ⟨release_held h.held ht, ?_, ?_, ?_, ?_, ?_, ?_⟩
  · intro u r ho
    rw [release_isSome hsome]
    exact h.begun u r (release_owns ho)
  · intro u r hu ho
    rw [release_proj (fun x => x.touches r) (fun _ _ => rfl)]
    exact h.recorded u r ((hlive u).1 hu) (release_owns ho)
  · intro r hrec
    rw [hsize]
    rcases release_row db t r with ⟨heq, -⟩ | ⟨c, -, -, -, -, heq, -⟩
    · rw [heq] at hrec ⊢
      exact h.heap r hrec
    · rw [heq] at hrec ⊢
      exact h.heap r hrec
  · intro r c' hc' v hv hdel
    rw [hsize]
    rcases release_row db t r with ⟨heq, -⟩ | ⟨c, -, hc, -, -, heq, -⟩
    · rw [heq] at hc'
      exact h.hist r c' hc' v hv hdel
    · rw [heq] at hc'
      cases hc'
      exact h.hist r c hc v hv hdel
  · intro u r c' hu hc' hwu
    rw [uncommitted_congr htabs]
    rcases release_row db t r with ⟨heq, -⟩ | ⟨c, -, hc, -, -, heq, -⟩
    · rw [heq] at hc'
      exact h.writer u r c' ((hlive u).1 hu) hc' hwu
    · rw [heq] at hc'
      cases hc'
      cases hwu
  · intro u r ov hu hov hdel
    rw [hsize]
    rcases eq_or_ne u t with rfl | hne
    · rcases release_row db u r with ⟨-, heq⟩ | ⟨c, -, hc, hw, -, -, heq⟩
      · rw [heq] at hov
        exact h.overlay u r ov ht hov hdel
      · rw [heq] at hov
        cases hov
        exact (h.writer u r c ht hc hw).2 hdel
    · rw [Db.txn_congr (release_txns_ne hne)] at hov
      exact h.overlay u r ov ((hlive u).1 hu) hov hdel

theorem begin_neat (h : Neat db.Live db) (explicit : Bool) (iso : IsolationLevel) :
    Neat (db.begin explicit iso).Live (db.begin explicit iso) := by
  have hself : (db.begin explicit iso).txn db.nextTxnId =
      { txnMode := explicit, isolation := iso, readTs := db.lastCommitTs } := by
    rw [Db.txn, begin_txns_self, Option.getD_some]
  have hlive : ∀ u, u ≠ db.nextTxnId → (db.begin explicit iso).Live u → db.Live u := by
    intro u hne hu
    unfold Db.Live at hu
    rwa [begin_txns_ne hne] at hu
  -- nobody owns a row under an id that is not given out
  have hnobody : ∀ r, ¬ db.Owns db.nextTxnId r := by
    intro r ho
    have hsome := h.begun _ r ho
    rw [h.held.inv.fresh _ le_rfl] at hsome
    cases hsome
  refine ⟨begin_held h.held explicit iso, ?_, ?_, h.heap, h.hist, ?_, ?_⟩
  · intro u r ho
    have hne : u ≠ db.nextTxnId := by
      rintro rfl
      exact hnobody r ho
    rw [begin_txns_ne hne]
    exact h.begun u r ho
  · intro u r hu ho
    have hne : u ≠ db.nextTxnId := by
      rintro rfl
      exact hnobody r ho
    rw [Db.txn_congr (begin_txns_ne hne)]
    exact h.recorded u r (hlive u hne hu) ho
  · intro u r c hu hc hwu
    have hne : u ≠ db.nextTxnId := by
      rintro rfl
      exact hnobody r (.inl ⟨c, hc, hwu⟩)
    exact h.writer u r c (hlive u hne hu) hc hwu
  · intro u r ov hu hov hdel
    have hne : u ≠ db.nextTxnId := by
      rintro rfl
      rw [hself] at hov
      cases hov
    rw [Db.txn_congr (begin_txns_ne hne)] at hov
    exact h.overlay u r ov (hlive u hne hu) hov hdel

/-! ## Steps -/

theorem RowOp.live_iff (h : RowOp t r db db') (ht : db.Live t) (u : TxnId) :
    db'.Live u ↔ db.Live u := by
  obtain ⟨row, ws, mark, hw, -⟩ := h
  exact hw.live_iff (Txn.live_iff.1 ht).1 u

theorem updateRow_not_done (t : TxnId) (tab : TabName) (sets : List SetClause) (db : Db) (rid : Rid)
    (db' : Db) : Db.updateRow t tab sets db rid ≠ .done db' := by
  intro h
  unfold Db.updateRow at h
  dsimp only at h
  split at h
  · split at h
    · cases h
    · split at h
      · cases h
      · cases h
      · split at h <;> cases h
  · cases h

theorem deleteRow_not_done (t : TxnId) (tab : TabName) (versioned : Bool) (db : Db) (rid : Rid)
    (db' : Db) : Db.deleteRow t tab versioned db rid ≠ .done db' := by
  intro h
  unfold Db.deleteRow at h
  dsimp only at h
  split at h
  · split at h
    · cases h
    · cases h
    · split at h <;> cases h
  · cases h

/-- A row that throws is undone with all that its transaction has written. -/
theorem RowOp.abort_neat (h : RowOp t r db db') (hv : db.needsVersioning (db.txn t) r.tab = true)
    (hn : Neat db.Live db) (ht : db.Live t) (hrec : (db.rows r).slot.isRecord = true) :
    Neat (db'.abort t).Live (db'.abort t) :=
  Txn.abort_neat ((h.neat_others hv hn ht hrec).mono fun u hu => ⟨(h.live_iff ht u).1 hu.1, hu.2⟩)
    ((h.live_iff ht t).2 ht)

theorem updateRow_neat {tab : TabName} {sets : List SetClause} {rid : Rid} (h : Neat db.Live db)
    (ht : db.Live t) (hv : db.needsVersioning (db.txn t) tab = true)
    (hrec : (db.rows ⟨tab, rid⟩).slot.isRecord = true)
    (hsets : sets.all (SetClause.checked (db.tabs tab)) = true)
    (hstep : afterRow t (Db.updateRow t tab sets db rid) = some db') : Neat db'.Live db' := by
  have hop := updateRow_op t tab sets db rid (fun hc => h.held.inv.chains.any hc)
  cases hout : Db.updateRow t tab sets db rid with
  | next db1 =>
      rw [hout] at hop hstep
      cases hstep
      have hop : RowOp t ⟨tab, rid⟩ db db' := hop
      obtain ⟨visible, db2, new, hread, hwrite, hframe⟩ := updateRow_next hv hout
      have hneat := chooseWrite_neat h ht hrec hsets hread hwrite
      have ht2 : db2.Live t := (chooseWrite_written hwrite).2.1.live ht
      exact (RowWrite.neat_frame hframe hneat ht2).mono fun u hu => (hop.live_iff ht u).1 hu
  | done db1 => exact absurd hout (updateRow_not_done t tab sets db rid db1)
  | abort db1 =>
      rw [hout] at hop hstep
      cases hstep
      exact RowOp.abort_neat hop hv h ht hrec
  | stop =>
      rw [hout] at hstep
      cases hstep

theorem deleteRow_neat {tab : TabName} {rid : Rid} (h : Neat db.Live db)
    (ht : db.Live t) (hv : db.needsVersioning (db.txn t) tab = true)
    (hrec : (db.rows ⟨tab, rid⟩).slot.isRecord = true) {img : Image}
    (hread : db.readRow t ⟨tab, rid⟩ = some img)
    (hstep : afterRow t (Db.deleteRow t tab true db rid) = some db') : Neat db'.Live db' := by
  have hbase := readRow_baseOk h.held.inv.chains hread
  have hop := deleteRow_op t tab true db rid (fun _ => hbase) (fun hn => absurd rfl hn)
  cases hout : Db.deleteRow t tab true db rid with
  | next db1 =>
      rw [hout] at hop hstep
      cases hstep
      have hop : RowOp t ⟨tab, rid⟩ db db' := hop
      obtain ⟨db2, new, hwrite, hframe⟩ := deleteRow_next hout
      have hw := mvccWrite_spec db t ⟨tab, rid⟩ (db.rows ⟨tab, rid⟩).slot.data none
      rw [hwrite] at hw
      have hnew : db.uncommitted ⟨tab, rid⟩ true new := by
        cases hw with
        | written hw free origin value =>
        rcases origin with ⟨rfl, -⟩ | ⟨-, hdel⟩
        · exact ⟨fun _ => rfl, fun hdel => (by cases hdel)⟩
        · exact absurd rfl hdel
      have hneat := hw.neat h ht hrec hbase hnew
      have ht2 : db2.Live t := by
        cases hw with
        | written hw free origin value => exact hw.live ht
      exact (RowWrite.neat_frame hframe hneat ht2).mono fun u hu => (hop.live_iff ht u).1 hu
  | done db1 => exact absurd hout (deleteRow_not_done t tab true db rid db1)
  | abort db1 =>
      rw [hout] at hop hstep
      cases hstep
      exact RowOp.abort_neat hop hv h ht hrec
  | stop =>
      rw [hout] at hstep
      cases hstep

theorem insertRow_neat {tab : TabName} {data : Bytes} {rid : Rid} (h : Neat db.Live db)
    (ht : db.Live t) (hv : db.needsVersioning (db.txn t) tab = true)
    (hlen : data.length = (db.tabs tab).recordSize)
    (hstep : afterRow t (Db.insertRow t tab db (data, rid)) = some db') : Neat db'.Live db' := by
  have hop := insertRow_insertOp t tab db (data, rid)
  have hneat : ∀ {db1}, InsertOp t ⟨tab, rid⟩ data db db1 → Neat db1.Live db1 ∧ db1.Live t := by
    intro db1 hi
    have hlive := hi.rowOp.live_iff ht
    exact ⟨(hi.neat hv h ht hlen).mono fun u hu => (hlive u).1 hu, (hlive t).2 ht⟩
  cases hout : Db.insertRow t tab db (data, rid) with
  | next db1 | done db1 =>
      rw [hout] at hop hstep
      cases hstep
      exact (hneat hop).1
  | abort db1 =>
      rw [hout] at hop hstep
      cases hstep
      exact Txn.abort_neat ((hneat hop).1.mono fun _ hu => hu.1) (hneat hop).2
  | stop =>
      rw [hout] at hstep
      cases hstep

/-- **One step keeps the invariant.** -/
theorem execStep_neat {a : ExecOp} (h : Neat db.Live db) (hstep : execStep db a = some db') :
    Neat db'.Live db' := by
  cases a with
  | begin explicit iso =>
      cases hstep
      exact begin_neat h explicit iso
  | insert t tab data rid =>
      obtain ⟨⟨ht, hv, hlen⟩, hstep⟩ := Option.ite_none_right_eq_some.1 hstep
      exact insertRow_neat h ht hv hlen hstep
  | update t tab sets rid =>
      obtain ⟨⟨ht, hv, hrec, hsets⟩, hstep⟩ := Option.ite_none_right_eq_some.1 hstep
      exact updateRow_neat h ht hv hrec hsets hstep
  | delete t tab rid =>
      obtain ⟨⟨ht, hv, hrec, hread⟩, hstep⟩ := Option.ite_none_right_eq_some.1 hstep
      obtain ⟨img, hread⟩ := Option.isSome_iff_exists.1 hread
      exact deleteRow_neat h ht hv hrec hread hstep
  | endStmt t =>
      obtain ⟨ht, heq⟩ := Option.ite_none_right_eq_some.1 hstep
      cases heq
      exact release_neat h ht
  | commit t =>
      obtain ⟨ht, hcommit⟩ := Option.ite_none_right_eq_some.1 hstep
      exact commit_neat h ht hcommit
  | abort t =>
      obtain ⟨ht, heq⟩ := Option.ite_none_right_eq_some.1 hstep
      cases heq
      exact abort_neat (h.mono fun _ hu => hu.1) ht

theorem boot_neat (tabs : TabName → TabMeta) (files : TabName → RmFileHdr) (heap : RowId → Slot)
    (index : IndexId → IndexMap)
    (hheap : ∀ r, (heap r).isRecord = true → (heap r).data.bytes.length = (tabs r.tab).recordSize) :
    Neat (Db.boot tabs files heap index).Live (Db.boot tabs files heap index) := by
  refine ⟨boot_held tabs files heap index, ?_, ?_, hheap, ?_, ?_, ?_⟩
  · rintro u r (⟨c, hc, -⟩ | hp)
    · cases hc
    · cases hp
  · rintro u r - (⟨c, hc, -⟩ | hp)
    · cases hc
    · cases hp
  · intro r c hc
    cases hc
  · intro u r c hu hc
    cases hc
  · intro u r ov hu hov
    cases hov

theorem run_neat {tabs : TabName → TabMeta} {files : TabName → RmFileHdr} {heap : RowId → Slot}
    {index : IndexId → IndexMap}
    (hheap : ∀ r, (heap r).isRecord = true → (heap r).data.bytes.length = (tabs r.tab).recordSize)
    {ops : List ExecOp} (h : run execStep (Db.boot tabs files heap index) ops = some db) :
    Neat db.Live db :=
  run_invariant (I := fun db => Neat db.Live db) (fun _ _ _ hi hs => execStep_neat hi hs) ops _ _
    (boot_neat tabs files heap index hheap) h

end Rmdb.Txn
