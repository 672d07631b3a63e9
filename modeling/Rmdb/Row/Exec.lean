import Rmdb.Row.Change

/-!
# The executors, row by row

`RowOp t r db db'` is the work of `t` on one row: what the row can look like afterwards
(`RowChange`), with everything else left alone (`RowWrite`).  A statement is a chain of such
steps (`exec_rows`).
-/

namespace Rmdb.Txn

open Rmdb.Index (Rid)

/-! ## Columns lie within the record -/

theorem ColsAt.fits {off : Nat} {cols : List ColMeta} (h : ColsAt off cols) :
    ∀ c ∈ cols, c.offset + c.len ≤ off + (cols.map ColMeta.len).sum := by
  induction cols generalizing off with
  | nil => intro c hc; cases hc
  | cons d cs ih =>
      intro c hc
      obtain ⟨hd, hcs⟩ := h
      rw [List.map_cons, List.sum_cons]
      rcases List.mem_cons.1 hc with rfl | hc
      · omega
      · have := ih hcs c hc
        omega

theorem TabMeta.fits (m : TabMeta) {c : ColMeta} (hc : c ∈ m.cols) :
    c.offset + c.len ≤ m.recordSize := by
  have := m.layout.fits c hc
  unfold TabMeta.recordSize
  omega

theorem TabMeta.findCol_mem {m : TabMeta} {name : String} {c : ColMeta}
    (h : m.findCol name = some c) : c ∈ m.cols := List.mem_of_find?_eq_some h

/-! ## The write an update chooses -/

/-- The column delta of a statement, when it takes the column-delta routine. -/
def statementDelta (m : TabMeta) (visible : Bytes) (sets : List SetClause) :
    Option ColArithDelta :=
  match detectColArithDelta m sets with
  | some d => some d
  | none => absColDelta visible (buildColPatches m sets)

/-- Does the statement take the column-delta routine? -/
def takesDelta (m : TabMeta) (sets : List SetClause) : Bool := (statementDelta m [] sets).isSome

theorem absColDelta_isSome (visible visible' : Bytes) (ps : List MvccColPatch) :
    (absColDelta visible ps).isSome = (absColDelta visible' ps).isSome := by
  unfold absColDelta
  split
  · split
    · rfl
    · split
      · rw [Option.isSome_some, Option.isSome_some]
      · split
        · rw [Option.isSome_some, Option.isSome_some]
        · rfl
  · rfl

theorem takesDelta_eq (m : TabMeta) (visible : Bytes) (sets : List SetClause) :
    takesDelta m sets = (statementDelta m visible sets).isSome := by
  unfold takesDelta statementDelta
  split
  · rfl
  · exact absColDelta_isSome _ _ _

/-- The bytes a column delta leaves. -/
def ColArithDelta.apply (d : ColArithDelta) (base : Bytes) : Bytes :=
  putWord base d.colOff
    (if d.colType = .float then fadd (getWord base d.colOff) d.deltaF
      else getWord base d.colOff + d.deltaI)

/-- A delta on a word inside the record. -/
def ColArithDelta.Ok (m : TabMeta) (d : ColArithDelta) : Prop :=
  d.colType ≠ .string ∧ d.colOff + 4 ≤ m.recordSize

theorem detectColArithDelta_ok {m : TabMeta} {sets : List SetClause} {d : ColArithDelta}
    (h : detectColArithDelta m sets = some d) : d.Ok m := by
  unfold detectColArithDelta at h
  split at h
  · rename_i s
    split at h
    · cases h
    · split at h
      · cases h
      · rename_i col hcol
        have hfit := m.fits (TabMeta.findCol_mem hcol)
        split at h
        · rename_i hty
          cases h
          exact ⟨by simp, by rw [hty.2] at hfit; exact hfit⟩
        · split at h
          · rename_i hty
            cases h
            exact ⟨by simp, by rw [hty.2] at hfit; exact hfit⟩
          · cases h
  · cases h

theorem buildColPatches_mem {m : TabMeta} {sets : List SetClause} {p : MvccColPatch}
    (h : p ∈ buildColPatches m sets) : ∃ c ∈ m.cols, p.offset = c.offset ∧ p.len = c.len := by
  unfold buildColPatches at h
  obtain ⟨s, -, hs⟩ := List.mem_filterMap.1 h
  cases hcol : m.findCol s.lhs with
  | none => simp [hcol] at hs
  | some col =>
      refine ⟨col, TabMeta.findCol_mem hcol, ?_⟩
      simp only [hcol, Option.bind_eq_bind, Option.bind_some] at hs
      split at hs <;> cases hs <;> exact ⟨rfl, rfl⟩

theorem absColDelta_ok {m : TabMeta} {sets : List SetClause} {visible : Bytes} {d : ColArithDelta}
    (h : absColDelta visible (buildColPatches m sets) = some d) : d.Ok m := by
  unfold absColDelta at h
  split at h
  · rename_i p hp
    obtain ⟨c, hc, hoff, hlen⟩ := buildColPatches_mem (p := p) (by rw [hp]; exact List.mem_singleton_self p)
    have hfit := m.fits hc
    split at h
    · cases h
    · split at h
      · rename_i hty
        cases h
        exact ⟨by simp, by rw [← hlen, hty.2.1] at hfit; rw [hoff]; exact hfit⟩
      · split at h
        · rename_i hty
          cases h
          exact ⟨by simp, by rw [← hlen, hty.2.1] at hfit; rw [hoff]; exact hfit⟩
        · cases h
  · cases h

theorem statementDelta_ok {m : TabMeta} {sets : List SetClause} {visible : Bytes}
    {d : ColArithDelta} (h : statementDelta m visible sets = some d) : d.Ok m := by
  unfold statementDelta at h
  split at h
  · cases h
    rename_i hd
    exact detectColArithDelta_ok hd
  · exact absColDelta_ok h

/-- The bytes the chosen routine writes over `base`, its own earlier write or what it sees. -/
inductive Updated (m : TabMeta) (base visible : Bytes) (sets : List SetClause) : Bytes → Prop where
  | delta {d : ColArithDelta} (h : statementDelta m visible sets = some d) :
      Updated m base visible sets (d.apply base)
  | patch {dest : Bytes} (h : sets.length > 1)
      (hok : applyPatches (fun p b => p.applyFromVisible visible b m.recordSize m)
        (buildColPatches m sets) base = (dest, true)) : Updated m base visible sets dest
  | write : Updated m base visible sets (applySets m sets visible visible)

variable {db db' : Db} {t : TxnId} {r : RowId} {old : Image} {del keeps : Bool} {P Q : Image → Prop}
variable {out : WriteOutcome}

theorem Wrote.mono (h : Wrote db t r old del P keeps out) (hPQ : ∀ img, P img → Q img) :
    Wrote db t r old del Q keeps out := by
  cases h with
  | untouched => exact .untouched
  | refused h why => exact .refused h why
  | failed h free => exact .failed h free
  | written h free origin value => exact .written h free origin fun hn => hPQ _ (value hn)
  | nullRead => exact .nullRead

theorem colDelta_wrote (db : Db) (t : TxnId) (r : RowId) (visible : Image) {d : ColArithDelta}
    (h : d.Ok (db.tabs r.tab)) :
    Wrote db t r visible false (fun img => img.bytes = d.apply (db.ownBase t r visible.bytes)) true
      (db.colDelta t r visible d) :=
  colDelta_spec db t r visible d.deltaF d.deltaI h.1 h.2

theorem patchOrWrite_wrote (db : Db) (t : TxnId) (r : RowId) (visible : Image)
    (sets : List SetClause) :
    Wrote db t r visible false (fun img => Updated (db.tabs r.tab) (db.ownBase t r visible.bytes)
      visible.bytes sets img.bytes) false (db.patchOrWrite t r visible sets) := by
  unfold Db.patchOrWrite
  dsimp only
  split
  · rename_i h
    exact (colPatch_spec db t r visible _).mono fun img himg => .patch h.1 himg
  · refine (mvccWrite_spec db t r visible (some _)).mono ?_
    intro img himg
    rw [himg]
    exact .write

theorem colDelta_refused {visible : Image} {d : ColArithDelta} (hok : d.Ok (db.tabs r.tab))
    (h : db.colDelta t r visible d = .refused db') : db.held t r ∧ db' = db.touchChain t r := by
  simp only [Db.colDelta, Db.mvccWriteColDelta, touchChain_held] at h
  by_cases hheld : db.held t r
  · rw [if_pos hheld] at h
    cases h
    exact ⟨hheld, rfl⟩
  · rw [if_neg hheld, if_neg (not_or.2 ⟨hok.1, by have := hok.2; omega⟩)] at h
    cases h

theorem touchChain_chainOf (db : Db) (t : TxnId) (r : RowId) :
    (db.touchChain t r).chainOf r = db.chainOf r := by
  rw [(touchChain_write db t r).chainOf]
  rfl

/-- While another transaction holds the row, a second attempt changes no more than the first. -/
theorem Wrote.of_held (hheld : db.held t r)
    (h : Wrote (db.touchChain t r) t r old del P false out) : Wrote db t r old del Q keeps out := by
  have hch := touchChain_chainOf db t r
  have hheld' : (db.touchChain t r).held t r := by
    rw [Db.held, hch, touchChain_held]
    exact hheld
  cases h with
  | untouched => exact .refused (touchChain_write db t r) (.inl hheld)
  | refused h why =>
      have h2 := (touchChain_write db t r).trans h
      rw [(touchChain_write db t r).row_self, hch] at h2
      exact .refused h2 (.inl hheld)
  | failed h free => exact absurd hheld' free
  | written h free origin value => exact absurd hheld' free
  | nullRead => exact .nullRead

theorem chooseWrite_wrote (db : Db) (t : TxnId) (r : RowId) (visible : Image)
    (sets : List SetClause) :
    Wrote db t r visible false (fun img => Updated (db.tabs r.tab) (db.ownBase t r visible.bytes)
        visible.bytes sets img.bytes) (takesDelta (db.tabs r.tab) sets)
      (db.chooseWrite t r visible sets) := by
  rw [takesDelta_eq (db.tabs r.tab) visible.bytes sets]
  unfold Db.chooseWrite
  cases hd : statementDelta (db.tabs r.tab) visible.bytes sets with
  | none =>
      simp only [statementDelta] at hd
      split at hd
      · cases hd
      · rename_i hdet
        simp only [hdet, hd]
        exact patchOrWrite_wrote db t r visible sets
  | some d =>
      have hok := statementDelta_ok hd
      have hw : Wrote db t r visible false (fun img => Updated (db.tabs r.tab)
          (db.ownBase t r visible.bytes) visible.bytes sets img.bytes) true
          (db.colDelta t r visible d) := by
        refine (colDelta_wrote db t r visible hok).mono ?_
        intro img himg
        rw [himg]
        exact .delta hd
      simp only [statementDelta] at hd
      split at hd
      · rename_i hdet
        cases hd
        simp only [hdet]
        exact hw
      · rename_i hdet
        simp only [hdet, hd]
        split
        · rename_i db1 href
          obtain ⟨hheld, rfl⟩ := colDelta_refused hok href
          exact .of_held hheld (patchOrWrite_wrote _ t r visible sets)
        · exact hw

/-! ## One row of a statement -/

/-- A base version is made for a row without a chain only, from the heap. -/
def Db.BaseOk (db : Db) (t : TxnId) (r : RowId) (old : Image) : Prop :=
  (db.chainOf r).hist = [] → (db.chainOf r).writer = none → (db.txn t).overlay r = none →
    (db.rows r).chain = none ∧ old = (db.rows r).slot.data

/-- The record of a write in place. -/
def Db.fastRecords (db : Db) (t : TxnId) (w : WriteRecord) : List WriteRecord :=
  if db.usesSiFastPath (db.txn t) then [w] else []

inductive RowChange (db : Db) (t : TxnId) (r : RowId) : Row → List WriteRecord → Bool → Prop where
  | same : RowChange db t r (db.rows r) [] false
  | refused (why : db.held t r ∨ db.overtaken t r) :
      RowChange db t r ((db.rows r).withChain (db.chainOf r)) [] true
  | failed {old : Image} {data : Bytes} (free : ¬ db.held t r) (base : db.BaseOk t r old) :
      RowChange db t r ((db.rows r).withChain (db.writtenChain t r old false ⟨data, some t⟩
        (db.chainOf r).holdWriterToCommit)) [] true
  | written {old data : Image} {del hold : Bool} (free : ¬ db.held t r) (base : db.BaseOk t r old)
      (origin : data = .empty ∧ del ∨ data.origin = some t ∧ ¬ del)
      (hhold : (db.chainOf r).holdWriterToCommit → hold) :
      RowChange db t r ((db.rows r).withChain (db.writtenChain t r old del data hold))
        (db.newRecord t r ⟨if del then .deleteTuple else .updateTuple, r, old⟩) true
  | inserted {data : Bytes} (free : (db.rows r).slot.isRecord = false) :
      RowChange db t r
        { db.rows r with
          slot := ⟨true, ⟨data, some t⟩⟩
          chain := some { db.chainOf r with
            hist := [], writer := some t, writerDel := false, writerData := ⟨data, some t⟩ } }
        [⟨.insertTuple, r, .empty⟩] true
  | updatedInPlace {data : Bytes} (inPlace : db.needsVersioning (db.txn t) r.tab = false) :
      RowChange db t r { db.rows r with slot := { (db.rows r).slot with data := ⟨data, some t⟩ } }
        (db.fastRecords t ⟨.updateTuple, r, (db.rows r).slot.data⟩) false
  | deletedInPlace (inPlace : db.needsVersioning (db.txn t) r.tab = false) :
      RowChange db t r { db.rows r with slot := { (db.rows r).slot with isRecord := false } }
        (db.fastRecords t ⟨.deleteTuple, r, (db.rows r).slot.data⟩) false
  | insertedInPlace {data : Bytes} (inPlace : db.needsVersioning (db.txn t) r.tab = false)
      (free : (db.rows r).slot.isRecord = false) :
      RowChange db t r { db.rows r with slot := ⟨true, ⟨data, some t⟩⟩ }
        (db.fastRecords t ⟨.insertTuple, r, ⟨data, some t⟩⟩) false

def RowOp (t : TxnId) (r : RowId) (db db' : Db) : Prop :=
  ∃ row ws mark, RowWrite db db' t r row ws mark ∧ RowChange db t r row ws mark

theorem RowOp.none_of {r : RowId} (h : RowWrite db db' t r (db.rows r) [] false) :
    RowOp t r db db' := ⟨_, _, _, h, .same⟩

theorem RowWrite.usesSiFastPath {row : Row} {ws : List WriteRecord}
    (h : RowWrite db db' t r row ws false) :
    db'.usesSiFastPath (db'.txn t) = db.usesSiFastPath (db.txn t) := by
  simp only [Db.usesSiFastPath, h.txnMode, h.isolation, h.activeExplicitCount, h.anyMvccDirty,
    Bool.or_false]

theorem RowWrite.needsVersioning {row : Row} {ws : List WriteRecord}
    (h : RowWrite db db' t r row ws false) (tab : TabName) :
    db'.needsVersioning (db'.txn t) tab = db.needsVersioning (db.txn t) tab := by
  simp only [Db.needsVersioning, h.usesSiFastPath, Db.tableIsDirty, h.txnMode,
    h.activeExplicitCount, h.anyMvccDirty, h.mvccDirty, Bool.or_false, Bool.false_and]

theorem usesSiFastPath_of_dirty (h : db.anyMvccDirty = true) (x : Transaction) :
    db.usesSiFastPath x = false := by
  simp [Db.usesSiFastPath, h]

theorem mvccRead_baseOk (hdirty : (db.rows r).chain.isSome → db.anyMvccDirty = true)
    (h : db.mvccRead t r = some old) : db.BaseOk t r old := by
  intro hhist hwriter hov
  have hnone : (db.rows r).chain = none := by
    cases hc : (db.rows r).chain with
    | none => rfl
    | some c =>
        exfalso
        rw [hc] at hdirty
        have hch : db.chainOf r = c := by rw [Db.chainOf, hc]; rfl
        rw [hch] at hhist hwriter
        simp [Db.mvccRead, hdirty rfl, hov, hc, Db.chainRead, hwriter, hhist, Db.visibleVer,
          Db.verImage] at h
  refine ⟨hnone, ?_⟩
  unfold Db.mvccRead at h
  split at h
  · exact (Option.some.inj h).symm
  · simp only [hov, hnone] at h
    exact (Option.some.inj h).symm

/-- The record and the index entries at the end of a write. -/
theorem RowWrite.record {row : Row} (h : RowWrite db db' t r row [] false) (w : WriteRecord)
    (idxs : List (List ColMeta)) (data : Bytes) :
    RowWrite db ((db'.fastRecord t w).insertKeys r idxs data) t r row (db.fastRecords t w) false := by
  have h2 := h.trans (RowWrite.fastRecord db' t r w)
  rw [h.row_self, h.usesSiFastPath, List.nil_append, Bool.or_false] at h2
  exact h2.andThen (RowWrite.insertKeys _ t r r idxs data)

theorem finishUpdate_versioned (db : Db) (t : TxnId) (r : RowId) (sets : List SetClause)
    (orig new : Image) (hd : db.anyMvccDirty = true) :
    RowWrite db (db.finishUpdate t r sets true orig new) t r (db.rows r) [] false := by
  unfold Db.finishUpdate
  split
  · exact .refl db t r
  · have h1 := (RowWrite.deleteKeys db t r r.tab (db.touchedIndexes r.tab sets) orig.bytes).andThen
      (RowWrite.writeLog _ t r (updateLog t r orig.bytes new.bytes
        ((db.deleteKeys r.tab (db.touchedIndexes r.tab sets) orig.bytes).tabs r.tab).recordSize))
    have h2 := h1.record ⟨.updateTuple, r, orig⟩ (db.touchedIndexes r.tab sets) new.bytes
    rwa [Db.fastRecords, usesSiFastPath_of_dirty hd] at h2

theorem finishUpdate_inPlace (db : Db) (t : TxnId) (r : RowId) (sets : List SetClause)
    (data : Bytes) (hv : db.needsVersioning (db.txn t) r.tab = false) :
    RowOp t r db (db.finishUpdate t r sets false (db.rows r).slot.data ⟨data, some t⟩) := by
  unfold Db.finishUpdate
  split
  · exact .none_of (.refl db t r)
  · have h1 := RowWrite.deleteKeys db t r r.tab (db.touchedIndexes r.tab sets)
      (db.rows r).slot.data.bytes
    have h2 := h1.trans (RowWrite.setSlot _ t r { (db.rows r).slot with data := ⟨data, some t⟩ })
    rw [h1.row_self] at h2
    have h3 := h2.andThen (RowWrite.writeLog _ t r (updateLog t r (db.rows r).slot.data.bytes data
      (((db.deleteKeys r.tab (db.touchedIndexes r.tab sets) (db.rows r).slot.data.bytes).setSlot r
        { (db.rows r).slot with data := ⟨data, some t⟩ }).tabs r.tab).recordSize))
    have hrow : RowChange db t r { db.rows r with slot := { (db.rows r).slot with data := ⟨data, some t⟩ } }
      (db.fastRecords t ⟨.updateTuple, r, (db.rows r).slot.data⟩) false := .updatedInPlace hv
    refine ⟨_, _, _, ?_, hrow⟩
    simp only [Bool.false_eq_true, if_false, h1.row_self]
    exact h3.record ⟨.updateTuple, r, (db.rows r).slot.data⟩ (db.touchedIndexes r.tab sets) data

/-- `P` holds of the state a row result leaves, if it leaves one. -/
def RowResult.Ends (P : Db → Prop) : RowResult → Prop
  | .next db | .done db | .abort db => P db
  | .stop => True

theorem RowResult.Ends.mono {P Q : Db → Prop} {out : RowResult} (h : out.Ends P)
    (hPQ : ∀ db, P db → Q db) : out.Ends Q := by
  cases out with
  | next db | done db | abort db => exact hPQ db h
  | stop => trivial

/-- The rule for the loop of a statement: `I` holds before each row with the rows left, and
the work on a row is in the preorder `R`. -/
theorem rowLoop_ends {α : Type} {f : Db → α → RowResult} {R : Db → Db → Prop}
    {I : List α → Db → Prop} (hrefl : ∀ db, R db db)
    (htrans : ∀ db db' db'', R db db' → R db' db'' → R db db'')
    (hf : ∀ a as db, I (a :: as) db → (f db a).Ends (R db) ∧ ∀ db', f db a = .next db' → I as db') :
    ∀ (as : List α) (db : Db), I as db → (rowLoop f as db).Ends (R db) := by
  intro as
  induction as with
  | nil => exact fun db _ => hrefl db
  | cons a as ih =>
      intro db hI
      obtain ⟨hR, hnext⟩ := hf a as db hI
      unfold rowLoop
      split
      · rename_i db1 hout
        rw [hout] at hR
        exact (ih db1 (hnext db1 hout)).mono fun db2 h2 => htrans _ _ _ hR h2
      · exact hR

theorem Wrote.refused_rowOp (h : Wrote db t r old del P keeps (.refused db'))
    (hbase : db.BaseOk t r old) : RowOp t r db db' := by
  cases h with
  | untouched => exact .none_of (.refl db t r)
  | refused h why => exact ⟨_, _, _, h, .refused why⟩
  | failed h free => exact ⟨_, _, _, h, .failed free hbase⟩

theorem Wrote.written_rowOp {data : Image} (h : Wrote db t r old del P keeps (.written db' data))
    (hbase : db.BaseOk t r old) : RowOp t r db db' := by
  cases h with
  | written h free origin value =>
      refine ⟨_, _, _, h, .written free hbase origin ?_⟩
      intro hh
      rw [hh]
      rfl

theorem Wrote.written_dirty {data : Image} (h : Wrote db t r old del P keeps (.written db' data)) :
    db'.anyMvccDirty = true := by
  cases h with
  | written h free origin value => rw [h.anyMvccDirty, Bool.or_true]

theorem RowOp.andThen {db2 : Db} (h : RowOp t r db db')
    (h2 : RowWrite db' db2 t r (db'.rows r) [] false) : RowOp t r db db2 := by
  obtain ⟨row, ws, mark, hw, hc⟩ := h
  exact ⟨row, ws, mark, hw.andThen h2, hc⟩

theorem updateRow_op (t : TxnId) (tab : TabName) (sets : List SetClause) (db : Db) (rid : Rid)
    (hdirty : (db.rows ⟨tab, rid⟩).chain.isSome → db.anyMvccDirty = true) :
    (Db.updateRow t tab sets db rid).Ends (RowOp t ⟨tab, rid⟩ db) := by
  unfold Db.updateRow
  dsimp only
  split
  case isFalse hv => exact finishUpdate_inPlace db t ⟨tab, rid⟩ sets _ (by simpa using hv)
  case isTrue =>
      split
      case h_1 => exact .none_of (.refl db t _)
      case h_2 visible hread =>
          have hw := chooseWrite_wrote db t ⟨tab, rid⟩ visible sets
          have hbase := mvccRead_baseOk hdirty hread
          split
          case h_1 => trivial
          case h_2 db1 hout =>
              rw [hout] at hw
              exact hw.refused_rowOp hbase
          case h_3 db1 new hout =>
              rw [hout] at hw
              have hop := hw.written_rowOp hbase
              have hany := hw.written_dirty
              have h1 := RowWrite.serCheck db1 t ⟨tab, rid⟩ visible.bytes
              have h2 := h1.andThen (RowWrite.serCheck _ t ⟨tab, rid⟩ new.bytes)
              split
              · exact hop.andThen h2
              · refine (hop.andThen h2).andThen (finishUpdate_versioned _ t _ sets _ new ?_)
                rw [h2.anyMvccDirty, hany]
                rfl

theorem deleteRow_inPlace (t : TxnId) (tab : TabName) (db : Db) (rid : Rid) :
    ∃ db', Db.deleteRow t tab false db rid = .next db' ∧ RowWrite db db' t ⟨tab, rid⟩
      { db.rows ⟨tab, rid⟩ with slot := { (db.rows ⟨tab, rid⟩).slot with isRecord := false } }
      (db.fastRecords t ⟨.deleteTuple, ⟨tab, rid⟩, (db.rows ⟨tab, rid⟩).slot.data⟩) false := by
  have h1 := RowWrite.deleteKeys db t ⟨tab, rid⟩ tab (db.tabs tab).indexes
    (db.rows ⟨tab, rid⟩).slot.data.bytes
  have h2 := h1.record ⟨.deleteTuple, ⟨tab, rid⟩, (db.rows ⟨tab, rid⟩).slot.data⟩ [] []
  have h3 := h2.andThen (RowWrite.writeLog _ t ⟨tab, rid⟩
    (.delete t ⟨tab, rid⟩ (db.rows ⟨tab, rid⟩).slot.data.bytes))
  have h4 := h3.trans (RowWrite.setSlot _ t ⟨tab, rid⟩
    { (db.rows ⟨tab, rid⟩).slot with isRecord := false })
  rw [h3.row_self, List.append_nil, Bool.or_false] at h4
  refine ⟨_, rfl, ?_⟩
  have hrow := h3.row_self
  simp only [Db.insertKeys, List.foldl_nil] at h4 hrow
  rw [hrow]
  exact h4

/-- A versioned delete that goes through leaves the row to `t`. -/
theorem deleteRow_versioned (t : TxnId) (tab : TabName) (db : Db) (rid : Rid)
    (hbase : db.BaseOk t ⟨tab, rid⟩ (db.rows ⟨tab, rid⟩).slot.data) :
    (Db.deleteRow t tab true db rid).Ends (RowOp t ⟨tab, rid⟩ db) ∧
      ∀ db', Db.deleteRow t tab true db rid = .next db' →
        (db'.chainOf ⟨tab, rid⟩).writer = some t := by
  have hw := mvccWrite_spec db t ⟨tab, rid⟩ (db.rows ⟨tab, rid⟩).slot.data none
  unfold Db.deleteRow
  simp only [if_true]
  cases hout : db.mvccWrite t ⟨tab, rid⟩ (db.rows ⟨tab, rid⟩).slot.data none with
  | nullRead => exact ⟨trivial, fun db' h => by cases h⟩
  | refused db1 =>
      rw [hout] at hw
      exact ⟨hw.refused_rowOp hbase, fun db' h => by cases h⟩
  | written db1 new =>
      rw [hout] at hw
      have hop := hw.written_rowOp hbase
      have h1 := RowWrite.serCheck db1 t ⟨tab, rid⟩ (db.rows ⟨tab, rid⟩).slot.data.bytes
      have h2 := h1.andThen (RowWrite.writeLog _ t ⟨tab, rid⟩
        (.delete t ⟨tab, rid⟩ (db.rows ⟨tab, rid⟩).slot.data.bytes))
      dsimp only
      split
      · exact ⟨hop.andThen h1, fun db' h => by cases h⟩
      · refine ⟨hop.andThen h2, ?_⟩
        rintro db' h
        cases h
        rw [h2.chainOf]
        cases hw with
        | written h free origin value => rw [h.row_self]; rfl

theorem deleteRow_op (t : TxnId) (tab : TabName) (versioned : Bool) (db : Db) (rid : Rid)
    (hbase : versioned → db.BaseOk t ⟨tab, rid⟩ (db.rows ⟨tab, rid⟩).slot.data)
    (hv : ¬ versioned → db.needsVersioning (db.txn t) tab = false) :
    (Db.deleteRow t tab versioned db rid).Ends (RowOp t ⟨tab, rid⟩ db) := by
  cases versioned with
  | true => exact (deleteRow_versioned t tab db rid (hbase rfl)).1
  | false =>
      obtain ⟨db', hout, hw⟩ := deleteRow_inPlace t tab db rid
      rw [hout]
      exact ⟨_, _, _, hw, .deletedInPlace (hv Bool.false_ne_true)⟩

theorem insertKeyCheck_op (t : TxnId) (tab : TabName) (data : Bytes) (r : RowId) (db : Db)
    (cols : List ColMeta) : (Db.insertKeyCheck t tab data db cols).Ends
      fun db' => RowWrite db db' t r (db.rows r) [] false := by
  unfold Db.insertKeyCheck
  dsimp only
  split
  · exact .refl db t r
  · split
    · split
      · split
        · exact .refl db t r
        · split
          · exact .refl db t r
          · exact .deleteEntry db t r tab cols _
      · exact .deleteEntry db t r tab cols _
    · exact .refl db t r

theorem insertKeyChecks_op (t : TxnId) (tab : TabName) (data : Bytes) (r : RowId)
    (idxs : List (List ColMeta)) (db : Db) : (rowLoop (Db.insertKeyCheck t tab data) idxs db).Ends
      fun db' => RowWrite db db' t r (db.rows r) [] false := by
  refine rowLoop_ends (R := fun db db' => RowWrite db db' t r (db.rows r) [] false)
    (I := fun _ _ => True) (fun db => .refl db t r) (fun _ _ _ h h' => h.andThen h') ?_ idxs db trivial
  exact fun cols _ db _ => ⟨insertKeyCheck_op t tab data r db cols, fun _ _ => trivial⟩

theorem mvccInsert_write (db : Db) (t : TxnId) (r : RowId) (data : Bytes) :
    RowWrite db (db.mvccInsert t r data) t r
      ((db.rows r).withChain { db.chainOf r with
        hist := [], writer := some t, writerDel := false, writerData := ⟨data, some t⟩ })
      [⟨.insertTuple, r, .empty⟩] true := by
  have h := touchChain_setChain db t r { db.chainOf r with
    hist := [], writer := some t, writerDel := false, writerData := ⟨data, some t⟩ }
  have h2 := h.trans (RowWrite.modifyTxn _ t r [⟨.insertTuple, r, .empty⟩]
    (fun x => { x with writeSet := x.writeSet ++ [⟨.insertTuple, r, .empty⟩] }) rfl rfl)
  rwa [h.row_self, Bool.or_false, List.nil_append] at h2

/-- An insert leaves its row alone or fills the free slot. -/
inductive Insertion (db : Db) (t : TxnId) (r : RowId) (data : Bytes) :
    Row → List WriteRecord → Bool → Prop where
  | same : Insertion db t r data (db.rows r) [] false
  | inserted (free : (db.rows r).slot.isRecord = false) :
      Insertion db t r data
        { db.rows r with
          slot := ⟨true, ⟨data, some t⟩⟩
          chain := some { db.chainOf r with
            hist := [], writer := some t, writerDel := false, writerData := ⟨data, some t⟩ } }
        [⟨.insertTuple, r, .empty⟩] true
  | inPlace (inPlace : db.needsVersioning (db.txn t) r.tab = false)
      (free : (db.rows r).slot.isRecord = false) :
      Insertion db t r data { db.rows r with slot := ⟨true, ⟨data, some t⟩⟩ }
        (db.fastRecords t ⟨.insertTuple, r, ⟨data, some t⟩⟩) false

/-- `db'` is `db` after an insert into `r`, or after an attempt. -/
def InsertOp (t : TxnId) (r : RowId) (data : Bytes) (db db' : Db) : Prop :=
  ∃ row ws mark, RowWrite db db' t r row ws mark ∧ Insertion db t r data row ws mark

theorem InsertOp.none_of {data : Bytes} (h : RowWrite db db' t r (db.rows r) [] false) :
    InsertOp t r data db db' := ⟨_, _, _, h, .same⟩

theorem InsertOp.andThen {data : Bytes} {db'' : Db} (h : InsertOp t r data db db')
    (h' : RowWrite db' db'' t r (db'.rows r) [] false) : InsertOp t r data db db'' := by
  obtain ⟨row, ws, mark, hw, hi⟩ := h
  exact ⟨row, ws, mark, hw.andThen h', hi⟩

theorem InsertOp.rowOp {data : Bytes} (h : InsertOp t r data db db') : RowOp t r db db' := by
  obtain ⟨row, ws, mark, hw, hi⟩ := h
  refine ⟨row, ws, mark, hw, ?_⟩
  cases hi with
  | same => exact .same
  | inserted free => exact .inserted free
  | inPlace inPlace free => exact .insertedInPlace inPlace free

theorem insertRow_insertOp (t : TxnId) (tab : TabName) (db : Db) (row : Bytes × Rid) :
    (Db.insertRow t tab db row).Ends (InsertOp t ⟨tab, row.2⟩ row.1 db) := by
  unfold Db.insertRow
  dsimp only
  split
  · exact .none_of (.refl db t _)
  · have hk := insertKeyChecks_op t tab row.1 ⟨tab, row.2⟩ (db.tabs tab).indexes db
    split
    · rename_i db1 hloop
      rw [hloop] at hk
      split
      · trivial
      · rename_i hslot
        have hfree : (db.rows ⟨tab, row.2⟩).slot.isRecord = false := by
          have hrow := hk.row_self
          simp only [Db.slotFree, hrow] at hslot
          simp only [Bool.not_eq_true, Bool.not_eq_false', Bool.and_eq_true] at hslot
          simpa using hslot.1.1.1.1
        split
        · have h1 := hk.andThen (RowWrite.writeLog db1 t ⟨tab, row.2⟩ (.insert t ⟨tab, row.2⟩ row.1))
          have h2 := h1.trans (mvccInsert_write _ t ⟨tab, row.2⟩ row.1)
          have h3 := h2.trans (RowWrite.fillSlot _ t ⟨tab, row.2⟩ ⟨row.1, some t⟩)
          rw [h2.row_self, h1.row_self, h1.chainOf] at h3
          have hop : InsertOp t ⟨tab, row.2⟩ row.1 db _ := ⟨_, _, _, h3, .inserted hfree⟩
          have hser := hop.andThen (RowWrite.serCheck _ t ⟨tab, row.2⟩ row.1)
          split
          · exact hser
          · exact hser.andThen (RowWrite.insertKeys _ t _ ⟨tab, row.2⟩ _ row.1)
        · rename_i hv
          have h1 := hk.trans (RowWrite.fillSlot db1 t ⟨tab, row.2⟩ ⟨row.1, some t⟩)
          rw [hk.row_self] at h1
          have h2 := h1.andThen (RowWrite.writeLog _ t ⟨tab, row.2⟩ (.insert t ⟨tab, row.2⟩ row.1))
          have hv' : db.needsVersioning (db.txn t) tab = false := by
            rw [← hk.needsVersioning tab]
            simpa using hv
          exact ⟨_, _, _, h2.record ⟨.insertTuple, ⟨tab, row.2⟩, ⟨row.1, some t⟩⟩ _ row.1,
            .inPlace hv' hfree⟩
    · exact hk.mono fun db' h => .none_of h

theorem insertRow_op (t : TxnId) (tab : TabName) (db : Db) (row : Bytes × Rid) :
    (Db.insertRow t tab db row).Ends (RowOp t ⟨tab, row.2⟩ db) :=
  (insertRow_insertOp t tab db row).mono fun _ h => h.rowOp

end Rmdb.Txn
