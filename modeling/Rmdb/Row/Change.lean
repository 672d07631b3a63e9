import Rmdb.Row.Frame

/-!
# The versioned writes of one row

`Wrote db t r old del P keeps out` says what each of the three write routines can do to row
`r`: turn the write down, fail half way, or leave it as the uncommitted version of the chain.
The image it writes meets `P` when no other transaction has committed to the row since the
snapshot of `t`.
-/

namespace Rmdb.Txn

open Rmdb.Index (Rid)

def Row.withChain (row : Row) (c : MvccChain) : Row := { row with chain := some c }

/-- Is the uncommitted write of another transaction in the way of `t`? -/
def Db.held (db : Db) (t : TxnId) (r : RowId) : Bool := db.heldByOther t r (db.chainOf r)

/-- Has a version newer than the snapshot of `t` been committed, with no write on top? -/
def Db.overtaken (db : Db) (t : TxnId) (r : RowId) : Bool :=
  decide ((db.chainOf r).writer = none) && (db.newerVer t (db.chainOf r)).isSome

/-- The newest version that `t` does not see, when it has not written the row. -/
def Db.unseen (db : Db) (t : TxnId) (r : RowId) : Option MvccVer :=
  if (db.chainOf r).writer = some t then none else db.newerVer t (db.chainOf r)

/-- The chain once `t` has written `data`. -/
def Db.writtenChain (db : Db) (t : TxnId) (r : RowId) (old : Image) (del : Bool) (data : Image)
    (hold : Bool) : MvccChain :=
  { db.withBase t r (db.chainOf r) old with
    writer := some t, writerDel := del, writerData := data, holdWriterToCommit := hold }

/-- The write record of the first write of `t` on the row. -/
def Db.newRecord (db : Db) (t : TxnId) (r : RowId) (w : WriteRecord) : List WriteRecord :=
  if db.firstTouch t r (db.chainOf r) then [w] else []

inductive Wrote (db : Db) (t : TxnId) (r : RowId) (old : Image) (del : Bool) (P : Image → Prop)
    (keeps : Bool) : WriteOutcome → Prop where
  | untouched : Wrote db t r old del P keeps (.refused db)
  | refused {db' : Db} (h : RowWrite db db' t r ((db.rows r).withChain (db.chainOf r)) [] true)
      (why : db.held t r ∨ db.overtaken t r) : Wrote db t r old del P keeps (.refused db')
  | failed {db' : Db} {data : Bytes}
      (h : RowWrite db db' t r ((db.rows r).withChain
        (db.writtenChain t r old false ⟨data, some t⟩ (db.chainOf r).holdWriterToCommit)) [] true)
      (free : ¬ db.held t r) : Wrote db t r old del P keeps (.refused db')
  | written {db' : Db} {data : Image}
      (h : RowWrite db db' t r ((db.rows r).withChain
          (db.writtenChain t r old del data ((db.chainOf r).holdWriterToCommit || keeps)))
        (db.newRecord t r ⟨if del then .deleteTuple else .updateTuple, r, old⟩) true)
      (free : ¬ db.held t r) (origin : data = .empty ∧ del ∨ data.origin = some t ∧ ¬ del)
      (value : ¬ db.overtaken t r → P data) : Wrote db t r old del P keeps (.written db' data)
  | nullRead : Wrote db t r old del P keeps .nullRead

variable {db db' : Db} {t : TxnId} {r : RowId} {row : Row} {ws : List WriteRecord} {mark : Bool}

theorem Wrote.update {old : Image} {P : Image → Prop} {keeps : Bool} {data : Bytes}
    (h : RowWrite db db' t r ((db.rows r).withChain
        (db.writtenChain t r old false ⟨data, some t⟩ ((db.chainOf r).holdWriterToCommit || keeps)))
      (db.newRecord t r ⟨.updateTuple, r, old⟩) true)
    (free : ¬ db.held t r) (value : ¬ db.overtaken t r → P ⟨data, some t⟩) :
    Wrote db t r old false P keeps (.written db' ⟨data, some t⟩) :=
  .written h free (.inr ⟨rfl, Bool.false_ne_true⟩) value

/-! ## What the tests of a write depend on -/

theorem RowWrite.chainOf (h : RowWrite db db' t r row ws mark) :
    db'.chainOf r = row.chain.getD {} := by
  rw [Db.chainOf, h.row_self]

theorem heldByOther_congr (h : (db'.rows r).pending = (db.rows r).pending) (c : MvccChain) :
    db'.heldByOther t r c = db.heldByOther t r c := by
  simp only [Db.heldByOther, h]

theorem RowWrite.newerVer (h : RowWrite db db' t r row ws mark) (c : MvccChain) :
    db'.newerVer t c = db.newerVer t c := by
  simp only [Db.newerVer, h.readTs t]

theorem RowWrite.withBase (h : RowWrite db db' t r row ws mark) (c : MvccChain) (old : Image) :
    db'.withBase t r c old = db.withBase t r c old := by
  simp only [Db.withBase, h.overlay t]

theorem RowWrite.firstTouch (h : RowWrite db db' t r row [] mark) (c : MvccChain) :
    db'.firstTouch t r c = db.firstTouch t r c := by
  simp only [Db.firstTouch, Transaction.touches, h.overlay t, h.writeSet, List.append_nil]

theorem withBase_hold (c : MvccChain) (old : Image) :
    (db.withBase t r c old).holdWriterToCommit = c.holdWriterToCommit := by
  unfold Db.withBase
  split <;> rfl

/-- The base version is never newer than a snapshot. -/
theorem newerVer_withBase (c : MvccChain) (old : Image) :
    db.newerVer t (db.withBase t r c old) = db.newerVer t c := by
  unfold Db.withBase
  split
  · rename_i h
    simp [Db.newerVer, h.1, Option.filter]
  · rfl

theorem withBase_of_newer {c : MvccChain} (h : (db.newerVer t c).isSome) (old : Image) :
    db.withBase t r c old = c := by
  unfold Db.withBase
  split
  · rename_i hb
    simp [Db.newerVer, hb.1] at h
  · rfl

theorem touchChain_write (db : Db) (t : TxnId) (r : RowId) :
    RowWrite db (db.touchChain t r) t r ((db.rows r).withChain (db.chainOf r)) [] true := by
  have h := (RowWrite.start db t r).trans
    (RowWrite.setChain ((db.noteWrite t r).markDirty r.tab) t r (db.chainOf r))
  rwa [(RowWrite.start db t r).row_self] at h

theorem touchChain_held (db : Db) (t : TxnId) (r : RowId) :
    (db.touchChain t r).heldByOther t r (db.chainOf r) = db.held t r := by
  refine heldByOther_congr ?_ _
  rw [(touchChain_write db t r).row_self]
  rfl

/-- Setting the chain in the touched state. -/
theorem touchChain_setChain (db : Db) (t : TxnId) (r : RowId) (c : MvccChain) :
    RowWrite db ((db.touchChain t r).setChain r c) t r ((db.rows r).withChain c) [] true := by
  have h := (touchChain_write db t r).trans (RowWrite.setChain (db.touchChain t r) t r c)
  rwa [(touchChain_write db t r).row_self] at h

/-! ## The three routines -/

theorem touchChain_newer (db : Db) (t : TxnId) (r : RowId) (old : Image) :
    (db.touchChain t r).newerVer t ((db.touchChain t r).withBase t r (db.chainOf r) old) =
      db.newerVer t (db.chainOf r) := by
  rw [newerVer_withBase, (touchChain_write db t r).newerVer]

/-- A write that nobody holds has no writer but itself. -/
theorem writer_of_free (h : ¬ db.held t r) :
    (db.chainOf r).writer = none ∨ (db.chainOf r).writer = some t := by
  simp only [Db.held, Db.heldByOther, Bool.or_eq_true, not_or, Bool.and_eq_true, not_and,
    decide_eq_true_eq, ne_eq, not_not] at h
  cases hw : (db.chainOf r).writer with
  | none => exact .inl rfl
  | some u => exact .inr (by rw [← hw]; exact h.2 (by rw [hw]; rfl))

theorem putVersion_write (db : Db) (t : TxnId) (r : RowId) (old : Image) (del : Bool) (data : Image) :
    RowWrite db ((db.touchChain t r).putVersion t r (db.chainOf r) old del data) t r
      ((db.rows r).withChain
        (db.writtenChain t r old del data (db.chainOf r).holdWriterToCommit))
      (db.newRecord t r ⟨if del then .deleteTuple else .updateTuple, r, old⟩) true := by
  have hb := (touchChain_write db t r).withBase (db.chainOf r) old
  have hf := (touchChain_write db t r).firstTouch (db.chainOf r)
  have hchain : { db.withBase t r (db.chainOf r) old with
      writer := some t, writerDel := del, writerData := data } =
      db.writtenChain t r old del data (db.chainOf r).holdWriterToCommit := by
    rw [← withBase_hold (db.chainOf r) old]
    rfl
  have h := touchChain_setChain db t r
    (db.writtenChain t r old del data (db.chainOf r).holdWriterToCommit)
  simp only [Db.putVersion, hb, hf, hchain]
  have h2 : RowWrite db (if del then
      ((db.touchChain t r).setChain r
        (db.writtenChain t r old del data (db.chainOf r).holdWriterToCommit)).noteDelKey t r.tab old.bytes
      else (db.touchChain t r).setChain r
        (db.writtenChain t r old del data (db.chainOf r).holdWriterToCommit)) t r
      ((db.rows r).withChain
        (db.writtenChain t r old del data (db.chainOf r).holdWriterToCommit)) [] true := by
    cases del with
    | false => exact h
    | true => exact h.andThen (RowWrite.noteDelKey _ t r old.bytes)
  have h3 := h2.trans (RowWrite.addWriteRecord _ t r
    ⟨if del then .deleteTuple else .updateTuple, r, old⟩ (db.firstTouch t r (db.chainOf r)))
  rwa [h2.row_self, Bool.or_false, List.nil_append] at h3

theorem newImage_origin (t : TxnId) (new : Option Bytes) (del : Bool) (h : del = new.isNone) :
    Db.newImage t new = .empty ∧ del ∨ (Db.newImage t new).origin = some t ∧ ¬ del := by
  subst h
  cases new with
  | none => exact .inl ⟨rfl, rfl⟩
  | some b => exact .inr ⟨rfl, by simp⟩

theorem mvccWrite_spec (db : Db) (t : TxnId) (r : RowId) (old : Image) (new : Option Bytes) :
    Wrote db t r old new.isNone (fun img => img = Db.newImage t new) false
      (db.mvccWrite t r old new) := by
  have hheld := touchChain_held db t r
  have hnewer := (touchChain_write db t r).newerVer (db.chainOf r)
  simp only [Db.mvccWrite, hheld, hnewer]
  split
  case isTrue h => exact .refused (touchChain_write db t r) (.inl h)
  case isFalse hfree =>
      split
      case h_1 hn =>
          refine .written ?_ hfree (newImage_origin t new _ rfl) (fun _ => rfl)
          rw [Bool.or_false]
          exact putVersion_write db t r old _ _
      case h_2 last hlast =>
          have hover : db.overtaken t r := by
            split at hlast
            · rename_i hw
              simp [Db.overtaken, hw, hlast]
            · cases hlast
          split
          · exact .refused (touchChain_write db t r) (.inr hover)
          · split
            · exact .nullRead
            · rename_i n
              split
              · exact .refused (touchChain_write db t r) (.inr hover)
              · rename_i b hb
                refine .written ?_ hfree (newImage_origin t (some b) _ rfl) (fun h => absurd hover h)
                rw [Bool.or_false]
                exact putVersion_write db t r old _ _

/-- The end of a column write. -/
theorem touchChain_written (db : Db) (t : TxnId) (r : RowId) (visible : Image) (data : Image)
    (hold : Bool) :
    RowWrite db (((db.touchChain t r).setChain r
        (db.writtenChain t r visible false data hold)).addWriteRecord t ⟨.updateTuple, r, visible⟩
          (db.firstTouch t r (db.chainOf r))) t r
      ((db.rows r).withChain (db.writtenChain t r visible false data hold))
      (db.newRecord t r ⟨.updateTuple, r, visible⟩) true := by
  have h := touchChain_setChain db t r (db.writtenChain t r visible false data hold)
  have h2 := h.trans (RowWrite.addWriteRecord _ t r ⟨.updateTuple, r, visible⟩
    (db.firstTouch t r (db.chainOf r)))
  rwa [h.row_self, Bool.or_false, List.nil_append] at h2

/-- The bytes a column write by `t` starts from while nothing newer is committed. -/
def Db.ownBase (db : Db) (t : TxnId) (r : RowId) (visible : Bytes) : Bytes :=
  Db.writeBase t (db.chainOf r) visible none (db.tabs r.tab).recordSize

theorem newer_of_not_overtaken (hfree : ¬ db.held t r) (h : ¬ db.overtaken t r) :
    (if (db.chainOf r).writer = some t then none else db.newerVer t (db.chainOf r)) = none := by
  split
  · rfl
  · rename_i hw
    have hn := (writer_of_free hfree).resolve_right hw
    simpa [Db.overtaken, hn] using h

theorem colDelta_spec (db : Db) (t : TxnId) (r : RowId) (visible : Image) {off : Nat}
    {type : ColType} (deltaF deltaI : BitVec 32) (htype : type ≠ .string)
    (hoff : off + 4 ≤ (db.tabs r.tab).recordSize) :
    Wrote db t r visible false (fun img => img.bytes = putWord (db.ownBase t r visible.bytes) off
        (if type = .float then fadd (getWord (db.ownBase t r visible.bytes) off) deltaF
          else getWord (db.ownBase t r visible.bytes) off + deltaI)) true
      (db.mvccWriteColDelta t r visible off type deltaF deltaI) := by
  have hb := (touchChain_write db t r).withBase (db.chainOf r) visible
  have hf := (touchChain_write db t r).firstTouch (db.chainOf r)
  have hn := touchChain_newer db t r visible
  rw [hb] at hn
  simp only [Db.mvccWriteColDelta, touchChain_held, hb, hf, hn]
  by_cases hheld : db.held t r
  · rw [if_pos hheld]
    exact .refused (touchChain_write db t r) (.inl hheld)
  · rw [if_neg hheld, if_neg (not_or.2 ⟨htype, by omega⟩)]
    have hnewer := newer_of_not_overtaken hheld
    generalize (if (db.chainOf r).writer = some t then none
      else db.newerVer t (db.chainOf r)) = newer at hnewer ⊢
    refine .update ?_ hheld ?_
    · rw [Bool.or_true]
      exact touchChain_written db t r visible _ _
    · intro hover
      rw [hnewer hover]
      rfl

theorem colPatch_spec (db : Db) (t : TxnId) (r : RowId) (visible : Image)
    (patches : List MvccColPatch) :
    Wrote db t r visible false (fun img => applyPatches (fun p d => p.applyFromVisible visible.bytes
        d (db.tabs r.tab).recordSize (db.tabs r.tab)) patches (db.ownBase t r visible.bytes) =
          (img.bytes, true)) false
      (db.mvccWriteColPatch t r visible patches) := by
  have hb := (touchChain_write db t r).withBase (db.chainOf r) visible
  have hf := (touchChain_write db t r).firstTouch (db.chainOf r)
  have hn := touchChain_newer db t r visible
  rw [hb] at hn
  simp only [Db.mvccWriteColPatch, touchChain_held, hb, hf, hn]
  by_cases hp : patches.isEmpty
  · rw [if_pos hp]
    exact .untouched
  rw [if_neg hp]
  by_cases hheld : db.held t r
  · rw [if_pos hheld]
    exact .refused (touchChain_write db t r) (.inl hheld)
  rw [if_neg hheld]
  have hnewer := newer_of_not_overtaken hheld
  have hbase : (if (db.chainOf r).writer = some t then none
      else db.newerVer t (db.chainOf r)).isSome →
      db.withBase t r (db.chainOf r) visible = db.chainOf r := by
    intro h
    split at h
    · cases h
    · exact withBase_of_newer h visible
  have hover : (if (db.chainOf r).writer = some t then none
      else db.newerVer t (db.chainOf r)).isSome → db.overtaken t r := by
    intro h
    by_contra hn
    rw [hnewer hn] at h
    cases h
  generalize (if (db.chainOf r).writer = some t then none
    else db.newerVer t (db.chainOf r)) = newer at hnewer hbase hover ⊢
  split
  · rename_i hbad
    have hsome : newer.isSome := by
      cases newer with
      | none => cases hbad
      | some v => rfl
    rw [hbase hsome]
    exact .refused (touchChain_setChain db t r _) (.inr (hover hsome))
  · have hold : (db.withBase t r (db.chainOf r) visible).holdWriterToCommit =
        (db.chainOf r).holdWriterToCommit := withBase_hold _ _
    generalize hout : applyPatches _ patches
      (Db.writeBase t (db.chainOf r) visible.bytes newer (db.tabs r.tab).recordSize) = out
    obtain ⟨dest, ok⟩ := out
    cases ok with
    | true =>
        refine .update ?_ hheld ?_
        · rw [Bool.or_false, ← hold]
          exact touchChain_written db t r visible _ _
        · intro h
          rw [hnewer h] at hout
          exact hout
    | false =>
        refine .failed (?_ : RowWrite db _ t r ((db.rows r).withChain (db.writtenChain t r visible
          false ⟨dest, some t⟩ (db.chainOf r).holdWriterToCommit)) [] true) hheld
        rw [← hold]
        exact touchChain_setChain db t r _

end Rmdb.Txn
