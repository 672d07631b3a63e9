import Rmdb.Mvcc.Latched

/-!
# Versioned writes of records with bytes

A write that goes through leaves an image with bytes, whatever it starts from: `commit` takes an
image without bytes for one that is not there.
-/

namespace Rmdb.Txn

/-! ## Images have bytes -/

theorem putBytes_ne_nil {b : Bytes} (off : Nat) {v : Bytes} (hb : b ≠ []) : putBytes b off v ≠ [] := by
  intro h
  unfold putBytes at h
  rw [List.append_eq_nil_iff, List.append_eq_nil_iff, List.drop_eq_nil_iff, List.take_eq_nil_iff] at h
  obtain ⟨⟨h1, rfl⟩, h2⟩ := h
  rcases h1 with h1 | h1
  · rw [h1] at h2
    exact hb (List.length_eq_zero_iff.1 (Nat.le_zero.1 h2))
  · exact hb h1

theorem putWord_ne_nil (b : Bytes) (off : Nat) (w : BitVec 32) : putWord b off w ≠ [] := by
  intro h
  unfold putWord putBytes wordBytes at h
  simp at h

theorem readRec_ne_nil (b : Bytes) {len : Nat} (h : 0 < len) : readRec b len ≠ [] := by
  unfold readRec
  rw [ne_eq, List.take_eq_nil_iff, List.append_eq_nil_iff, List.replicate_eq_nil_iff]
  omega

theorem foldl_ne_nil {α : Type} {f : Bytes → α → Bytes} (hf : ∀ b a, b ≠ [] → f b a ≠ []) :
    ∀ (as : List α) (b : Bytes), b ≠ [] → as.foldl f b ≠ [] := by
  intro as
  induction as with
  | nil => exact fun b hb => hb
  | cons a as ih => exact fun b hb => ih _ (hf b a hb)

theorem rebaseWriteDelta_ne_nil {m : TabMeta} {a n latest b : Bytes} {len : Nat} (hl : latest ≠ [])
    (h : rebaseWriteDelta m a n latest len = some b) : b ≠ [] := by
  unfold rebaseWriteDelta at h
  obtain ⟨-, h⟩ := Option.ite_none_left_eq_some.1 h
  obtain ⟨-, h⟩ := Option.ite_none_left_eq_some.1 h
  rw [← Option.some.inj h]
  refine foldl_ne_nil ?_ _ latest hl
  intro out c hout
  split
  · exact putWord_ne_nil _ _ _
  · split
    · exact putWord_ne_nil _ _ _
    · exact putBytes_ne_nil _ hout

theorem MvccColPatch.applyAbs_ne_nil (p : MvccColPatch) {dest : Bytes} (h : dest ≠ []) :
    p.applyAbs dest ≠ [] := by
  unfold MvccColPatch.applyAbs
  split
  · exact putBytes_ne_nil _ h
  · exact h

theorem MvccColPatch.applyFromVisible_ne_nil {p : MvccColPatch} {visible dest b : Bytes} {len : Nat}
    {m : TabMeta} (h : dest ≠ []) (hb : p.applyFromVisible visible dest len m = some b) : b ≠ [] := by
  unfold MvccColPatch.applyFromVisible at hb
  split at hb
  · cases hb
  · split at hb
    · cases hb
      exact p.applyAbs_ne_nil h
    · split at hb
      · cases hb
      · split at hb
        · cases hb
          exact putWord_ne_nil _ _ _
        · split at hb
          · cases hb
            exact putWord_ne_nil _ _ _
          · cases hb

theorem MvccColPatch.applyRebase_ne_nil {p : MvccColPatch} {visible latest dest b : Bytes} {len : Nat}
    (h : dest ≠ []) (hb : p.applyRebase visible latest dest len = some b) : b ≠ [] := by
  unfold MvccColPatch.applyRebase at hb
  dsimp only at hb
  split at hb
  · cases hb
  · split at hb
    · split at hb
      · cases hb
        exact putWord_ne_nil _ _ _
      · split at hb
        · cases hb
          exact putWord_ne_nil _ _ _
        · cases hb
          exact p.applyAbs_ne_nil h
    · split at hb
      · cases hb
        exact putWord_ne_nil _ _ _
      · split at hb
        · cases hb
          exact putWord_ne_nil _ _ _
        · cases hb

theorem applyPatches_ne_nil {f : MvccColPatch → Bytes → Option Bytes}
    (hf : ∀ p d b, d ≠ [] → f p d = some b → b ≠ []) :
    ∀ (ps : List MvccColPatch) (dest : Bytes), dest ≠ [] → (applyPatches f ps dest).1 ≠ [] := by
  intro ps
  induction ps with
  | nil => exact fun dest h => h
  | cons p ps ih =>
      intro dest h
      unfold applyPatches
      split
      · exact h
      · rename_i d hd
        exact ih d (hf p dest d h hd)

theorem writeBase_ne_nil (t : TxnId) (c : MvccChain) (visible : Bytes) (newer : Option MvccVer)
    {len : Nat} (h : 0 < len) : Db.writeBase t c visible newer len ≠ [] := by
  unfold Db.writeBase
  split
  · rename_i hc
    exact hc.2
  · exact readRec_ne_nil _ h

/-! ## The three routines -/

variable {db db' : Db} {t : TxnId} {r : RowId} {old : Image}

/-- What a versioned write by `t` of a record with bytes can do to its row. -/
inductive Versioned (db : Db) (t : TxnId) (r : RowId) (old : Image) : Db → Prop where
  | same : Versioned db t r old db
  | touched {db' : Db} (h : RowWrite db db' t r ((db.rows r).withChain (db.chainOf r)) [] true)
      (why : db.held t r ∨ db.overtaken t r) : Versioned db t r old db'
  | took {db' : Db} {c : MvccChain} {ws : List WriteRecord}
      (h : RowWrite db db' t r ((db.rows r).withChain c) ws true) (free : ¬ db.held t r)
      (hw : c.writer = some t) (hhist : c.hist = (db.withBase t r (db.chainOf r) old).hist)
      (hdata : c.writerDel = true ∨ c.writerData.bytes ≠ []) (hws : ∀ w ∈ ws, w.row = r) :
      Versioned db t r old db'

/-- Nobody writes the row, and its newest version is a delete that the snapshot of `t` does not show. -/
def Db.Gone (db : Db) (t : TxnId) (r : RowId) : Prop :=
  (db.chainOf r).writer = none ∧
    ∃ last, db.newerVer t (db.chainOf r) = some last ∧ last.isDeleted = true

/-- The write is turned down, and leaves a chain at most. -/
def Refused (db : Db) (t : TxnId) (r : RowId) (db' : Db) : Prop :=
  db' = db ∨ RowWrite db db' t r ((db.rows r).withChain (db.chainOf r)) [] true ∧
    (db.held t r = true ∨ db.overtaken t r = true)

theorem Db.Gone.overtaken (h : db.Gone t r) : db.overtaken t r = true := by
  obtain ⟨hw, last, hlast, -⟩ := h
  simp [Db.overtaken, hw, hlast]

theorem mvccWrite_refused {new : Option Bytes} (hgone : db.Gone t r)
    (h : (db.mvccWrite t r old new).db? = some db') : Refused db t r db' := by
  have hnewer := (touchChain_write db t r).newerVer (db.chainOf r)
  have hover := hgone.overtaken
  obtain ⟨hw, last, hlast, hdel⟩ := hgone
  simp only [Db.mvccWrite, touchChain_held db t r, hnewer, hw, if_true, hlast, hdel, true_or] at h
  split at h
  · rename_i hheld
    cases h
    exact .inr ⟨touchChain_write db t r, .inl hheld⟩
  · cases h
    exact .inr ⟨touchChain_write db t r, .inr hover⟩

theorem colPatch_refused {patches : List MvccColPatch} (hgone : db.Gone t r)
    (h : (db.mvccWriteColPatch t r old patches).db? = some db') : Refused db t r db' := by
  have hb := (touchChain_write db t r).withBase (db.chainOf r) old
  have hf := (touchChain_write db t r).firstTouch (db.chainOf r)
  have hn := touchChain_newer db t r old
  have hover := hgone.overtaken
  obtain ⟨hw, last, hlast, hdel⟩ := hgone
  have hself : (db.chainOf r).writer ≠ some t := by rw [hw]; simp
  rw [hb] at hn
  simp only [Db.mvccWriteColPatch, touchChain_held, hb, hf, hn, if_neg hself, hlast, Option.any_some,
    hdel, Bool.true_or, if_true] at h
  split at h
  · cases h
    exact .inl rfl
  split at h
  · rename_i hheld
    cases h
    exact .inr ⟨touchChain_write db t r, .inl hheld⟩
  · rw [withBase_of_newer (by rw [hlast]; rfl) old] at h
    cases h
    exact .inr ⟨touchChain_setChain db t r _, .inr hover⟩

theorem putVersion_versioned (free : ¬ db.held t r) {del : Bool} {data : Image}
    (hdata : del = true ∨ data.bytes ≠ []) :
    Versioned db t r old ((db.touchChain t r).putVersion t r (db.chainOf r) old del data) :=
  .took (putVersion_write db t r old del data) free rfl rfl hdata
    fun w hw => by rw [newRecord_row hw]

theorem mvccWrite_versioned {new : Option Bytes} (hpos : 0 < (db.tabs r.tab).recordSize)
    (hnew : ∀ b, new = some b → b ≠ []) (h : (db.mvccWrite t r old new).db? = some db') :
    Versioned db t r old db' := by
  have hnewer := (touchChain_write db t r).newerVer (db.chainOf r)
  simp only [Db.mvccWrite, touchChain_held db t r, hnewer] at h
  split at h
  · rename_i hheld
    cases h
    exact .touched (touchChain_write db t r) (.inl hheld)
  · rename_i hfree
    split at h
    · cases h
      refine putVersion_versioned hfree ?_
      cases new with
      | none => exact .inl rfl
      | some b => exact .inr (hnew b rfl)
    · rename_i last hlast
      have hover : db.overtaken t r := by
        split at hlast
        · rename_i hw
          simp [Db.overtaken, hw, hlast]
        · cases hlast
      split at h
      · cases h
        exact .touched (touchChain_write db t r) (.inr hover)
      · rename_i hlen
        have hbytes : last.data.bytes ≠ [] := by
          intro hnil
          rw [hnil] at hlen
          exact hlen (.inr hpos.ne)
        split at h
        · cases h
        · split at h
          · cases h
            exact .touched (touchChain_write db t r) (.inr hover)
          · rename_i b hb
            cases h
            exact putVersion_versioned hfree (.inr (rebaseWriteDelta_ne_nil hbytes hb))

theorem written_versioned {data : Image} {hold : Bool} {ws : List WriteRecord}
    (h : RowWrite db db' t r ((db.rows r).withChain (db.writtenChain t r old false data hold)) ws true)
    (free : ¬ db.held t r) (hdata : data.bytes ≠ []) (hws : ∀ w ∈ ws, w.row = r) :
    Versioned db t r old db' := .took h free rfl rfl (.inr hdata) hws

theorem colDelta_versioned {off : Nat} {type : ColType} {deltaF deltaI : BitVec 32}
    (htype : type ≠ .string) (hoff : off + 4 ≤ (db.tabs r.tab).recordSize)
    (h : (db.mvccWriteColDelta t r old off type deltaF deltaI).db? = some db') :
    Versioned db t r old db' := by
  have hb := (touchChain_write db t r).withBase (db.chainOf r) old
  have hf := (touchChain_write db t r).firstTouch (db.chainOf r)
  simp only [Db.mvccWriteColDelta, touchChain_held, hb, hf] at h
  by_cases hheld : db.held t r
  · rw [if_pos hheld] at h
    cases h
    exact .touched (touchChain_write db t r) (.inl hheld)
  · rw [if_neg hheld, if_neg (not_or.2 ⟨htype, by omega⟩)] at h
    cases h
    exact written_versioned (touchChain_written db t r old _ true) hheld (putWord_ne_nil _ _ _)
      fun w hw => by rw [newRecord_row hw]

theorem colPatch_versioned {patches : List MvccColPatch} (hpos : 0 < (db.tabs r.tab).recordSize)
    (h : (db.mvccWriteColPatch t r old patches).db? = some db') : Versioned db t r old db' := by
  have hb := (touchChain_write db t r).withBase (db.chainOf r) old
  have hf := (touchChain_write db t r).firstTouch (db.chainOf r)
  have hn := touchChain_newer db t r old
  rw [hb] at hn
  simp only [Db.mvccWriteColPatch, touchChain_held, hb, hf, hn] at h
  split at h
  · cases h
    exact .same
  split at h
  · rename_i hheld
    cases h
    exact .touched (touchChain_write db t r) (.inl hheld)
  rename_i hheld
  have hnewer := newer_of_not_overtaken hheld
  have hbase : (if (db.chainOf r).writer = some t then none
      else db.newerVer t (db.chainOf r)).isSome →
      db.withBase t r (db.chainOf r) old = db.chainOf r := by
    intro h
    split at h
    · cases h
    · exact withBase_of_newer h old
  have hover : (if (db.chainOf r).writer = some t then none
      else db.newerVer t (db.chainOf r)).isSome → db.overtaken t r := by
    intro h
    by_contra hn
    rw [hnewer hn] at h
    cases h
  generalize (if (db.chainOf r).writer = some t then none
    else db.newerVer t (db.chainOf r)) = newer at h hbase hover
  split at h
  · rename_i hbad
    have hsome : newer.isSome := by
      cases newer with
      | none => cases hbad
      | some v => rfl
    rw [hbase hsome] at h
    cases h
    exact .touched (touchChain_setChain db t r _) (.inr (hover hsome))
  · generalize hout : applyPatches _ patches
      (Db.writeBase t (db.chainOf r) old.bytes newer (db.tabs r.tab).recordSize) = out at h
    have hdest : out.1 ≠ [] := by
      rw [← hout]
      refine applyPatches_ne_nil ?_ patches _ (writeBase_ne_nil t _ _ _ hpos)
      intro p d b hd hb
      cases newer with
      | none => exact MvccColPatch.applyFromVisible_ne_nil hd hb
      | some last => exact MvccColPatch.applyRebase_ne_nil hd hb
    obtain ⟨dest, ok⟩ := out
    cases ok with
    | true =>
        cases h
        exact written_versioned (touchChain_written db t r old ⟨dest, some t⟩ _) hheld hdest
          fun w hw => by rw [newRecord_row hw]
    | false =>
        cases h
        exact written_versioned (touchChain_setChain db t r (db.writtenChain t r old false
          ⟨dest, some t⟩ _)) hheld hdest fun w hw => by cases hw

end Rmdb.Txn
