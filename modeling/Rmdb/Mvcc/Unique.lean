import Rmdb.Mvcc.Settled
import Rmdb.Row.Load

/-!
# Updates against a unique index

`UpdateExecutor::Next` writes the new image of a row before it looks for the new keys in the indexes, and
a key that belongs to another row only ends the work on the row: "failure" is reported and the image
stays.  Whether the row keeps its image is a matter of that image alone (`Db.KeepsPromise`).
-/

namespace Rmdb.Txn

open Rmdb.Index (Rid)
open Rmdb.Lib (run)

variable {db db' db1 db2 db3 : Db} {t : TxnId} {r : RowId} {sets : List SetClause}

/-! ## Index entries -/

section
variable {tab : TabName}

theorem mem_insertAt {cols : List ColMeta} {key : Bytes} {rid : Rid} {e : Bytes × Rid} :
    ∀ {es : IndexMap}, e ∈ IndexMap.insertAt cols key rid es ↔ e = (key, rid) ∨ e ∈ es := by
  intro es
  induction es with
  | nil => simp [IndexMap.insertAt]
  | cons e' es ih =>
      unfold IndexMap.insertAt
      split
      · rw [List.mem_cons]
      · rw [List.mem_cons, ih, List.mem_cons]
        constructor
        · rintro (h | h | h)
          · exact .inr (.inl h)
          · exact .inl h
          · exact .inr (.inr h)
        · rintro (h | h | h)
          · exact .inr (.inl h)
          · exact .inl h
          · exact .inr (.inr h)

theorem getValue_isSome {cols : List ColMeta} {key : Bytes} :
    (db.getValue tab cols key).isSome ↔ ∃ rid, (key, rid) ∈ db.index (Db.indexId tab cols) := by
  unfold Db.getValue
  rw [List.lookup_isSome_iff]
  constructor
  · rintro ⟨⟨key', rid⟩, hmem, heq⟩
    obtain rfl : key = key' := by simpa using heq
    exact ⟨rid, hmem⟩
  · rintro ⟨rid, hmem⟩
    exact ⟨(key, rid), hmem, by simp⟩

theorem insertEntry_self (db : Db) (cols : List ColMeta) (key : Bytes) (rid : Rid) :
    ((db.insertEntry tab cols key rid).getValue tab cols key).isSome := by
  unfold Db.insertEntry
  split
  · assumption
  · refine getValue_isSome.2 ⟨rid, ?_⟩
    show (key, rid) ∈ Function.update db.index (Db.indexId tab cols) _ (Db.indexId tab cols)
    rw [Function.update_self]
    exact mem_insertAt.2 (.inl rfl)

theorem insertEntry_more (db : Db) {cols cols' : List ColMeta} {key key' : Bytes} (rid : Rid)
    (h : (db.getValue tab cols' key').isSome) :
    ((db.insertEntry tab cols key rid).getValue tab cols' key').isSome := by
  unfold Db.insertEntry
  split
  · exact h
  · obtain ⟨rid', hmem⟩ := getValue_isSome.1 h
    refine getValue_isSome.2 ⟨rid', ?_⟩
    show (key', rid') ∈ Function.update db.index (Db.indexId tab cols) _ (Db.indexId tab cols')
    by_cases hid : Db.indexId tab cols' = Db.indexId tab cols
    · rw [hid, Function.update_self]
      exact mem_insertAt.2 (.inr (hid ▸ hmem))
    · rw [Function.update_of_ne hid]
      exact hmem

end

/-- The keys of a record are there once they are inserted, and no entry goes away. -/
theorem insertKeys_isSome (data : Bytes) : ∀ (idxs : List (List ColMeta)) (db : Db),
    (∀ cols key, (db.getValue r.tab cols key).isSome →
        ((db.insertKeys r idxs data).getValue r.tab cols key).isSome) ∧
      ∀ cols ∈ idxs, ((db.insertKeys r idxs data).getValue r.tab cols (Db.indexKey cols data)).isSome := by
  intro idxs
  induction idxs with
  | nil => exact fun db => ⟨fun _ _ h => h, fun _ h => absurd h List.not_mem_nil⟩
  | cons cols idxs ih =>
      intro db
      obtain ⟨hmore, hself⟩ := ih (db.insertEntry r.tab cols (Db.indexKey cols data) r.rid)
      have hcons : db.insertKeys r (cols :: idxs) data =
          (db.insertEntry r.tab cols (Db.indexKey cols data) r.rid).insertKeys r idxs data := rfl
      rw [hcons]
      refine ⟨fun cols' key h => hmore _ _ (insertEntry_more db r.rid h), ?_⟩
      intro cols' hcols'
      rcases List.mem_cons.1 hcols' with rfl | hcols'
      · exact hmore _ _ (insertEntry_self db cols' _ r.rid)
      · exact hself cols' hcols'

theorem lookup_cons_ite (e : Bytes × Rid) (es : IndexMap) (key : Bytes) :
    List.lookup key (e :: es) = if key = e.1 then some e.2 else es.lookup key := by
  rw [List.lookup_cons]
  by_cases h : key = e.1
  · rw [if_pos h, beq_iff_eq.2 h]
  · rw [if_neg h, beq_eq_false_iff_ne.2 h]

theorem lookup_insertAt {cols : List ColMeta} {key key' : Bytes} {rid : Rid} :
    ∀ {es : IndexMap}, es.lookup key = none →
      (IndexMap.insertAt cols key rid es).lookup key' =
        if key' = key then some rid else es.lookup key' := by
  intro es
  induction es with
  | nil =>
      intro _
      rw [IndexMap.insertAt, lookup_cons_ite]
  | cons e es ih =>
      intro hnone
      rw [lookup_cons_ite] at hnone
      unfold IndexMap.insertAt
      split
      · rw [lookup_cons_ite]
      · by_cases hkey : key = e.1
        · rw [if_pos hkey] at hnone
          cases hnone
        · rw [if_neg hkey] at hnone
          rw [lookup_cons_ite, lookup_cons_ite, ih hnone]
          by_cases h : key' = e.1
          · rw [if_pos h, if_pos h, if_neg fun heq => hkey (heq.symm.trans h)]
          · rw [if_neg h, if_neg h]

theorem lookup_filter_ne {key key' : Bytes} {es : IndexMap} :
    (es.filter fun e => e.1 ≠ key).lookup key' = if key' = key then none else es.lookup key' := by
  induction es with
  | nil => simp
  | cons e es ih =>
      by_cases he : e.1 = key
      · rw [List.filter_cons_of_neg (by simp [he]), ih, lookup_cons_ite, he]
        by_cases h : key' = key
        · rw [if_pos h, if_pos h]
        · rw [if_neg h, if_neg h, if_neg h]
      · rw [List.filter_cons_of_pos (by simp [he]), lookup_cons_ite, lookup_cons_ite, ih]
        by_cases h : key' = e.1
        · rw [if_pos h, if_pos h, if_neg fun heq => he (h.symm.trans heq)]
        · rw [if_neg h, if_neg h]

/-- The entry of a key is that of the row, if there is one. -/
def Db.OwnEntry (db : Db) (r : RowId) (cols : List ColMeta) (key : Bytes) : Prop :=
  ∀ rid, db.getValue r.tab cols key = some rid → rid = r.rid

theorem insertEntry_ownEntry {cols cols' : List ColMeta} {key key' : Bytes}
    (h : db.OwnEntry r cols' key') : (db.insertEntry r.tab cols key r.rid).OwnEntry r cols' key' := by
  unfold Db.insertEntry
  split
  · exact h
  · rename_i hnone
    intro rid hrid
    unfold Db.getValue at hrid hnone
    dsimp only at hrid
    by_cases hid : Db.indexId r.tab cols' = Db.indexId r.tab cols
    · rw [hid, Function.update_self, lookup_insertAt (Option.not_isSome_iff_eq_none.1 hnone)] at hrid
      split at hrid
      · exact (Option.some.inj hrid).symm
      · rw [← hid] at hrid
        exact h rid hrid
    · rw [Function.update_of_ne hid] at hrid
      exact h rid hrid

theorem deleteEntry_ownEntry {cols cols' : List ColMeta} {key key' : Bytes}
    (h : db.OwnEntry r cols' key') : (db.deleteEntry r.tab cols key).OwnEntry r cols' key' := by
  intro rid hrid
  unfold Db.getValue Db.deleteEntry at hrid
  dsimp only at hrid
  by_cases hid : Db.indexId r.tab cols' = Db.indexId r.tab cols
  · rw [hid, Function.update_self, lookup_filter_ne] at hrid
    split at hrid
    · cases hrid
    · rw [← hid] at hrid
      exact h rid hrid
  · rw [Function.update_of_ne hid] at hrid
    exact h rid hrid

theorem deleteKeys_ownEntry (data : Bytes) {cols : List ColMeta} {key : Bytes} :
    ∀ (idxs : List (List ColMeta)) (db : Db), db.OwnEntry r cols key →
      (db.deleteKeys r.tab idxs data).OwnEntry r cols key := by
  intro idxs
  induction idxs with
  | nil => exact fun _ h => h
  | cons c idxs ih => exact fun db h => ih _ (deleteEntry_ownEntry h)

theorem insertKeys_ownEntry (data : Bytes) {cols : List ColMeta} {key : Bytes} :
    ∀ (idxs : List (List ColMeta)) (db : Db), db.OwnEntry r cols key →
      (db.insertKeys r idxs data).OwnEntry r cols key := by
  intro idxs
  induction idxs with
  | nil => exact fun _ h => h
  | cons c idxs ih => exact fun db h => ih _ (insertEntry_ownEntry h)

theorem getValue_congr (h : db'.index = db.index) (tab : TabName) (cols : List ColMeta) (key : Bytes) :
    db'.getValue tab cols key = db.getValue tab cols key := by
  unfold Db.getValue
  rw [h]

/-- Keys that are put back belong to the row. -/
theorem insertKeys_getValue {data : Bytes} {idxs : List (List ColMeta)}
    (h : ∀ cols ∈ idxs, db.OwnEntry r cols (Db.indexKey cols data)) {cols : List ColMeta}
    (hcols : cols ∈ idxs) :
    (db.insertKeys r idxs data).getValue r.tab cols (Db.indexKey cols data) = some r.rid := by
  obtain ⟨rid, hrid⟩ :=
    Option.isSome_iff_exists.1 ((insertKeys_isSome (r := r) data idxs db).2 cols hcols)
  rw [hrid, insertKeys_ownEntry data idxs db (h cols hcols) rid hrid]

/-! ## Writes of versions leave the indexes alone -/

/-- However the write ends. -/
def WriteOutcome.Ends (P : Db → Prop) : WriteOutcome → Prop
  | .written db _ | .refused db => P db
  | .nullRead => True

theorem touchChain_index (db : Db) (t : TxnId) (r : RowId) : (db.touchChain t r).index = db.index := by
  unfold Db.touchChain Db.noteWrite
  dsimp only
  split <;> rfl

theorem addWriteRecord_index (db : Db) (t : TxnId) (w : WriteRecord) (first : Bool) :
    (db.addWriteRecord t w first).index = db.index := by
  unfold Db.addWriteRecord
  split <;> rfl

theorem putVersion_index (db : Db) (t : TxnId) (r : RowId) (ch : MvccChain) (old : Image) (del : Bool)
    (data : Image) : (db.putVersion t r ch old del data).index = db.index := by
  unfold Db.putVersion
  dsimp only
  rw [addWriteRecord_index]
  split
  · unfold Db.noteDelKey
    split <;> rfl
  · rfl

theorem mvccWrite_index (db : Db) (t : TxnId) (r : RowId) (old : Image) (new : Option Bytes) :
    (db.mvccWrite t r old new).Ends fun db' => db'.index = db.index := by
  have hput : ∀ target, (WriteOutcome.written ((db.touchChain t r).putVersion t r (db.chainOf r) old
      new.isNone (Db.newImage t target)) (Db.newImage t target)).Ends fun db' => db'.index = db.index :=
    fun target => (putVersion_index _ _ _ _ _ _ _).trans (touchChain_index db t r)
  unfold Db.mvccWrite
  dsimp only
  split
  · exact touchChain_index db t r
  · split
    · exact hput _
    · split
      · exact touchChain_index db t r
      · split
        · trivial
        · split
          · exact touchChain_index db t r
          · exact hput _

theorem mvccWriteColDelta_index (db : Db) (t : TxnId) (r : RowId) (visible : Image) (off : Nat)
    (type : ColType) (deltaF deltaI : BitVec 32) :
    (db.mvccWriteColDelta t r visible off type deltaF deltaI).Ends fun db' => db'.index = db.index := by
  unfold Db.mvccWriteColDelta
  dsimp only
  split
  · exact touchChain_index db t r
  · split
    · exact touchChain_index db t r
    · exact (addWriteRecord_index _ _ _ _).trans (touchChain_index db t r)

theorem mvccWriteColPatch_index (db : Db) (t : TxnId) (r : RowId) (visible : Image)
    (patches : List MvccColPatch) :
    (db.mvccWriteColPatch t r visible patches).Ends fun db' => db'.index = db.index := by
  unfold Db.mvccWriteColPatch
  dsimp only
  split
  · exact rfl
  · split
    · exact touchChain_index db t r
    · generalize (if (db.chainOf r).writer = some t then none
        else (db.touchChain t r).newerVer t ((db.touchChain t r).withBase t r (db.chainOf r) visible)) = newer
      split
      · exact touchChain_index db t r
      · generalize applyPatches _ patches (Db.writeBase t (db.chainOf r) visible.bytes newer
          (db.tabs r.tab).recordSize) = out
        split
        · exact (addWriteRecord_index _ _ _ _).trans (touchChain_index db t r)
        · exact touchChain_index db t r

theorem patchOrWrite_index (db : Db) (t : TxnId) (r : RowId) (visible : Image) (sets : List SetClause) :
    (db.patchOrWrite t r visible sets).Ends fun db' => db'.index = db.index := by
  unfold Db.patchOrWrite
  dsimp only
  split
  · exact mvccWriteColPatch_index db t r visible _
  · exact mvccWrite_index db t r visible _

theorem chooseWrite_index (db : Db) (t : TxnId) (r : RowId) (visible : Image) (sets : List SetClause) :
    (db.chooseWrite t r visible sets).Ends fun db' => db'.index = db.index := by
  unfold Db.chooseWrite
  dsimp only
  split
  · exact mvccWriteColDelta_index db t r visible _ _ _ _
  · split
    · exact patchOrWrite_index db t r visible sets
    · rename_i d _
      have hdelta : (db.colDelta t r visible d).Ends fun db' => db'.index = db.index :=
        mvccWriteColDelta_index db t r visible _ _ _ _
      split
      · rename_i db1 hout
        rw [hout] at hdelta
        have hagain := patchOrWrite_index db1 t r visible sets
        cases hw : db1.patchOrWrite t r visible sets with
        | written db2 _ | refused db2 =>
            rw [hw] at hagain
            exact Eq.trans hagain hdelta
        | nullRead => trivial
      · exact hdelta

theorem serCheck_index (db : Db) (t : TxnId) (r : RowId) (data : Bytes) :
    (db.serCheck t r data).1.index = db.index := by
  unfold Db.serCheck Db.serWriteCheck
  split <;> rfl

theorem publish_index (t : TxnId) (cts wm : Ts) : ∀ (ws : List WriteRecord) (db db' : Db),
    Db.publish t cts wm db ws = some db' → db'.index = db.index := by
  intro ws
  induction ws with
  | nil =>
      intro db db' h
      cases h
      rfl
  | cons w ws ih =>
      intro db db' h
      obtain ⟨row, -, h⟩ := Option.bind_eq_some_iff.1 h
      exact (ih _ _ h).trans rfl

theorem foldl_index {α : Type} (f : Db → α → Db) (hf : ∀ db a, (f db a).index = db.index) :
    ∀ (as : List α) (db : Db), (as.foldl f db).index = db.index := by
  intro as
  induction as with
  | nil => exact fun _ => rfl
  | cons a as ih => exact fun db => (ih (f db a)).trans (hf db a)

theorem closeCommit_index (db : Db) (t : TxnId) (cts wm : Ts) :
    (db.closeCommit t cts wm).index = db.index := by
  have hlog : ∀ (db : Db) (b : Bool) (l : LogRecord), ((db.logIf b l).endTxn t .committed).index = db.index := by
    intro db b l
    unfold Db.logIf
    split <;> rfl
  unfold Db.closeCommit
  dsimp only
  rw [hlog, foldl_index (fun db (w : WriteRecord) => db.markDirty w.row.tab) fun _ _ => rfl]
  unfold Db.reclaim
  rw [foldl_index (fun db (w : WriteRecord) => db.setRow w.row (Db.reclaimRow wm (db.rows w.row))) fun _ _ => rfl]
  rfl

theorem commit_index (hlive : (db.txn t).live) (h : db.commit t = some db') : db'.index = db.index := by
  rw [commit_eq hlive] at h
  obtain ⟨db1, hpub, rfl⟩ := Option.map_eq_some_iff.1 h
  rw [closeCommit_index, publish_index t _ _ _ _ _ hpub]
  unfold Db.committing Db.finishSer
  split <;> rfl

/-! ## One row of an update -/

/-- The record that an update makes of the row. -/
def Db.updated (db : Db) (t : TxnId) (r : RowId) (sets : List SetClause) : Option Bytes :=
  (db.mvccRead t r).bind fun visible => db.assigned t r visible.bytes sets

/-- Does the update report "failure": does a key of the new record belong to another row? -/
def Db.reportsFailure (db : Db) (t : TxnId) (r : RowId) (sets : List SetClause) : Bool :=
  (db.updated t r sets).any fun b => db.keyViolated r sets b

/-- The last half of an update starts with the indexes of the first. -/
theorem updateRow_finish {tab : TabName} {rid : Rid} (hv : db.needsVersioning (db.txn t) tab = true)
    (h : Db.updateRow t tab sets db rid = .next db') : ∃ (db1 : Db) (new : Image),
      db.updated t ⟨tab, rid⟩ sets = some new.bytes ∧ db1.index = db.index ∧ db1.tabs = db.tabs ∧
        db' = db1.finishUpdate t ⟨tab, rid⟩ sets true (db.rows ⟨tab, rid⟩).slot.data new := by
  unfold Db.updateRow at h
  dsimp only at h
  rw [if_pos hv] at h
  split at h
  · cases h
  · rename_i visible hread
    have hindex := chooseWrite_index db t ⟨tab, rid⟩ visible sets
    split at h
    · cases h
    · cases h
    · rename_i db1 new hout
      rw [hout] at hindex
      obtain ⟨-, hw, hassigned⟩ := chooseWrite_written hout
      split at h
      · cases h
      · cases h
        refine ⟨_, new, ?_, ?_, ?_, rfl⟩
        · rw [Db.updated, hread, Option.bind_some, hassigned]
        · rw [serCheck_index, serCheck_index]
          exact hindex
        · rw [(RowWrite.serCheck _ t ⟨tab, rid⟩ new.bytes).tabs, (RowWrite.serCheck db1 t ⟨tab, rid⟩ _).tabs,
            hw.tabs]

theorem keyViolated_congr (hindex : db'.index = db.index) (htabs : db'.tabs = db.tabs) (r : RowId)
    (sets : List SetClause) (b : Bytes) : db'.keyViolated r sets b = db.keyViolated r sets b := by
  unfold Db.keyViolated Db.getValue
  rw [hindex, htabs]

theorem not_keyViolated {b : Bytes} (h : db.keyViolated r sets b = false) {cols : List ColMeta}
    (hcols : cols ∈ db.touchedIndexes r.tab sets) : db.OwnEntry r cols (Db.indexKey cols b) := by
  obtain ⟨hmem, htouch⟩ := List.mem_filter.1 hcols
  unfold Db.keyViolated at h
  rw [List.any_eq_false] at h
  have hcol := h cols hmem
  intro rid hrid
  rw [htouch, hrid] at hcol
  simpa using hcol

/-- What the step leaves in the indexes. -/
theorem finishUpdate_index (db : Db) (t : TxnId) (r : RowId) (sets : List SetClause) (orig new : Image) :
    (db.keyViolated r sets new.bytes = true →
        (db.finishUpdate t r sets true orig new).index = db.index) ∧
      (db.keyViolated r sets new.bytes = false → ∀ cols ∈ db.touchedIndexes r.tab sets,
        (db.finishUpdate t r sets true orig new).getValue r.tab cols (Db.indexKey cols new.bytes) =
          some r.rid) := by
  unfold Db.finishUpdate
  constructor
  · intro h
    rw [if_pos h]
  · intro h cols hcols
    rw [if_neg (by rw [h]; exact Bool.false_ne_true)]
    dsimp only
    refine insertKeys_getValue (fun cols' hcols' => ?_) hcols
    have hold := deleteKeys_ownEntry orig.bytes (db.touchedIndexes r.tab sets) db
      (not_keyViolated h hcols')
    intro rid hrid
    refine hold rid ((getValue_congr ?_ _ _ _).symm.trans hrid)
    exact (addWriteRecord_index _ _ _ _).trans rfl

/-! ## The row after the commit -/

/-- The write of the row that `t` commits unless it writes the row again: that of its chain, or that of
an overlay which the end of the statement leaves in place. -/
def Db.ownImage (db : Db) (t : TxnId) (r : RowId) : Option SiOverlay :=
  let c := db.chainOf r
  match (db.txn t).overlay r with
  | none => if c.writer = some t then some ⟨c.writerData, c.writerDel⟩ else none
  | some ov =>
      if c.writer = some t ∧ c.holdWriterToCommit = false ∧ (db.txn t).txnMode = true then
        some ⟨c.writerData, c.writerDel⟩
      else some ov

/-- After the commit of `t` the row is as it would have been without the update. -/
def Db.AsBefore (db db3 : Db) (t : TxnId) (r : RowId) : Prop :=
  match db.ownImage t r with
  | none => db3.version r = db.version r ∧ (db3.rows r).slot.isRecord = (db.rows r).slot.isRecord ∧
      (db3.rows r).slot.data.bytes = (db.rows r).slot.data.bytes
  | some ov =>
      if ov.isDeleted then (db3.rows r).slot.isRecord = false
      else db3.version r = some ov.data.bytes ∧ (db3.rows r).slot.isRecord = true ∧
        (db3.rows r).slot.data.bytes = ov.data.bytes

instance (db db3 : Db) (t : TxnId) (r : RowId) : Decidable (db.AsBefore db3 t r) := by
  unfold Db.AsBefore
  split <;> infer_instance

/-- A row for which "failure" is reported keeps its version, its heap record and its index entries; any
other row gets the new record, and the touched indexes its new keys. -/
structure UpdateRight (db db1 db2 db3 : Db) (t : TxnId) (r : RowId) (sets : List SetClause) : Prop where
  failed : db.reportsFailure t r sets = true →
    db1.index = db.index ∧ db3.index = db2.index ∧ db.AsBefore db3 t r
  updated : db.reportsFailure t r sets = false → ∃ b, db.updated t r sets = some b ∧ db3.Stored r b ∧
    ∀ cols ∈ db.touchedIndexes r.tab sets,
      db1.getValue r.tab cols (Db.indexKey cols b) = some r.rid

/-- The record that the commit stores: the new one, unless an older overlay stands for it. -/
def Db.settled (db : Db) (t : TxnId) (r : RowId) (sets : List SetClause) : Option Bytes :=
  if db.shadowed t r sets then (db.mvccRead t r).map Image.bytes else db.updated t r sets

/-- The record that is stored is the one of before the update where "failure" is reported, and the new one
elsewhere. -/
def Db.KeepsPromise (db : Db) (t : TxnId) (r : RowId) (sets : List SetClause) : Prop :=
  if db.reportsFailure t r sets then
    match db.ownImage t r with
    | none => db.settled t r sets = db.version r ∧
        db.settled t r sets = some (db.rows r).slot.data.bytes
    | some ov => ov.isDeleted = false ∧ db.settled t r sets = some ov.data.bytes
  else db.settled t r sets = db.updated t r sets

instance (db : Db) (t : TxnId) (r : RowId) (sets : List SetClause) :
    Decidable (db.KeepsPromise t r sets) := by
  unfold Db.KeepsPromise
  split
  · split <;> infer_instance
  · infer_instance

theorem stored_asBefore_iff {b : Bytes} (h : db3.Stored r b) (hrec : (db.rows r).slot.isRecord = true) :
    db.AsBefore db3 t r ↔
      match db.ownImage t r with
      | none => some b = db.version r ∧ some b = some (db.rows r).slot.data.bytes
      | some ov => ov.isDeleted = false ∧ some b = some ov.data.bytes := by
  unfold Db.AsBefore
  rw [h.version, h.isRecord, h.heap]
  split
  · rw [hrec, Option.some_inj]
    simp
  · rename_i ov _
    cases hdel : ov.isDeleted with
    | true => simp
    | false => simp

/-- **Updates against a unique index.**  On a run, a row of an update is as the statement reports it,
"failure" or not, exactly when the record that the commit stores is. -/
theorem run_updateRight_iff {tabs : TabName → TabMeta} {files : TabName → RmFileHdr}
    {heap : RowId → Slot} {index : IndexId → IndexMap}
    (hheap : ∀ r, (heap r).isRecord = true → (heap r).data.bytes.length = (tabs r.tab).recordSize)
    (h : UpdateRun (Db.boot tabs files heap index) t r sets db db1 db2 db3) :
    UpdateRight db db1 db2 db3 t r sets ↔ db.KeepsPromise t r sets := by
  have hn := h.neat hheap
  obtain ⟨hnext, -, hv⟩ := h.next hn
  obtain ⟨⟨-, -, hrec, -⟩, -⟩ := Option.ite_none_right_eq_some.1 h.update
  obtain ⟨hlive, hcommit⟩ := Option.ite_none_right_eq_some.1 h.commit
  obtain ⟨visible, new, img, hread, hassigned, rfl, -, hstored⟩ := h.stored hheap
  have hupdated : db.updated t r sets = some new.bytes := by
    rw [Db.updated, hread, Option.bind_some, hassigned]
  have hsettled : db.settled t r sets =
      some (if db.shadowed t r sets then visible else new).bytes := by
    unfold Db.settled
    split
    · rw [hread, Option.map_some]
    · exact hupdated
  obtain ⟨dbw, new', hupdated', hindex, htabs, rfl⟩ := updateRow_finish hv hnext
  have hbytes : new.bytes = new'.bytes := Option.some.inj (hupdated.symm.trans hupdated')
  have hviolated : db.reportsFailure t r sets = dbw.keyViolated r sets new'.bytes := by
    rw [Db.reportsFailure, hupdated', Option.any_some, keyViolated_congr hindex htabs]
  have htouched : dbw.touchedIndexes r.tab sets = db.touchedIndexes r.tab sets := by
    unfold Db.touchedIndexes
    rw [htabs]
  obtain ⟨hsame, hkeys⟩ := finishUpdate_index dbw t r sets (db.rows r).slot.data new'
  unfold Db.KeepsPromise
  rw [hsettled]
  cases hfail : db.reportsFailure t r sets with
  | true =>
      rw [if_pos rfl, ← stored_asBefore_iff hstored hrec]
      rw [hviolated] at hfail
      constructor
      · intro hright
        exact (hright.failed (hviolated.trans hfail)).2.2
      · intro hbefore
        refine ⟨fun _ => ⟨(hsame hfail).trans hindex, commit_index hlive.live hcommit, hbefore⟩, ?_⟩
        intro hno
        rw [hviolated, hfail] at hno
        cases hno
  | false =>
      rw [if_neg Bool.false_ne_true, hupdated]
      constructor
      · intro hright
        obtain ⟨b, hb, hst, -⟩ := hright.updated hfail
        rw [hupdated] at hb
        rw [hb, ← hstored.version, hst.version]
      · intro heq
        rw [Option.some_inj] at heq
        refine ⟨fun hyes => ?_, fun _ => ⟨new.bytes, hupdated, heq ▸ hstored, ?_⟩⟩
        · rw [hfail] at hyes
          cases hyes
        · rw [hviolated] at hfail
          rw [hbytes, ← htouched]
          exact hkeys hfail

theorem twoKeys_layout : ColsAt 0 [⟨"a", .int, 4, 0⟩] := by decide

theorem twoKeys_indexed : ∀ ix ∈ [([⟨"a", .int, 4, 0⟩] : List ColMeta)], ∀ c ∈ ix, c ∈ ([⟨"a", .int, 4, 0⟩] : List ColMeta) := by
  decide

/-- A table with a unique index on its `INT` column, the records 1 and 2, and two open transactions. -/
def twoKeys : Db :=
  Db.boot (fun _ => ⟨[⟨"a", .int, 4, 0⟩], [[⟨"a", .int, 4, 0⟩]], twoKeys_layout, twoKeys_indexed⟩) (fun _ => ⟨2, 8⟩)
    (fun r => ⟨decide (r.rid.slotNo = 0 ∨ r.rid.slotNo = 1),
      ⟨if r.rid.slotNo = 0 then [1, 0, 0, 0] else [2, 0, 0, 0], none⟩⟩)
    (fun id => if id = ⟨"t", ["a"]⟩ then [([1, 0, 0, 0], ⟨1, 0⟩), ([2, 0, 0, 0], ⟨1, 1⟩)] else [])

/-- Transaction 0 runs `UPDATE t SET a = raw WHERE a = 1` next to another transaction, and commits. -/
def setKey (raw : Bytes) : Option (Db × Db × Db × Db) := do
  let db ← run execStep twoKeys [.begin true .snapshotIsolation, .begin true .snapshotIsolation]
  let db1 ← execStep db (.update 0 "t" [{ lhs := "a", raw := raw }] ⟨1, 0⟩)
  let db2 ← run execStep db1 [.endStmt 0]
  let db3 ← execStep db2 (.commit 0)
  some (db, db1, db2, db3)

theorem setKey_run {raw : Bytes} (h : setKey raw = some (db, db1, db2, db3)) :
    UpdateRun twoKeys 0 ⟨"t", ⟨1, 0⟩⟩ [{ lhs := "a", raw := raw }] db db1 db2 db3 := by
  unfold setKey at h
  obtain ⟨dba, hbefore, h⟩ := Option.bind_eq_some_iff.1 h
  obtain ⟨dbb, hupdate, h⟩ := Option.bind_eq_some_iff.1 h
  obtain ⟨dbc, hrest, h⟩ := Option.bind_eq_some_iff.1 h
  obtain ⟨dbd, hcommit, h⟩ := Option.bind_eq_some_iff.1 h
  cases h
  refine ⟨⟨_, hbefore⟩, hupdate, ⟨_, ?_, List.mem_singleton_self _, hrest⟩, hcommit⟩
  intro a ha
  rw [List.mem_singleton.1 ha]
  exact id

/-- A key that no row has. -/
theorem run_updateRight_free : ∃ db db1 db2 db3,
    UpdateRun twoKeys 0 ⟨"t", ⟨1, 0⟩⟩ [{ lhs := "a", raw := [3, 0, 0, 0] }] db db1 db2 db3 ∧
      UpdateRight db db1 db2 db3 0 ⟨"t", ⟨1, 0⟩⟩ [{ lhs := "a", raw := [3, 0, 0, 0] }] := by
  obtain ⟨⟨db, db1, db2, db3⟩, h⟩ :=
    Option.isSome_iff_exists.1 (by decide +kernel : (setKey [3, 0, 0, 0]).isSome = true)
  have hrun := setKey_run h
  refine ⟨db, db1, db2, db3, hrun, (run_updateRight_iff ?_ hrun).2 ?_⟩
  · intro r _
    show (if r.rid.slotNo = 0 then [1, 0, 0, 0] else [2, 0, 0, 0] : Bytes).length = 4
    split <;> rfl
  · have hk : ((setKey [3, 0, 0, 0]).any fun dbs => decide (dbs.1.KeepsPromise 0 ⟨"t", ⟨1, 0⟩⟩
        [{ lhs := "a", raw := [3, 0, 0, 0] }])) = true := by decide +kernel
    rw [h] at hk
    exact of_decide_eq_true hk

/-- The key of the other row: "failure" is reported, and the commit stores the record. -/
theorem not_updateRight_taken : ∃ db db1 db2 db3,
    UpdateRun twoKeys 0 ⟨"t", ⟨1, 0⟩⟩ [{ lhs := "a", raw := [2, 0, 0, 0] }] db db1 db2 db3 ∧
      ¬ UpdateRight db db1 db2 db3 0 ⟨"t", ⟨1, 0⟩⟩ [{ lhs := "a", raw := [2, 0, 0, 0] }] := by
  obtain ⟨⟨db, db1, db2, db3⟩, h⟩ :=
    Option.isSome_iff_exists.1 (by decide +kernel : (setKey [2, 0, 0, 0]).isSome = true)
  refine ⟨db, db1, db2, db3, setKey_run h, ?_⟩
  have hk : ((setKey [2, 0, 0, 0]).any fun dbs => dbs.1.reportsFailure 0 ⟨"t", ⟨1, 0⟩⟩
      [{ lhs := "a", raw := [2, 0, 0, 0] }] &&
        !decide (dbs.1.AsBefore dbs.2.2.2 0 ⟨"t", ⟨1, 0⟩⟩)) = true := by decide +kernel
  rw [h, Option.any_some, Bool.and_eq_true, Bool.not_eq_true', decide_eq_false_iff_not] at hk
  exact fun hright => hk.2 (hright.failed hk.1).2.2

end Rmdb.Txn
