import Rmdb.Exec.Load
import Rmdb.Row.Finish

/-!
# LOAD, the indexes and abort

`run_load` writes no index entry (`Loaded.index`), so the indexes of a table miss the records of the
file (`load_maintains_iff`).  What a transaction that begins later finds in a table (`laterRows`, the
indexes) after a `LOAD` that was followed by an abort: the records that came to the heap (`Arrival`)
stay there, as `abort` goes through the write set, and `run_load` enters nothing into it.
-/

namespace Rmdb.Txn

open Rmdb.Index (Rid)

variable {db db' db'' : Db} {t : TxnId} {tab : TabName} {r : RowId}

/-! ## What a later transaction finds -/

/-- The rows that a transaction sees which begins now. -/
def Db.laterRows (db : Db) (explicit : Bool) (iso : IsolationLevel) (tab : TabName) : List (Rid × Image) :=
  (db.begin explicit iso).seqScan db.nextTxnId tab []

/-- What a transaction reads at a row which begins now. -/
def Db.laterRead (db : Db) (r : RowId) : Option Image :=
  (db.begin false .snapshotIsolation).readRow db.nextTxnId r

/-- A transaction that begins later finds the rows of the table and the entries of its indexes as
they were. -/
def Untouched (db db' : Db) (tab : TabName) : Prop :=
  (∀ explicit iso, (db'.laterRows explicit iso tab).Perm (db.laterRows explicit iso tab)) ∧
    ∀ cols ∈ (db.tabs tab).indexes, db'.index (Db.indexId tab cols) = db.index (Db.indexId tab cols)

theorem begin_readRow (db : Db) (explicit : Bool) (iso : IsolationLevel) (r : RowId) :
    (db.begin explicit iso).readRow db.nextTxnId r =
      if db.tableIsDirty r.tab then
        match (db.rows r).chain with
        | none => some (db.rows r).slot.data
        | some c => Db.chainRead c db.nextTxnId db.lastCommitTs
      else some (db.rows r).slot.data := by
  have htxn : (db.begin explicit iso).txn db.nextTxnId =
      { txnMode := explicit, isolation := iso, readTs := db.lastCommitTs } := by
    show (Function.update db.txns db.nextTxnId _ db.nextTxnId).getD default = _
    rw [Function.update_self]
    rfl
  have hany : db.tableIsDirty r.tab = true → db.anyMvccDirty = true := fun h => (Bool.and_eq_true_iff.1 h).1
  unfold Db.readRow Db.mvccRead
  rw [htxn]
  show (if db.tableIsDirty r.tab then _ else _) = _
  by_cases hd : db.tableIsDirty r.tab
  · rw [if_pos hd, if_pos hd]
    show (if !db.anyMvccDirty then _ else _) = _
    rw [if_neg (by rw [hany hd]; decide)]
    rfl
  · rw [if_neg hd, if_neg hd]
    rfl

theorem begin_laterRead (db : Db) (explicit : Bool) (iso : IsolationLevel) (r : RowId) :
    (db.begin explicit iso).readRow db.nextTxnId r = db.laterRead r := by
  unfold Db.laterRead
  rw [begin_readRow, begin_readRow]

theorem laterRead_congr (hrow : db'.rows r = db.rows r) (hdirty : db'.tableIsDirty r.tab = db.tableIsDirty r.tab)
    (hnext : db'.nextTxnId = db.nextTxnId) (hcts : db'.lastCommitTs = db.lastCommitTs) :
    db'.laterRead r = db.laterRead r := by
  unfold Db.laterRead
  rw [begin_readRow, begin_readRow, hrow, hdirty, hnext, hcts]

/-- Whether anything is read depends on the chain only. -/
theorem laterRead_none (hchain : (db'.rows r).chain = (db.rows r).chain)
    (hdirty : db'.tableIsDirty r.tab = db.tableIsDirty r.tab) (hnext : db'.nextTxnId = db.nextTxnId)
    (hcts : db'.lastCommitTs = db.lastCommitTs) : db'.laterRead r = none ↔ db.laterRead r = none := by
  unfold Db.laterRead
  rw [begin_readRow, begin_readRow, hchain, hdirty, hnext, hcts]
  split
  · split
    · exact ⟨fun hc => (by cases hc), fun hc => (by cases hc)⟩
    · exact Iff.rfl
  · exact ⟨fun hc => (by cases hc), fun hc => (by cases hc)⟩

theorem slots_eq (db : Db) (tab : TabName) : db.slots tab =
    ((List.range' 1 ((db.files tab).numPages - 1)).map Int.ofNat).flatMap fun p =>
      ((List.range (db.files tab).numRecordsPerPage).map Int.ofNat).map fun s => ⟨p, s⟩ := by
  unfold Db.slots
  simp only [bind_pure_comp, List.map_eq_map]
  rfl

theorem mem_slots {rid : Rid} : rid ∈ db.slots tab ↔
    (1 ≤ rid.pageNo ∧ rid.pageNo < (db.files tab).numPages) ∧
      0 ≤ rid.slotNo ∧ rid.slotNo < (db.files tab).numRecordsPerPage := by
  rw [slots_eq, List.mem_flatMap]
  constructor
  · rintro ⟨p, hp, hrid⟩
    obtain ⟨s, hs, rfl⟩ := List.mem_map.1 hrid
    obtain ⟨i, hi, rfl⟩ := List.mem_map.1 hp
    obtain ⟨j, hj, rfl⟩ := List.mem_map.1 hs
    rw [List.mem_range'_1] at hi
    rw [List.mem_range] at hj
    simp only [Int.ofNat_eq_natCast]
    omega
  · rintro ⟨⟨hp1, hp2⟩, hs1, hs2⟩
    have hp : Int.ofNat rid.pageNo.toNat = rid.pageNo := Int.toNat_of_nonneg (by omega)
    have hs : Int.ofNat rid.slotNo.toNat = rid.slotNo := Int.toNat_of_nonneg hs1
    refine ⟨rid.pageNo, List.mem_map.2 ⟨rid.pageNo.toNat, ?_, hp⟩,
      List.mem_map.2 ⟨rid.slotNo, List.mem_map.2 ⟨rid.slotNo.toNat, ?_, hs⟩, rfl⟩⟩
    · rw [List.mem_range'_1]
      omega
    · rw [List.mem_range]
      omega

theorem slots_nodup (db : Db) (tab : TabName) : (db.slots tab).Nodup := by
  have hinj : Function.Injective Int.ofNat := fun _ _ h => Int.ofNat.inj h
  rw [slots_eq]
  refine List.nodup_flatMap.2 ⟨fun p _ => ?_, ?_⟩
  · refine List.Nodup.map ?_ (List.nodup_range.map hinj)
    intro a b hab
    exact (Rid.mk.inj hab).2
  · have hpages : (List.range' 1 ((db.files tab).numPages - 1)).Nodup := List.nodup_range'
    refine List.Pairwise.imp ?_ (hpages.map hinj)
    intro p q hpq rid hp hq
    obtain ⟨_, -, rfl⟩ := List.mem_map.1 hp
    obtain ⟨_, -, heq⟩ := List.mem_map.1 hq
    exact hpq (Rid.mk.inj heq).1.symm

theorem mem_laterRows {explicit : Bool} {iso : IsolationLevel} {rid : Rid} {img : Image} :
    (rid, img) ∈ db.laterRows explicit iso tab ↔
      rid ∈ db.slots tab ∧ (db.rows ⟨tab, rid⟩).slot.isRecord = true ∧ db.laterRead ⟨tab, rid⟩ = some img := by
  unfold Db.laterRows Db.seqScan Db.matchRow
  rw [List.mem_filterMap]
  constructor
  · rintro ⟨rid', hrid, heq⟩
    obtain ⟨img', himg, hpair⟩ := Option.map_eq_some_iff.1 heq
    cases hpair
    obtain ⟨hslot, hbit⟩ := List.mem_filter.1 hrid
    rw [begin_laterRead] at himg
    exact ⟨hslot, hbit, (Option.filter_eq_some_iff.1 himg).1⟩
  · rintro ⟨hslot, hbit, himg⟩
    refine ⟨rid, List.mem_filter.2 ⟨hslot, hbit⟩, Option.map_eq_some_iff.2 ⟨img, ?_, rfl⟩⟩
    rw [begin_laterRead]
    exact Option.filter_eq_some_iff.2 ⟨himg, rfl⟩

theorem laterRows_nodup (db : Db) (explicit : Bool) (iso : IsolationLevel) (tab : TabName) :
    (db.laterRows explicit iso tab).Nodup := by
  unfold Db.laterRows Db.seqScan
  refine List.Nodup.filterMap ?_ ((slots_nodup (db.begin explicit iso) tab).filter _)
  intro a b p ha hb
  obtain ⟨_, -, rfl⟩ := Option.map_eq_some_iff.1 ha
  obtain ⟨_, -, heq⟩ := Option.map_eq_some_iff.1 hb
  exact (Prod.mk.inj heq).1.symm

/-! ## What LOAD does to the state -/

/-- A record that came to the heap. -/
structure Arrival where
  rid : Rid
  data : Bytes

/-- The records that come to the heap; there is no index whose `insert_entry` could throw. -/
def arrivals (atof : Bytes → BitVec 32) (m : TabMeta) (supply : List (Rid × Option LoadFault)) :
    List Bytes → List Arrival
  | [] => []
  | line :: lines =>
      match loadLine atof m line with
      | .skip => arrivals atof m supply lines
      | .mismatch => []
      | .record data =>
          match supply with
          | [] => []
          | (_, some .heap) :: _ => []
          | (rid, some .log) :: _ => [⟨rid, data⟩]
          | (rid, _) :: supply => ⟨rid, data⟩ :: arrivals atof m supply lines

/-- The records of the file that came to the heap. -/
def fileArrivals (atof : Bytes → BitVec 32) (m : TabMeta) (file : Option Bytes)
    (supply : List (Rid × Option LoadFault)) : List Arrival :=
  match file with
  | none => []
  | some file => arrivals atof m supply (fileLines file)

/-- From `db` to `db'` the records `as` came to the heap of `tab`. -/
structure Loaded (t : TxnId) (tab : TabName) (db db' : Db) (as : List Arrival) : Prop where
  came : ∀ a ∈ as, (db.rows ⟨tab, a.rid⟩).slot.isRecord = false ∧ (db'.rows ⟨tab, a.rid⟩).slot.isRecord = true ∧
    a.rid ∈ db'.slots tab
  rest : ∀ r, (∀ a ∈ as, r ≠ ⟨tab, a.rid⟩) → db'.rows r = db.rows r
  chain : ∀ r, (db'.rows r).chain = (db.rows r).chain
  index : db'.index = db.index
  slots : ∀ rid ∈ db.slots tab, rid ∈ db'.slots tab
  tabs : db'.tabs = db.tabs
  writeSet : (db'.txn t).writeSet = (db.txn t).writeSet
  overlay : (db'.txn t).overlay = (db.txn t).overlay
  nextTxnId : db'.nextTxnId = db.nextTxnId
  lastCommitTs : db'.lastCommitTs = db.lastCommitTs
  anyMvccDirty : db'.anyMvccDirty = db.anyMvccDirty
  mvccDirty : db'.mvccDirty = db.mvccDirty

theorem Loaded.refl (t : TxnId) (tab : TabName) (db : Db) : Loaded t tab db db [] where
  came := fun _ ha => absurd ha List.not_mem_nil
  rest := fun _ _ => rfl
  chain := fun _ => rfl
  index := rfl
  slots := fun _ h => h
  tabs := rfl
  writeSet := rfl
  overlay := rfl
  nextTxnId := rfl
  lastCommitTs := rfl
  anyMvccDirty := rfl
  mvccDirty := rfl

theorem Loaded.trans {as bs : List Arrival} (h : Loaded t tab db db' as) (h' : Loaded t tab db' db'' bs) :
    Loaded t tab db db'' (as ++ bs) := by
  refine ⟨?_, ?_, fun r => (h'.chain r).trans (h.chain r), h'.index.trans h.index,
    fun rid hrid => h'.slots rid (h.slots rid hrid), h'.tabs.trans h.tabs, h'.writeSet.trans h.writeSet,
    h'.overlay.trans h.overlay, h'.nextTxnId.trans h.nextTxnId, h'.lastCommitTs.trans h.lastCommitTs,
    h'.anyMvccDirty.trans h.anyMvccDirty, h'.mvccDirty.trans h.mvccDirty⟩
  · intro a ha
    rcases List.mem_append.1 ha with ha | ha
    · obtain ⟨hfree, hbit, hslot⟩ := h.came a ha
      refine ⟨hfree, ?_, h'.slots _ hslot⟩
      rw [h'.rest ⟨tab, a.rid⟩]
      · exact hbit
      · -- the slot was not free any more
        intro b hb heq
        have hb' := (h'.came b hb).1
        rw [← heq, hbit] at hb'
        cases hb'
    · obtain ⟨hfree, hbit, hslot⟩ := h'.came a ha
      refine ⟨?_, hbit, hslot⟩
      rw [← h.rest ⟨tab, a.rid⟩]
      · exact hfree
      · intro b hb heq
        have hb' := (h.came b hb).2.1
        rw [← heq, hfree] at hb'
        cases hb'
  · intro r hr
    rw [h'.rest r fun a ha => hr a (List.mem_append_right _ ha), h.rest r fun a ha => hr a (List.mem_append_left _ ha)]

/-! ### One record -/

theorem fillSlot_loaded {rid : Rid} (hfree : db.slotFree tab rid = true) (img : Image) (data : Bytes) :
    Loaded t tab db (db.fillSlot ⟨tab, rid⟩ img) [⟨rid, data⟩] := by
  unfold Db.slotFree at hfree
  simp only [Bool.and_eq_true, Bool.not_eq_true', decide_eq_true_eq] at hfree
  obtain ⟨⟨⟨⟨hbit, hp1⟩, hp2⟩, hs1⟩, hs2⟩ := hfree
  have hfile : (db.fillSlot ⟨tab, rid⟩ img).files tab =
      { db.files tab with numPages := max (db.files tab).numPages (rid.pageNo.toNat + 1) } := by
    show Function.update db.files tab _ tab = _
    rw [Function.update_self]
    rfl
  have hself : (db.fillSlot ⟨tab, rid⟩ img).rows ⟨tab, rid⟩ =
      { db.rows ⟨tab, rid⟩ with slot := ⟨true, img⟩ } := by
    show Function.update db.rows ⟨tab, rid⟩ _ ⟨tab, rid⟩ = _
    rw [Function.update_self]
  have hother : ∀ r, r ≠ ⟨tab, rid⟩ → (db.fillSlot ⟨tab, rid⟩ img).rows r = db.rows r :=
    fun r hr => Function.update_of_ne hr ..
  refine ⟨?_, ?_, ?_, rfl, ?_, rfl, rfl, rfl, rfl, rfl, rfl, rfl⟩
  · intro a ha
    rw [List.mem_singleton] at ha
    subst ha
    refine ⟨hbit, by rw [hself], ?_⟩
    rw [mem_slots, hfile]
    simp only [Nat.cast_max]
    omega
  · intro r hr
    exact hother r (hr _ (List.mem_singleton_self _))
  · intro r
    by_cases hr : r = ⟨tab, rid⟩
    · rw [hr, hself]
    · rw [hother r hr]
  · intro rid' hrid
    rw [mem_slots] at hrid ⊢
    rw [hfile]
    simp only [Nat.cast_max]
    omega

theorem logInsert_loaded (db : Db) (t : TxnId) (tab : TabName) (r : RowId) (data : Bytes) :
    Loaded t tab db (db.logInsert t r data) [] := by
  refine { Loaded.refl t tab db with writeSet := ?_, overlay := ?_ }
  · unfold Db.logInsert Db.writeLog
    rw [Db.txn_modifyTxn_self]
    rfl
  · unfold Db.logInsert Db.writeLog
    rw [Db.txn_modifyTxn_self]
    rfl

/-- A record that comes to the heap and is logged. -/
theorem arrive_loaded {rid : Rid} (hfree : db.slotFree tab rid = true) (data : Bytes) :
    Loaded t tab db ((db.fillSlot ⟨tab, rid⟩ ⟨data, some t⟩).logInsert t ⟨tab, rid⟩ data) [⟨rid, data⟩] := by
  have hfill : Loaded t tab db (db.fillSlot ⟨tab, rid⟩ ⟨data, some t⟩) [⟨rid, data⟩] := fillSlot_loaded hfree _ data
  exact hfill.trans (logInsert_loaded _ t tab ⟨tab, rid⟩ data)

/-- Without indexes the loop over them does nothing. -/
theorem loadKeys_nil {m : TabMeta} (hm : m.indexes = []) (db : Db) (r : RowId) (data : Bytes)
    (fault : Option LoadFault) : Db.loadKeys m db r data fault = .done db := by
  unfold Db.loadKeys
  rw [hm]
  split
  · rw [List.length_nil, if_neg (Nat.not_lt_zero _)]
    rfl
  · rfl

/-! ### The loop -/

theorem loadLines_loaded (atof : Bytes → BitVec 32) {m : TabMeta} (hm : m.indexes = []) :
    ∀ (lines : List Bytes) (db : Db) (supply : List (Rid × Option LoadFault)) (db' : Db),
      db.loadLines atof t tab m supply lines = .done db' ∨ db.loadLines atof t tab m supply lines = .throws db' →
        Loaded t tab db db' (arrivals atof m supply lines) := by
  intro lines
  induction lines with
  | nil =>
      rintro db supply db' (h | h)
      · cases h
        exact .refl t tab db
      · cases h
  | cons line lines ih =>
      intro db supply db' h
      unfold Db.loadLines at h
      unfold arrivals
      cases hline : loadLine atof m line with
      | skip =>
          rw [hline] at h
          exact ih db supply db' h
      | mismatch =>
          rw [hline] at h
          rcases h with h | h
          · cases h
          · cases h
            exact .refl t tab db
      | record data =>
          rw [hline] at h
          cases supply with
          | nil => rcases h with h | h <;> cases h
          | cons s supply =>
              obtain ⟨rid, fault⟩ := s
              dsimp only at h ⊢
              unfold Db.loadRow at h
              dsimp only at h
              by_cases hheap : fault = some .heap
              · subst hheap
                rw [if_pos rfl] at h
                rcases h with h | h
                · cases h
                · cases h
                  exact .refl t tab db
              · rw [if_neg hheap] at h
                cases hfree : db.slotFree tab rid with
                | false =>
                    rw [hfree] at h
                    rcases h with h | h <;> cases h
                | true =>
                    rw [hfree, if_neg (by decide)] at h
                    by_cases hlog : fault = some .log
                    · subst hlog
                      rw [if_pos rfl] at h
                      rcases h with h | h
                      · cases h
                      · cases h
                        exact fillSlot_loaded hfree _ data
                    · rw [if_neg hlog, loadKeys_nil hm] at h
                      have hrest := (arrive_loaded (t := t) hfree data).trans (ih _ supply db' h)
                      cases fault with
                      | none => exact hrest
                      | some fault =>
                          cases fault with
                          | heap => exact absurd rfl hheap
                          | log => exact absurd rfl hlog
                          | index n => exact hrest

theorem runLoad_loaded {atof : Bytes → BitVec 32} {file : Option Bytes} {supply : List (Rid × Option LoadFault)}
    (h : db.runLoad atof t tab file supply = .done db' ∨ db.runLoad atof t tab file supply = .throws db') :
    Loaded t tab db db' (fileArrivals atof (db.tabs tab).copy file supply) := by
  cases file with
  | none =>
      rcases h with h | h
      · cases h
      · cases h
        exact .refl t tab db
  | some file => exact loadLines_loaded atof rfl (fileLines file) db supply db' h

/-! ## What abort leaves of a table it has nothing to undo in -/

/-- What there is of a table besides its rows. -/
structure TabState where
  index : List String → IndexMap
  file : RmFileHdr
  dirty : Bool

def Db.tabState (db : Db) (tab : TabName) : TabState :=
  ⟨fun cols => db.index ⟨tab, cols⟩, db.files tab, db.mvccDirty tab⟩

theorem index_tabState (db : Db) {tab' : TabName} (hne : tab' ≠ tab) (cols : List ColMeta) (es : IndexMap) :
    ({ db with index := Function.update db.index (Db.indexId tab' cols) es } : Db).tabState tab = db.tabState tab := by
  have hid : ∀ names, (⟨tab, names⟩ : IndexId) ≠ Db.indexId tab' cols := by
    intro names hc
    exact hne (congrArg IndexId.tab hc).symm
  unfold Db.tabState
  congr 1
  funext names
  exact Function.update_of_ne (hid names) ..

theorem insertEntry_tabState (db : Db) {tab' : TabName} (hne : tab' ≠ tab) (cols : List ColMeta) (key : Bytes)
    (rid : Rid) : (db.insertEntry tab' cols key rid).tabState tab = db.tabState tab := by
  unfold Db.insertEntry
  split
  · rfl
  · exact index_tabState db hne cols _

theorem foldl_tabState {α : Type} (f : Db → α → Db) (hf : ∀ db a, (f db a).tabState tab = db.tabState tab) :
    ∀ (as : List α) (db : Db), (as.foldl f db).tabState tab = db.tabState tab := by
  intro as
  induction as with
  | nil => exact fun _ => rfl
  | cons a as ih => exact fun db => (ih _).trans (hf db a)

theorem tabState_ite {p : Prop} [Decidable p] {a b : Db} {s : TabState} (ha : a.tabState tab = s)
    (hb : b.tabState tab = s) : (if p then a else b).tabState tab = s := by
  split
  · exact ha
  · exact hb

theorem rollbackIndexOnAbort_tabState (db : Db) (hne : r.tab ≠ tab) (wtype : WType) (old new : Bytes) :
    (db.rollbackIndexOnAbort r wtype old new).tabState tab = db.tabState tab := by
  refine foldl_tabState _ (fun db cols => ?_) _ db
  cases wtype with
  | insertTuple => exact index_tabState db hne cols _
  | deleteTuple => rfl
  | updateTuple =>
      dsimp only
      split
      · exact (insertEntry_tabState _ hne cols _ _).trans (index_tabState db hne cols _)
      · rfl

theorem restoreIndexIfMissing_tabState (db : Db) (hne : r.tab ≠ tab) (data : Bytes) :
    (db.restoreIndexIfMissing r data).tabState tab = db.tabState tab := by
  unfold Db.restoreIndexIfMissing
  split
  · rfl
  · exact foldl_tabState _ (fun db cols => insertEntry_tabState db hne cols _ _) _ db

theorem undoVersioned_tabState (db : Db) {w : WriteRecord} (hne : w.row.tab ≠ tab) (c : MvccChain) :
    (db.undoVersioned w c).tabState tab = db.tabState tab := by
  unfold Db.undoVersioned
  dsimp only
  cases c.hist.getLast? with
  | none => exact tabState_ite (rollbackIndexOnAbort_tabState _ hne _ _ _) rfl
  | some last =>
      exact tabState_ite (rollbackIndexOnAbort_tabState _ hne _ _ _)
        (tabState_ite (restoreIndexIfMissing_tabState _ hne _) rfl)

theorem markDirty_tabState (db : Db) {tab' : TabName} (hne : tab' ≠ tab) :
    (db.markDirty tab').tabState tab = db.tabState tab := by
  unfold Db.tabState Db.markDirty
  dsimp only
  rw [Function.update_of_ne hne.symm]

theorem physicalUndo_tabState (db : Db) {w : WriteRecord} (hne : w.row.tab ≠ tab) :
    (db.physicalUndoWriteRecord w).tabState tab = db.tabState tab := by
  unfold Db.physicalUndoWriteRecord
  dsimp only
  cases w.wtype with
  | insertTuple =>
      dsimp only
      rw [markDirty_tabState _ hne]
      exact tabState_ite (rollbackIndexOnAbort_tabState _ hne _ _ _) rfl
  | updateTuple => exact tabState_ite (rollbackIndexOnAbort_tabState _ hne _ _ _) rfl
  | deleteTuple => exact tabState_ite (restoreIndexIfMissing_tabState _ hne _) rfl

theorem undoWrites_tabState (t : TxnId) : ∀ (ws : List WriteRecord) (undone : List RowId) (db : Db),
    (∀ w ∈ ws, w.row.tab ≠ tab) → (Db.undoWrites t db undone ws).tabState tab = db.tabState tab := by
  intro ws
  induction ws with
  | nil => exact fun _ _ _ => rfl
  | cons w ws ih =>
      intro undone db hws
      have hw := hws w List.mem_cons_self
      have hrest : ∀ w' ∈ ws, w'.row.tab ≠ tab := fun w' hw' => hws w' (List.mem_cons_of_mem _ hw')
      unfold Db.undoWrites
      split
      · rw [ih _ _ hrest, undoVersioned_tabState _ hw]
      · split
        · exact ih undone db hrest
        · rw [ih _ _ hrest, physicalUndo_tabState _ hw]

/-- The transaction has written no row of the table. -/
def Db.NoWrites (db : Db) (t : TxnId) (tab : TabName) : Prop :=
  (∀ w ∈ (db.txn t).writeSet, w.row.tab ≠ tab) ∧ ∀ r, r.tab = tab → (db.txn t).overlay r = none

/-- No slot outside the file has its bit set. -/
def Db.InFile (db : Db) (tab : TabName) : Prop :=
  ∀ rid, (db.rows ⟨tab, rid⟩).slot.isRecord = true → rid ∈ db.slots tab

theorem abort_tabState (hlive : (db.txn t).live) (h : db.NoWrites t tab) :
    (db.abort t).tabState tab = db.tabState tab := by
  have hundone : (db.undone t).tabState tab = db.tabState tab := by
    refine (undoWrites_tabState t _ [] _ fun w hw => h.1 w (List.mem_reverse.1 hw)).trans ?_
    rfl
  have hleft : (db.left t).tabState tab = (db.undone t).tabState tab := by
    unfold Db.left Db.finishSer
    split <;> rfl
  have hlog : ∀ (db : Db) b l, (db.logIf b l).tabState tab = db.tabState tab := by
    intro db b l
    unfold Db.logIf
    split <;> rfl
  rw [abort_eq hlive]
  exact (hlog _ _ _).trans (hleft.trans hundone)

/-- The rows, the indexes and the state of the table are as they were. -/
structure SameTab (db db' : Db) (tab : TabName) : Prop where
  rows : ∀ r, r.tab = tab → db'.rows r = db.rows r
  index : ∀ cols, db'.index (Db.indexId tab cols) = db.index (Db.indexId tab cols)
  files : db'.files tab = db.files tab
  dirty : db'.tableIsDirty tab = db.tableIsDirty tab
  nextTxnId : db'.nextTxnId = db.nextTxnId
  lastCommitTs : db'.lastCommitTs = db.lastCommitTs

theorem abort_sameTab (h : db.NoWrites t tab) (hflags : db.mvccDirty tab = true → db.anyMvccDirty = true) :
    SameTab db (db.abort t) tab := by
  cases hlive : (db.txn t).live with
  | false =>
      have hsame : db.abort t = db := by
        unfold Db.abort
        rw [hlive]
        rfl
      rw [hsame]
      exact ⟨fun _ _ => rfl, fun _ => rfl, rfl, rfl, rfl, rfl⟩
  | true =>
      have hab := abort_spec hlive
      have hst := abort_tabState hlive h
      refine ⟨?_, ?_, congrArg TabState.file hst, ?_, hab.nextTxnId, hab.lastCommitTs⟩
      · intro r hr
        have hnone : ((db.txn t).writeSet.reverse.filter fun w => w.row = r) = [] := by
          refine List.filter_eq_nil_iff.2 fun w hw => ?_
          simp only [decide_eq_true_eq]
          rintro rfl
          exact h.1 w (List.mem_reverse.1 hw) hr
        rw [hab.rows r, hnone, restored_of_none (h.2 r hr)]
        rfl
      · intro cols
        exact congrFun (congrArg TabState.index hst) (cols.map ColMeta.name)
      · have hmvcc : (db.abort t).mvccDirty tab = db.mvccDirty tab := congrArg TabState.dirty hst
        cases hd : db.mvccDirty tab with
        | true =>
            have htrue : db.tableIsDirty tab = true := by
              unfold Db.tableIsDirty
              rw [hflags hd, hd]
              rfl
            rw [hab.dirty tab htrue, htrue]
        | false =>
            unfold Db.tableIsDirty
            rw [hmvcc, hd, Bool.and_false, Bool.and_false]

/-! ## When a LOAD leaves nothing behind -/

/-- A transaction that begins now reads nothing in the slot that the record came to, because of the
versions there. -/
def Db.Hides (db : Db) (tab : TabName) (a : Arrival) : Prop := db.laterRead ⟨tab, a.rid⟩ = none

theorem untouched_iff {as : List Arrival} (h : Loaded t tab db db' as) (hsame : SameTab db' db'' tab)
    (hfile : db.InFile tab) :
    Untouched db db'' tab ↔ ∀ a ∈ as, db.Hides tab a := by
  have hnext : db''.nextTxnId = db.nextTxnId := hsame.nextTxnId.trans h.nextTxnId
  have hcts : db''.lastCommitTs = db.lastCommitTs := hsame.lastCommitTs.trans h.lastCommitTs
  have hdirty : db''.tableIsDirty tab = db.tableIsDirty tab := by
    rw [hsame.dirty, Db.tableIsDirty, h.anyMvccDirty, h.mvccDirty]
    rfl
  have hslots : db''.slots tab = db'.slots tab := by
    unfold Db.slots
    rw [hsame.files]
  have hnone : ∀ rid, db''.laterRead ⟨tab, rid⟩ = none ↔ db.laterRead ⟨tab, rid⟩ = none := by
    intro rid
    refine laterRead_none ?_ hdirty hnext hcts
    rw [hsame.rows ⟨tab, rid⟩ rfl]
    exact h.chain ⟨tab, rid⟩
  constructor
  · rintro ⟨hrows, -⟩ a ha
    obtain ⟨hfree, hbit, hslot⟩ := h.came a ha
    by_contra hseen
    obtain ⟨img, himg⟩ := Option.ne_none_iff_exists'.1 fun hc => hseen ((hnone a.rid).1 hc)
    have hmem : (a.rid, img) ∈ db''.laterRows false .snapshotIsolation tab := by
      rw [mem_laterRows, hslots, hsame.rows ⟨tab, a.rid⟩ rfl]
      exact ⟨hslot, hbit, himg⟩
    have hmem' := (hrows false .snapshotIsolation).mem_iff.1 hmem
    rw [mem_laterRows, hfree] at hmem'
    exact absurd hmem'.2.1 (by decide)
  · intro hhides
    refine ⟨fun explicit iso => ?_, ?_⟩
    · rw [List.perm_ext_iff_of_nodup (laterRows_nodup _ _ _ _) (laterRows_nodup _ _ _ _)]
      rintro ⟨rid, img⟩
      rw [mem_laterRows, mem_laterRows, hslots, hsame.rows ⟨tab, rid⟩ rfl]
      by_cases harr : ∃ a ∈ as, a.rid = rid
      · obtain ⟨a, ha, rfl⟩ := harr
        have hread := hhides a ha
        rw [hread, (hnone a.rid).2 hread]
        exact ⟨fun hc => absurd hc.2.2 (by simp), fun hc => absurd hc.2.2 (by simp)⟩
      · have hrow : db'.rows ⟨tab, rid⟩ = db.rows ⟨tab, rid⟩ := by
          refine h.rest _ fun a ha hc => harr ⟨a, ha, ?_⟩
          exact (congrArg RowId.rid hc).symm
        have hread : db''.laterRead ⟨tab, rid⟩ = db.laterRead ⟨tab, rid⟩ :=
          laterRead_congr ((hsame.rows ⟨tab, rid⟩ rfl).trans hrow) hdirty hnext hcts
        rw [hrow, hread]
        constructor
        · rintro ⟨-, hbit, himg⟩
          exact ⟨hfile rid hbit, hbit, himg⟩
        · rintro ⟨hslot, hbit, himg⟩
          exact ⟨h.slots rid hslot, hbit, himg⟩
    · intro cols _
      rw [hsame.index cols, h.index]

/-- A `LOAD` that fails, or that succeeds in a transaction which then aborts, leaves a table the
transaction had not written before as it was exactly when each record that came to the heap got a
slot whose versions hide it. -/
theorem load_untouched_iff (atof : Bytes → BitVec 32) (file : Option Bytes)
    (supply : List (Rid × Option LoadFault)) (hwrites : db.NoWrites t tab) (hfile : db.InFile tab)
    (hflags : db.mvccDirty tab = true → db.anyMvccDirty = true)
    (hload : db.runLoad atof t tab file supply = .done db' ∨ db.runLoad atof t tab file supply = .throws db') :
    Untouched db (db'.abort t) tab ↔
      ∀ a ∈ fileArrivals atof (db.tabs tab).copy file supply, db.Hides tab a := by
  have hl := runLoad_loaded hload
  refine untouched_iff hl (abort_sameTab ?_ ?_) hfile
  · exact ⟨by rw [hl.writeSet]; exact hwrites.1, by rw [hl.overlay]; exact hwrites.2⟩
  · rw [hl.mvccDirty, hl.anyMvccDirty]
    exact hflags

/-- One table of one `INT` column with an index on it. -/
def oneColumn : TabMeta where
  cols := [⟨"a", .int, 4, 0⟩]
  indexes := [[⟨"a", .int, 4, 0⟩]]
  layout := by decide
  indexed := by decide

/-- The empty table, in an explicit transaction that has just begun. -/
def emptyTable : Db :=
  (Db.boot (fun _ => oneColumn) (fun _ => ⟨1, 10⟩) (fun _ => ⟨false, .empty⟩) fun _ => []).begin true .snapshotIsolation

/-- The chain of a row that a committed transaction deleted while another one reads. -/
def deletedChain (data : Bytes) : MvccChain where
  hist := [⟨⟨data, none⟩, 0, false, none⟩, ⟨.empty, 1, true, some 1⟩]

/-- Two deleted rows that have their versions and their entries still, in an explicit transaction that has
just begun. -/
def twoDeleted : Db :=
  { Db.boot (fun _ => oneColumn) (fun _ => ⟨2, 2⟩) (fun _ => ⟨false, .empty⟩)
      (fun _ => [([1, 0, 0, 0], ⟨1, 0⟩), ([2, 0, 0, 0], ⟨1, 1⟩)]) with
    rows := fun r => ⟨⟨false, .empty⟩, if r.rid = (⟨1, 0⟩ : Rid) then some (deletedChain [1, 0, 0, 0])
      else if r.rid = (⟨1, 1⟩ : Rid) then some (deletedChain [2, 0, 0, 0]) else none, none⟩
    nextTxnId := 2
    lastCommitTs := 1
    activeRts := [0]
    anyMvccDirty := true
    mvccDirty := fun _ => true }.begin true .snapshotIsolation

theorem twoDeleted_ok : twoDeleted.NoWrites 2 "t" ∧ twoDeleted.InFile "t" ∧
    (twoDeleted.mvccDirty "t" = true → twoDeleted.anyMvccDirty = true) := by
  exact ⟨⟨fun _ hw => absurd hw List.not_mem_nil, fun _ _ => rfl⟩, fun _ hc => (Bool.false_ne_true hc).elim, fun _ => rfl⟩

/-- Two records, a line with too many fields, and a record after it. -/
def tooManyFields : Bytes := [51, 10, 52, 10, 53, 44, 54, 10, 55, 10]

/-- The slots of the two records. -/
def deletedSlots : List (Rid × Option LoadFault) := [(⟨1, 0⟩, none), (⟨1, 1⟩, none)]

/-- The two records come to slots that their tombstones hide. -/
theorem load_untouched_iff_deleted : ∃ db',
    twoDeleted.runLoad (fun _ => 0) 2 "t" (some tooManyFields) deletedSlots = .throws db' ∧
      fileArrivals (fun _ => 0) (twoDeleted.tabs "t").copy (some tooManyFields) deletedSlots =
        [⟨⟨1, 0⟩, [3, 0, 0, 0]⟩, ⟨⟨1, 1⟩, [4, 0, 0, 0]⟩] ∧
      Untouched twoDeleted (db'.abort 2) "t" := by
  have harr : fileArrivals (fun _ => 0) (twoDeleted.tabs "t").copy (some tooManyFields) deletedSlots =
      [⟨⟨1, 0⟩, [3, 0, 0, 0]⟩, ⟨⟨1, 1⟩, [4, 0, 0, 0]⟩] := by
    rfl
  have hload : ∃ db', twoDeleted.runLoad (fun _ => 0) 2 "t" (some tooManyFields) deletedSlots = .throws db' :=
    ⟨_, rfl⟩
  obtain ⟨db', hload⟩ := hload
  obtain ⟨hwrites, hfile, hflags⟩ := twoDeleted_ok
  refine ⟨db', hload, harr, (load_untouched_iff (fun _ => 0) (some tooManyFields) deletedSlots hwrites hfile hflags
    (.inr hload)).2 ?_⟩
  rw [harr]
  intro a ha
  simp only [List.mem_cons, List.not_mem_nil, or_false] at ha
  unfold Db.Hides
  rcases ha with rfl | rfl
  · rfl
  · rfl

/-- A record, and a line with too many fields. -/
def recordFirst : Bytes := [49, 10, 49, 44, 50, 10]

/-- The record stays, though the `LOAD` fails on the next line and the transaction aborts. -/
theorem not_untouched_record : ∃ db',
    emptyTable.runLoad (fun _ => 0) 0 "t" (some recordFirst) [(⟨1, 0⟩, none)] = .throws db' ∧
      emptyTable.laterRows false .snapshotIsolation "t" = [] ∧
      ((db'.abort 0).laterRows false .snapshotIsolation "t").map (fun p => (p.1, p.2.bytes)) =
        [(⟨1, 0⟩, [1, 0, 0, 0])] ∧
      ¬ Untouched emptyTable (db'.abort 0) "t" := by
  have hbefore : emptyTable.laterRows false .snapshotIsolation "t" = [] := by rfl
  refine ⟨_, rfl, hbefore, by decide +kernel, ?_⟩
  rintro ⟨hrows, -⟩
  have hlen := (hrows false .snapshotIsolation).length_eq
  rw [hbefore] at hlen
  revert hlen
  decide +kernel

/-! ## When a LOAD maintains the indexes -/

/-- The records of the lines of a file. -/
def lineRecords (atof : Bytes → BitVec 32) (m : TabMeta) (lines : List Bytes) : List Bytes :=
  lines.filterMap fun line =>
    match loadLine atof m line with
    | .record data => some data
    | _ => none

/-- Every record of the file came to the heap when nothing threw. -/
theorem arrivals_data (atof : Bytes → BitVec 32) {m : TabMeta} (hm : m.indexes = []) :
    ∀ (lines : List Bytes) (db : Db) (supply : List (Rid × Option LoadFault)) (db' : Db),
      db.loadLines atof t tab m supply lines = .done db' →
        (arrivals atof m supply lines).map Arrival.data = lineRecords atof m lines := by
  intro lines
  induction lines with
  | nil => exact fun _ _ _ _ => rfl
  | cons line lines ih =>
      intro db supply db' h
      unfold Db.loadLines at h
      unfold arrivals lineRecords
      rw [List.filterMap_cons]
      cases hline : loadLine atof m line with
      | skip =>
          rw [hline] at h
          exact ih db supply db' h
      | mismatch =>
          rw [hline] at h
          cases h
      | record data =>
          rw [hline] at h
          cases supply with
          | nil => cases h
          | cons s supply =>
              obtain ⟨rid, fault⟩ := s
              dsimp only at h ⊢
              unfold Db.loadRow at h
              dsimp only at h
              by_cases hheap : fault = some .heap
              · rw [if_pos hheap] at h
                cases h
              rw [if_neg hheap] at h
              cases hfree : db.slotFree tab rid with
              | false =>
                  rw [hfree] at h
                  cases h
              | true =>
                  rw [hfree, if_neg (by decide)] at h
                  by_cases hlog : fault = some .log
                  · rw [if_pos hlog] at h
                    cases h
                  rw [if_neg hlog, loadKeys_nil hm] at h
                  have hrest := congrArg (data :: ·) (ih _ supply db' h)
                  cases fault with
                  | none => exact hrest
                  | some fault =>
                      cases fault with
                      | heap => exact absurd rfl hheap
                      | log => exact absurd rfl hlog
                      | index n => exact hrest

/-- Every index of the table maps the key of each record that came to its slot, and each key it had to
the slot it had. -/
def IndexesMaintained (db db' : Db) (tab : TabName) (as : List Arrival) : Prop :=
  ∀ cols ∈ (db.tabs tab).indexes,
    (∀ a ∈ as, db'.getValue tab cols (Db.indexKey cols a.data) = some a.rid) ∧
      ∀ key rid, db.getValue tab cols key = some rid → db'.getValue tab cols key = some rid

/-- **LOAD and the indexes.**  When the keys of its records are new, a `LOAD` that goes through maintains the
indexes of the table exactly when there is no index, or no record in the file. -/
theorem load_maintains_iff (atof : Bytes → BitVec 32) (file : Bytes) (supply : List (Rid × Option LoadFault))
    (hnew : ∀ data ∈ lineRecords atof (db.tabs tab).copy (fileLines file), ∀ cols ∈ (db.tabs tab).indexes,
      db.getValue tab cols (Db.indexKey cols data) = none)
    (hload : db.runLoad atof t tab (some file) supply = .done db') :
    IndexesMaintained db db' tab (fileArrivals atof (db.tabs tab).copy (some file) supply) ↔
      (db.tabs tab).indexes = [] ∨ lineRecords atof (db.tabs tab).copy (fileLines file) = [] := by
  have hl := runLoad_loaded (.inl hload)
  have hdata : (fileArrivals atof (db.tabs tab).copy (some file) supply).map Arrival.data =
      lineRecords atof (db.tabs tab).copy (fileLines file) := arrivals_data atof rfl (fileLines file) db supply db' hload
  have hsame : ∀ cols key, db'.getValue tab cols key = db.getValue tab cols key := by
    intro cols key
    unfold Db.getValue
    rw [hl.index]
  constructor
  · intro h
    by_contra hne
    rw [not_or] at hne
    obtain ⟨cols, hcols⟩ := List.exists_mem_of_ne_nil _ hne.1
    obtain ⟨data, hmem⟩ := List.exists_mem_of_ne_nil _ hne.2
    have hnone := hnew data hmem cols hcols
    rw [← hdata] at hmem
    obtain ⟨a, ha, rfl⟩ := List.mem_map.1 hmem
    have hsome := (h cols hcols).1 a ha
    rw [hsame, hnone] at hsome
    cases hsome
  · rintro (hnone | hempty)
    · intro cols hcols
      rw [hnone] at hcols
      cases hcols
    · rw [hempty, List.map_eq_nil_iff] at hdata
      intro cols _
      refine ⟨fun a ha => ?_, fun key rid h => (hsame cols key).trans h⟩
      rw [hdata] at ha
      cases ha

/-- The empty table without its index. -/
def noIndex : Db :=
  { emptyTable with tabs := fun _ => ⟨[⟨"a", .int, 4, 0⟩], [], oneColumn.layout, fun _ h => absurd h List.not_mem_nil⟩ }

/-- Three lines with a record each. -/
def threeRecords : Bytes := [51, 10, 52, 10, 53, 10]

def threeSlots : List (Rid × Option LoadFault) := [(⟨1, 0⟩, none), (⟨1, 1⟩, none), (⟨1, 2⟩, none)]

def threeArrivals : List Arrival := [⟨⟨1, 0⟩, [3, 0, 0, 0]⟩, ⟨⟨1, 1⟩, [4, 0, 0, 0]⟩, ⟨⟨1, 2⟩, [5, 0, 0, 0]⟩]

/-- Three records come to a table without an index, and to one with an index. -/
theorem load_maintains_iff_three :
    (∃ db', noIndex.runLoad (fun _ => 0) 0 "t" (some threeRecords) threeSlots = .done db' ∧
      IndexesMaintained noIndex db' "t" threeArrivals) ∧
    ∃ db', emptyTable.runLoad (fun _ => 0) 0 "t" (some threeRecords) threeSlots = .done db' ∧
      ¬ IndexesMaintained emptyTable db' "t" threeArrivals := by
  have hrecords : lineRecords (fun _ => 0) (emptyTable.tabs "t").copy (fileLines threeRecords) =
      [[3, 0, 0, 0], [4, 0, 0, 0], [5, 0, 0, 0]] := by rfl
  have hno : ∃ db', noIndex.runLoad (fun _ => 0) 0 "t" (some threeRecords) threeSlots = .done db' := ⟨_, rfl⟩
  have hone : ∃ db', emptyTable.runLoad (fun _ => 0) 0 "t" (some threeRecords) threeSlots = .done db' := ⟨_, rfl⟩
  obtain ⟨db', hno⟩ := hno
  obtain ⟨db'', hone⟩ := hone
  refine ⟨⟨db', hno, (load_maintains_iff (fun _ => 0) threeRecords threeSlots ?_ hno).2 (.inl rfl)⟩, db'', hone, fun h => ?_⟩
  · exact fun _ _ cols hcols => absurd hcols List.not_mem_nil
  · have hnew : ∀ data ∈ lineRecords (fun _ => 0) (emptyTable.tabs "t").copy (fileLines threeRecords),
        ∀ cols ∈ (emptyTable.tabs "t").indexes, emptyTable.getValue "t" cols (Db.indexKey cols data) = none :=
      fun _ _ _ _ => rfl
    obtain hix | hdata := (load_maintains_iff (fun _ => 0) threeRecords threeSlots hnew hone).1 h
    · cases hix
    · rw [hrecords] at hdata
      cases hdata

/-- The record comes to the heap and has no entry in the index. -/
theorem not_indexesMaintained_record : ∃ db',
    emptyTable.runLoad (fun _ => 0) 0 "t" (some [49, 10]) [(⟨1, 0⟩, none)] = .done db' ∧
      (db'.rows ⟨"t", ⟨1, 0⟩⟩).slot = ⟨true, ⟨[1, 0, 0, 0], some 0⟩⟩ ∧ db'.index ⟨"t", ["a"]⟩ = [] ∧
      ¬ IndexesMaintained emptyTable db' "t" [⟨⟨1, 0⟩, [1, 0, 0, 0]⟩] := by
  refine ⟨_, rfl, by decide +kernel, by decide +kernel, fun h => ?_⟩
  have hentry := (h [⟨"a", .int, 4, 0⟩] (List.mem_singleton_self _)).1 _ (List.mem_singleton_self _)
  revert hentry
  decide +kernel

end Rmdb.Txn
