import Rmdb.Mvcc.Conflict

/-!
# The deleted keys

`del_keys_` holds the first columns of deleted rows: who deletes such a row, and the last commit of a
delete.  Commit sweeps the map of a table that has grown, with its own watermark.  An entry that some
live transaction may still have to meet is never dropped (`run_meetsDeletes`).
-/

namespace Rmdb.Txn

open Rmdb.Index (Rid)
open Rmdb.Lib (run run_invariant)

/-! ## Runs with their deletes -/

/-- The state and the deletes that went through: transaction, table and first column. -/
structure Deletes where
  db : Db
  done : List (TxnId × TabName × Bytes) := []

/-- The first column of a row. -/
def Db.firstKey (db : Db) (t : TxnId) (tab : TabName) (old : Bytes) : List (TxnId × TabName × Bytes) :=
  match (db.tabs tab).cols with
  | [] => []
  | c :: _ => [(t, tab, getBytes old c.offset c.len)]

def deleteStep (st : Deletes) : SerOp → Option Deletes
  | .mvccDelete t r old =>
      if st.db.Live t ∧ (st.db.rows r).slot.isRecord = true then
        match st.db.mvccWrite t r old none with
        | .written db _ => some ⟨db, st.done ++ st.db.firstKey t r.tab old.bytes⟩
        | .refused db => some ⟨db, st.done⟩
        | .nullRead => none
      else none
  | a => (serStep st.db a).map fun db => ⟨db, st.done⟩

/-- Every live transaction that inserts a key meets the deletes of the key by other live transactions
and those committed after its snapshot. -/
def MeetsDeletes (st : Deletes) : Prop :=
  ∀ t, st.db.Live t → ∀ u tab key, (u, tab, key) ∈ st.done →
    (u ≠ t ∧ st.db.Live u) ∨
      ((st.db.txn u).state = .committed ∧ (st.db.txn t).readTs < (st.db.txn u).commitTs) →
    st.db.mvccInsertKeyConflict t tab key = true

/-! ## What a step keeps of the map -/

/-- The writers of `P` and the deletes after `wm` are still there. -/
def KeepsKeys (P : TxnId → Prop) (wm : Ts) (m m' : TabName → KeyMap) : Prop :=
  ∀ tab key st, (m tab).lookup key = some st →
    (∀ u ∈ st.writers, P u → ∃ st', (m' tab).lookup key = some st' ∧ u ∈ st'.writers) ∧
      (wm < st.lastDelCts → ∃ st', (m' tab).lookup key = some st' ∧ st.lastDelCts ≤ st'.lastDelCts)

variable {P : TxnId → Prop} {wm cts : Ts} {m m' m'' : TabName → KeyMap} {t : TxnId}

theorem KeepsKeys.refl (P : TxnId → Prop) (wm : Ts) (m : TabName → KeyMap) : KeepsKeys P wm m m :=
  fun _ _ st h => ⟨fun _ hu _ => ⟨st, h, hu⟩, fun _ => ⟨st, h, le_rfl⟩⟩

theorem KeepsKeys.trans (h : KeepsKeys P wm m m') (h' : KeepsKeys P wm m' m'') :
    KeepsKeys P wm m m'' := by
  intro tab key st hst
  obtain ⟨hwriters, hlast⟩ := h tab key st hst
  constructor
  · intro u hu hP
    obtain ⟨st', hst', hu'⟩ := hwriters u hu hP
    exact (h' tab key st' hst').1 u hu' hP
  · intro hlt
    obtain ⟨st', hst', hle⟩ := hlast hlt
    obtain ⟨st'', hst'', hle'⟩ := (h' tab key st' hst').2 (lt_of_lt_of_le hlt hle)
    exact ⟨st'', hst'', le_trans hle hle'⟩

/-- A change of one table. -/
theorem KeepsKeys.table {tab : TabName} {tabmap : KeyMap}
    (h : ∀ key st, (m tab).lookup key = some st →
      (∀ u ∈ st.writers, P u → ∃ st', tabmap.lookup key = some st' ∧ u ∈ st'.writers) ∧
        (wm < st.lastDelCts → ∃ st', tabmap.lookup key = some st' ∧ st.lastDelCts ≤ st'.lastDelCts)) :
    KeepsKeys P wm m (Function.update m tab tabmap) := by
  intro tab' key st hst
  by_cases htab : tab' = tab
  · subst htab
    rw [Function.update_self]
    exact h key st hst
  · rw [Function.update_of_ne htab]
    exact KeepsKeys.refl P wm m tab' key st hst

/-- A change of one entry. -/
theorem KeepsKeys.insert {tab : TabName} {key : Bytes} {new : DelKeyState}
    (hwriters : ∀ u ∈ (((m tab).lookup key).getD {}).writers, P u → u ∈ new.writers)
    (hlast : (((m tab).lookup key).getD {}).lastDelCts ≤ new.lastDelCts) :
    KeepsKeys P wm m (Function.update m tab ((m tab).insert key new)) := by
  refine KeepsKeys.table fun key' st hst => ?_
  by_cases hkey : key' = key
  · subst hkey
    rw [hst, Option.getD_some] at hwriters hlast
    rw [AList.lookup_insert]
    exact ⟨fun u hu hP => ⟨new, rfl, hwriters u hu hP⟩, fun _ => ⟨new, rfl, hlast⟩⟩
  · rw [AList.lookup_insert_ne hkey]
    exact ⟨fun u hu _ => ⟨st, hst, hu⟩, fun _ => ⟨st, hst, le_rfl⟩⟩

/-- The sweep takes the entries without writers up to the watermark only. -/
theorem sweep_lookup {tabmap : KeyMap} {key : Bytes} {st : DelKeyState} (hst : tabmap.lookup key = some st)
    (hkeep : ¬ (st.writers = [] ∧ st.lastDelCts ≤ wm)) : (Db.sweep wm tabmap).lookup key = some st := by
  refine AList.mem_lookup_iff.2 (List.mem_filter.2 ⟨AList.mem_lookup_iff.1 hst, ?_⟩)
  rw [Bool.not_eq_true', Bool.and_eq_false_iff, List.isEmpty_eq_false_iff, decide_eq_false_iff_not]
  exact not_and_or.1 hkeep

/-- The sweep of one table. -/
theorem KeepsKeys.sweep (tab : TabName) : KeepsKeys P wm m (Function.update m tab (Db.sweep wm (m tab))) := by
  refine KeepsKeys.table fun key st hst => ⟨fun u hu _ => ⟨st, sweep_lookup hst ?_, hu⟩,
    fun hlt => ⟨st, sweep_lookup hst fun h => absurd h.2 (Nat.not_le.2 hlt), le_rfl⟩⟩
  rintro ⟨hnil, -⟩
  rw [hnil] at hu
  cases hu

theorem commitDelKey_keeps (t : TxnId) (cts wm : Ts) (m : TabName → KeyMap) (k : TabName × Bytes) :
    KeepsKeys (fun u => u ≠ t) wm m (Db.commitDelKey t cts wm m k) := by
  have hkey : KeepsKeys (fun u => u ≠ t) wm m (Function.update m k.1 ((m k.1).insert k.2
      ⟨(((m k.1).lookup k.2).getD {}).writers.erase t, max (((m k.1).lookup k.2).getD {}).lastDelCts cts⟩)) :=
    KeepsKeys.insert (fun u hu hne => (List.mem_erase_of_ne hne).2 hu) (le_max_left _ _)
  unfold Db.commitDelKey
  dsimp only
  split
  · have h := hkey.trans (KeepsKeys.sweep k.1)
    rwa [Function.update_self, Function.update_idem] at h
  · exact hkey

theorem commitDelKeys_keeps (cts : Ts) : ∀ (keys : List (TabName × Bytes)) (m : TabName → KeyMap),
    KeepsKeys (fun u => u ≠ t) wm m (keys.foldl (Db.commitDelKey t cts wm) m) := by
  intro keys
  induction keys with
  | nil => exact fun m => .refl _ _ m
  | cons k keys ih => exact fun m => (commitDelKey_keeps t cts wm m k).trans (ih _)

theorem commitDelKey_cts (hlt : wm < cts) (m : TabName → KeyMap) (k : TabName × Bytes) :
    ∃ st, (Db.commitDelKey t cts wm m k k.1).lookup k.2 = some st ∧ cts ≤ st.lastDelCts := by
  unfold Db.commitDelKey
  rw [Function.update_self]
  have hle := le_max_right (((m k.1).lookup k.2).getD {}).lastDelCts cts
  refine ⟨⟨(((m k.1).lookup k.2).getD {}).writers.erase t, _⟩, ?_, hle⟩
  split
  · exact sweep_lookup (AList.lookup_insert _) fun h => absurd (le_trans hle h.2) (Nat.not_le.2 hlt)
  · exact AList.lookup_insert _

/-- The keys of the committed transaction carry its timestamp, as far as it is beyond the watermark. -/
theorem commitDelKeys_cts (hlt : wm < cts) {k : TabName × Bytes} : ∀ (keys : List (TabName × Bytes))
    (m : TabName → KeyMap), k ∈ keys →
      ∃ st, (keys.foldl (Db.commitDelKey t cts wm) m k.1).lookup k.2 = some st ∧ cts ≤ st.lastDelCts := by
  intro keys
  induction keys with
  | nil =>
      intro m h
      cases h
  | cons k' keys ih =>
      intro m hmem
      rcases List.mem_cons.1 hmem with rfl | hmem
      · obtain ⟨st, hst, hle⟩ := @commitDelKey_cts wm cts t hlt m k
        obtain ⟨st', hst', hle'⟩ := (commitDelKeys_keeps (t := t) cts keys _ k.1 k.2 st hst).2
          (lt_of_lt_of_le hlt hle)
        exact ⟨st', hst', le_trans hle hle'⟩
      · exact ih _ hmem

theorem abortDelKey_keeps (t : TxnId) (m : TabName → KeyMap) (k : TabName × Bytes) :
    KeepsKeys (fun u => u ≠ t) 0 m (Db.abortDelKey t m k) := by
  unfold Db.abortDelKey
  split
  · exact .refl _ _ m
  · next st hst =>
    dsimp only
    split
    · next hgone =>
      refine KeepsKeys.table fun key st' hst' => ?_
      by_cases hkey : key = k.2
      · rw [hkey, hst] at hst'
        cases hst'
        refine ⟨fun u hu hne => ?_, fun hlt => ?_⟩
        · have hu' := (List.mem_erase_of_ne hne).2 hu
          rw [hgone.1] at hu'
          cases hu'
        · rw [hgone.2] at hlt
          cases hlt
      · rw [AList.lookup_erase_ne hkey]
        exact ⟨fun u hu _ => ⟨st', hst', hu⟩, fun _ => ⟨st', hst', le_rfl⟩⟩
    · refine KeepsKeys.insert ?_ ?_
      · rw [hst]
        exact fun u hu hne => (List.mem_erase_of_ne hne).2 hu
      · rw [hst]
        exact le_rfl

theorem abortDelKeys_keeps : ∀ (keys : List (TabName × Bytes)) (m : TabName → KeyMap),
    KeepsKeys (fun u => u ≠ t) 0 m (keys.foldl (Db.abortDelKey t) m) := by
  intro keys
  induction keys with
  | nil => exact fun m => .refl _ _ m
  | cons k keys ih => exact fun m => (abortDelKey_keeps t m k).trans (ih _)

/-! ## What the operations do to the map -/

/-- The map and the keys that each transaction has listed. -/
def Db.dels (db : Db) : (TabName → KeyMap) × (TxnId → List (TabName × Bytes)) :=
  (db.delKeys, fun u => (db.txn u).delKeys)

variable {db db' : Db} {r : RowId}

theorem modifyTxn_dels (db : Db) {f : Transaction → Transaction}
    (hf : (f (db.txn t)).delKeys = (db.txn t).delKeys) : (db.modifyTxn t f).dels = db.dels := by
  unfold Db.dels
  congr 1
  funext u
  rcases eq_or_ne u t with rfl | hu
  · rw [Db.txn_modifyTxn_self, hf]
  · rw [Db.txn_congr (Function.update_of_ne hu _ _ : (db.modifyTxn t f).txns u = db.txns u)]

theorem addWriteRecord_dels (db : Db) (t : TxnId) (w : WriteRecord) (first : Bool) :
    (db.addWriteRecord t w first).dels = db.dels := by
  unfold Db.addWriteRecord
  split
  · exact modifyTxn_dels db rfl
  · rfl

theorem touchChain_dels (db : Db) (t : TxnId) (r : RowId) : (db.touchChain t r).dels = db.dels := by
  have h : (db.noteWrite t r).dels = db.dels := by
    unfold Db.noteWrite
    dsimp only
    split
    · rfl
    · exact modifyTxn_dels (t := t) (f := fun x => { x with writtenTabs := x.writtenTabs ++ [r.tab] })
        db rfl
  exact h

theorem insert_dels (db : Db) (t : TxnId) (r : RowId) (data : Bytes) :
    ((db.mvccInsert t r data).fillSlot r ⟨data, some t⟩).dels = db.dels := by
  rw [← touchChain_dels db t r]
  exact modifyTxn_dels (t := t)
    (f := fun x => { x with writeSet := x.writeSet ++ [⟨.insertTuple, r, .empty⟩] })
    ((db.touchChain t r).setChain r { db.chainOf r with
      hist := [], writer := some t, writerDel := false, writerData := ⟨data, some t⟩ }) rfl

theorem putVersion_dels (db : Db) (t : TxnId) (r : RowId) (ch : MvccChain) (old data : Image) :
    (db.putVersion t r ch old false data).dels = db.dels := by
  unfold Db.putVersion
  exact addWriteRecord_dels _ _ _ _

/-- An update lists no key. -/
theorem mvccWrite_dels {old : Image} {new : Bytes}
    (h : (db.mvccWrite t r old (some new)).db? = some db') : db'.dels = db.dels := by
  have hput : ∀ data, ((db.touchChain t r).putVersion t r (db.chainOf r) old false data).dels =
      db.dels := fun data => (putVersion_dels _ _ _ _ _ _).trans (touchChain_dels db t r)
  unfold Db.mvccWrite at h
  dsimp only at h
  split at h
  · cases h
    exact touchChain_dels db t r
  · split at h
    · cases h
      exact hput _
    · split at h
      · cases h
        exact touchChain_dels db t r
      · split at h
        · cases h
          exact touchChain_dels db t r
        · cases h
          exact hput _

theorem colDelta_dels {visible : Image} {off : Nat} {type : ColType} {deltaF deltaI : BitVec 32}
    (h : (db.mvccWriteColDelta t r visible off type deltaF deltaI).db? = some db') :
    db'.dels = db.dels := by
  unfold Db.mvccWriteColDelta at h
  dsimp only at h
  split at h
  · cases h
    exact touchChain_dels db t r
  · split at h
    · cases h
      exact touchChain_dels db t r
    · cases h
      exact (addWriteRecord_dels _ _ _ _).trans (touchChain_dels db t r)

theorem colPatch_dels {visible : Image} {patches : List MvccColPatch}
    (h : (db.mvccWriteColPatch t r visible patches).db? = some db') : db'.dels = db.dels := by
  unfold Db.mvccWriteColPatch at h
  dsimp only at h
  split at h
  · cases h
    rfl
  · split at h
    · cases h
      exact touchChain_dels db t r
    · generalize (if (db.chainOf r).writer = some t then none
        else (db.touchChain t r).newerVer t ((db.touchChain t r).withBase t r (db.chainOf r) visible))
          = newer at h
      split at h
      · cases h
        exact touchChain_dels db t r
      · generalize applyPatches _ patches _ = out at h
        split at h
        · cases h
          exact (addWriteRecord_dels _ _ _ _).trans (touchChain_dels db t r)
        · cases h
          exact touchChain_dels db t r

theorem release_dels (db : Db) (t : TxnId) : (db.releaseStatementWrites t).dels = db.dels := by
  have hmap : (db.releaseStatementWrites t).delKeys = db.delKeys := by
    unfold Db.releaseStatementWrites
    split
    · rfl
    · rfl
  unfold Db.dels
  rw [hmap]
  simp only [release_proj Transaction.delKeys (fun _ _ => rfl)]

/-- A delete that goes through lists its key under the transaction. -/
theorem delete_dels {old data : Image} (h : db.mvccWrite t r old none = .written db' data) :
    db'.dels = ((db.touchChain t r).noteDelKey t r.tab old.bytes).dels := by
  have hput : ((db.touchChain t r).putVersion t r (db.chainOf r) old true data).dels =
      ((db.touchChain t r).noteDelKey t r.tab old.bytes).dels := by
    unfold Db.putVersion
    dsimp only
    rw [addWriteRecord_dels, if_pos rfl]
    unfold Db.noteDelKey
    have htabs : ∀ c, ((db.touchChain t r).setChain r c).tabs = (db.touchChain t r).tabs := fun _ => rfl
    rw [htabs]
    split
    · rfl
    · rfl
  unfold Db.mvccWrite at h
  dsimp only at h
  split at h
  · cases h
  · split at h
    · cases h
      exact hput
    · split at h
      · cases h
      · cases h

theorem delete_refused_dels {old : Image} (h : db.mvccWrite t r old none = .refused db') :
    db'.dels = db.dels := by
  unfold Db.mvccWrite at h
  dsimp only at h
  split at h
  · cases h
    exact touchChain_dels db t r
  · split at h
    · cases h
    · split at h
      · cases h
        exact touchChain_dels db t r
      · cases h

/-! ## The invariant -/

/-- The invariant: live transactions are among the writers of the keys that they have deleted, and
committed ones have left their timestamp there for as long as a live snapshot is older. -/
structure Registered (db : Db) (done : List (TxnId × TabName × Bytes)) : Prop where
  held : Held db
  stamped : ∀ u, (db.txn u).commitTs ≤ db.lastCommitTs
  known : ∀ d ∈ done, (db.txns d.1).isSome
  live : ∀ u k, (u, k) ∈ done → db.Live u →
    k ∈ (db.txn u).delKeys ∧ ∃ st, (db.delKeys k.1).lookup k.2 = some st ∧ u ∈ st.writers
  committed : ∀ u k, (u, k) ∈ done → (db.txn u).state = .committed →
    ∀ v, db.Live v → (db.txn v).readTs < (db.txn u).commitTs →
      ∃ st, (db.delKeys k.1).lookup k.2 = some st ∧ (db.txn u).commitTs ≤ st.lastDelCts

variable {done : List (TxnId × TabName × Bytes)}

theorem Registered.meets (h : Registered db done) : MeetsDeletes ⟨db, done⟩ := by
  rintro t ht u tab key hd (⟨hne, hu⟩ | ⟨hstate, hlt⟩)
  · obtain ⟨-, st, hst, hmem⟩ := h.live u (tab, key) hd hu
    show Db.mvccInsertKeyConflict db t tab key = true
    unfold Db.mvccInsertKeyConflict
    rw [hst, Bool.or_eq_true, List.any_eq_true]
    exact .inl ⟨u, hmem, decide_eq_true hne⟩
  · obtain ⟨st, hst, hle⟩ := h.committed u (tab, key) hd hstate t ht hlt
    show Db.mvccInsertKeyConflict db t tab key = true
    unfold Db.mvccInsertKeyConflict
    rw [hst, Bool.or_eq_true, decide_eq_true_eq]
    exact .inr (lt_of_lt_of_le hlt hle)

/-- A step that ends no transaction and drops nothing from the map. -/
theorem Registered.work (h : Registered db done) (hh : Held db')
    (hmap : KeepsKeys (fun _ => True) 0 db.delKeys db'.delKeys)
    (hkeys : ∀ u, (db.txn u).delKeys ⊆ (db'.txn u).delKeys)
    (hts : db'.lastCommitTs = db.lastCommitTs) (hlive : ∀ u, db'.Live u ↔ db.Live u)
    (hsome : ∀ u, (db.txns u).isSome → (db'.txns u).isSome)
    (hstate : ∀ u, (db'.txn u).state = (db.txn u).state)
    (hread : ∀ u, (db'.txn u).readTs = (db.txn u).readTs)
    (hcommit : ∀ u, (db'.txn u).commitTs = (db.txn u).commitTs) : Registered db' done where
  held := hh
  stamped := by
    intro u
    rw [hcommit, hts]
    exact h.stamped u
  known := fun d hd => hsome d.1 (h.known d hd)
  live := by
    intro u k hd hu
    obtain ⟨hk, st, hst, hmem⟩ := h.live u k hd ((hlive u).1 hu)
    exact ⟨hkeys u hk, (hmap k.1 k.2 st hst).1 u hmem trivial⟩
  committed := by
    intro u k hd hu v hv hlt
    rw [hstate] at hu
    rw [hread, hcommit] at hlt
    rw [hcommit]
    obtain ⟨st, hst, hle⟩ := h.committed u k hd hu v ((hlive v).1 hv) hlt
    obtain ⟨st', hst', hle'⟩ := (hmap k.1 k.2 st hst).2
      (lt_of_le_of_lt (Nat.zero_le _) (lt_of_lt_of_le hlt hle))
    exact ⟨st', hst', le_trans hle hle'⟩

theorem Registered.rowWrite {row : Row} {ws : List WriteRecord} {mark : Bool} (h : Registered db done)
    (hw : RowWrite db db' t r row ws mark) (ht : db.Live t) (hh : Held db')
    (hmap : KeepsKeys (fun _ => True) 0 db.delKeys db'.delKeys)
    (hkeys : ∀ u, (db.txn u).delKeys ⊆ (db'.txn u).delKeys) : Registered db' done := by
  have hsome := (live_iff.1 ht).1
  refine h.work hh hmap hkeys hw.lastCommitTs (hw.live_iff hsome) (fun u hu => ?_) hw.state hw.readTs
    (hw.proj Transaction.commitTs fun _ => rfl)
  rw [hw.txns_isSome hsome]
  exact hu

theorem Registered.taken (h : Registered db done) (hw : Taken db t r db') (ht : db.Live t)
    (hh : Held db') (hmap : KeepsKeys (fun _ => True) 0 db.delKeys db'.delKeys)
    (hkeys : ∀ u, (db.txn u).delKeys ⊆ (db'.txn u).delKeys) : Registered db' done := by
  cases hw with
  | same => exact h
  | touched hw => exact h.rowWrite hw ht hh hmap hkeys
  | took hw free hwr hhist hws => exact h.rowWrite hw ht hh hmap hkeys

/-- A write that leaves the deleted keys alone. -/
theorem Registered.takenSame (h : Registered db done) (hw : Taken db t r db') (ht : db.Live t)
    (hh : Held db') (hdels : db'.dels = db.dels) : Registered db' done := by
  refine h.taken hw ht hh ?_ fun u => ?_
  · rw [show db'.delKeys = db.delKeys from congrArg Prod.fst hdels]
    exact .refl _ _ _
  · rw [show (db'.txn u).delKeys = (db.txn u).delKeys from congrFun (congrArg Prod.snd hdels) u]
    exact List.Subset.refl _

theorem Registered.add (h : Registered db done) (ht : db.Live t) {k : TabName × Bytes}
    (hk : k ∈ (db.txn t).delKeys) (hst : ∃ st, (db.delKeys k.1).lookup k.2 = some st ∧ t ∈ st.writers) :
    Registered db (done ++ [(t, k)]) := by
  refine ⟨h.held, h.stamped, ?_, ?_, ?_⟩
  · intro d hd
    rcases List.mem_append.1 hd with hd | hd
    · exact h.known d hd
    · rw [List.mem_singleton.1 hd]
      exact (live_iff.1 ht).1
  · intro u k' hd hu
    rcases List.mem_append.1 hd with hd | hd
    · exact h.live u k' hd hu
    · cases List.mem_singleton.1 hd
      exact ⟨hk, hst⟩
  · intro u k' hd hu
    rcases List.mem_append.1 hd with hd | hd
    · exact h.committed u k' hd hu
    · cases List.mem_singleton.1 hd
      rw [(live_iff.1 ht).2] at hu
      cases hu

theorem Registered.begin (h : Registered db done) (explicit : Bool) (iso : IsolationLevel) :
    Registered (db.begin explicit iso) done := by
  have hold : ∀ u, (db.txns u).isSome → u ≠ db.nextTxnId := by
    rintro u hu rfl
    rw [h.held.inv.fresh _ le_rfl] at hu
    cases hu
  have htxn : ∀ u, u ≠ db.nextTxnId → (db.begin explicit iso).txn u = db.txn u :=
    fun u hu => Db.txn_congr (begin_txns_ne hu)
  have hself : (db.begin explicit iso).txn db.nextTxnId =
      { txnMode := explicit, isolation := iso, readTs := db.lastCommitTs } := by
    rw [Db.txn, begin_txns_self, Option.getD_some]
  refine ⟨begin_held h.held explicit iso, ?_, ?_, ?_, ?_⟩
  · intro u
    by_cases hu : u = db.nextTxnId
    · rw [hu, hself]
      exact Nat.zero_le _
    · rw [htxn u hu]
      exact h.stamped u
  · intro d hd
    have hsome := h.known d hd
    rwa [begin_txns_ne (hold d.1 hsome)]
  · intro u k hd hu
    have hne := hold u (h.known _ hd)
    unfold Db.Live at hu
    rw [begin_txns_ne hne] at hu
    rw [htxn u hne]
    exact h.live u k hd hu
  · intro u k hd hu v hv hlt
    have hne := hold u (h.known _ hd)
    rw [htxn u hne] at hu hlt ⊢
    by_cases hvn : v = db.nextTxnId
    · rw [hvn, hself] at hlt
      exact absurd (h.stamped u) (Nat.not_le.2 hlt)
    · unfold Db.Live at hv
      rw [begin_txns_ne hvn] at hv
      rw [htxn v hvn] at hlt
      exact h.committed u k hd hu v hv hlt

/-- The end of `t`: commit and abort thin out its keys. -/
theorem Registered.ended (h : Registered db done) (wm : Ts) (he : Ended db db' t) (ht : db.Live t)
    (hh : Held db') (hstamped : (db'.txn t).commitTs ≤ db'.lastCommitTs)
    (hwm : ∀ u, db'.Live u → wm ≤ (db'.txn u).readTs)
    (hmap : KeepsKeys (fun u => u ≠ t) wm db.delKeys db'.delKeys)
    (hself : (db'.txn t).state = .committed → wm < (db'.txn t).commitTs → ∀ k ∈ (db.txn t).delKeys,
      ∃ st, (db'.delKeys k.1).lookup k.2 = some st ∧ (db'.txn t).commitTs ≤ st.lastDelCts) :
    Registered db' done := by
  have htxn : ∀ u, u ≠ t → db'.txn u = db.txn u := fun u hu => Db.txn_congr (he.others u hu)
  refine ⟨hh, ?_, ?_, ?_, ?_⟩
  · intro u
    by_cases hu : u = t
    · rw [hu]
      exact hstamped
    · rw [htxn u hu]
      exact le_trans (h.stamped u) he.lastCommitTs
  · intro d hd
    by_cases hu : d.1 = t
    · obtain ⟨x, hx, -⟩ := he.self
      rw [hu, hx]
      rfl
    · rw [he.others _ hu]
      exact h.known d hd
  · intro u k hd hu
    have hne : u ≠ t := by
      rintro rfl
      exact he.not_live hu
    obtain ⟨hk, st, hst, hmem⟩ := h.live u k hd ((he.live_iff hne).1 hu)
    rw [htxn u hne]
    exact ⟨hk, (hmap k.1 k.2 st hst).1 u hmem hne⟩
  · intro u k hd hu v hv hlt
    have hfloor := lt_of_le_of_lt (hwm v hv) hlt
    by_cases hut : u = t
    · subst hut
      exact hself hu hfloor k (h.live u k hd ht).1
    · have hvt : v ≠ t := by
        rintro rfl
        exact he.not_live hv
      rw [htxn u hut] at hu hlt hfloor ⊢
      rw [htxn v hvt] at hlt
      obtain ⟨st, hst, hle⟩ := h.committed u k hd hu v ((he.live_iff hvt).1 hv) hlt
      obtain ⟨st', hst', hle'⟩ := (hmap k.1 k.2 st hst).2 (lt_of_lt_of_le hfloor hle)
      exact ⟨st', hst', le_trans hle hle'⟩

theorem mem_activeRts (hI : Inv db) (ht : db.Live t) : (db.txn t).readTs ∈ db.activeRts := by
  rw [← List.count_pos_iff, hI.active]
  exact Finset.card_pos.2 ⟨t, Finset.mem_filter.2 ⟨Finset.mem_range.2 (hI.lt_next ht), ht, rfl⟩⟩

/-- The watermark of a commit is under the snapshots of those who stay. -/
theorem watermark_le (hc : Committed db db' t) (hI : Inv db') {u : TxnId} (hu : db'.Live u) :
    db.watermark t ≤ (db'.txn u).readTs := by
  have h := lowestRts_le (mem_activeRts hI hu) (db.nextCts t)
  unfold Db.lowestRts at h
  rwa [hc.activeRts] at h

theorem commit_delKeys (hlive : (db.txn t).live) (h : db.commit t = some db') :
    db'.delKeys = (db.txn t).delKeys.foldl (Db.commitDelKey t (db.nextCts t) (db.watermark t)) db.delKeys := by
  rw [commit_eq hlive] at h
  obtain ⟨db4, hpub, rfl⟩ := Option.map_eq_some_iff.1 h
  obtain ⟨heq, -, -⟩ := publish_spec _ _ _ _ _ _ hpub
  have hmap : db4.delKeys = db.delKeys := by
    rw [heq]
    unfold Db.committing Db.finishSer
    split <;> rfl
  have htxns : db4.txns = (db.committing t).txns := by rw [heq]
  have hlisted : (db4.txn t).delKeys = (db.txn t).delKeys := by
    have hcore : (db.committing t).txns = _ := congrArg Core.txns (committing_core db t)
    simp [Db.txn, htxns, hcore]
  have hmark : ∀ (ws : List WriteRecord) (db : Db),
      (ws.foldl (fun db w => db.markDirty w.row.tab) db).delKeys = db.delKeys := by
    intro ws
    induction ws with
    | nil => exact fun _ => rfl
    | cons w ws ih => exact fun db => ih _
  have hlog : ∀ (db : Db) (b : Bool) (l : LogRecord), (db.logIf b l).delKeys = db.delKeys := by
    intro db b l
    unfold Db.logIf
    split <;> rfl
  rw [← hlisted, ← hmap]
  unfold Db.closeCommit
  show (Db.logIf _ _ _).delKeys = _
  rw [hlog, hmark, (reclaim_spec _ _ _).1]
  rfl

theorem Registered.commit (h : Registered db done) (hs : (db.txns t).isSome)
    (hc : db.commit t = some db') : Registered db' done := by
  by_cases ht : db.Live t
  · have hend := commit_spec ht.live hc
    have hheld := hend.held h.held ht
    have hself : db'.txn t = { db.txn t with
        commitTs := db.nextCts t, state := .committed, writeSet := [], overlay := fun _ => none
        delKeys := [], writtenTabs := [] } := by
      rw [Db.txn, hend.self, Option.getD_some]
    have hmap := commit_delKeys ht.live hc
    refine h.ended (db.watermark t) hend.ended ht hheld ?_ (fun u hu => watermark_le hend hheld.inv hu) ?_ ?_
    · rw [hself, hend.lastCommitTs]
      exact le_max_right _ _
    · rw [hmap]
      exact commitDelKeys_keeps _ _ _
    · intro _ hlt k hk
      rw [hself] at hlt ⊢
      rw [hmap]
      exact commitDelKeys_cts hlt _ _ hk
  · rw [Db.commit, if_pos (not_live_txn hs ht)] at hc
    cases hc
    exact h

theorem abort_delKeys (ht : db.Live t) :
    (db.abort t).delKeys = (db.abortDelKeys t (db.txn t).delKeys).delKeys := by
  have hundone : (db.undone t).delKeys = db.delKeys := by
    obtain ⟨rows, index, any, dirty, heq⟩ :=
      undoWrites_undoOnly t (db.txn t).writeSet.reverse [] (db.restoreWritersFromOverlays t)
    unfold Db.undone
    rw [heq]
    rfl
  have hleft : ((db.left t).logIf (!(db.txn t).writeSet.isEmpty) (.abort t)).delKeys = db.delKeys := by
    rw [← hundone]
    unfold Db.logIf Db.left Db.finishSer
    split <;> split <;> rfl
  rw [abort_eq ht.live]
  unfold Db.aborting
  show (Db.abortDelKeys (Db.endWriteActivity _ _ 0) t _).delKeys = _
  unfold Db.abortDelKeys Db.endWriteActivity
  rw [hleft]

theorem Registered.abort (h : Registered db done) (ht : db.Live t) : Registered (db.abort t) done := by
  have hend := abort_spec ht.live
  have hself : (db.abort t).txn t = { db.txn t with
      state := .aborted, writeSet := [], overlay := fun _ => none, delKeys := [], writtenTabs := [] } := by
    rw [Db.txn, hend.self, Option.getD_some]
  refine h.ended 0 hend.ended ht (hend.held h.held ht) ?_ (fun _ _ => Nat.zero_le _) ?_ ?_
  · rw [hself, hend.lastCommitTs]
    exact h.stamped t
  · rw [abort_delKeys ht]
    exact abortDelKeys_keeps _ _
  · intro hstate
    rw [hself] at hstate
    cases hstate

theorem noteDelKey_spec {tab : TabName} {c : ColMeta} {cs : List ColMeta}
    (hcols : (db.tabs tab).cols = c :: cs) (t : TxnId) (old : Bytes) :
    (db.noteDelKey t tab old).delKeys = Function.update db.delKeys tab
      ((db.delKeys tab).insert (getBytes old c.offset c.len)
        { ((db.delKeys tab).lookup (getBytes old c.offset c.len)).getD {} with
          writers := (((db.delKeys tab).lookup (getBytes old c.offset c.len)).getD {}).writers.insert t }) ∧
      ∀ u, ((db.noteDelKey t tab old).txn u).delKeys =
        if u = t then (db.txn u).delKeys ++ [(tab, getBytes old c.offset c.len)]
        else (db.txn u).delKeys := by
  unfold Db.noteDelKey
  simp only [hcols]
  refine ⟨trivial, fun u => ?_⟩
  split
  · next hu =>
    subst hu
    exact congrArg Transaction.delKeys (Db.txn_modifyTxn_self db u fun x =>
      { x with delKeys := x.delKeys ++ [(tab, getBytes old c.offset c.len)] })
  · next hu => exact congrArg Transaction.delKeys (Db.txn_congr (Function.update_of_ne hu _ _))

theorem Registered.delete {old data : Image} (h : Registered db done) (ht : db.Live t)
    (hrec : (db.rows r).slot.isRecord = true) (hout : db.mvccWrite t r old none = .written db' data) :
    Registered db' (done ++ db.firstKey t r.tab old.bytes) := by
  have htaken : Taken db t r db' :=
    (mvccWrite_spec db t r old none).taken (by rw [hout]; rfl)
  have hh := htaken.held h.held ht hrec
  have hdels := delete_dels hout
  have htouch := touchChain_dels db t r
  have hmap' : db'.delKeys = ((db.touchChain t r).noteDelKey t r.tab old.bytes).delKeys :=
    congrArg Prod.fst hdels
  have hlisted : ∀ u, (db'.txn u).delKeys =
      (((db.touchChain t r).noteDelKey t r.tab old.bytes).txn u).delKeys :=
    fun u => congrFun (congrArg Prod.snd hdels) u
  have hmap0 : (db.touchChain t r).delKeys = db.delKeys := congrArg Prod.fst htouch
  have hlisted0 : ∀ u, ((db.touchChain t r).txn u).delKeys = (db.txn u).delKeys :=
    fun u => congrFun (congrArg Prod.snd htouch) u
  have htabs : (db.touchChain t r).tabs = db.tabs := (touchChain_write db t r).tabs
  unfold Db.firstKey
  cases hcols : (db.tabs r.tab).cols with
  | nil =>
      rw [List.append_nil]
      refine h.takenSame htaken ht hh (hdels.trans (Eq.trans ?_ htouch))
      unfold Db.noteDelKey
      rw [htabs, hcols]
  | cons c cs =>
      obtain ⟨hnote, hlist⟩ := noteDelKey_spec (htabs ▸ hcols) t old.bytes
      rw [hnote] at hmap'
      dsimp only
      generalize getBytes old.bytes c.offset c.len = key at hmap' hlist ⊢
      have hkept : KeepsKeys (fun _ => True) 0 db.delKeys db'.delKeys := by
        rw [hmap', ← hmap0]
        exact KeepsKeys.insert (fun u hu _ => List.mem_insert_of_mem hu) le_rfl
      have hkeys : ∀ u, (db'.txn u).delKeys =
          if u = t then (db.txn u).delKeys ++ [(r.tab, key)] else (db.txn u).delKeys := by
        intro u
        rw [hlisted, hlist, hlisted0]
      have hsub : ∀ u, (db.txn u).delKeys ⊆ (db'.txn u).delKeys := by
        intro u
        rw [hkeys]
        split
        · exact List.subset_append_left _ _
        · exact List.Subset.refl _
      have hlive : db'.Live t := by
        cases htaken with
        | same => exact ht
        | touched hw => exact (hw.live_iff (live_iff.1 ht).1 t).2 ht
        | took hw free hwr hhist hws => exact (hw.live_iff (live_iff.1 ht).1 t).2 ht
      refine (h.taken htaken ht hh hkept hsub).add hlive ?_ ?_
      · rw [hkeys, if_pos rfl]
        exact List.mem_append_right _ (List.mem_singleton_self _)
      · rw [hmap']
        exact ⟨_, by rw [Function.update_self, AList.lookup_insert], List.mem_insert_self⟩

/-- The steps that are no delete. -/
theorem serStep_registered {a : SerOp} (h : Registered db done) (hstep : serStep db a = some db')
    (hdelete : ∀ t r old, a ≠ .mvccDelete t r old) :
    Registered db' done := by
  have hh := serStep_held h.held hstep
  cases a with
  | mvccDelete t r old => exact absurd rfl (hdelete t r old)
  | serReadPredCheck t tab conds =>
      obtain ⟨ht, heq⟩ := Option.ite_none_right_eq_some.1 hstep
      obtain ⟨recent, ser, hcheck⟩ := serReadPredCheck_cases db t tab conds
      rw [hcheck] at heq
      cases heq
      exact ⟨hh, h.stamped, h.known, h.live, h.committed⟩
  | op o =>
      cases o with
      | begin explicit iso =>
          cases hstep
          exact h.begin explicit iso
      | mvccInsert t r data =>
          obtain ⟨⟨ht, hfree⟩, heq⟩ := Option.ite_none_right_eq_some.1 hstep
          cases heq
          have hw := (mvccInsert_write db t r data).trans (RowWrite.fillSlot _ t r ⟨data, some t⟩)
          have hdels := insert_dels db t r data
          refine h.rowWrite hw ht hh ?_ fun u => ?_
          · rw [show ((db.mvccInsert t r data).fillSlot r ⟨data, some t⟩).delKeys = db.delKeys from
              congrArg Prod.fst hdels]
            exact .refl _ _ _
          · rw [show (((db.mvccInsert t r data).fillSlot r ⟨data, some t⟩).txn u).delKeys =
              (db.txn u).delKeys from congrFun (congrArg Prod.snd hdels) u]
            exact List.Subset.refl _
      | mvccWrite t r old new =>
          obtain ⟨⟨ht, hrec⟩, hdb⟩ := Option.ite_none_right_eq_some.1 hstep
          exact h.takenSame ((mvccWrite_spec db t r old (some new)).taken hdb) ht hh (mvccWrite_dels hdb)
      | mvccWriteColDelta t r visible off type deltaF deltaI =>
          obtain ⟨⟨ht, hrec⟩, hdb⟩ := Option.ite_none_right_eq_some.1 hstep
          exact h.takenSame (colDelta_chainWrite hdb).taken ht hh (colDelta_dels hdb)
      | mvccWriteColPatch t r visible patches =>
          obtain ⟨⟨ht, hrec⟩, hdb⟩ := Option.ite_none_right_eq_some.1 hstep
          exact h.takenSame ((colPatch_spec db t r visible patches).taken hdb) ht hh (colPatch_dels hdb)
      | releaseStatementWrites t =>
          obtain ⟨ht, heq⟩ := Option.ite_none_right_eq_some.1 hstep
          cases heq
          have hdels := release_dels db t
          have hsome := (live_iff.1 ht).1
          refine h.work hh ?_ (fun u => ?_) (release_fields db t).2.1 (release_live_iff hsome) (fun u hu => ?_)
            (release_proj Transaction.state fun _ _ => rfl) (release_proj Transaction.readTs fun _ _ => rfl)
            (release_proj Transaction.commitTs fun _ _ => rfl)
          · rw [show (db.releaseStatementWrites t).delKeys = db.delKeys from congrArg Prod.fst hdels]
            exact .refl _ _ _
          · rw [show ((db.releaseStatementWrites t).txn u).delKeys = (db.txn u).delKeys from
              congrFun (congrArg Prod.snd hdels) u]
            exact List.Subset.refl _
          · rw [release_isSome hsome]
            exact hu
      | commit t =>
          obtain ⟨hs, hcommit⟩ := Option.ite_none_right_eq_some.1 hstep
          exact h.commit hs hcommit
      | abort t =>
          obtain ⟨hs, heq⟩ := Option.ite_none_right_eq_some.1 hstep
          cases heq
          by_cases ht : db.Live t
          · exact h.abort ht
          · rw [Db.abort, if_pos (not_live_txn hs ht)]
            exact h

/-! ## Runs -/

/-- **One step keeps the deleted keys.** -/
theorem deleteStep_registered {st st' : Deletes} {a : SerOp} (h : Registered st.db st.done)
    (hstep : deleteStep st a = some st') : Registered st'.db st'.done := by
  have hplain : (∀ t r old, a ≠ .mvccDelete t r old) →
      (serStep st.db a).map (fun db => (⟨db, st.done⟩ : Deletes)) = some st' → Registered st'.db st'.done := by
    intro hdelete hmap
    obtain ⟨db, hdb, rfl⟩ := Option.map_eq_some_iff.1 hmap
    exact serStep_registered h hdb hdelete
  cases a with
  | mvccDelete t r old =>
      obtain ⟨⟨ht, hrec⟩, hout⟩ := Option.ite_none_right_eq_some.1 hstep
      cases hw : st.db.mvccWrite t r old none with
      | written db data =>
          rw [hw] at hout
          cases hout
          exact h.delete ht hrec hw
      | refused db =>
          rw [hw] at hout
          cases hout
          have htaken : Taken st.db t r db :=
            (mvccWrite_spec st.db t r old none).taken (by rw [hw]; rfl)
          exact h.takenSame htaken ht (htaken.held h.held ht hrec) (delete_refused_dels hw)
      | nullRead =>
          rw [hw] at hout
          cases hout
  | serReadPredCheck t tab conds => exact hplain (fun _ _ _ => SerOp.noConfusion) hstep
  | op o => exact hplain (fun _ _ _ => SerOp.noConfusion) hstep

theorem boot_registered (tabs : TabName → TabMeta) (files : TabName → RmFileHdr) (heap : RowId → Slot)
    (index : IndexId → IndexMap) : Registered (Db.boot tabs files heap index) [] where
  held := boot_held tabs files heap index
  stamped := fun _ => Nat.zero_le _
  known := fun d hd => by cases hd
  live := fun u k hd => by cases hd
  committed := fun u k hd => by cases hd

/-- **Delete-insert conflicts.**  In every run an insert meets the deletes of its key by other live
transactions and those committed after its snapshot. -/
theorem run_meetsDeletes (tabs : TabName → TabMeta) (files : TabName → RmFileHdr)
    (heap : RowId → Slot) (index : IndexId → IndexMap) (ops : List SerOp) {st : Deletes}
    (h : run deleteStep ⟨Db.boot tabs files heap index, []⟩ ops = some st) : MeetsDeletes st := by
  have hrun : Registered st.db st.done :=
    run_invariant (I := fun st : Deletes => Registered st.db st.done)
      (fun _ _ _ hi hs => deleteStep_registered hi hs) ops _ st
      (boot_registered tabs files heap index) h
  exact hrun.meets

/-- Transaction 0 deletes the record after transaction 1 has taken its snapshot. -/
def deleteBehind : List SerOp :=
  [.op (.begin true .snapshotIsolation), .op (.begin true .snapshotIsolation),
    .mvccDelete 0 ⟨"t", ⟨1, 0⟩⟩ ⟨[1, 0, 0, 0], none⟩, .op (.commit 0)]

/-- An insert of the key by transaction 1 meets the delete. -/
theorem run_meetsDeletes_behind : ∃ st, run deleteStep ⟨twoSnapshots, []⟩
    deleteBehind = some st ∧ MeetsDeletes st ∧
      st.db.mvccInsertKeyConflict 1 "t" [1, 0, 0, 0] = true := by
  have hsome : ((run deleteStep ⟨twoSnapshots, []⟩ deleteBehind).map fun st =>
      st.db.mvccInsertKeyConflict 1 "t" [1, 0, 0, 0]) = some true := by decide +kernel
  obtain ⟨st, hst, hconflict⟩ := Option.map_eq_some_iff.1 hsome
  exact ⟨st, hst, run_meetsDeletes _ _ _ _ _ hst, hconflict⟩

end Rmdb.Txn
