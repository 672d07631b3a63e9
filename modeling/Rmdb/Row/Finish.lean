import Rmdb.Row.Stmt

/-!
# What commit and abort do to a row

Commit publishes and reclaims each row of the write set once, however often the write set
names it; abort undoes the records of each row from the last to the first.  Both leave rows
outside the write set as `restore_writers_from_overlays` does.
-/

namespace Rmdb.Txn

open Rmdb.Index (Rid)

/-- The state without logs, indexes, SSI state and counters. -/
structure Core where
  rows : RowId → Row
  txns : TxnId → Option Transaction
  tabs : TabName → TabMeta
  nextTxnId : TxnId
  lastCommitTs : Ts
  activeRts : List Ts
  activeExplicitCount : Nat
  anyMvccDirty : Bool
  mvccDirty : TabName → Bool

def Db.core (db : Db) : Core :=
  ⟨db.rows, db.txns, db.tabs, db.nextTxnId, db.lastCommitTs, db.activeRts, db.activeExplicitCount,
    db.anyMvccDirty, db.mvccDirty⟩

variable {db db' : Db} {t : TxnId} {cts wm : Ts} {row row' : Row}

theorem finishSer_core (db : Db) (t : TxnId) (committed : Bool) (cts : Ts) :
    (db.finishSer t committed cts).core = db.core := by
  unfold Db.finishSer
  split <;> rfl

theorem logIf_core (db : Db) (b : Bool) (l : LogRecord) : (db.logIf b l).core = db.core := by
  unfold Db.logIf
  split <;> rfl

/-! ## Publishing -/

theorem publishRow_id (h : ∀ c, row.chain = some c → c.writer ≠ some t) :
    Db.publishRow t cts wm row = some row := by
  unfold Db.publishRow
  split
  · rfl
  · rename_i c hc
    rw [if_pos (h c hc)]

theorem pruneMvccAfterCommit_writer {c c' : MvccChain}
    (h : Db.pruneMvccAfterCommit c wm cts = some c') : c'.writer = c.writer := by
  unfold Db.pruneMvccAfterCommit at h
  dsimp only at h
  split at h
  · split at h
    · cases h
    · cases h
      rfl
  · split at h
    · split at h
      · cases h
      · cases h
        rfl
    · cases h
      rfl

/-- A published row has no write of `t` any more. -/
theorem publishRow_writer (h : Db.publishRow t cts wm row = some row') (c : MvccChain)
    (hc : row'.chain = some c) : c.writer ≠ some t := by
  unfold Db.publishRow at h
  split at h
  · rename_i hnone
    cases h
    rw [hnone] at hc
    cases hc
  · rename_i c0 hc0
    split at h
    · rename_i hne
      cases h
      rw [hc0] at hc
      cases hc
      exact hne
    · obtain ⟨slot, -, hrow⟩ := Option.map_eq_some_iff.1 h
      subst hrow
      rw [pruneMvccAfterCommit_writer hc]
      exact fun h => by cases h

theorem publish_spec (t : TxnId) (cts wm : Ts) : ∀ (ws : List WriteRecord) (db db' : Db),
    Db.publish t cts wm db ws = some db' →
      db' = { db with rows := db'.rows } ∧
      (∀ r, (∀ w ∈ ws, w.row ≠ r) → db'.rows r = db.rows r) ∧
      ∀ r, (∃ w ∈ ws, w.row = r) → Db.publishRow t cts wm (db.rows r) = some (db'.rows r) := by
  intro ws
  induction ws with
  | nil =>
      intro db db' h
      cases h
      exact ⟨rfl, fun _ _ => rfl, fun r h => by simp at h⟩
  | cons w ws ih =>
      intro db db' h
      simp only [Db.publish, Option.bind_eq_bind] at h
      obtain ⟨row, hrow, h⟩ := Option.bind_eq_some_iff.1 h
      obtain ⟨heq, hout, hin⟩ := ih _ _ h
      refine ⟨by rw [heq]; rfl, ?_, ?_⟩
      · intro r hr
        rw [hout r fun w' hw' => hr w' (List.mem_cons_of_mem _ hw'), Db.setRow_rows,
          Function.update_of_ne (hr w List.mem_cons_self).symm]
      · intro r hr
        by_cases hwr : w.row = r
        · subst hwr
          rw [hrow]
          by_cases hagain : ∃ w' ∈ ws, w'.row = w.row
          · have h2 := hin w.row hagain
            rw [Db.setRow_rows, Function.update_self,
              publishRow_id (publishRow_writer hrow)] at h2
            exact h2
          · rw [hout w.row fun w' hw' h => hagain ⟨w', hw', h⟩, Db.setRow_rows, Function.update_self]
        · obtain ⟨w', hw', hr'⟩ := hr
          rcases List.mem_cons.1 hw' with rfl | hw'
          · exact absurd hr' hwr
          · have h2 := hin r ⟨w', hw', hr'⟩
            rwa [Db.setRow_rows, Function.update_of_ne (Ne.symm hwr)] at h2

/-! ## Reclaiming -/

theorem reclaimRow_cases (wm : Ts) (row : Row) :
    Db.reclaimRow wm row = row ∨
      ∃ c v, row.chain = some c ∧ c.writer = none ∧ c.hist = [v] ∧ row.pending = none ∧
        v.isDeleted = false ∧ v.commitTs ≤ wm ∧ Db.reclaimRow wm row = { row with chain := none } := by
  unfold Db.reclaimRow
  split
  · exact .inl rfl
  · rename_i c hc
    split
    · rename_i v hw hh hp
      split
      · exact .inl rfl
      · rename_i hv
        rw [not_or, not_lt, Bool.not_eq_true] at hv
        exact .inr ⟨c, v, hc, hw, hh, hp, hv.1, hv.2, rfl⟩
    · exact .inl rfl

theorem reclaimRow_idem (wm : Ts) (row : Row) :
    Db.reclaimRow wm (Db.reclaimRow wm row) = Db.reclaimRow wm row := by
  rcases reclaimRow_cases wm row with h | ⟨c, v, -, -, -, -, -, -, h⟩
  · rw [h, h]
  · rw [h]
    rfl

theorem reclaim_spec (wm : Ts) : ∀ (ws : List WriteRecord) (db : Db),
    db.reclaim wm ws = { db with rows := (db.reclaim wm ws).rows } ∧
      (∀ r, (∀ w ∈ ws, w.row ≠ r) → (db.reclaim wm ws).rows r = db.rows r) ∧
      ∀ r, (∃ w ∈ ws, w.row = r) → (db.reclaim wm ws).rows r = Db.reclaimRow wm (db.rows r) := by
  intro ws
  induction ws with
  | nil => exact fun db => ⟨rfl, fun _ _ => rfl, fun r h => by simp at h⟩
  | cons w ws ih =>
      intro db
      obtain ⟨heq, hout, hin⟩ := ih (db.setRow w.row (Db.reclaimRow wm (db.rows w.row)))
      have hfold : db.reclaim wm (w :: ws) =
        (db.setRow w.row (Db.reclaimRow wm (db.rows w.row))).reclaim wm ws := rfl
      rw [hfold]
      refine ⟨by rw [heq]; rfl, ?_, ?_⟩
      · intro r hr
        rw [hout r fun w' hw' => hr w' (List.mem_cons_of_mem _ hw'), Db.setRow_rows,
          Function.update_of_ne (hr w List.mem_cons_self).symm]
      · intro r hr
        by_cases hwr : w.row = r
        · subst hwr
          by_cases hagain : ∃ w' ∈ ws, w'.row = w.row
          · rw [hin w.row hagain, Db.setRow_rows, Function.update_self, reclaimRow_idem]
          · rw [hout w.row fun w' hw' h => hagain ⟨w', hw', h⟩, Db.setRow_rows, Function.update_self]
        · obtain ⟨w', hw', hr'⟩ := hr
          rcases List.mem_cons.1 hw' with rfl | hw'
          · exact absurd hr' hwr
          · rw [hin r ⟨w', hw', hr'⟩, Db.setRow_rows, Function.update_of_ne (Ne.symm hwr)]

theorem reclaim_rows_congr (wm : Ts) (ws : List WriteRecord) (h : db'.rows = db.rows) :
    (db'.reclaim wm ws).rows = (db.reclaim wm ws).rows := by
  obtain ⟨-, hout, hin⟩ := reclaim_spec wm ws db
  obtain ⟨-, hout', hin'⟩ := reclaim_spec wm ws db'
  funext r
  by_cases hr : ∃ w ∈ ws, w.row = r
  · rw [hin r hr, hin' r hr, h]
  · have hr' : ∀ w ∈ ws, w.row ≠ r := fun w hw hwr => hr ⟨w, hw, hwr⟩
    rw [hout r hr', hout' r hr', h]

theorem reclaimRow_pending (wm : Ts) (row : Row) : (Db.reclaimRow wm row).pending = row.pending := by
  rcases reclaimRow_cases wm row with h | ⟨c, v, -, -, -, -, -, -, h⟩
  · rw [h]
  · rw [h]

theorem reclaim_pending (wm : Ts) (ws : List WriteRecord) (db : Db) (r : RowId) :
    ((db.reclaim wm ws).rows r).pending = (db.rows r).pending := by
  obtain ⟨-, hout, hin⟩ := reclaim_spec wm ws db
  by_cases hr : ∃ w ∈ ws, w.row = r
  · rw [hin r hr, reclaimRow_pending]
  · rw [hout r fun w hw hwr => hr ⟨w, hw, hwr⟩]

/-! ## Commit -/

/-- The commit timestamp of `t`, 0 when it takes none. -/
def Db.nextCts (db : Db) (t : TxnId) : Ts :=
  if (db.txn t).writeSet ≠ [] ∨ (db.txn t).txnMode then db.lastCommitTs + 1 else 0

/-- The lowest snapshot among the other active transactions. -/
def Db.watermark (db : Db) (t : TxnId) : Ts :=
  (db.activeRts.erase (db.txn t).readTs).min?.getD (db.nextCts t)

/-- The row as commit and abort find it. -/
def Db.restored (db : Db) (t : TxnId) (r : RowId) : Row := (db.restoreWritersFromOverlays t).rows r

theorem restored_of_none {r : RowId} (h : (db.txn t).overlay r = none) :
    db.restored t r = db.rows r := by
  unfold Db.restored Db.restoreWritersFromOverlays
  dsimp only
  rw [h]

structure Committed (db db' : Db) (t : TxnId) : Prop where
  touched : ∀ r, (db.txn t).touches r → ∃ row,
    Db.publishRow t (db.nextCts t) (db.watermark t) (db.restored t r) = some row ∧
      db'.rows r = Db.reclaimRow (db.watermark t) row
  untouched : ∀ r, (db.txn t).touches r = false → db'.rows r = db.restored t r
  others : ∀ u, u ≠ t → db'.txns u = db.txns u
  self : db'.txns t = some { db.txn t with
    commitTs := db.nextCts t, state := .committed, writeSet := [], overlay := fun _ => none
    delKeys := [], writtenTabs := [] }
  tabs : db'.tabs = db.tabs
  nextTxnId : db'.nextTxnId = db.nextTxnId
  lastCommitTs : db'.lastCommitTs = max db.lastCommitTs (db.nextCts t)
  activeRts : db'.activeRts = db.activeRts.erase (db.txn t).readTs
  activeExplicitCount : db'.activeExplicitCount =
    db.activeExplicitCount - if (db.txn t).txnMode then 1 else 0
  anyMvccDirty : db'.anyMvccDirty = (db.anyMvccDirty || !(db.txn t).writeSet.isEmpty)
  mvccDirty : ∀ tab, db'.mvccDirty tab =
    (db.mvccDirty tab || (db.txn t).writeSet.any fun w => w.row.tab = tab)

theorem markAll_core : ∀ (ws : List WriteRecord) (db : Db),
    (ws.foldl (fun db w => db.markDirty w.row.tab) db).core = { db.core with
      anyMvccDirty := db.anyMvccDirty || !ws.isEmpty
      mvccDirty := fun tab => db.mvccDirty tab || ws.any fun w => w.row.tab = tab } := by
  intro ws
  induction ws with
  | nil => intro db; simp [Db.core]
  | cons w ws ih =>
      intro db
      rw [List.foldl_cons, ih]
      simp only [Db.core, Db.markDirty, List.isEmpty_cons, Bool.not_false, Bool.or_true,
        Bool.true_or, List.any_cons, Core.mk.injEq, true_and]
      funext tab
      by_cases htab : tab = w.row.tab
      · subst htab
        simp
      · rw [Function.update_of_ne htab]
        simp [Ne.symm htab]

theorem restored_pending {r : RowId} (h : ((db.txn t).overlay r).isSome) :
    (db.restored t r).pending = none := by
  unfold Db.restored Db.restoreWritersFromOverlays
  dsimp only
  split
  · rename_i hn
    rw [hn] at h
    cases h
  · rfl

/-- Publishing and reclaiming leave `pending` alone. -/
theorem publishRow_pending (h : Db.publishRow t cts wm row = some row') :
    row'.pending = row.pending := by
  unfold Db.publishRow at h
  split at h
  · cases h
    rfl
  · split at h
    · cases h
      rfl
    · obtain ⟨slot, -, hrow⟩ := Option.map_eq_some_iff.1 h
      rw [← hrow]

theorem endTxn_rows (db : Db) (t : TxnId) (state : TransactionState)
    (h : ∀ r, ((db.txn t).overlay r).isSome → (db.rows r).pending = none) :
    (db.endTxn t state).rows = db.rows := by
  funext r
  have heq : (db.endTxn t state).rows r =
      if ((db.txn t).overlay r).isSome ∧ (db.rows r).pending = some t then
        { db.rows r with pending := none } else db.rows r := rfl
  rw [heq, if_neg]
  rintro ⟨ho, hp⟩
  rw [h r ho] at hp
  cases hp

theorem endTxn_core (db : Db) (t : TxnId) (state : TransactionState)
    (h : ∀ r, ((db.txn t).overlay r).isSome → (db.rows r).pending = none) :
    (db.endTxn t state).core = { db.core with
      txns := Function.update db.txns t (some { db.txn t with
        state := state, writeSet := [], overlay := fun _ => none, delKeys := [], writtenTabs := [] })
      activeExplicitCount := db.activeExplicitCount - if (db.txn t).txnMode then 1 else 0 } := by
  have hrows := endTxn_rows db t state h
  unfold Db.core
  rw [hrows]
  rfl

/-- The state in which commit publishes. -/
def Db.committing (db : Db) (t : TxnId) : Db :=
  ((db.restoreWritersFromOverlays t).takeCts t (db.nextCts t)).finishSer t true (db.nextCts t)

theorem committing_core (db : Db) (t : TxnId) : (db.committing t).core = { db.core with
    rows := db.restored t
    txns := Function.update db.txns t (some { db.txn t with commitTs := db.nextCts t })
    lastCommitTs := max db.lastCommitTs (db.nextCts t)
    activeRts := db.activeRts.erase (db.txn t).readTs } := by
  unfold Db.committing
  rw [finishSer_core]
  rfl

theorem commit_eq (hlive : (db.txn t).live) : db.commit t =
    (Db.publish t (db.nextCts t) (db.watermark t) (db.committing t) (db.txn t).writeSet).map
      fun db' => db'.closeCommit t (db.nextCts t) (db.watermark t) := by
  unfold Db.commit
  rw [if_neg (by simp [hlive])]
  show Option.bind (Db.publish t (db.nextCts t) (db.watermark t) (db.committing t)
    (db.txn t).writeSet) _ = _
  cases Db.publish t (db.nextCts t) (db.watermark t) (db.committing t) (db.txn t).writeSet with
  | none => rfl
  | some db4 => rfl

theorem closeCommit_core (db : Db) (t : TxnId) (cts wm : Ts)
    (h : ∀ r, ((db.txn t).overlay r).isSome → (db.rows r).pending = none) :
    (db.closeCommit t cts wm).core = { db.core with
      rows := (db.reclaim wm (db.txn t).writeSet).rows
      txns := Function.update db.txns t (some { db.txn t with
        state := .committed, writeSet := [], overlay := fun _ => none, delKeys := [], writtenTabs := [] })
      activeExplicitCount := db.activeExplicitCount - if (db.txn t).txnMode then 1 else 0
      anyMvccDirty := db.anyMvccDirty || !(db.txn t).writeSet.isEmpty
      mvccDirty := fun tab => db.mvccDirty tab || (db.txn t).writeSet.any fun w => w.row.tab = tab } := by
  have hmark : ((db.txn t).writeSet.foldl (fun db w => db.markDirty w.row.tab)
      (((db.endWriteActivity (db.txn t).writtenTabs cts).commitDelKeys t cts wm
        (db.txn t).delKeys).reclaim wm (db.txn t).writeSet)).core = { db.core with
      rows := (db.reclaim wm (db.txn t).writeSet).rows
      anyMvccDirty := db.anyMvccDirty || !(db.txn t).writeSet.isEmpty
      mvccDirty := fun tab => db.mvccDirty tab || (db.txn t).writeSet.any fun w => w.row.tab = tab } := by
    rw [markAll_core]
    obtain ⟨heq, -, -⟩ := reclaim_spec wm (db.txn t).writeSet
      ((db.endWriteActivity (db.txn t).writtenTabs cts).commitDelKeys t cts wm (db.txn t).delKeys)
    have hrows : (((db.endWriteActivity (db.txn t).writtenTabs cts).commitDelKeys t cts wm
        (db.txn t).delKeys).reclaim wm (db.txn t).writeSet).rows =
        (db.reclaim wm (db.txn t).writeSet).rows := reclaim_rows_congr wm _ rfl
    rw [heq, hrows]
    rfl
  rw [← logIf_core _ (!(db.txn t).writeSet.isEmpty || (db.txn t).txnMode || (db.txn t).wroteLog)
    (.commit t)] at hmark
  unfold Db.closeCommit
  dsimp only
  generalize Db.logIf _ _ (LogRecord.commit t) = db5 at hmark ⊢
  have htxns : db5.txns = db.txns := congrArg Core.txns hmark
  have hrows : db5.rows = (db.reclaim wm (db.txn t).writeSet).rows := congrArg Core.rows hmark
  have htxn : db5.txn t = db.txn t := Db.txn_congr (congrFun htxns t)
  rw [endTxn_core db5 t .committed, hmark, htxns, htxn]
  · rw [show db5.activeExplicitCount = db.activeExplicitCount from
      congrArg Core.activeExplicitCount hmark]
  · intro r hr
    rw [htxn] at hr
    rw [hrows, reclaim_pending]
    exact h r hr

theorem commit_spec (hlive : (db.txn t).live) (h : db.commit t = some db') :
    Committed db db' t := by
  rw [commit_eq hlive] at h
  obtain ⟨db4, hpub, rfl⟩ := Option.map_eq_some_iff.1 h
  obtain ⟨heq, hout, hin⟩ := publish_spec _ _ _ _ _ _ hpub
  have hcore := committing_core db t
  have hcore4 : db4.core = { (db.committing t).core with rows := db4.rows } := by
    rw [heq]
    rfl
  rw [hcore] at hcore4
  have htxn : db4.txn t = { db.txn t with commitTs := db.nextCts t } := by
    have : db4.txns = _ := congrArg Core.txns hcore4
    simp [Db.txn, this]
  have hrows : (db.committing t).rows = db.restored t := congrArg Core.rows hcore
  have hpend : ∀ r, ((db4.txn t).overlay r).isSome → (db4.rows r).pending = none := by
    intro r hr
    rw [htxn] at hr
    have hres : (db.restored t r).pending = none := restored_pending hr
    by_cases hin' : ∃ w ∈ (db.txn t).writeSet, w.row = r
    · rw [publishRow_pending (hin r hin'), hrows]
      exact hres
    · rw [hout r (fun w hw hr => hin' ⟨w, hw, hr⟩), hrows]
      exact hres
  have hclose := closeCommit_core db4 t (db.nextCts t) (db.watermark t) hpend
  rw [hcore4, htxn] at hclose
  obtain ⟨-, hrout, hrin⟩ := reclaim_spec (db.watermark t) (db.txn t).writeSet db4
  have hrows' : (db4.closeCommit t (db.nextCts t) (db.watermark t)).rows = _ :=
    congrArg Core.rows hclose
  have htouch : ∀ r, (db.txn t).touches r ↔ ∃ w ∈ (db.txn t).writeSet, w.row = r := by
    intro r
    simp [Transaction.touches]
  have hcount : db4.activeExplicitCount = db.activeExplicitCount :=
    congrArg Core.activeExplicitCount hcore4
  have hany : db4.anyMvccDirty = db.anyMvccDirty := congrArg Core.anyMvccDirty hcore4
  have hdirty : db4.mvccDirty = db.mvccDirty := congrArg Core.mvccDirty hcore4
  have htxns4 : db4.txns = Function.update db.txns t (some { db.txn t with commitTs := db.nextCts t }) :=
    congrArg Core.txns hcore4
  have htxns : (db4.closeCommit t (db.nextCts t) (db.watermark t)).txns =
      Function.update db4.txns t (some { db.txn t with
        commitTs := db.nextCts t, state := .committed, writeSet := [], overlay := fun _ => none
        delKeys := [], writtenTabs := [] }) := congrArg Core.txns hclose
  refine ⟨?_, ?_, ?_, ?_, congrArg Core.tabs hclose, congrArg Core.nextTxnId hclose,
    congrArg Core.lastCommitTs hclose, congrArg Core.activeRts hclose, ?_, ?_, ?_⟩
  · intro r hr
    have hr' := (htouch r).1 hr
    refine ⟨db4.rows r, ?_, ?_⟩
    · rw [← hrows]
      exact hin r hr'
    · rw [hrows']
      exact hrin r hr'
  · intro r hr
    have hr' : ∀ w ∈ (db.txn t).writeSet, w.row ≠ r := by
      intro w hw hwr
      rw [(htouch r).2 ⟨w, hw, hwr⟩] at hr
      cases hr
    rw [hrows']
    exact (hrout r hr').trans ((hout r hr').trans (congrFun hrows r))
  · intro u hu
    rw [htxns, Function.update_of_ne hu, htxns4, Function.update_of_ne hu]
  · rw [htxns, Function.update_self]
  · rw [← hcount]
    exact congrArg Core.activeExplicitCount hclose
  · rw [← hany]
    exact congrArg Core.anyMvccDirty hclose
  · intro tab
    rw [← hdirty]
    exact congrFun (congrArg Core.mvccDirty hclose) tab

/-! ## Abort -/

theorem core_ite {p : Prop} [Decidable p] {a b : Db} {c : Core} (ha : a.core = c) (hb : b.core = c) :
    (if p then a else b).core = c := by
  split
  · exact ha
  · exact hb

theorem insertEntry_core (db : Db) (tab : TabName) (cols : List ColMeta) (key : Bytes) (rid : Rid) :
    (db.insertEntry tab cols key rid).core = db.core := by
  unfold Db.insertEntry
  split <;> rfl

theorem foldl_core {α : Type} (f : Db → α → Db) (hf : ∀ db a, (f db a).core = db.core) :
    ∀ (as : List α) (db : Db), (as.foldl f db).core = db.core := by
  intro as
  induction as with
  | nil => exact fun _ => rfl
  | cons a as ih => exact fun db => (ih _).trans (hf db a)

theorem rollbackIndexOnAbort_core (db : Db) (r : RowId) (wtype : WType) (old new : Bytes) :
    (db.rollbackIndexOnAbort r wtype old new).core = db.core := by
  refine foldl_core _ (fun db cols => ?_) _ db
  cases wtype with
  | insertTuple => rfl
  | deleteTuple => rfl
  | updateTuple =>
      dsimp only
      split
      · exact insertEntry_core _ _ _ _ _
      · rfl

theorem restoreIndexIfMissing_core (db : Db) (r : RowId) (data : Bytes) :
    (db.restoreIndexIfMissing r data).core = db.core := by
  unfold Db.restoreIndexIfMissing
  split
  · rfl
  · exact foldl_core _ (fun db cols => insertEntry_core _ _ _ _ _) _ db

/-- The records of one row, last first. -/
def undoRow (t : TxnId) : List WriteRecord → Bool → Row → Row
  | [], _, row => row
  | w :: ws, undone, row =>
      match row.chain.filter fun c => decide (c.writer = some t) with
      | some c => undoRow t ws true (Db.undoVersionedRow c row)
      | none => undoRow t ws undone (if undone then row else Db.physicalUndoRow w row)

theorem undoVersioned_core (db : Db) (w : WriteRecord) (c : MvccChain) :
    (db.undoVersioned w c).core = { db.core with
      rows := Function.update db.rows w.row (Db.undoVersionedRow c (db.rows w.row)) } := by
  unfold Db.undoVersioned
  dsimp only
  cases c.hist.getLast? with
  | none => exact core_ite (rollbackIndexOnAbort_core _ _ _ _ _) rfl
  | some last =>
      exact core_ite (rollbackIndexOnAbort_core _ _ _ _ _)
        (core_ite (restoreIndexIfMissing_core _ _ _) rfl)

/-- Undoing an insert marks its table dirty. -/
def Db.physicalMark (db : Db) (w : WriteRecord) : Db :=
  if w.wtype = .insertTuple then db.markDirty w.row.tab else db

theorem markDirty_core {tab : TabName} (h : db'.core = db.core) :
    (db'.markDirty tab).core = (db.markDirty tab).core := by
  have h1 : db'.mvccDirty = db.mvccDirty := congrArg Core.mvccDirty h
  have h2 : (db'.markDirty tab).core = { db'.core with
    anyMvccDirty := true, mvccDirty := Function.update db'.mvccDirty tab true } := rfl
  rw [h2, h, h1]
  rfl

theorem physicalUndo_core (db : Db) (w : WriteRecord) :
    (db.physicalUndoWriteRecord w).core =
      ((db.setRow w.row (Db.physicalUndoRow w (db.rows w.row))).physicalMark w).core := by
  unfold Db.physicalUndoWriteRecord Db.physicalMark
  dsimp only
  cases w.wtype with
  | insertTuple => exact markDirty_core (core_ite (rollbackIndexOnAbort_core _ _ _ _ _) rfl)
  | updateTuple => exact core_ite (rollbackIndexOnAbort_core _ _ _ _ _) rfl
  | deleteTuple => exact core_ite (restoreIndexIfMissing_core _ _ _) rfl

theorem physicalUndoRow_pending (w : WriteRecord) (row : Row) :
    (Db.physicalUndoRow w row).pending = row.pending := by
  unfold Db.physicalUndoRow
  dsimp only
  split
  · rfl
  · split <;> rfl
  · split <;> rfl

/-- A chain that is there after a write in place is undone was there before, or marks its table. -/
theorem physicalUndo_chain (db : Db) (w : WriteRecord) :
    (Db.physicalUndoRow w (db.rows w.row)).chain.isSome → (db.rows w.row).chain.isSome ∨
      (db.physicalUndoWriteRecord w).tableIsDirty w.row.tab = true := by
  intro h
  have hcore := physicalUndo_core db w
  cases hty : w.wtype with
  | insertTuple =>
      right
      rw [Db.physicalMark, if_pos hty] at hcore
      have h1 : (db.physicalUndoWriteRecord w).anyMvccDirty = true := congrArg Core.anyMvccDirty hcore
      have h2 : (db.physicalUndoWriteRecord w).mvccDirty =
        Function.update db.mvccDirty w.row.tab true := congrArg Core.mvccDirty hcore
      rw [Db.tableIsDirty, h1, h2, Function.update_self]
      rfl
  | updateTuple =>
      left
      simp only [Db.physicalUndoRow, hty] at h
      split at h <;> exact h
  | deleteTuple =>
      left
      simp only [Db.physicalUndoRow, hty] at h
      split at h <;> exact h

/-- What undoing the records `ws` leaves; `undone` are the rows whose version is gone. -/
structure Undone (db db' : Db) (t : TxnId) (undone : List RowId) (ws : List WriteRecord) : Prop where
  rows : ∀ r, db'.rows r =
    undoRow t (ws.filter fun w => w.row = r) (decide (r ∈ undone)) (db.rows r)
  txns : db'.txns = db.txns
  tabs : db'.tabs = db.tabs
  nextTxnId : db'.nextTxnId = db.nextTxnId
  lastCommitTs : db'.lastCommitTs = db.lastCommitTs
  activeRts : db'.activeRts = db.activeRts
  activeExplicitCount : db'.activeExplicitCount = db.activeExplicitCount
  dirty : ∀ tab, db.tableIsDirty tab = true → db'.tableIsDirty tab = true
  chains : ∀ r, (db'.rows r).chain.isSome → (db.rows r).chain.isSome ∨ db'.tableIsDirty r.tab = true

theorem Undone.of_step (row : Row) {db1 : Db} {undone undone' : List RowId} {w : WriteRecord}
    {ws : List WriteRecord} (h : Undone db1 db' t undone' ws)
    (hcore : db1.core = ((db.setRow w.row row)).core ∨
      db1.core = ((db.setRow w.row row).markDirty w.row.tab).core)
    (hchain : row.chain.isSome → (db.rows w.row).chain.isSome ∨ db1.tableIsDirty w.row.tab = true)
    (hmem : ∀ r, r ≠ w.row → (r ∈ undone' ↔ r ∈ undone))
    (hrow : undoRow t (w :: ws.filter fun w' => w'.row = w.row) (decide (w.row ∈ undone))
        (db.rows w.row) =
      undoRow t (ws.filter fun w' => w'.row = w.row) (decide (w.row ∈ undone')) row) :
    Undone db db' t undone (w :: ws) := by
  have hrows : db1.rows = Function.update db.rows w.row row := by
    rcases hcore with h | h <;> exact congrArg Core.rows h
  have hdirty : ∀ tab, db.tableIsDirty tab = true → db1.tableIsDirty tab = true := by
    intro tab htab
    rcases hcore with h | h
    · have h1 : db1.anyMvccDirty = db.anyMvccDirty := congrArg Core.anyMvccDirty h
      have h2 : db1.mvccDirty = db.mvccDirty := congrArg Core.mvccDirty h
      rw [Db.tableIsDirty, h1, h2]
      exact htab
    · have h1 : db1.anyMvccDirty = true := congrArg Core.anyMvccDirty h
      have h2 : db1.mvccDirty = Function.update db.mvccDirty w.row.tab true :=
        congrArg Core.mvccDirty h
      simp only [Db.tableIsDirty, Bool.and_eq_true] at htab ⊢
      refine ⟨h1, ?_⟩
      rw [h2]
      by_cases heq : tab = w.row.tab
      · rw [heq, Function.update_self]
      · rw [Function.update_of_ne heq]
        exact htab.2
  refine ⟨?_, ?_, ?_, ?_, ?_, ?_, ?_, fun tab htab => h.dirty tab (hdirty tab htab), ?_⟩
  · intro r
    rw [h.rows r, hrows]
    by_cases hr : r = w.row
    · subst hr
      rw [Function.update_self, List.filter_cons_of_pos (by simp), hrow]
    · rw [Function.update_of_ne hr, List.filter_cons_of_neg (by simpa using Ne.symm hr)]
      congr 1
      exact decide_eq_decide.2 (hmem r hr)
  · rw [h.txns]
    rcases hcore with h | h <;> exact congrArg Core.txns h
  · rw [h.tabs]
    rcases hcore with h | h <;> exact congrArg Core.tabs h
  · rw [h.nextTxnId]
    rcases hcore with h | h <;> exact congrArg Core.nextTxnId h
  · rw [h.lastCommitTs]
    rcases hcore with h | h <;> exact congrArg Core.lastCommitTs h
  · rw [h.activeRts]
    rcases hcore with h | h <;> exact congrArg Core.activeRts h
  · rw [h.activeExplicitCount]
    rcases hcore with h | h <;> exact congrArg Core.activeExplicitCount h
  · intro r hr
    rcases h.chains r hr with h1 | h1
    · rw [hrows] at h1
      by_cases hr' : r = w.row
      · subst hr'
        rw [Function.update_self] at h1
        exact (hchain h1).imp_right (h.dirty _)
      · rw [Function.update_of_ne hr'] at h1
        exact .inl h1
    · exact .inr h1

theorem undoWrites_spec (t : TxnId) : ∀ (ws : List WriteRecord) (undone : List RowId) (db : Db),
    Undone db (Db.undoWrites t db undone ws) t undone ws := by
  intro ws
  induction ws with
  | nil =>
      exact fun undone db => ⟨fun _ => rfl, rfl, rfl, rfl, rfl, rfl, rfl, fun _ h => h, fun _ h => .inl h⟩
  | cons w ws ih =>
      intro undone db
      unfold Db.undoWrites
      cases hc : (db.rows w.row).chain.filter fun c => decide (c.writer = some t) with
      | some c =>
          have hsome : (db.rows w.row).chain.isSome := by
            obtain ⟨hc', -⟩ := Option.filter_eq_some_iff.1 hc
            rw [hc']
            rfl
          refine (ih (w.row :: undone) _).of_step _ (.inl (undoVersioned_core db w c))
            (fun _ => .inl hsome) (fun r hr => by simp [hr]) ?_
          simp [undoRow, hc]
      | none =>
          dsimp only
          split
          · rename_i hmem
            refine (ih undone db).of_step (db.rows w.row) (.inl ?_) (fun h => .inl h)
              (fun r hr => Iff.rfl) ?_
            · rw [Db.setRow, Function.update_eq_self]
            · simp [undoRow, hc, hmem]
          · rename_i hmem
            refine (ih undone _).of_step (Db.physicalUndoRow w (db.rows w.row)) ?_ ?_
              (fun r hr => Iff.rfl) ?_
            · rw [physicalUndo_core, Db.physicalMark]
              split
              · exact .inr rfl
              · exact .inl rfl
            · exact physicalUndo_chain db w
            · simp [undoRow, hc, hmem]

theorem undoRow_pending (t : TxnId) : ∀ (ws : List WriteRecord) (undone : Bool) (row : Row),
    (undoRow t ws undone row).pending = row.pending := by
  intro ws
  induction ws with
  | nil => exact fun _ _ => rfl
  | cons w ws ih =>
      intro undone row
      unfold undoRow
      split
      · rw [ih]
        rfl
      · rw [ih]
        split
        · rfl
        · exact physicalUndoRow_pending w row

structure Aborted (db db' : Db) (t : TxnId) : Prop where
  rows : ∀ r, db'.rows r =
    undoRow t ((db.txn t).writeSet.reverse.filter fun w => w.row = r) false (db.restored t r)
  others : ∀ u, u ≠ t → db'.txns u = db.txns u
  self : db'.txns t = some { db.txn t with
    state := .aborted, writeSet := [], overlay := fun _ => none, delKeys := [], writtenTabs := [] }
  tabs : db'.tabs = db.tabs
  nextTxnId : db'.nextTxnId = db.nextTxnId
  lastCommitTs : db'.lastCommitTs = db.lastCommitTs
  activeRts : db'.activeRts = db.activeRts.erase (db.txn t).readTs
  activeExplicitCount : db'.activeExplicitCount =
    db.activeExplicitCount - if (db.txn t).txnMode then 1 else 0
  dirty : ∀ tab, db.tableIsDirty tab = true → db'.tableIsDirty tab = true
  chains : ∀ r, (db'.rows r).chain.isSome →
    (db.restored t r).chain.isSome ∨ db'.tableIsDirty r.tab = true

/-- The state of an abort once the writes are undone. -/
def Db.undone (db : Db) (t : TxnId) : Db :=
  Db.undoWrites t (db.restoreWritersFromOverlays t) [] (db.txn t).writeSet.reverse

/-- The state of an abort after it leaves the active set and the SSI graph. -/
def Db.left (db : Db) (t : TxnId) : Db :=
  Db.finishSer { db.undone t with activeRts := (db.undone t).activeRts.erase (db.txn t).readTs } t
    false 0

/-- The state of an abort before its last lines. -/
def Db.aborting (db : Db) (t : TxnId) : Db :=
  (((db.left t).logIf (!(db.txn t).writeSet.isEmpty) (.abort t)).endWriteActivity
    (db.txn t).writtenTabs 0).abortDelKeys t (db.txn t).delKeys

theorem abort_eq (hlive : (db.txn t).live) : db.abort t = (db.aborting t).endTxn t .aborted := by
  unfold Db.abort
  rw [if_neg (by simp [hlive])]
  rfl

theorem aborting_core (db : Db) (t : TxnId) : (db.aborting t).core =
    { (db.undone t).core with activeRts := db.activeRts.erase (db.txn t).readTs } := by
  have hundo := undoWrites_spec t (db.txn t).writeSet.reverse [] (db.restoreWritersFromOverlays t)
  have hrts : (db.undone t).activeRts = db.activeRts := hundo.activeRts
  have hser : (db.aborting t).core =
      ((db.left t).logIf (!(db.txn t).writeSet.isEmpty) (.abort t)).core := rfl
  rw [hser, logIf_core, Db.left, finishSer_core, hrts]
  rfl

theorem abort_spec (hlive : (db.txn t).live) : Aborted db (db.abort t) t := by
  have hundo : Undone _ (db.undone t) t [] _ :=
    undoWrites_spec t (db.txn t).writeSet.reverse [] (db.restoreWritersFromOverlays t)
  have hcore := aborting_core db t
  generalize db.undone t = db4 at hundo hcore
  have htxns : (db.aborting t).txns = db.txns := (congrArg Core.txns hcore).trans hundo.txns
  have htxn : (db.aborting t).txn t = db.txn t := Db.txn_congr (congrFun htxns t)
  have hrows : (db.aborting t).rows = db4.rows := congrArg Core.rows hcore
  have hpend : ∀ r, (((db.aborting t).txn t).overlay r).isSome →
      ((db.aborting t).rows r).pending = none := by
    intro r hr
    rw [htxn] at hr
    rw [hrows, hundo.rows r, undoRow_pending]
    exact restored_pending hr
  have hend := endTxn_core (db.aborting t) t .aborted hpend
  rw [htxn, htxns, hcore] at hend
  rw [abort_eq hlive]
  have hrows' : ((db.aborting t).endTxn t .aborted).rows = db4.rows := congrArg Core.rows hend
  have hdirty : ∀ tab, ((db.aborting t).endTxn t .aborted).tableIsDirty tab = db4.tableIsDirty tab := by
    intro tab
    have h1 : ((db.aborting t).endTxn t .aborted).anyMvccDirty = db4.anyMvccDirty :=
      congrArg Core.anyMvccDirty hend
    have h2 : ((db.aborting t).endTxn t .aborted).mvccDirty = db4.mvccDirty :=
      congrArg Core.mvccDirty hend
    rw [Db.tableIsDirty, h1, h2]
    rfl
  have htxns' : ((db.aborting t).endTxn t .aborted).txns = Function.update db.txns t
      (some { db.txn t with
        state := .aborted, writeSet := [], overlay := fun _ => none, delKeys := [], writtenTabs := [] }) :=
    congrArg Core.txns hend
  refine ⟨?_, ?_, ?_, ?_, ?_, ?_, congrArg Core.activeRts hend, ?_, ?_, ?_⟩
  · intro r
    rw [hrows', hundo.rows r]
    rfl
  · intro u hu
    rw [htxns', Function.update_of_ne hu]
  · rw [htxns', Function.update_self]
  · exact (congrArg Core.tabs hend).trans hundo.tabs
  · exact (congrArg Core.nextTxnId hend).trans hundo.nextTxnId
  · exact (congrArg Core.lastCommitTs hend).trans hundo.lastCommitTs
  · have hcount : (db.aborting t).activeExplicitCount = db.activeExplicitCount :=
      (congrArg Core.activeExplicitCount hcore).trans hundo.activeExplicitCount
    rw [← hcount]
    exact congrArg Core.activeExplicitCount hend
  · intro tab htab
    rw [hdirty]
    exact hundo.dirty tab htab
  · intro r hr
    rw [hdirty]
    rw [hrows'] at hr
    exact hundo.chains r hr

end Rmdb.Txn
