import Rmdb.Mvcc.Held

/-!
# The rows with recent writes

`recent_writes_` lists the rows that `ser_read_pred_check` looks at.  Every write adds its row;
the check itself drops the rows whose chain is cold.  `Covered` says that no row which some
reader may still have to look at is missing.  A row whose uncommitted write has moved to an
overlay has a cold chain, so the check can drop it too early (`not_covered_pending`);
`run_covered_iff` says that this is the only way.
-/

namespace Rmdb.Txn

open Rmdb.Index (Rid)
open Rmdb.Lib (run Along prefixes_iff_along)

/-- The operations of the transaction manager, with deletes and the predicate check. -/
inductive SerOp where
  | op (o : Op)
  | mvccDelete (t : TxnId) (r : RowId) (old : Image)
  | serReadPredCheck (t : TxnId) (tab : TabName) (conds : List Condition)

def serStep (db : Db) : SerOp → Option Db
  | .op o => opStep db o
  | .mvccDelete t r old =>
      if db.Live t ∧ (db.rows r).slot.isRecord = true then (db.mvccWrite t r old none).db? else none
  | .serReadPredCheck t tab conds =>
      if db.Live t then some (db.serReadPredCheck t tab conds).1 else none

/-- `recent_writes_` has every row with an uncommitted write of a live transaction, and every row
with a version newer than the oldest active snapshot. -/
structure Covered (db : Db) : Prop where
  uncommitted : ∀ u r, db.Live u → db.Owns u r → r ∈ db.recentWrites
  newer : ∀ r c, (db.rows r).chain = some c → ∀ v ∈ c.hist, ∀ ts ∈ db.activeRts.min?,
    v.commitTs > ts → r ∈ db.recentWrites

variable {db db' : Db} {t : TxnId} {r : RowId}

/-! ## One step -/

/-- The invariant: every row with an uncommitted write, of whomever, and every row with a version
newer than an active snapshot is listed. -/
structure Listed (db : Db) : Prop where
  held : Held db
  writer : ∀ r c, (db.rows r).chain = some c → c.writer.isSome → r ∈ db.recentWrites
  pending : ∀ r, (db.rows r).pending.isSome → r ∈ db.recentWrites
  newer : ∀ r c, (db.rows r).chain = some c → ∀ v ∈ c.hist, ∀ ts ∈ db.activeRts,
    v.commitTs > ts → r ∈ db.recentWrites

theorem Listed.owned (h : Listed db) {u : TxnId} (hu : db.Owns u r) : r ∈ db.recentWrites := by
  rcases hu with ⟨c, hc, hw⟩ | hp
  · exact h.writer r c hc (by rw [hw]; rfl)
  · exact h.pending r (by rw [hp]; rfl)

theorem Listed.covered (h : Listed db) : Covered db where
  uncommitted := fun _ _ _ hu => h.owned hu
  newer := fun r c hc v hv ts hts hlt => h.newer r c hc v hv ts (List.min?_mem hts) hlt

/-- A step that works on listed rows only, and adds no older snapshot. -/
theorem Listed.of_rows (h : Listed db) (hh : Held db') (hrec : db.recentWrites ⊆ db'.recentWrites)
    (hrts : ∀ ts ∈ db'.activeRts, ts ∈ db.activeRts ∨ db.lastCommitTs ≤ ts)
    (hrows : ∀ r, r ∈ db'.recentWrites ∨ db'.rows r = db.rows r) : Listed db' where
  held := hh
  writer := by
    intro r c hc hw
    rcases hrows r with hr | heq
    · exact hr
    · rw [heq] at hc
      exact hrec (h.writer r c hc hw)
  pending := by
    intro r hp
    rcases hrows r with hr | heq
    · exact hr
    · rw [heq] at hp
      exact hrec (h.pending r hp)
  newer := by
    intro r c hc v hv ts hts hlt
    rcases hrows r with hr | heq
    · exact hr
    · rw [heq] at hc
      rcases hrts ts hts with hts | hle
      · exact hrec (h.newer r c hc v hv ts hts hlt)
      · exact absurd ((h.held.inv.hist r c hc).1 v hv) (not_le.2 (lt_of_le_of_lt hle hlt))

theorem Taken.rows (h : Taken db t r db') {r' : RowId} (hr : r' ≠ r) : db'.rows r' = db.rows r' := by
  cases h with
  | same => rfl
  | touched h => exact h.row_other hr
  | took h free hw hhist hws => exact h.row_other hr

theorem Taken.activeRts (h : Taken db t r db') : db'.activeRts = db.activeRts := by
  cases h with
  | same => rfl
  | touched h => exact h.activeRts
  | took h free hw hhist hws => exact h.activeRts

/-- A write lists its row before it works on the chain. -/
theorem Taken.listed (h : Taken db t r db') (hl : Listed db) (ht : db.Live t)
    (hrec : (db.rows r).slot.isRecord = true)
    (htracks : db' = db ∨ db'.tracks = (db.noteWrite t r).tracks) : Listed db' := by
  rcases htracks with rfl | htracks
  · exact hl
  have hrw : db'.recentWrites = db.recentWrites.insert r := by
    rw [← noteWrite_recentWrites db t r]
    exact congrArg Tracks.recentWrites htracks
  refine hl.of_rows (h.held hl.held ht hrec) ?_ ?_ ?_
  · rw [hrw]
    exact fun r' hr' => List.mem_insert_of_mem hr'
  · intro ts hts
    rw [h.activeRts] at hts
    exact .inl hts
  · intro r'
    rcases eq_or_ne r' r with rfl | hr
    · left
      rw [hrw]
      exact List.mem_insert_self
    · exact .inr (h.rows hr)

theorem insert_listed (hl : Listed db) (ht : db.Live t) (hfree : (db.rows r).slot.isRecord = false)
    (data : Bytes) : Listed ((db.mvccInsert t r data).fillSlot r ⟨data, some t⟩) := by
  have h1 := mvccInsert_write db t r data
  have h2 := h1.trans (RowWrite.fillSlot _ t r ⟨data, some t⟩)
  have hrw : ((db.mvccInsert t r data).fillSlot r ⟨data, some t⟩).recentWrites =
      db.recentWrites.insert r := by
    rw [← noteWrite_recentWrites db t r]
    exact congrArg Tracks.recentWrites (mvccInsert_tracks db t r data)
  refine hl.of_rows (insert_held hl.held ht hfree data) ?_ ?_ ?_
  · rw [hrw]
    exact fun r' hr' => List.mem_insert_of_mem hr'
  · intro ts hts
    rw [h2.activeRts] at hts
    exact .inl hts
  · intro r'
    rcases eq_or_ne r' r with rfl | hr
    · left
      rw [hrw]
      exact List.mem_insert_self
    · exact .inr (h2.row_other hr)

theorem begin_listed (hl : Listed db) (explicit : Bool) (iso : IsolationLevel) :
    Listed (db.begin explicit iso) := by
  refine hl.of_rows (begin_held hl.held explicit iso) (fun _ h => h) ?_ (fun _ => .inr rfl)
  intro ts hts
  rcases List.mem_cons.1 hts with rfl | hts
  · exact .inr le_rfl
  · exact .inl hts

theorem release_listed (hl : Listed db) (ht : db.Live t) : Listed (db.releaseStatementWrites t) := by
  have hrw : (db.releaseStatementWrites t).recentWrites = db.recentWrites :=
    congrArg Tracks.recentWrites (release_tracks db t)
  refine hl.of_rows (release_held hl.held ht) (by rw [hrw]; exact fun _ h => h) ?_ ?_
  · intro ts hts
    rw [(release_fields db t).2.2.1] at hts
    exact .inl hts
  · intro r
    rcases release_row db t r with ⟨h, -⟩ | ⟨c, -, hc, hw, -⟩
    · exact .inr h
    · left
      rw [hrw]
      exact hl.writer r c hc (by rw [hw]; rfl)

/-- The rows of an ended transaction were its own. -/
theorem Ended.listed (h : Ended db db' t) (hl : Listed db) (ht : db.Live t) (hh : Held db')
    (hrw : db'.recentWrites = db.recentWrites)
    (huntouched : ∀ r, (db.txn t).touches r = false → db'.rows r = db.rows r) : Listed db' := by
  refine hl.of_rows hh (by rw [hrw]; exact fun _ h => h) ?_ ?_
  · intro ts hts
    rw [h.activeRts] at hts
    exact .inl (List.mem_of_mem_erase hts)
  · intro r
    cases htouch : (db.txn t).touches r with
    | true =>
        left
        rw [hrw]
        exact hl.owned (hl.held.owns t r ht htouch)
    | false => exact .inr (huntouched r htouch)

theorem commit_listed (hl : Listed db) (ht : db.Live t) (h : db.commit t = some db') :
    Listed db' := by
  have hc := commit_spec ht.live h
  refine hc.ended.listed hl ht (hc.held hl.held ht) ?_ ?_
  · exact congrArg Tracks.recentWrites (commit_tracks ht.live h)
  · intro r htouch
    rw [hc.untouched r htouch, restored_untouched hl.held.inv htouch]

theorem abort_listed (hl : Listed db) (ht : db.Live t) : Listed (db.abort t) := by
  have ha := abort_spec ht.live
  refine ha.ended.listed hl ht (ha.held hl.held ht) ?_ ?_
  · exact congrArg Tracks.recentWrites (abort_tracks ht.live)
  · intro r htouch
    rw [ha.rows r, undoRow_nil_of_untouched htouch, restored_untouched hl.held.inv htouch]

theorem opStep_listed {o : Op} (hl : Listed db) (h : opStep db o = some db') : Listed db' := by
  cases o with
  | begin explicit iso =>
      cases h
      exact begin_listed hl explicit iso
  | mvccInsert t r data =>
      obtain ⟨⟨ht, hfree⟩, heq⟩ := Option.ite_none_right_eq_some.1 h
      cases heq
      exact insert_listed hl ht hfree data
  | mvccWrite t r old new =>
      obtain ⟨⟨ht, hrec⟩, hdb⟩ := Option.ite_none_right_eq_some.1 h
      exact ((mvccWrite_spec db t r old (some new)).taken hdb).listed hl ht hrec
        (.inr (mvccWrite_tracks hdb))
  | mvccWriteColDelta t r visible off type deltaF deltaI =>
      obtain ⟨⟨ht, hrec⟩, hdb⟩ := Option.ite_none_right_eq_some.1 h
      exact (colDelta_chainWrite hdb).taken.listed hl ht hrec (.inr (colDelta_tracks hdb))
  | mvccWriteColPatch t r visible patches =>
      obtain ⟨⟨ht, hrec⟩, hdb⟩ := Option.ite_none_right_eq_some.1 h
      exact ((colPatch_spec db t r visible patches).taken hdb).listed hl ht hrec
        (colPatch_tracks hdb)
  | releaseStatementWrites t =>
      obtain ⟨ht, heq⟩ := Option.ite_none_right_eq_some.1 h
      cases heq
      exact release_listed hl ht
  | commit t =>
      obtain ⟨hs, hc⟩ := Option.ite_none_right_eq_some.1 h
      by_cases ht : db.Live t
      · exact commit_listed hl ht hc
      · rw [Db.commit, if_pos (not_live_txn hs ht)] at hc
        cases hc
        exact hl
  | abort t =>
      obtain ⟨hs, heq⟩ := Option.ite_none_right_eq_some.1 h
      cases heq
      by_cases ht : db.Live t
      · exact abort_listed hl ht
      · rw [Db.abort, if_pos (not_live_txn hs ht)]
        exact hl

/-! ## The predicate check -/

/-- The predicate check has something to look for. -/
def Db.checksPred (db : Db) (t : TxnId) (tab : TabName) (conds : List Condition) : Prop :=
  db.serNeedsReadCheck t tab = true ∧ (serCompilePred tab (db.tabs tab) conds).isSome = true

instance (db : Db) (t : TxnId) (tab : TabName) (conds : List Condition) :
    Decidable (db.checksPred t tab conds) :=
  inferInstanceAs (Decidable (_ ∧ _))

/-- The rows that stay listed when a check of `tab` drops the cold ones. -/
def Db.stillRecent (db : Db) (tab : TabName) (r : RowId) : Bool :=
  r.tab ≠ tab || !cold (db.lowestRts db.lastCommitTs) (db.rows r).chain

theorem serReadPredCheck_skip {tab : TabName} {conds : List Condition}
    (h : ¬ db.checksPred t tab conds) : (db.serReadPredCheck t tab conds).1 = db := by
  unfold Db.serReadPredCheck
  unfold Db.checksPred at h
  split
  · rfl
  · rename_i hgate
    split
    · rfl
    · rename_i cc hcc
      exact absurd ⟨by simpa using hgate, by rw [hcc]; rfl⟩ h

theorem serReadPredCheck_drops {tab : TabName} {conds : List Condition}
    (h : db.checksPred t tab conds) : ∃ ser, (db.serReadPredCheck t tab conds).1 =
      { db with recentWrites := db.recentWrites.filter (db.stillRecent tab), ser := ser } := by
  obtain ⟨hgate, hsome⟩ := h
  obtain ⟨cc, hcc⟩ := Option.isSome_iff_exists.1 hsome
  unfold Db.serReadPredCheck
  rw [if_neg (by simp [hgate]), hcc]
  exact ⟨_, rfl⟩

/-- A check that drops rows finds none among them whose uncommitted write has moved away. -/
def KeepsPending (db : Db) : SerOp → Prop
  | .serReadPredCheck t tab conds =>
      db.Live t → db.checksPred t tab conds → ∀ r ∈ db.recentWrites, r.tab = tab →
        (db.rows r).pending.isSome → Db.cold (db.lowestRts db.lastCommitTs) (db.rows r).chain = false
  | _ => True

instance (db : Db) : (a : SerOp) → Decidable (KeepsPending db a)
  | .op _ | .mvccDelete _ _ _ => isTrue trivial
  | .serReadPredCheck t tab conds =>
      inferInstanceAs (Decidable (db.Live t → db.checksPred t tab conds → ∀ r ∈ db.recentWrites,
        r.tab = tab → (db.rows r).pending.isSome →
          Db.cold (db.lowestRts db.lastCommitTs) (db.rows r).chain = false))

theorem lowestRts_le {ts : Ts} (h : ts ∈ db.activeRts) (dflt : Ts) : db.lowestRts dflt ≤ ts := by
  unfold Db.lowestRts
  cases hm : db.activeRts.min? with
  | none =>
      rw [List.min?_eq_none_iff.1 hm] at h
      cases h
  | some m => exact (List.min?_eq_some_iff.1 hm).2 ts h

/-- A row with a version newer than an active snapshot is not cold. -/
theorem not_cold_of_newer (hh : HistOk db.lastCommitTs (db.rows r)) {c : MvccChain}
    (hc : (db.rows r).chain = some c) {v : MvccVer} (hv : v ∈ c.hist) {ts : Ts}
    (hts : ts ∈ db.activeRts) (hlt : v.commitTs > ts) (dflt : Ts) :
    Db.cold (db.lowestRts dflt) (db.rows r).chain = false := by
  obtain ⟨-, hsorted⟩ := hh c hc
  obtain ⟨front, last, hl⟩ := List.eq_nil_or_concat c.hist |>.resolve_left (List.ne_nil_of_mem hv)
  have hle : v.commitTs ≤ last.commitTs := by
    rw [hl, List.concat_eq_append] at hv hsorted
    rcases List.mem_append.1 hv with hv | hv
    · exact le_of_lt ((List.pairwise_append.1 hsorted).2.2 v hv last (List.mem_singleton_self _))
    · rw [List.mem_singleton.1 hv]
  have hwm := lowestRts_le hts dflt
  rw [hc, Db.cold, hl, List.concat_eq_append, List.getLast?_concat, Option.all_some,
    Bool.and_eq_false_iff]
  right
  simp only [decide_eq_false_iff_not, not_le]
  exact lt_of_le_of_lt hwm (lt_of_lt_of_le hlt hle)

theorem not_cold_of_writer {c : MvccChain} (hc : (db.rows r).chain = some c)
    (hw : c.writer.isSome) (wm : Ts) : Db.cold wm (db.rows r).chain = false := by
  obtain ⟨u, hu⟩ := Option.isSome_iff_exists.1 hw
  rw [hc, Db.cold, hu]
  rfl

/-- A row that is not cold stays listed. -/
theorem mem_stillRecent {tab : TabName} (hr : r ∈ db.recentWrites)
    (h : r.tab = tab → Db.cold (db.lowestRts db.lastCommitTs) (db.rows r).chain = false) :
    r ∈ db.recentWrites.filter (db.stillRecent tab) := by
  refine List.mem_filter.2 ⟨hr, ?_⟩
  unfold Db.stillRecent
  by_cases htab : r.tab = tab
  · rw [h htab]
    simp
  · simp [htab]

theorem check_listed {tab : TabName} {conds : List Condition} (hl : Listed db) (ht : db.Live t)
    (hkeeps : KeepsPending db (.serReadPredCheck t tab conds)) :
    Listed (db.serReadPredCheck t tab conds).1 := by
  by_cases hc : db.checksPred t tab conds
  · obtain ⟨ser, heq⟩ := serReadPredCheck_drops hc
    have hI := hl.held.inv
    rw [heq]
    refine ⟨⟨⟨hI.chains, hI.fresh, hI.ended, hI.snapshots, hI.overlays, hI.hist, hI.count, hI.active⟩,
      hl.held.owner, hl.held.pending, hl.held.owns, hl.held.free⟩, ?_, ?_, ?_⟩
    · intro r c hch hw
      exact mem_stillRecent (hl.writer r c hch hw) fun _ => not_cold_of_writer hch hw _
    · intro r hp
      have hr := hl.pending r hp
      exact mem_stillRecent hr fun htab => hkeeps ht hc r hr htab hp
    · intro r c hch v hv ts hts hlt
      exact mem_stillRecent (hl.newer r c hch v hv ts hts hlt)
        fun _ => not_cold_of_newer (hI.hist r) hch hv hts hlt _
  · rw [serReadPredCheck_skip hc]
    exact hl

/-- A check that drops the row of a pending write leaves the write uncovered. -/
theorem check_uncovers {a : SerOp} (hl : Listed db) (h : ¬ KeepsPending db a) :
    ∃ db', serStep db a = some db' ∧ ¬ Covered db' := by
  cases a with
  | op o => exact absurd trivial h
  | mvccDelete t r old => exact absurd trivial h
  | serReadPredCheck t tab conds =>
      simp only [KeepsPending, not_forall, Bool.not_eq_false] at h
      obtain ⟨ht, hc, r, hr, htab, hp, hcold⟩ := h
      obtain ⟨ser, heq⟩ := serReadPredCheck_drops hc
      obtain ⟨u, hu⟩ := Option.isSome_iff_exists.1 hp
      refine ⟨_, if_pos ht, fun hcov => ?_⟩
      rw [heq] at hcov
      have hmem := hcov.uncommitted u r (hl.held.inv.live_of_overlay ((hl.held.pending r u).1 hu))
        (.inr hu)
      have hstill := (List.mem_filter.1 hmem).2
      simp [Db.stillRecent, htab, hcold] at hstill

/-! ## Runs -/

theorem serStep_listed {a : SerOp} (hl : Listed db) (hkeeps : KeepsPending db a)
    (h : serStep db a = some db') : Listed db' := by
  cases a with
  | op o => exact opStep_listed hl h
  | mvccDelete t r old =>
      obtain ⟨⟨ht, hrec⟩, hdb⟩ := Option.ite_none_right_eq_some.1 h
      exact ((mvccWrite_spec db t r old none).taken hdb).listed hl ht hrec
        (.inr (mvccWrite_tracks hdb))
  | serReadPredCheck t tab conds =>
      obtain ⟨ht, heq⟩ := Option.ite_none_right_eq_some.1 h
      cases heq
      exact check_listed hl ht hkeeps

theorem opStep_held {o : Op} (hh : Held db) (h : opStep db o = some db') : Held db' := by
  cases o with
  | begin explicit iso =>
      cases h
      exact begin_held hh explicit iso
  | mvccInsert t r data =>
      obtain ⟨⟨ht, hfree⟩, heq⟩ := Option.ite_none_right_eq_some.1 h
      cases heq
      exact insert_held hh ht hfree data
  | mvccWrite t r old new =>
      obtain ⟨⟨ht, hrec⟩, hdb⟩ := Option.ite_none_right_eq_some.1 h
      exact ((mvccWrite_spec db t r old (some new)).taken hdb).held hh ht hrec
  | mvccWriteColDelta t r visible off type deltaF deltaI =>
      obtain ⟨⟨ht, hrec⟩, hdb⟩ := Option.ite_none_right_eq_some.1 h
      exact (colDelta_chainWrite hdb).taken.held hh ht hrec
  | mvccWriteColPatch t r visible patches =>
      obtain ⟨⟨ht, hrec⟩, hdb⟩ := Option.ite_none_right_eq_some.1 h
      exact ((colPatch_spec db t r visible patches).taken hdb).held hh ht hrec
  | releaseStatementWrites t =>
      obtain ⟨ht, heq⟩ := Option.ite_none_right_eq_some.1 h
      cases heq
      exact release_held hh ht
  | commit t =>
      obtain ⟨hs, hc⟩ := Option.ite_none_right_eq_some.1 h
      by_cases ht : db.Live t
      · exact (commit_spec ht.live hc).held hh ht
      · rw [Db.commit, if_pos (not_live_txn hs ht)] at hc
        cases hc
        exact hh
  | abort t =>
      obtain ⟨hs, heq⟩ := Option.ite_none_right_eq_some.1 h
      cases heq
      by_cases ht : db.Live t
      · exact (abort_spec ht.live).held hh ht
      · rw [Db.abort, if_pos (not_live_txn hs ht)]
        exact hh

/-- The predicate check changes the list of recent writes and the SSI state. -/
theorem serReadPredCheck_cases (db : Db) (t : TxnId) (tab : TabName) (conds : List Condition) :
    ∃ recent ser, (db.serReadPredCheck t tab conds).1 =
      { db with recentWrites := recent, ser := ser } := by
  by_cases hc : db.checksPred t tab conds
  · exact ⟨_, serReadPredCheck_drops hc⟩
  · exact ⟨db.recentWrites, db.ser, serReadPredCheck_skip hc⟩

theorem serStep_held {a : SerOp} (hh : Held db) (h : serStep db a = some db') : Held db' := by
  cases a with
  | op o => exact opStep_held hh h
  | mvccDelete t r old =>
      obtain ⟨⟨ht, hrec⟩, hdb⟩ := Option.ite_none_right_eq_some.1 h
      exact ((mvccWrite_spec db t r old none).taken hdb).held hh ht hrec
  | serReadPredCheck t tab conds =>
      obtain ⟨ht, heq⟩ := Option.ite_none_right_eq_some.1 h
      cases heq
      obtain ⟨recent, ser, heq⟩ := serReadPredCheck_cases db t tab conds
      have hI := hh.inv
      rw [heq]
      exact ⟨⟨hI.chains, hI.fresh, hI.ended, hI.snapshots, hI.overlays, hI.hist, hI.count, hI.active⟩,
        hh.owner, hh.pending, hh.owns, hh.free⟩

theorem boot_held (tabs : TabName → TabMeta) (files : TabName → RmFileHdr) (heap : RowId → Slot)
    (index : IndexId → IndexMap) : Held (Db.boot tabs files heap index) where
  inv := boot_inv tabs files heap index
  owner := fun r c u v hc => by cases hc
  pending := fun r u => ⟨fun h => (by cases h), fun h => (by cases h)⟩
  owns := fun u r hl => by
    obtain ⟨x, hx, -⟩ := hl
    cases hx
  free := fun r _ => ⟨rfl, fun c hc => by cases hc⟩

theorem boot_listed (tabs : TabName → TabMeta) (files : TabName → RmFileHdr) (heap : RowId → Slot)
    (index : IndexId → IndexMap) : Listed (Db.boot tabs files heap index) where
  held := boot_held tabs files heap index
  writer := fun r c hc => by cases hc
  pending := fun r hp => by cases hp
  newer := fun r c hc => by cases hc

/-- **Recent-write coverage.**  Every state on the way of a run is covered exactly when no
predicate check of it drops the row of a pending write. -/
theorem run_covered_iff (tabs : TabName → TabMeta) (files : TabName → RmFileHdr)
    (heap : RowId → Slot) (index : IndexId → IndexMap) (ops : List SerOp) :
    (∀ ops' db, ops' <+: ops → run serStep (Db.boot tabs files heap index) ops' = some db →
      Covered db) ↔ Along serStep KeepsPending (Db.boot tabs files heap index) ops :=
  prefixes_iff_along (fun _ hl => hl.covered) (fun _ _ _ hl hk h => serStep_listed hl hk h)
    (fun _ _ hl h => check_uncovers hl h) ops _ (boot_listed tabs files heap index)

/-- A row is inserted and its write moved to an overlay; the predicate check of another
transaction drops the row. -/
theorem not_covered_pending : ∃ db, run serStep
    (Db.boot (fun _ => ⟨[⟨"a", .int, 4, 0⟩], [], by decide, by decide⟩) (fun _ => ⟨2, 4⟩)
      (fun _ => ⟨false, .empty⟩) (fun _ => []))
    [.op (.begin true .snapshotIsolation), .op (.begin true .serializable),
      .op (.mvccInsert 0 ⟨"t", ⟨1, 0⟩⟩ [7, 0, 0, 0]), .op (.releaseStatementWrites 0),
      .serReadPredCheck 1 "t" []] = some db ∧ ¬ Covered db := by
  refine ⟨_, rfl, fun hcov => ?_⟩
  have hmem := hcov.uncommitted 0 ⟨"t", ⟨1, 0⟩⟩ (by decide +kernel) (.inr (by decide +kernel))
  revert hmem
  decide +kernel

end Rmdb.Txn
