import Rmdb.Mvcc.Tracks

/-!
# Who holds a row

With deletes a slot can become free again, so a row may have a chain without a record.  `Held`
keeps the part of `Owned` that survives them: a row belongs to one transaction at most, and a
transaction owns every row it has a write record of.
-/

namespace Rmdb.Txn

open Rmdb.Index (Rid)

variable {db db' : Db} {t : TxnId} {r : RowId}

/-- `Owned` without the restriction to undeleted rows. -/
structure Held (db : Db) : Prop where
  inv : Inv db
  owner : ∀ r c u v, (db.rows r).chain = some c → c.writer = some u →
    (db.rows r).pending = some v → u = v
  pending : ∀ r u, (db.rows r).pending = some u ↔ ((db.txn u).overlay r).isSome
  owns : ∀ u r, db.Live u → (db.txn u).touches r = true → db.Owns u r
  free : ∀ r, (db.rows r).slot.isRecord = false →
    (db.rows r).pending = none ∧ ∀ c, (db.rows r).chain = some c → c.writer = none

theorem Held.unique (hh : Held db) {u v : TxnId} (hu : db.Owns u r) (hv : db.Owns v r) : u = v := by
  rcases hu with ⟨c, hc, hwu⟩ | hpu <;> rcases hv with ⟨c', hc', hwv⟩ | hpv
  · rw [hc] at hc'
    cases hc'
    rw [hwu] at hwv
    exact Option.some.inj hwv
  · exact hh.owner r c u v hc hwu hpv
  · exact (hh.owner r c' v u hc' hwv hpu).symm
  · rw [hpu] at hpv
    exact Option.some.inj hpv

theorem Held.isRecord (hh : Held db) {u : TxnId} (hu : db.Owns u r) :
    (db.rows r).slot.isRecord = true := by
  by_contra hn
  obtain ⟨hp, hw⟩ := hh.free r (by simpa using hn)
  rcases hu with ⟨c, hc, hwu⟩ | hpu
  · rw [hw c hc] at hwu
    cases hwu
  · rw [hp] at hpu
    cases hpu

/-- What a write can do to its row, deletes included. -/
inductive Taken (db : Db) (t : TxnId) (r : RowId) : Db → Prop where
  | same : Taken db t r db
  | touched {db' : Db} (h : RowWrite db db' t r ((db.rows r).withChain (db.chainOf r)) [] true) :
      Taken db t r db'
  | took {db' : Db} {c : MvccChain} {ws : List WriteRecord}
      (h : RowWrite db db' t r ((db.rows r).withChain c) ws true) (free : ¬ db.held t r)
      (hw : c.writer = some t)
      (hhist : c.hist = (db.chainOf r).hist ∨ ∃ old, c.hist = [⟨old, 0, false, none⟩])
      (hws : ∀ w ∈ ws, w.row = r) : Taken db t r db'

theorem ChainWrite.taken (h : ChainWrite db t r db') : Taken db t r db' := by
  cases h with
  | same => exact .same
  | touched h => exact .touched h
  | took h free hw hdel hhist hws => exact .took h free hw hhist hws

theorem Wrote.taken {old : Image} {del : Bool} {P : Image → Prop} {keeps : Bool} {out : WriteOutcome}
    (h : Wrote db t r old del P keeps out) (hdb : out.db? = some db') : Taken db t r db' := by
  cases h with
  | untouched =>
      cases hdb
      exact .same
  | refused h why =>
      cases hdb
      exact .touched h
  | failed h free =>
      cases hdb
      exact .took h free rfl (writtenChain_hist _ _ _ _ _ _ _) (fun w hw => by cases hw)
  | written h free origin value =>
      cases hdb
      refine .took h free rfl (writtenChain_hist _ _ _ _ _ _ _) ?_
      intro w hw
      rw [newRecord_row hw]
  | nullRead => cases hdb

/-- A write of one record that leaves the row to `t`, or to who had it. -/
theorem RowWrite.keepsHeld {c : MvccChain} {s : Slot} {ws : List WriteRecord}
    (hw : RowWrite db db' t r { db.rows r with slot := s, chain := some c } ws true)
    (hh : Held db) (ht : db.Live t)
    (hhist : c.hist = (db.chainOf r).hist ∨ (∃ old, c.hist = [⟨old, 0, false, none⟩]) ∨ c.hist = [])
    (howner : ∀ u v, c.writer = some u → (db.rows r).pending = some v → u = v)
    (howns : ∀ u, db.Owns u r → c.writer = some u ∨ (db.rows r).pending = some u)
    (hs : s.isRecord = true) (hws : ∀ w ∈ ws, w.row = r ∧ c.writer = some t) : Held db' := by
  have hpend : ∀ r', (db'.rows r').pending = (db.rows r').pending := by
    intro r'
    rcases eq_or_ne r' r with rfl | hr
    · rw [hw.row_self]
    · rw [hw.row_other hr]
  have hself : ∀ u, (c.writer = some u ∨ (db.rows r).pending = some u) → db'.Owns u r := by
    rintro u (hu | hu)
    · exact .inl ⟨c, by rw [hw.row_self], hu⟩
    · exact .inr (by rw [hpend, hu])
  refine ⟨hw.inv ht hh.inv ?_ fun _ => .inr rfl, ?_, ?_, ?_, ?_⟩
  · exact (HistOk.of_hist (hh.inv.hist r) hhist : HistOk db.lastCommitTs
      (Row.withChain { db.rows r with slot := s } c))
  · intro r' c' u v hc' hu hv
    rw [hpend] at hv
    rcases eq_or_ne r' r with rfl | hr
    · rw [hw.row_self] at hc'
      cases hc'
      exact howner u v hu hv
    · rw [hw.row_other hr] at hc'
      exact hh.owner r' c' u v hc' hu hv
  · intro r' u
    rw [hpend, hw.overlay]
    exact hh.pending r' u
  · intro u r' hl htouch
    rw [hw.live_iff (Txn.live_iff.1 ht).1] at hl
    -- a record of the row is there before, or it is the one of this write
    have hold : (db.txn u).touches r' = true ∨ (r' = r ∧ u = t ∧ c.writer = some t) := by
      rcases eq_or_ne u t with rfl | hu
      · obtain ⟨w, hmem, hwr⟩ := touches_mem htouch
        rw [hw.writeSet] at hmem
        rcases List.mem_append.1 hmem with hmem | hmem
        · exact .inl (List.any_eq_true.2 ⟨w, hmem, by simp [hwr]⟩)
        · exact .inr ⟨hwr.symm.trans (hws w hmem).1, rfl, (hws w hmem).2⟩
      · rw [hw.txn_other hu] at htouch
        exact .inl htouch
    rcases hold with hold | ⟨rfl, rfl, hwt⟩
    · have hown := hh.owns u r' hl hold
      rcases eq_or_ne r' r with rfl | hr
      · exact hself u (howns u hown)
      · unfold Db.Owns
        rw [hw.row_other hr]
        exact hown
    · exact hself u (.inl hwt)
  · intro r' hfree
    rcases eq_or_ne r' r with rfl | hr
    · rw [hw.row_self] at hfree
      exact absurd (hs.symm.trans hfree) (by decide)
    · rw [hw.row_other hr] at hfree ⊢
      exact hh.free r' hfree

theorem chainOf_some {c : MvccChain} (h : (db.rows r).chain = some c) : db.chainOf r = c := by
  rw [Db.chainOf, h]
  rfl

/-- Who is named in the chain of a row owns it. -/
theorem owns_of_writer {u : TxnId} (h : (db.chainOf r).writer = some u) : db.Owns u r := by
  cases hc : (db.rows r).chain with
  | none =>
      rw [Db.chainOf, hc] at h
      cases h
  | some c =>
      rw [chainOf_some hc] at h
      exact .inl ⟨c, hc, h⟩

/-- Whoever owns a row after a write of `r` has owned it before, or is named in the chain of `r`. -/
theorem RowWrite.owns {c : MvccChain} {s : Slot} {ws : List WriteRecord} {mark : Bool} {u : TxnId}
    {r' : RowId} (hw : RowWrite db db' t r { db.rows r with slot := s, chain := some c } ws mark)
    (ho : db'.Owns u r') : db.Owns u r' ∨ r' = r ∧ c.writer = some u := by
  unfold Db.Owns at ho
  rcases eq_or_ne r' r with rfl | hr
  · rw [hw.row_self] at ho
    rcases ho with ⟨c', hc', hwu⟩ | hp
    · cases hc'
      exact .inr ⟨rfl, hwu⟩
    · exact .inl (.inr hp)
  · rw [hw.row_other hr] at ho
    exact .inl ho

theorem RowWrite.touches_of {row : Row} {ws : List WriteRecord} {mark : Bool} {u : TxnId}
    {r' : RowId} (hw : RowWrite db db' t r row ws mark)
    (h : (db.txn u).touches r' = true ∨ u = t ∧ ∃ w ∈ ws, w.row = r') :
    (db'.txn u).touches r' = true := by
  rcases h with htouch | ⟨rfl, w, hmem, hrow⟩
  · exact hw.touches htouch
  · refine List.any_eq_true.2 ⟨w, ?_, by simp [hrow]⟩
    rw [hw.writeSet]
    exact List.mem_append_right _ hmem

/-- After a write its transaction has a write record of the row, unless it owned the row without one. -/
theorem touched_or_record (hI : Inv db) (hown : db.Owns t r → (db.txn t).touches r = true)
    (w : WriteRecord) : (db.txn t).touches r = true ∨ w ∈ db.newRecord t r w := by
  unfold Db.newRecord
  by_cases hfirst : db.firstTouch t r (db.chainOf r) = true
  · rw [if_pos hfirst]
    exact .inr (List.mem_singleton_self w)
  · left
    simp only [Db.firstTouch, Bool.and_eq_true, not_and_or, decide_eq_true_eq, not_not,
      Bool.not_eq_true, Bool.not_eq_false', Option.isNone_eq_false_iff] at hfirst
    rcases hfirst with (hwriter | hov) | htouch
    · exact hown (owns_of_writer hwriter)
    · exact (hI.overlays t r hov).1
    · exact htouch

/-- A transaction that nobody stands in the way of is the only possible owner. -/
theorem owner_of_free (hfree : ¬ db.held t r) {u : TxnId} (hu : db.Owns u r) : u = t := by
  rcases hu with ⟨c, hc, hw⟩ | hp
  · rw [← chainOf_some hc] at hw
    rcases writer_of_free hfree with hn | ht
    · rw [hn] at hw
      cases hw
    · rw [ht] at hw
      exact (Option.some.inj hw).symm
  · exact pending_of_free hfree hp

theorem Taken.held (h : Taken db t r db') (hh : Held db) (ht : db.Live t)
    (hrec : (db.rows r).slot.isRecord = true) : Held db' := by
  cases h with
  | same => exact hh
  | touched h =>
      refine RowWrite.keepsHeld h hh ht (.inl rfl) ?_ ?_ hrec (fun w hw => by cases hw)
      · intro u v hu hv
        cases hc : (db.rows r).chain with
        | none =>
            rw [Db.chainOf, hc] at hu
            cases hu
        | some c =>
            rw [chainOf_some hc] at hu
            exact hh.owner r c u v hc hu hv
      · rintro u (⟨c, hc, hw⟩ | hp)
        · rw [chainOf_some hc]
          exact .inl hw
        · exact .inr hp
  | took h free hw hhist hws =>
      refine RowWrite.keepsHeld h hh ht (hhist.imp_right .inl) ?_ ?_ hrec
        (fun w hmem => ⟨hws w hmem, hw⟩)
      · intro u v hu hv
        rw [hw] at hu
        cases hu
        exact (pending_of_free free hv).symm
      · intro u hu
        rw [owner_of_free free hu]
        exact .inl hw

/-- An insert fills a free slot and takes its row. -/
theorem RowWrite.held_inserted {img : Image} {w : WriteRecord}
    (hw : RowWrite db db' t r
      { db.rows r with
        slot := ⟨true, img⟩
        chain := some { db.chainOf r with
          hist := [], writer := some t, writerDel := false, writerData := img } } [w] true)
    (hh : Held db) (ht : db.Live t) (hfree : (db.rows r).slot.isRecord = false) (hrow : w.row = r) :
    Held db' := by
  refine RowWrite.keepsHeld hw hh ht (.inr (.inr rfl)) ?_ ?_ rfl ?_
  · intro u v hu hv
    rw [(hh.free r hfree).1] at hv
    cases hv
  · intro u hu
    have hrec := hh.isRecord hu
    rw [hfree] at hrec
    cases hrec
  · intro w' hw'
    rw [List.mem_singleton.1 hw']
    exact ⟨hrow, rfl⟩

theorem insert_held (hh : Held db) (ht : db.Live t) (hfree : (db.rows r).slot.isRecord = false)
    (data : Bytes) : Held ((db.mvccInsert t r data).fillSlot r ⟨data, some t⟩) := by
  have h1 := mvccInsert_write db t r data
  have h2 := h1.trans (RowWrite.fillSlot _ t r ⟨data, some t⟩)
  rw [h1.row_self, List.append_nil, Bool.or_false] at h2
  exact RowWrite.held_inserted h2 hh ht hfree rfl

theorem begin_held (hh : Held db) (explicit : Bool) (iso : IsolationLevel) :
    Held (db.begin explicit iso) := by
  have hself : (db.begin explicit iso).txn db.nextTxnId =
      { txnMode := explicit, isolation := iso, readTs := db.lastCommitTs } := by
    rw [Db.txn, begin_txns_self, Option.getD_some]
  have hold : (db.txn db.nextTxnId) = default := by
    rw [Db.txn, hh.inv.fresh db.nextTxnId le_rfl]
    rfl
  refine ⟨begin_inv hh.inv explicit iso, hh.owner, ?_, ?_, hh.free⟩
  · intro r u
    by_cases hu : u = db.nextTxnId
    · have hp := hh.pending r u
      rw [hu, hself]
      rwa [hu, hold] at hp
    · rw [Db.txn_congr (begin_txns_ne hu)]
      exact hh.pending r u
  · intro u r hl htouch
    by_cases hu : u = db.nextTxnId
    · rw [hu, hself] at htouch
      cases htouch
    · rw [Db.txn_congr (begin_txns_ne hu)] at htouch
      unfold Db.Live at hl
      rw [begin_txns_ne hu] at hl
      exact hh.owns u r hl htouch

theorem release_held (hh : Held db) (ht : db.Live t) : Held (db.releaseStatementWrites t) := by
  have hother : ∀ u, u ≠ t → (db.releaseStatementWrites t).txn u = db.txn u :=
    fun u hu => Db.txn_congr (release_txns_ne hu)
  have hslot : ∀ r, ((db.releaseStatementWrites t).rows r).slot = (db.rows r).slot := by
    intro r
    rcases release_row db t r with ⟨h, -⟩ | ⟨c, -, -, -, -, h, -⟩ <;> rw [h]
  refine ⟨release_inv hh.inv ht, ?_, ?_, ?_, ?_⟩
  · intro r c u v hc hu hv
    rcases release_row db t r with ⟨h, -⟩ | ⟨c0, -, -, -, -, h, -⟩
    · rw [h] at hc hv
      exact hh.owner r c u v hc hu hv
    · rw [h] at hc
      cases hc
      cases hu
  · intro r u
    rcases release_row db t r with ⟨h, hov⟩ | ⟨c, -, hc, hw, -, h, hov⟩
    · rw [h]
      rcases eq_or_ne u t with rfl | hu
      · rw [hov]
        exact hh.pending r u
      · rw [hother u hu]
        exact hh.pending r u
    · rw [h]
      rcases eq_or_ne u t with rfl | hu
      · rw [hov]
        exact ⟨fun _ => rfl, fun _ => rfl⟩
      · rw [hother u hu]
        -- `t` holds the row, so no other transaction has an overlay of it
        constructor
        · intro heq
          exact absurd (Option.some.inj heq).symm hu
        · intro hsome
          exact absurd (hh.owner r c t u hc hw ((hh.pending r u).2 hsome)).symm hu
  · intro u r hl htouch
    rw [release_live_iff (live_iff.1 ht).1] at hl
    rw [release_proj (fun x => x.touches r) (fun _ _ => rfl)] at htouch
    have hown := hh.owns u r hl htouch
    unfold Db.Owns
    rcases release_row db t r with ⟨h, -⟩ | ⟨c, -, hc, hw, -, h, -⟩
    · rw [h]
      exact hown
    · rw [h, hh.unique hown (.inl ⟨c, hc, hw⟩)]
      exact .inr rfl
  · intro r hfree
    rw [hslot] at hfree
    rcases release_row db t r with ⟨h, -⟩ | ⟨c, -, hc, hw, -⟩
    · rw [h]
      exact hh.free r hfree
    · rw [(hh.free r hfree).2 c hc] at hw
      cases hw

/-- A row that is moved to an overlay stays with its owner. -/
theorem release_owns {u : TxnId} (ho : (db.releaseStatementWrites t).Owns u r) : db.Owns u r := by
  unfold Db.Owns at ho
  rcases release_row db t r with ⟨heq, -⟩ | ⟨c, -, hc, hw, -, heq, -⟩
  · rw [heq] at ho
    exact ho
  · rw [heq] at ho
    rcases ho with ⟨c', hc', hwu⟩ | hp
    · cases hc'
      cases hwu
    · cases hp
      exact .inl ⟨c, hc, hw⟩

/-- Commit and abort find the uncommitted write of a touched row in its chain. -/
theorem Held.restored (hh : Held db) (ht : db.Live t) (htouch : (db.txn t).touches r = true) :
    (db.restored t r).pending = none ∧
      ∃ c, (db.restored t r).chain = some c ∧ c.writer = some t := by
  have hown := hh.owns t r ht htouch
  cases hov : (db.txn t).overlay r with
  | none =>
      have hnot : (db.rows r).pending ≠ some t := by
        intro hp
        have := (hh.pending r t).1 hp
        rw [hov] at this
        cases this
      obtain ⟨c, hc, hw⟩ := hown.resolve_right hnot
      rw [restored_of_none hov]
      refine ⟨?_, c, hc, hw⟩
      cases hp : (db.rows r).pending with
      | none => rfl
      | some v => exact absurd (by rw [hp, hh.owner r c t v hc hw hp]) hnot
  | some ov =>
      refine ⟨restored_pending (by rw [hov]; rfl), ?_⟩
      unfold Db.restored Db.restoreWritersFromOverlays
      dsimp only
      rw [hov]
      exact ⟨_, rfl, rfl⟩

/-- The end of a transaction leaves its rows to nobody. -/
theorem Ended.held (h : Ended db db' t) (hh : Held db) (ht : db.Live t) (hI : Inv db')
    (htouched : ∀ r, (db.txn t).touches r = true → (db'.rows r).pending = none ∧
      ∀ c, (db'.rows r).chain = some c → c.writer = none)
    (huntouched : ∀ r, (db.txn t).touches r = false → db'.rows r = db.rows r) : Held db' := by
  have hov : (db'.txn t).overlay = fun _ => none := by
    obtain ⟨x, hx, -, -, hov, -⟩ := h.self
    rw [Db.txn, hx]
    exact hov
  refine ⟨hI, ?_, ?_, ?_, ?_⟩
  · intro r c u v hc hu hv
    cases htouch : (db.txn t).touches r with
    | true =>
        rw [(htouched r htouch).1] at hv
        cases hv
    | false =>
        rw [huntouched r htouch] at hc hv
        exact hh.owner r c u v hc hu hv
  · intro r u
    cases htouch : (db.txn t).touches r with
    | true =>
        rw [(htouched r htouch).1]
        refine ⟨fun hp => (by cases hp), fun hs => ?_⟩
        rcases eq_or_ne u t with rfl | hu
        · rw [hov] at hs
          cases hs
        · rw [Db.txn_congr (h.others u hu)] at hs
          exact absurd (hh.unique (.inr ((hh.pending r u).2 hs)) (hh.owns t r ht htouch)) hu
    | false =>
        rw [huntouched r htouch]
        rcases eq_or_ne u t with rfl | hu
        · rw [hov]
          refine ⟨fun hp => ?_, fun hs => (by cases hs)⟩
          have := (hh.inv.overlays u r ((hh.pending r u).1 hp)).1
          rw [htouch] at this
          cases this
        · rw [Db.txn_congr (h.others u hu)]
          exact hh.pending r u
  · intro u r hl htouch
    rcases eq_or_ne u t with rfl | hu
    · exact absurd hl h.not_live
    · rw [h.live_iff hu] at hl
      rw [Db.txn_congr (h.others u hu)] at htouch
      have hown := hh.owns u r hl htouch
      cases htt : (db.txn t).touches r with
      | true => exact absurd (hh.unique hown (hh.owns t r ht htt)) hu
      | false =>
          unfold Db.Owns
          rw [huntouched r htt]
          exact hown
  · intro r hfree
    cases htouch : (db.txn t).touches r with
    | true => exact htouched r htouch
    | false =>
        rw [huntouched r htouch] at hfree ⊢
        exact hh.free r hfree

/-- Whoever owns a row after the end of `t` has owned it before. -/
theorem Ended.owns (hfreed : ∀ r, (db.txn t).touches r = true → (db'.rows r).pending = none ∧
      ∀ c, (db'.rows r).chain = some c → c.writer = none)
    (huntouched : ∀ r, (db.txn t).touches r = false → db'.rows r = db.rows r) {u : TxnId}
    (ho : db'.Owns u r) : (db.txn t).touches r = false ∧ db.Owns u r := by
  cases htouch : (db.txn t).touches r with
  | true =>
      obtain ⟨hp, hw⟩ := hfreed r htouch
      rcases ho with ⟨c, hc, hwu⟩ | hpu
      · rw [hw c hc] at hwu
        cases hwu
      · rw [hp] at hpu
        cases hpu
  | false =>
      unfold Db.Owns at ho
      rw [huntouched r htouch] at ho
      exact ⟨rfl, ho⟩

/-- A committed row belongs to nobody. -/
theorem Committed.freed (h : Committed db db' t) (hh : Held db) (ht : db.Live t)
    (htouch : (db.txn t).touches r = true) :
    (db'.rows r).pending = none ∧ ∀ c, (db'.rows r).chain = some c → c.writer = none := by
  obtain ⟨hpend, c, hc, hw⟩ := hh.restored ht htouch
  obtain ⟨row, hpub, hrow⟩ := h.touched r htouch
  rw [hrow, reclaimRow_pending, publishRow_pending hpub]
  refine ⟨hpend, fun c' hc' => ?_⟩
  have hc1 : row.chain = some c' := by
    rcases reclaimRow_cases (db.watermark t) row with heq | ⟨c0, v, -, -, -, -, -, -, heq⟩
    · rwa [heq] at hc'
    · rw [heq] at hc'
      cases hc'
  rcases publishRow_cases hpub with ⟨-, hne⟩ | ⟨c0, slot, -, -, rfl, -⟩
  · exact absurd hw (hne c hc)
  · exact pruneMvccAfterCommit_writer hc1

theorem Committed.held (h : Committed db db' t) (hh : Held db) (ht : db.Live t) : Held db' := by
  refine h.ended.held hh ht (h.inv hh.inv ht) (fun r => h.freed hh ht) ?_
  intro r htouch
  rw [h.untouched r htouch, restored_untouched hh.inv htouch]

/-- An aborted row is what it was, without the uncommitted write. -/
theorem Aborted.undone (h : Aborted db db' t) (hh : Held db) (ht : db.Live t)
    (htouch : (db.txn t).touches r = true) : ∃ c, (db.restored t r).chain = some c ∧
      (db.restored t r).pending = none ∧ db'.rows r = Db.undoVersionedRow c (db.restored t r) := by
  obtain ⟨hpend, c, hc, hw⟩ := hh.restored ht htouch
  exact ⟨c, hc, hpend, by rw [h.rows r, undoRow_versioned htouch hc hw]⟩

theorem Aborted.untouched (h : Aborted db db' t) (hh : Held db)
    (htouch : (db.txn t).touches r = false) : db'.rows r = db.rows r := by
  rw [h.rows r, undoRow_nil_of_untouched htouch, restored_untouched hh.inv htouch]

theorem Aborted.freed (h : Aborted db db' t) (hh : Held db) (ht : db.Live t)
    (htouch : (db.txn t).touches r = true) : (db'.rows r).pending = none ∧
      ∀ c, (db'.rows r).chain = some c → c.writer = none := by
  obtain ⟨c, hc, hpend, hrow⟩ := h.undone hh ht htouch
  rw [hrow]
  refine ⟨hpend, fun c' hc' => ?_⟩
  cases hc'
  rfl

theorem Aborted.held (h : Aborted db db' t) (hh : Held db) (ht : db.Live t) : Held db' :=
  h.ended.held hh ht (h.inv hh.inv ht) (fun _ => h.freed hh ht) fun _ => h.untouched hh

theorem Aborted.owns (h : Aborted db db' t) (hh : Held db) (ht : db.Live t) {u : TxnId}
    (ho : db'.Owns u r) : (db.txn t).touches r = false ∧ db.Owns u r :=
  Ended.owns (fun _ => h.freed hh ht) (fun _ => h.untouched hh) ho

theorem Committed.owns (h : Committed db db' t) (hh : Held db) (ht : db.Live t) {u : TxnId}
    (ho : db'.Owns u r) : (db.txn t).touches r = false ∧ db.Owns u r := by
  refine Ended.owns (fun _ => h.freed hh ht) (fun r' htouch => ?_) ho
  rw [h.untouched r' htouch, restored_untouched hh.inv htouch]

end Rmdb.Txn
