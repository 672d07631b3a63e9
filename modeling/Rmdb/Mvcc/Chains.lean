import Rmdb.Lib.Run
import Rmdb.Row.Ends

/-!
# Version chains and owners of uncommitted writes

The operations of the transaction manager one by one: `begin`, the versioned writes,
`release_statement_writes`, `commit` and `abort`.  Whatever the order of the operations, the
versions of a row are in commit order, at most one live transaction owns an uncommitted
write of a row, and `pending` names live transactions with an overlay.
-/

namespace Rmdb.Txn

open Rmdb.Index (Rid)
open Rmdb.Lib (run run_invariant)

inductive Op where
  | begin (explicit : Bool) (iso : IsolationLevel)
  | mvccInsert (t : TxnId) (r : RowId) (data : Bytes)
  | mvccWrite (t : TxnId) (r : RowId) (old : Image) (new : Bytes)
  | mvccWriteColDelta (t : TxnId) (r : RowId) (visible : Image) (off : Nat) (type : ColType)
      (deltaF deltaI : BitVec 32)
  | mvccWriteColPatch (t : TxnId) (r : RowId) (visible : Image) (patches : List MvccColPatch)
  | releaseStatementWrites (t : TxnId)
  | commit (t : TxnId)
  | abort (t : TxnId)

/-- The state a write leaves, whether it went through or not. -/
def WriteOutcome.db? : WriteOutcome → Option Db
  | .written db _ | .refused db => some db
  | .nullRead => none

/-- One operation: inserts go to a free slot and fill it, updates to a record of the heap. -/
def opStep (db : Db) : Op → Option Db
  | .begin explicit iso => some (db.begin explicit iso)
  | .mvccInsert t r data =>
      if db.Live t ∧ (db.rows r).slot.isRecord = false then
        some ((db.mvccInsert t r data).fillSlot r ⟨data, some t⟩)
      else none
  | .mvccWrite t r old new =>
      if db.Live t ∧ (db.rows r).slot.isRecord = true then (db.mvccWrite t r old (some new)).db?
      else none
  | .mvccWriteColDelta t r visible off type deltaF deltaI =>
      if db.Live t ∧ (db.rows r).slot.isRecord = true then
        (db.mvccWriteColDelta t r visible off type deltaF deltaI).db?
      else none
  | .mvccWriteColPatch t r visible patches =>
      if db.Live t ∧ (db.rows r).slot.isRecord = true then
        (db.mvccWriteColPatch t r visible patches).db?
      else none
  | .releaseStatementWrites t => if db.Live t then some (db.releaseStatementWrites t) else none
  | .commit t => if (db.txns t).isSome then db.commit t else none
  | .abort t => if (db.txns t).isSome then some (db.abort t) else none

/-- `t` owns an uncommitted write of `r`, in the chain or in the table of pending writers. -/
def Db.Owns (db : Db) (t : TxnId) (r : RowId) : Prop :=
  (∃ c, (db.rows r).chain = some c ∧ c.writer = some t) ∨ (db.rows r).pending = some t

structure VersionChains (db : Db) : Prop where
  increasing : ∀ r c, (db.rows r).chain = some c →
    (c.hist.Pairwise fun v w => v.commitTs < w.commitTs) ∧ ∀ v ∈ c.hist, v.commitTs ≤ db.lastCommitTs
  owner : ∀ r u v, db.Live u → db.Live v → db.Owns u r → db.Owns v r → u = v
  pending : ∀ r u, (db.rows r).pending = some u → db.Live u ∧ ((db.txn u).overlay r).isSome

/-- The inductive invariant: `pending` and the overlays say the same, and no operation clears
a bit of the heap. -/
structure Owned (db : Db) : Prop where
  inv : Inv db
  owner : ∀ r c u v, (db.rows r).chain = some c → c.writer = some u →
    (db.rows r).pending = some v → u = v
  pending : ∀ r u, (db.rows r).pending = some u ↔ ((db.txn u).overlay r).isSome
  kept : ∀ r c, (db.rows r).chain = some c → c.writerDel = false
  keptOverlay : ∀ u r ov, (db.txn u).overlay r = some ov → ov.isDeleted = false
  free : ∀ r, (db.rows r).slot.isRecord = false →
    (db.rows r).chain = none ∧ (db.rows r).pending = none
  written : ∀ u r, (db.txn u).touches r = true → (db.rows r).slot.isRecord = true

variable {db db' : Db} {t : TxnId} {r : RowId}

theorem Inv.live_of_overlay (hI : Inv db) {u : TxnId} (h : ((db.txn u).overlay r).isSome) :
    db.Live u := by
  cases hx : db.txns u with
  | none =>
      rw [Db.txn, hx] at h
      cases h
  | some x =>
      refine ⟨x, hx, ?_⟩
      by_contra hnl
      rw [Db.txn, hx, Option.getD_some, (hI.ended u x hx hnl).2] at h
      cases h

theorem Owned.versionChains (h : Owned db) : VersionChains db := by
  refine ⟨?_, ?_, ?_⟩
  · intro r c hc
    exact ⟨(h.inv.hist r c hc).2, (h.inv.hist r c hc).1⟩
  · rintro r u v - - hu hv
    rcases hu with ⟨c, hc, hwu⟩ | hpu <;> rcases hv with ⟨c', hc', hwv⟩ | hpv
    · rw [hc] at hc'
      cases hc'
      rw [hwu] at hwv
      exact Option.some.inj hwv
    · exact h.owner r c u v hc hwu hpv
    · exact (h.owner r c' v u hc' hwv hpu).symm
    · rw [hpu] at hpv
      exact Option.some.inj hpv
  · intro r u hp
    have hov := (h.pending r u).1 hp
    exact ⟨h.inv.live_of_overlay hov, hov⟩

/-! ## Writes -/

/-- What a versioned update can do to its row. -/
inductive ChainWrite (db : Db) (t : TxnId) (r : RowId) : Db → Prop where
  | same : ChainWrite db t r db
  | touched {db' : Db} (h : RowWrite db db' t r ((db.rows r).withChain (db.chainOf r)) [] true) :
      ChainWrite db t r db'
  | took {db' : Db} {c : MvccChain} {ws : List WriteRecord}
      (h : RowWrite db db' t r ((db.rows r).withChain c) ws true) (free : ¬ db.held t r)
      (hw : c.writer = some t) (hdel : c.writerDel = false)
      (hhist : c.hist = (db.chainOf r).hist ∨ ∃ old, c.hist = [⟨old, 0, false, none⟩])
      (hws : ∀ w ∈ ws, w.row = r) : ChainWrite db t r db'

theorem writtenChain_hist (db : Db) (t : TxnId) (r : RowId) (old : Image) (del : Bool)
    (data : Image) (hold : Bool) :
    (db.writtenChain t r old del data hold).hist = (db.chainOf r).hist ∨
      ∃ img, (db.writtenChain t r old del data hold).hist = [⟨img, 0, false, none⟩] := by
  unfold Db.writtenChain Db.withBase
  split
  · exact .inr ⟨old, rfl⟩
  · exact .inl rfl

theorem newRecord_row {w : WriteRecord} {rec : WriteRecord} (h : w ∈ db.newRecord t r rec) :
    w = rec := by
  unfold Db.newRecord at h
  split at h
  · exact List.mem_singleton.1 h
  · cases h

theorem Wrote.chainWrite {old : Image} {P : Image → Prop} {keeps : Bool} {out : WriteOutcome}
    (h : Wrote db t r old false P keeps out) (hdb : out.db? = some db') : ChainWrite db t r db' := by
  cases h with
  | untouched =>
      cases hdb
      exact .same
  | refused h why =>
      cases hdb
      exact .touched h
  | failed h free =>
      cases hdb
      exact .took h free rfl rfl (writtenChain_hist _ _ _ _ _ _ _) (fun w hw => by cases hw)
  | written h free origin value =>
      cases hdb
      refine .took h free rfl rfl (writtenChain_hist _ _ _ _ _ _ _) ?_
      intro w hw
      rw [newRecord_row hw]
  | nullRead => cases hdb

/-- A column delta that does not fit the record still takes the row. -/
theorem colDelta_misfit (db : Db) (t : TxnId) (r : RowId) (visible : Image) {off : Nat}
    {type : ColType} (deltaF deltaI : BitVec 32)
    (hbad : type = .string ∨ off + 4 > (db.tabs r.tab).recordSize)
    (h : (db.mvccWriteColDelta t r visible off type deltaF deltaI).db? = some db') :
    ChainWrite db t r db' := by
  have hb := (touchChain_write db t r).withBase (db.chainOf r) visible
  simp only [Db.mvccWriteColDelta, touchChain_held, hb, if_pos hbad] at h
  by_cases hheld : db.held t r
  · rw [if_pos hheld] at h
    cases h
    exact .touched (touchChain_write db t r)
  · rw [if_neg hheld] at h
    cases h
    refine .took (touchChain_setChain db t r _) hheld rfl rfl ?_ (fun w hw => by cases hw)
    exact writtenChain_hist db t r visible false .empty true

theorem colDelta_chainWrite {visible : Image} {off : Nat} {type : ColType} {deltaF deltaI : BitVec 32}
    (h : (db.mvccWriteColDelta t r visible off type deltaF deltaI).db? = some db') :
    ChainWrite db t r db' := by
  by_cases hbad : type = .string ∨ off + 4 > (db.tabs r.tab).recordSize
  · exact colDelta_misfit db t r visible deltaF deltaI hbad h
  · rw [not_or, not_lt] at hbad
    exact (colDelta_spec db t r visible deltaF deltaI hbad.1 hbad.2).chainWrite h

theorem HistOk.of_hist {ts : Ts} (hh : HistOk ts (db.rows r)) {row : Row} {c : MvccChain}
    (hhist : c.hist = (db.chainOf r).hist ∨ (∃ old, c.hist = [⟨old, 0, false, none⟩]) ∨ c.hist = []) :
    HistOk ts (row.withChain c) := by
  intro c' hc'
  cases hc'
  rcases hhist with heq | ⟨old, heq⟩ | heq
  · rw [heq]
    exact hh.chainOf
  · rw [heq]
    exact ⟨fun v hv => by rw [List.mem_singleton.1 hv]; exact Nat.zero_le _,
      List.pairwise_singleton _ _⟩
  · rw [heq]
    exact ⟨fun v hv => (List.not_mem_nil hv).elim, List.Pairwise.nil⟩

/-- A write of a row that keeps `pending` and leaves the row to `t` or to who had it. -/
theorem RowWrite.owned {c : MvccChain} {s : Slot} {ws : List WriteRecord}
    (hw : RowWrite db db' t r { db.rows r with slot := s, chain := some c } ws true)
    (ho : Owned db) (ht : db.Live t)
    (hhist : c.hist = (db.chainOf r).hist ∨ (∃ old, c.hist = [⟨old, 0, false, none⟩]) ∨ c.hist = [])
    (howner : ∀ u v, c.writer = some u → (db.rows r).pending = some v → u = v)
    (hdel : c.writerDel = false) (hs : s.isRecord = true) (hws : ∀ w ∈ ws, w.row = r) :
    Owned db' := by
  have hrow : ∀ r', (db'.rows r').pending = (db.rows r').pending := by
    intro r'
    rcases eq_or_ne r' r with rfl | hr
    · rw [hw.row_self]
    · rw [hw.row_other hr]
  refine ⟨hw.inv ht ho.inv ?_ fun _ => .inr rfl, ?_, ?_, ?_, ?_, ?_, ?_⟩
  · exact (HistOk.of_hist (ho.inv.hist r) hhist : HistOk db.lastCommitTs
      (Row.withChain { db.rows r with slot := s } c))
  · intro r' c' u v hc' hu hv
    rcases eq_or_ne r' r with rfl | hr
    · rw [hw.row_self] at hc' hv
      cases hc'
      exact howner u v hu hv
    · rw [hw.row_other hr] at hc' hv
      exact ho.owner r' c' u v hc' hu hv
  · intro r' u
    rw [hrow, hw.overlay]
    exact ho.pending r' u
  · intro r' c' hc'
    rcases eq_or_ne r' r with rfl | hr
    · rw [hw.row_self] at hc'
      cases hc'
      exact hdel
    · rw [hw.row_other hr] at hc'
      exact ho.kept r' c' hc'
  · intro u r' ov hov
    rw [hw.overlay] at hov
    exact ho.keptOverlay u r' ov hov
  · intro r' hfree
    rcases eq_or_ne r' r with rfl | hr
    · rw [hw.row_self] at hfree
      exact absurd (hs.symm.trans hfree) (by decide)
    · rw [hw.row_other hr] at hfree ⊢
      exact ho.free r' hfree
  · intro u r' htouch
    rcases eq_or_ne r' r with rfl | hr
    · rw [hw.row_self]
      exact hs
    · rw [hw.row_other hr]
      refine ho.written u r' ?_
      rcases eq_or_ne u t with rfl | hu
      · obtain ⟨w, hmem, hwr⟩ := touches_mem htouch
        rw [hw.writeSet] at hmem
        rcases List.mem_append.1 hmem with hmem | hmem
        · exact List.any_eq_true.2 ⟨w, hmem, by simp [hwr]⟩
        · exact absurd (hwr.symm.trans (hws w hmem)) hr
      · rwa [hw.txn_other hu] at htouch

theorem pending_of_free (h : ¬ db.held t r) {v : TxnId} (hv : (db.rows r).pending = some v) :
    v = t := by
  simp only [Db.held, Db.heldByOther, hv, Bool.or_eq_true, not_or, Bool.and_eq_true, not_and,
    decide_eq_true_eq, ne_eq, not_not, Option.isSome_some, forall_const, Option.some.injEq] at h
  exact h.1

theorem ChainWrite.owned (h : ChainWrite db t r db') (ho : Owned db) (ht : db.Live t)
    (hrec : (db.rows r).slot.isRecord = true) : Owned db' := by
  have hold : ∀ c, (db.rows r).chain = some c → db.chainOf r = c := by
    intro c hc
    rw [Db.chainOf, hc]
    rfl
  cases h with
  | same => exact ho
  | touched h =>
      refine RowWrite.owned h ho ht (.inl rfl) ?_ ?_ hrec (fun w hw => by cases hw)
      · intro u v hu hv
        cases hc : (db.rows r).chain with
        | none =>
            rw [Db.chainOf, hc] at hu
            cases hu
        | some c =>
            rw [hold c hc] at hu
            exact ho.owner r c u v hc hu hv
      · cases hc : (db.rows r).chain with
        | none =>
            rw [Db.chainOf, hc]
            rfl
        | some c =>
            rw [hold c hc]
            exact ho.kept r c hc
  | took h free hw hdel hhist hws =>
      refine RowWrite.owned h ho ht (hhist.imp_right .inl) ?_ hdel hrec hws
      intro u v hu hv
      rw [hw] at hu
      cases hu
      exact (pending_of_free free hv).symm

theorem insert_owned (ho : Owned db) (ht : db.Live t) (hfree : (db.rows r).slot.isRecord = false)
    (data : Bytes) : Owned ((db.mvccInsert t r data).fillSlot r ⟨data, some t⟩) := by
  have h1 := mvccInsert_write db t r data
  have h2 := h1.trans (RowWrite.fillSlot _ t r ⟨data, some t⟩)
  rw [h1.row_self, List.append_nil, Bool.or_false] at h2
  refine RowWrite.owned h2 ho ht (.inr (.inr rfl)) ?_ rfl rfl ?_
  · intro u v hu hv
    rw [(ho.free r hfree).2] at hv
    cases hv
  · intro w hw
    rw [List.mem_singleton.1 hw]

/-! ## The other operations -/

theorem begin_owned (ho : Owned db) (explicit : Bool) (iso : IsolationLevel) :
    Owned (db.begin explicit iso) := by
  have hself : (db.begin explicit iso).txn db.nextTxnId =
      { txnMode := explicit, isolation := iso, readTs := db.lastCommitTs } := by
    rw [Db.txn, begin_txns_self, Option.getD_some]
  have hold : (db.txn db.nextTxnId) = default := by
    rw [Db.txn, ho.inv.fresh db.nextTxnId le_rfl]
    rfl
  have hov : ∀ u, ((db.begin explicit iso).txn u).overlay = (db.txn u).overlay := by
    intro u
    by_cases hu : u = db.nextTxnId
    · rw [hu, hself, hold]
      rfl
    · rw [Db.txn_congr (begin_txns_ne hu)]
  refine ⟨begin_inv ho.inv explicit iso, ho.owner, ?_, ho.kept, ?_, ho.free, ?_⟩
  · intro r u
    rw [hov]
    exact ho.pending r u
  · intro u r ov h
    rw [hov] at h
    exact ho.keptOverlay u r ov h
  · intro u r h
    by_cases hu : u = db.nextTxnId
    · rw [hu, hself] at h
      cases h
    · rw [Db.txn_congr (begin_txns_ne hu)] at h
      exact ho.written u r h

theorem release_owned (ho : Owned db) (ht : db.Live t) : Owned (db.releaseStatementWrites t) := by
  have hother : ∀ u, u ≠ t → (db.releaseStatementWrites t).txn u = db.txn u :=
    fun u hu => Db.txn_congr (release_txns_ne hu)
  have hslot : ∀ r, ((db.releaseStatementWrites t).rows r).slot = (db.rows r).slot := by
    intro r
    rcases release_row db t r with ⟨h, -⟩ | ⟨c, -, -, -, -, h, -⟩ <;> rw [h]
  refine ⟨release_inv ho.inv ht, ?_, ?_, ?_, ?_, ?_, ?_⟩
  · intro r c u v hc hu hv
    rcases release_row db t r with ⟨h, -⟩ | ⟨c0, -, -, -, -, h, -⟩
    · rw [h] at hc hv
      exact ho.owner r c u v hc hu hv
    · rw [h] at hc
      cases hc
      cases hu
  · intro r u
    rcases release_row db t r with ⟨h, hov⟩ | ⟨c, -, hc, hw, -, h, hov⟩
    · rw [h]
      rcases eq_or_ne u t with rfl | hu
      · rw [hov]
        exact ho.pending r u
      · rw [hother u hu]
        exact ho.pending r u
    · rw [h]
      rcases eq_or_ne u t with rfl | hu
      · rw [hov]
        exact ⟨fun _ => rfl, fun _ => rfl⟩
      · rw [hother u hu]
        -- `t` holds the row, so no other transaction has an overlay of it
        constructor
        · intro heq
          exact absurd (Option.some.inj heq).symm hu
        · intro hsome
          exact absurd (ho.owner r c t u hc hw ((ho.pending r u).2 hsome)).symm hu
  · intro r c hc
    rcases release_row db t r with ⟨h, -⟩ | ⟨c0, -, -, -, -, h, -⟩
    · rw [h] at hc
      exact ho.kept r c hc
    · rw [h] at hc
      cases hc
      rfl
  · intro u r ov hov
    rcases eq_or_ne u t with rfl | hu
    · rcases release_row db u r with ⟨-, h⟩ | ⟨c, -, hc, -, -, -, h⟩
      · rw [h] at hov
        exact ho.keptOverlay u r ov hov
      · rw [h] at hov
        cases hov
        exact ho.kept r c hc
    · rw [hother u hu] at hov
      exact ho.keptOverlay u r ov hov
  · intro r hfree
    rw [hslot] at hfree
    obtain ⟨hnone, hpend⟩ := ho.free r hfree
    rcases release_row db t r with ⟨h, -⟩ | ⟨c, -, hc, -⟩
    · rw [h]
      exact ⟨hnone, hpend⟩
    · rw [hnone] at hc
      cases hc
  · intro u r h
    rw [release_proj (fun x => x.touches r) (fun _ _ => rfl)] at h
    rw [hslot]
    exact ho.written u r h

/-- What the end of a transaction needs from each row. -/
theorem Ended.owned (h : Ended db db' t) (ho : Owned db) (hI : Inv db')
    (hrow : ∀ r, (db'.rows r).pending = (db.restored t r).pending ∧
      (∀ c, (db'.rows r).chain = some c → c.writerDel = false ∧
        ∀ u v, c.writer = some u → (db.restored t r).pending = some v → u = v) ∧
      ((db'.rows r).slot.isRecord = false → (db'.rows r).chain = none ∧ (db.rows r).pending = none) ∧
      ((db.rows r).slot.isRecord = true → (db'.rows r).slot.isRecord = true)) : Owned db' := by
  have hov : (db'.txn t).overlay = fun _ => none := by
    obtain ⟨x, hx, -, -, hov, -⟩ := h.self
    rw [Db.txn, hx]
    exact hov
  have hpend : ∀ r, (db'.rows r).pending = none ∨
      ((db.txn t).overlay r = none ∧ (db'.rows r).pending = (db.rows r).pending) := by
    intro r
    rw [(hrow r).1]
    cases hovt : (db.txn t).overlay r with
    | none => exact .inr ⟨rfl, by rw [restored_of_none hovt]⟩
    | some ov => exact .inl (restored_pending (by rw [hovt]; rfl))
  refine ⟨hI, ?_, ?_, fun r c hc => ((hrow r).2.1 c hc).1, ?_, ?_, ?_⟩
  · intro r c u v hc hu hv
    rw [(hrow r).1] at hv
    exact ((hrow r).2.1 c hc).2 u v hu hv
  · intro r u
    rcases eq_or_ne u t with rfl | hu
    · rw [hov]
      refine ⟨fun hp => ?_, fun hs => (by cases hs)⟩
      rcases hpend r with hnone | ⟨hovt, hp'⟩
      · rw [hnone] at hp
        cases hp
      · rw [hp', ho.pending r u, hovt] at hp
        cases hp
    · rw [Db.txn_congr (h.others u hu)]
      rcases hpend r with hnone | ⟨-, hp'⟩
      · rw [hnone]
        refine ⟨fun hp => (by cases hp), fun hs => ?_⟩
        -- an overlay of `u` means that `t` has none, so `pending` would still name `u`
        have hp := (ho.pending r u).2 hs
        have hovt : (db.txn t).overlay r = none := by
          by_contra hne
          have hpt := (ho.pending r t).2 (Option.isSome_iff_ne_none.2 hne)
          rw [hp] at hpt
          exact hu (Option.some.inj hpt)
        rw [(hrow r).1, restored_of_none hovt, hp] at hnone
        cases hnone
      · rw [hp']
        exact ho.pending r u
  · intro u r ov hsome
    rcases eq_or_ne u t with rfl | hu
    · rw [hov] at hsome
      cases hsome
    · rw [Db.txn_congr (h.others u hu)] at hsome
      exact ho.keptOverlay u r ov hsome
  · intro r hfree
    obtain ⟨hchain, hp⟩ := (hrow r).2.2.1 hfree
    refine ⟨hchain, ?_⟩
    rcases hpend r with hnone | ⟨-, hp'⟩
    · exact hnone
    · rw [hp', hp]
  · intro u r htouch
    rcases eq_or_ne u t with rfl | hu
    · obtain ⟨x, hx, -, hws, -⟩ := h.self
      rw [Db.txn, hx, Option.getD_some, Transaction.touches, hws] at htouch
      cases htouch
    · rw [Db.txn_congr (h.others u hu)] at htouch
      exact (hrow r).2.2.2 (ho.written u r htouch)

/-- The chain that commit and abort find: the overlay of `t` back in it. -/
theorem Owned.restored (ho : Owned db) {c : MvccChain} (hc : (db.restored t r).chain = some c) :
    c.writerDel = false ∧ ∀ u v, c.writer = some u → (db.restored t r).pending = some v → u = v := by
  cases hov : (db.txn t).overlay r with
  | none =>
      rw [restored_of_none hov] at hc ⊢
      exact ⟨ho.kept r c hc, fun u v => ho.owner r c u v hc⟩
  | some ov =>
      have hpend : (db.restored t r).pending = none := restored_pending (by rw [hov]; rfl)
      refine ⟨?_, fun u v _ hv => ?_⟩
      · simp only [Db.restored, Db.restoreWritersFromOverlays, hov] at hc
        cases hc
        exact ho.keptOverlay t r ov hov
      · rw [hpend] at hv
        cases hv

theorem Committed.owned (h : Committed db db' t) (ho : Owned db) (ht : db.Live t) : Owned db' := by
  refine h.ended.owned ho (h.inv ho.inv ht) ?_
  intro r
  cases htouch : (db.txn t).touches r with
  | false =>
      rw [h.untouched r htouch, restored_untouched ho.inv htouch]
      exact ⟨rfl, fun c hc => ⟨ho.kept r c hc, fun u v => ho.owner r c u v hc⟩, ho.free r, id⟩
  | true =>
      have hrec := ho.written t r htouch
      obtain ⟨row, hpub, hrow⟩ := h.touched r htouch
      have hslot : row.slot.isRecord = true := by
        rcases publishRow_cases hpub with ⟨rfl, -⟩ | ⟨c, slot, hc, -, rfl, hs⟩
        · rw [restored_slot]
          exact hrec
        · rcases hs with ⟨hd, -⟩ | ⟨-, -, rfl⟩ | ⟨-, -, -, rfl⟩
          · exact absurd ((ho.restored hc).1.symm.trans hd) (by decide)
          · rw [restored_slot]
            exact hrec
          · show (db.restored t r).slot.isRecord = true
            rw [restored_slot]
            exact hrec
      have hslot' : (db'.rows r).slot.isRecord = true := by
        rw [hrow]
        rcases reclaimRow_cases (db.watermark t) row with heq | ⟨c, v, -, -, -, -, -, -, heq⟩ <;>
          rw [heq] <;> exact hslot
      refine ⟨?_, ?_, fun hf => absurd (hslot'.symm.trans hf) (by decide), fun _ => hslot'⟩
      · rw [hrow, reclaimRow_pending, publishRow_pending hpub]
      · intro c hc
        have hc' : row.chain = some c := by
          rw [hrow] at hc
          rcases reclaimRow_cases (db.watermark t) row with heq | ⟨c0, v, -, -, -, -, -, -, heq⟩
          · rwa [heq] at hc
          · rw [heq] at hc
            cases hc
        rcases publishRow_cases hpub with ⟨rfl, -⟩ | ⟨c0, slot, hc0, -, rfl, -⟩
        · exact ho.restored hc'
        · obtain ⟨heq, -⟩ := prune_suffix hc'
          rw [heq]
          exact ⟨(ho.restored hc0).1, fun u v hu => by cases hu⟩

theorem undoRow_owned (t : TxnId) : ∀ (ws : List WriteRecord) (undone : Bool) (row : Row),
    (row.slot.isRecord = true → (undoRow t ws undone row).slot.isRecord = true) ∧
    ∀ c, (undoRow t ws undone row).chain = some c →
      c.writerDel = false ∧ c.writer = none ∨
        ∃ c0, row.chain = some c0 ∧ c.writerDel = c0.writerDel ∧ c.writer = c0.writer := by
  intro ws
  induction ws with
  | nil => exact fun _ row => ⟨id, fun c hc => .inr ⟨c, hc, rfl, rfl⟩⟩
  | cons w ws ih =>
      intro undone row
      unfold undoRow
      split
      · rename_i c1 hfilter
        obtain ⟨hslot, hchain⟩ := ih true (Db.undoVersionedRow c1 row)
        refine ⟨fun hrec => hslot ?_, fun c hc => ?_⟩
        · unfold Db.undoVersionedRow
          dsimp only
          split
          · exact hrec
          · split <;> exact hrec
        · rcases hchain c hc with h | ⟨c0, hc0, h1, h2⟩
          · exact .inl h
          · cases hc0
            exact .inl ⟨h1, h2⟩
      · obtain ⟨hslot, hchain⟩ := ih undone (if undone then row else Db.physicalUndoRow w row)
        refine ⟨fun hrec => hslot ?_, fun c hc => ?_⟩
        · split
          · exact hrec
          · unfold Db.physicalUndoRow
            dsimp only
            split
            · exact hrec
            · split <;> exact hrec
            · split
              · exact hrec
              · rfl
        · rcases hchain c hc with h | ⟨c0, hc0, h1, h2⟩
          · exact .inl h
          · split at hc0
            · exact .inr ⟨c0, hc0, h1, h2⟩
            · unfold Db.physicalUndoRow at hc0
              dsimp only at hc0
              split at hc0
              · cases hc0
                exact .inl ⟨h1, h2⟩
              · split at hc0 <;> exact .inr ⟨c0, hc0, h1, h2⟩
              · split at hc0 <;> exact .inr ⟨c0, hc0, h1, h2⟩

theorem Aborted.owned (h : Aborted db db' t) (ho : Owned db) (ht : db.Live t) : Owned db' := by
  refine h.ended.owned ho (h.inv ho.inv ht) ?_
  intro r
  cases htouch : (db.txn t).touches r with
  | false =>
      rw [h.rows r, undoRow_nil_of_untouched htouch, restored_untouched ho.inv htouch]
      exact ⟨rfl, fun c hc => ⟨ho.kept r c hc, fun u v => ho.owner r c u v hc⟩, ho.free r, id⟩
  | true =>
      have hrec := ho.written t r htouch
      obtain ⟨hslot, hchain⟩ := undoRow_owned t
        ((db.txn t).writeSet.reverse.filter fun w => w.row = r) false (db.restored t r)
      rw [restored_slot] at hslot
      have hslot' := hslot hrec
      rw [h.rows r]
      refine ⟨undoRow_pending _ _ _ _, ?_, fun hf => absurd (hslot'.symm.trans hf) (by decide),
        fun _ => hslot'⟩
      intro c hc
      rcases hchain c hc with ⟨h1, h2⟩ | ⟨c0, hc0, h1, h2⟩
      · refine ⟨h1, fun u v hu => ?_⟩
        rw [h2] at hu
        cases hu
      · rw [h1, h2]
        exact ho.restored hc0

theorem not_live_txn (hs : (db.txns t).isSome) (h : ¬ db.Live t) : (!(db.txn t).live) = true := by
  rw [live_iff] at h
  simp only [Transaction.live, Bool.not_eq_true', decide_eq_false_iff_not]
  exact fun hst => h ⟨hs, hst⟩

theorem opStep_owned {op : Op} (ho : Owned db) (h : opStep db op = some db') : Owned db' := by
  cases op with
  | begin explicit iso =>
      cases h
      exact begin_owned ho explicit iso
  | mvccInsert t r data =>
      obtain ⟨⟨ht, hfree⟩, heq⟩ := Option.ite_none_right_eq_some.1 h
      cases heq
      exact insert_owned ho ht hfree data
  | mvccWrite t r old new =>
      obtain ⟨⟨ht, hrec⟩, hdb⟩ := Option.ite_none_right_eq_some.1 h
      exact ((mvccWrite_spec db t r old (some new)).chainWrite hdb).owned ho ht hrec
  | mvccWriteColDelta t r visible off type deltaF deltaI =>
      obtain ⟨⟨ht, hrec⟩, hdb⟩ := Option.ite_none_right_eq_some.1 h
      exact (colDelta_chainWrite hdb).owned ho ht hrec
  | mvccWriteColPatch t r visible patches =>
      obtain ⟨⟨ht, hrec⟩, hdb⟩ := Option.ite_none_right_eq_some.1 h
      exact ((colPatch_spec db t r visible patches).chainWrite hdb).owned ho ht hrec
  | releaseStatementWrites t =>
      obtain ⟨ht, heq⟩ := Option.ite_none_right_eq_some.1 h
      cases heq
      exact release_owned ho ht
  | commit t =>
      obtain ⟨hs, hc⟩ := Option.ite_none_right_eq_some.1 h
      by_cases ht : db.Live t
      · exact (commit_spec ht.live hc).owned ho ht
      · rw [Db.commit, if_pos (not_live_txn hs ht)] at hc
        cases hc
        exact ho
  | abort t =>
      obtain ⟨hs, heq⟩ := Option.ite_none_right_eq_some.1 h
      cases heq
      by_cases ht : db.Live t
      · exact (abort_spec ht.live).owned ho ht
      · rw [Db.abort, if_pos (not_live_txn hs ht)]
        exact ho

theorem boot_owned (tabs : TabName → TabMeta) (files : TabName → RmFileHdr) (heap : RowId → Slot)
    (index : IndexId → IndexMap) : Owned (Db.boot tabs files heap index) where
  inv := boot_inv tabs files heap index
  owner := fun r c u v hc => by cases hc
  pending := fun r u => ⟨fun h => (by cases h), fun h => (by cases h)⟩
  kept := fun r c hc => by cases hc
  keptOverlay := fun u r ov h => by cases h
  free := fun r _ => ⟨rfl, rfl⟩
  written := fun u r h => by cases h

/-- Every state that the operations reach has its versions in commit order, one owner of a
row's uncommitted write at most, and live transactions with an overlay as pending writers. -/
theorem run_versionChains (tabs : TabName → TabMeta) (files : TabName → RmFileHdr)
    (heap : RowId → Slot) (index : IndexId → IndexMap) (ops : List Op) (db : Db)
    (h : run opStep (Db.boot tabs files heap index) ops = some db) : VersionChains db :=
  (run_invariant (fun _ _ _ ho hs => opStep_owned ho hs) ops _ db
    (boot_owned tabs files heap index) h).versionChains

/-- Two transactions on one `INT` column: an insert, a released write, a held delta, a write
that is turned down, a commit and an abort. -/
theorem run_versionChains_two : ∃ db, run opStep
    (Db.boot (fun _ => ⟨[⟨"a", .int, 4, 0⟩], [], by decide, by decide⟩) (fun _ => ⟨2, 4⟩)
      (fun r => ⟨decide (r.rid.slotNo = 0), ⟨[1, 0, 0, 0], none⟩⟩) (fun _ => []))
    [.begin true .snapshotIsolation, .begin true .snapshotIsolation,
      .mvccInsert 0 ⟨"t", ⟨1, 1⟩⟩ [2, 0, 0, 0],
      .mvccWrite 1 ⟨"t", ⟨1, 0⟩⟩ ⟨[1, 0, 0, 0], none⟩ [7, 0, 0, 0], .releaseStatementWrites 1,
      .mvccWriteColDelta 0 ⟨"t", ⟨1, 0⟩⟩ ⟨[1, 0, 0, 0], none⟩ 0 .int 0 1,
      .releaseStatementWrites 0, .commit 1, .abort 0] = some db ∧ VersionChains db := by
  have hrun : (run opStep
      (Db.boot (fun _ => ⟨[⟨"a", .int, 4, 0⟩], [], by decide, by decide⟩) (fun _ => ⟨2, 4⟩)
        (fun r => ⟨decide (r.rid.slotNo = 0), ⟨[1, 0, 0, 0], none⟩⟩) (fun _ => []))
      [.begin true .snapshotIsolation, .begin true .snapshotIsolation,
        .mvccInsert 0 ⟨"t", ⟨1, 1⟩⟩ [2, 0, 0, 0],
        .mvccWrite 1 ⟨"t", ⟨1, 0⟩⟩ ⟨[1, 0, 0, 0], none⟩ [7, 0, 0, 0], .releaseStatementWrites 1,
        .mvccWriteColDelta 0 ⟨"t", ⟨1, 0⟩⟩ ⟨[1, 0, 0, 0], none⟩ 0 .int 0 1,
        .releaseStatementWrites 0, .commit 1, .abort 0]).isSome = true := by decide +kernel
  obtain ⟨db, hdb⟩ := Option.isSome_iff_exists.1 hrun
  exact ⟨db, hdb, run_versionChains _ _ _ _ _ db hdb⟩

end Rmdb.Txn
