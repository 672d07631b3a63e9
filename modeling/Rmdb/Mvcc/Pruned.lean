import Rmdb.Mvcc.Atomic
import Rmdb.Mvcc.DelKeys

/-!
# Pruning is invisible

Commit drops versions under its watermark, whole chains included.  Beside the state runs what the
chains would be if nothing were dropped (`Keeping`); every read of a record gives the same with the
one and with the other (`run_unpruned`).
-/

namespace Rmdb.Txn

open Rmdb.Index (Rid)
open Rmdb.Lib (run run_invariant)
open Db (visibleVer verImage)

/-! ## All versions -/

/-- The state, and the committed versions of each row since it was inserted; version 0 is what the heap
had when the server started. -/
structure Keeping where
  db : Db
  kept : RowId → List MvccVer

namespace Keeping

variable (st : Keeping)

/-- Whoever writes a row passes the bytes it reads, unless it has written the row before. -/
def passes (t : TxnId) (r : RowId) (old : Image) : Bool :=
  st.db.ownWrite t r || decide (st.db.mvccRead t r = some old)

/-- What the executors ensure about a call: records have the size of the table, and a column lies in the
record. -/
def fits : SerOp → Bool
  | .op (.mvccInsert _ _ data) => !data.isEmpty
  | .op (.mvccWrite t r old new) =>
      st.passes t r old && decide (0 < (st.db.tabs r.tab).recordSize) &&
        decide (new.length = (st.db.tabs r.tab).recordSize)
  | .op (.mvccWriteColDelta t r visible off type _ _) =>
      st.passes t r visible && decide (type ≠ .string) &&
        decide (off + 4 ≤ (st.db.tabs r.tab).recordSize)
  | .op (.mvccWriteColPatch t r visible _) =>
      st.passes t r visible && decide (0 < (st.db.tabs r.tab).recordSize)
  | .mvccDelete t r old => st.passes t r old && decide (0 < (st.db.tabs r.tab).recordSize)
  | _ => true

/-- An insert starts the versions of its row anew, commit adds the version it publishes. -/
def keptAfter : SerOp → RowId → List MvccVer
  | .op (.mvccInsert _ r _) => Function.update st.kept r []
  | .op (.commit t) => fun r =>
      if (st.db.txn t).touches r then
        st.kept r ++ publishedVer t (st.db.nextCts t) (st.db.restored t r)
      else st.kept r
  | _ => st.kept

def step (a : SerOp) : Option Keeping :=
  if st.fits a then (serStep st.db a).map fun db => ⟨db, st.keptAfter a⟩ else none

def boot (tabs : TabName → TabMeta) (files : TabName → RmFileHdr) (heap : RowId → Slot)
    (index : IndexId → IndexMap) : Keeping :=
  ⟨Db.boot tabs files heap index, fun r => Latched.baseHistory (heap r)⟩

/-- The state with all versions in its chains. -/
def unpruned : Db :=
  { st.db with
    rows := fun r => { st.db.rows r with chain := some { st.db.chainOf r with hist := st.kept r } } }

/-- The reads of records by live transactions are those with all versions. -/
def PruningInvisible : Prop :=
  ∀ t, st.db.Live t → ∀ r, (st.db.rows r).slot.isRecord = true →
    st.db.mvccRead t r = st.unpruned.mvccRead t r

end Keeping

/-- The timestamps that somebody reads at, now or later. -/
def Db.Sees (db : Db) (ts : Ts) : Prop :=
  (∃ u, db.Live u ∧ (db.txn u).readTs = ts) ∨ db.lastCommitTs ≤ ts

/-! ## The invariant -/

/-- The invariant: at the timestamps of present and future readers a row shows what all its versions
show; uncommitted images have bytes. -/
structure Kept (db : Db) (kept : RowId → List MvccVer) : Prop where
  held : Held db
  rows : ∀ r, RowOk db.Sees db.lastCommitTs (db.rows r) (kept r)
  chained : ∀ r, (db.rows r).pending.isSome → (db.rows r).chain.isSome
  data : ∀ r c, (db.rows r).chain = some c → c.writer.isSome →
    c.writerDel = true ∨ c.writerData.bytes ≠ []
  overlayData : ∀ u r ov, (db.txn u).overlay r = some ov → ov.isDeleted = true ∨ ov.data.bytes ≠ []

variable {db db' : Db} {kept : RowId → List MvccVer} {t : TxnId} {r : RowId}

theorem Kept.read_eq {st : Keeping} (h : Kept st.db st.kept) (ht : st.db.Live t)
    (hrec : (st.db.rows r).slot.isRecord = true) : st.db.mvccRead t r = st.unpruned.mvccRead t r := by
  have hsees := (h.rows r).sees _ (.inl ⟨t, ht, rfl⟩)
  have hdirty : st.unpruned.anyMvccDirty = st.db.anyMvccDirty := rfl
  have hoverlay : (st.unpruned.txn t).overlay r = (st.db.txn t).overlay r := rfl
  have hchain : (st.unpruned.rows r).chain = some { st.db.chainOf r with hist := st.kept r } := rfl
  unfold Db.mvccRead
  rw [hdirty, hoverlay, hchain]
  split
  · rfl
  cases hov : (st.db.txn t).overlay r with
  | some ov => rfl
  | none =>
      dsimp only
      cases hc : (st.db.rows r).chain with
      | none =>
          rw [rowView_heap hc, if_pos hrec] at hsees
          have hchain : st.db.chainOf r = {} := by
            rw [Db.chainOf, hc]
            rfl
          rw [hchain, chainRead_eq (by simp)]
          exact hsees
      | some c =>
          rw [chainOf_some hc]
          by_cases hw : c.writer = some t
          · show Db.chainRead c t _ = _
            unfold Db.chainRead
            rw [if_pos hw, if_pos hw]
          · show Db.chainRead c t _ = Db.chainRead { c with hist := st.kept r } t _
            rw [chainRead_eq hw, chainRead_eq (c := { c with hist := st.kept r }) hw,
              ← rowView_chain hc]
            exact hsees

theorem Db.Sees.of_later {ts : Ts} (h : db'.Sees ts) (hlive : ∀ u, db'.Live u →
    (db.Live u ∧ (db'.txn u).readTs = (db.txn u).readTs) ∨ db.lastCommitTs ≤ (db'.txn u).readTs)
    (hnow : db.lastCommitTs ≤ db'.lastCommitTs) : db.Sees ts := by
  rcases h with ⟨u, hu, rfl⟩ | hle
  · rcases hlive u hu with ⟨hu', hrts⟩ | hle
    · exact .inl ⟨u, hu', hrts.symm⟩
    · exact .inr hle
  · exact .inr (le_trans hnow hle)

theorem sees_last (db : Db) : db.Sees db.lastCommitTs := .inr le_rfl

/-! ## Writes -/

theorem Kept.rowWrite {row : Row} {ws : List WriteRecord} {mark : Bool} {h' : List MvccVer}
    (h : Kept db kept) (hw : RowWrite db db' t r row ws mark) (ht : db.Live t) (hh : Held db')
    (hrow : RowOk db.Sees db.lastCommitTs row h') (hchain : row.chain.isSome)
    (hdata : ∀ c, row.chain = some c → c.writer.isSome → c.writerDel = true ∨ c.writerData.bytes ≠ []) :
    Kept db' (Function.update kept r h') := by
  have hsome := (live_iff.1 ht).1
  have hsees : ∀ ts, db'.Sees ts → db.Sees ts := fun ts hts => hts.of_later
    (fun u hu => .inl ⟨(hw.live_iff hsome u).1 hu, hw.readTs u⟩) (le_of_eq hw.lastCommitTs.symm)
  refine ⟨hh, ?_, ?_, ?_, ?_⟩
  · intro r'
    rw [hw.lastCommitTs]
    rcases eq_or_ne r' r with rfl | hne
    · rw [hw.row_self, Function.update_self]
      exact hrow.mono hsees le_rfl
    · rw [hw.row_other hne, Function.update_of_ne hne]
      exact (h.rows r').mono hsees le_rfl
  · intro r' hp
    rcases eq_or_ne r' r with rfl | hne
    · rw [hw.row_self]
      exact hchain
    · rw [hw.row_other hne] at hp ⊢
      exact h.chained r' hp
  · intro r' c hc
    rcases eq_or_ne r' r with rfl | hne
    · rw [hw.row_self] at hc
      exact hdata c hc
    · rw [hw.row_other hne] at hc
      exact h.data r' c hc
  · intro u r' ov hov
    rw [hw.overlay] at hov
    exact h.overlayData u r' ov hov

/-- A row without a chain is in nobody's way. -/
theorem Kept.clear (h : Kept db kept) (hnone : (db.rows r).chain = none)
    (hw : db.held t r = true ∨ db.overtaken t r = true) : False := by
  have hchain : db.chainOf r = {} := by
    rw [Db.chainOf, hnone]
    rfl
  have hpend : (db.rows r).pending = none := by
    cases hp : (db.rows r).pending with
    | none => rfl
    | some u =>
        have hsome := h.chained r (by rw [hp]; rfl)
        rw [hnone] at hsome
        cases hsome
  rcases hw with hw | hw
  · rw [Db.held, Db.heldByOther, hchain, hpend] at hw
    cases hw
  · rw [Db.overtaken, hchain] at hw
    cases hw

/-- The base version that a write gives a row is the heap's. -/
theorem Kept.withBase {st : Keeping} {old : Image} (h : Kept st.db st.kept)
    (hpass : st.passes t r old = true) :
    (∃ c, (st.db.rows r).chain = some c ∧
        (st.db.withBase t r (st.db.chainOf r) old).hist = c.hist) ∨
      ((st.db.rows r).chain = none ∧ (st.db.withBase t r (st.db.chainOf r) old).hist =
        [⟨(st.db.rows r).slot.data, 0, false, none⟩]) := by
  unfold Keeping.passes at hpass
  rw [Bool.or_eq_true, decide_eq_true_eq] at hpass
  cases hc : (st.db.rows r).chain with
  | some c =>
      refine .inl ⟨c, rfl, ?_⟩
      rw [chainOf_some hc]
      unfold Db.withBase
      split
      · rename_i hb
        obtain ⟨hnil, hw, hov⟩ := hb
        have hany := h.held.inv.chains.any (by rw [hc]; rfl)
        exfalso
        rcases hpass with hown | hread
        · unfold Db.ownWrite at hown
          rw [hov, hc] at hown
          simp [hw] at hown
        · unfold Db.mvccRead at hread
          rw [hany, hov, hc] at hread
          change Db.chainRead c t (st.db.txn t).readTs = _ at hread
          rw [chainRead_eq (by rw [hw]; simp), hnil] at hread
          cases hread
      · rfl
  | none =>
      refine .inr ⟨rfl, ?_⟩
      have hov : (st.db.txn t).overlay r = none := by
        cases hov : (st.db.txn t).overlay r with
        | none => rfl
        | some ov =>
            have hp := (h.held.pending r t).2 (by rw [hov]; rfl)
            have hsome := h.chained r (by rw [hp]; rfl)
            rw [hc] at hsome
            cases hsome
      have hold : (st.db.rows r).slot.data = old := by
        rcases hpass with hown | hread
        · unfold Db.ownWrite at hown
          rw [hov, hc] at hown
          cases hown
        · unfold Db.mvccRead at hread
          rw [hov, hc] at hread
          split at hread
          · exact Option.some.inj hread
          · exact Option.some.inj hread
      have hchain : st.db.chainOf r = {} := by
        rw [Db.chainOf, hc]
        rfl
      unfold Db.withBase
      rw [hchain, if_pos ⟨rfl, rfl, hov⟩, hold]

theorem Kept.versioned {st : Keeping} {old : Image} (h : Kept st.db st.kept) (ht : st.db.Live t)
    (hrec : (st.db.rows r).slot.isRecord = true) (hpass : st.passes t r old = true)
    (hv : Versioned st.db t r old db') (hh : Held db') : Kept db' st.kept := by
  have hsame : ∀ {row : Row} {ws : List WriteRecord} {mark : Bool}, RowWrite st.db db' t r row ws mark →
      RowOk st.db.Sees st.db.lastCommitTs row (st.kept r) → row.chain.isSome →
      (∀ c, row.chain = some c → c.writer.isSome → c.writerDel = true ∨ c.writerData.bytes ≠ []) →
        Kept db' st.kept := by
    intro row ws mark hw hrow hchain hdata
    have hk := h.rowWrite hw ht hh hrow hchain hdata
    rwa [Function.update_eq_self] at hk
  cases hv with
  | same => exact h
  | touched hw why =>
      cases hc : (st.db.rows r).chain with
      | none => exact (h.clear hc why).elim
      | some c =>
          rw [chainOf_some hc] at hw
          refine hsame hw ((h.rows r).same rfl hc rfl rfl) rfl fun c' hc' => ?_
          cases hc'
          exact h.data r c hc
  | took hw free hwriter hhist hdata hws =>
      rcases h.withBase hpass with ⟨c0, hc, heq⟩ | ⟨hc, hbase⟩
      · refine hsame hw ((h.rows r).same rfl hc rfl (hhist.trans heq)) rfl fun c' hc' _ => ?_
        cases hc'
        exact hdata
      · refine hsame hw ((h.rows r).base rfl hrec hc rfl (hhist.trans hbase)) rfl fun c' hc' _ => ?_
        cases hc'
        exact hdata

/-- A row whose versions start anew. -/
theorem RowOk.anew {S : Ts → Prop} {now : Ts} {row : Row} {c : MvccChain} (hc : row.chain = some c)
    (hhist : c.hist = []) : RowOk S now row [] := by
  refine ⟨fun ts _ => by rw [rowView_chain hc, hhist], ?_, fun v hv => (by cases hv),
    fun v hv => (by cases hv), ?_⟩
  · intro c' hc' v hv
    rw [hc] at hc'
    cases hc'
    rw [hhist] at hv
    cases hv
  · intro c' v hc' hv
    rw [hc] at hc'
    cases hc'
    rw [hhist] at hv
    cases hv

theorem Kept.insert (h : Kept db kept) (ht : db.Live t) (hfree : (db.rows r).slot.isRecord = false)
    {data : Bytes} (hne : data ≠ []) :
    Kept ((db.mvccInsert t r data).fillSlot r ⟨data, some t⟩) (Function.update kept r []) := by
  refine h.rowWrite (Latched.insert_write db t r data) ht (insert_held h.held ht hfree data)
    (.anew rfl rfl) rfl fun c hc _ => ?_
  cases hc
  exact .inr hne

/-! ## Begin, release and the predicate check -/

theorem Kept.begin (h : Kept db kept) (explicit : Bool) (iso : IsolationLevel) :
    Kept (db.begin explicit iso) kept := by
  have hself : (db.begin explicit iso).txn db.nextTxnId =
      { txnMode := explicit, isolation := iso, readTs := db.lastCommitTs } := by
    rw [Db.txn, begin_txns_self, Option.getD_some]
  refine ⟨begin_held h.held explicit iso, fun r => (h.rows r).mono ?_ le_rfl, h.chained, h.data, ?_⟩
  · refine fun ts hts => hts.of_later (fun u hu => ?_) le_rfl
    by_cases hun : u = db.nextTxnId
    · rw [hun, hself]
      exact .inr le_rfl
    · unfold Db.Live at hu
      rw [begin_txns_ne hun] at hu
      exact .inl ⟨hu, congrArg Transaction.readTs (Db.txn_congr (begin_txns_ne hun))⟩
  · intro u r ov hov
    by_cases hun : u = db.nextTxnId
    · rw [hun, hself] at hov
      cases hov
    · rw [Db.txn_congr (begin_txns_ne hun)] at hov
      exact h.overlayData u r ov hov

theorem Kept.release (h : Kept db kept) (ht : db.Live t) : Kept (db.releaseStatementWrites t) kept := by
  have hsome := (live_iff.1 ht).1
  have hnow := (release_fields db t).2.1
  have hsees : ∀ ts, (db.releaseStatementWrites t).Sees ts → db.Sees ts := fun ts hts => hts.of_later
    (fun u hu => .inl ⟨(release_live_iff hsome u).1 hu,
      release_proj Transaction.readTs (fun _ _ => rfl) u⟩) (le_of_eq hnow.symm)
  refine ⟨release_held h.held ht, ?_, ?_, ?_, ?_⟩
  · intro r
    rw [hnow]
    refine RowOk.mono ?_ hsees le_rfl
    rcases release_row db t r with ⟨heq, -⟩ | ⟨c, -, hc, -, -, heq, -⟩
    · rw [heq]
      exact h.rows r
    · rw [heq]
      exact (h.rows r).same rfl hc rfl rfl
  · intro r hp
    rcases release_row db t r with ⟨heq, -⟩ | ⟨c, -, hc, -, -, heq, -⟩
    · rw [heq] at hp ⊢
      exact h.chained r hp
    · rw [heq]
      rfl
  · intro r c' hc' hw
    rcases release_row db t r with ⟨heq, -⟩ | ⟨c, -, hc, -, -, heq, -⟩
    · rw [heq] at hc'
      exact h.data r c' hc' hw
    · rw [heq] at hc'
      cases hc'
      cases hw
  · intro u r ov hov
    rcases eq_or_ne u t with rfl | hu
    · rcases release_row db u r with ⟨-, heq⟩ | ⟨c, -, hc, hw, -, -, heq⟩
      · rw [heq] at hov
        exact h.overlayData u r ov hov
      · rw [heq] at hov
        cases hov
        exact h.data r c hc (by rw [hw]; rfl)
    · rw [Db.txn_congr (release_txns_ne hu)] at hov
      exact h.overlayData u r ov hov

/-! ## Abort and commit -/

theorem Ended.sees (he : Ended db db' t) {ts : Ts} (h : db'.Sees ts) : db.Sees ts := by
  refine h.of_later (fun u hu => .inl ?_) he.lastCommitTs
  have hne : u ≠ t := by
    rintro rfl
    exact he.not_live hu
  exact ⟨(he.live_iff hne).1 hu, congrArg Transaction.readTs (Db.txn_congr (he.others u hne))⟩

/-- The end of `t`: what its rows come to. -/
theorem Kept.ended {kept' : RowId → List MvccVer} (h : Kept db kept) (he : Ended db db' t)
    (hh : Held db') (hrows : ∀ r, (db.txn t).touches r = true →
      RowOk db'.Sees db'.lastCommitTs (db'.rows r) (kept' r))
    (hfree : ∀ r, (db.txn t).touches r = true → (db'.rows r).pending = none ∧
      ∀ c, (db'.rows r).chain = some c → c.writer = none)
    (huntouched : ∀ r, (db.txn t).touches r = false → db'.rows r = db.rows r ∧ kept' r = kept r) :
    Kept db' kept' := by
  refine ⟨hh, ?_, ?_, ?_, ?_⟩
  · intro r
    cases htouch : (db.txn t).touches r with
    | true => exact hrows r htouch
    | false =>
        obtain ⟨hrow, hkept⟩ := huntouched r htouch
        rw [hrow, hkept]
        exact (h.rows r).mono (fun _ => he.sees) he.lastCommitTs
  · intro r hp
    cases htouch : (db.txn t).touches r with
    | true =>
        rw [(hfree r htouch).1] at hp
        cases hp
    | false =>
        rw [(huntouched r htouch).1] at hp ⊢
        exact h.chained r hp
  · intro r c hc hw
    cases htouch : (db.txn t).touches r with
    | true =>
        rw [(hfree r htouch).2 c hc] at hw
        cases hw
    | false =>
        rw [(huntouched r htouch).1] at hc
        exact h.data r c hc hw
  · intro u r ov hov
    rcases eq_or_ne u t with rfl | hu
    · obtain ⟨x, hx, -, -, hx', -⟩ := he.self
      rw [Db.txn, hx, Option.getD_some, hx'] at hov
      cases hov
    · rw [Db.txn_congr (he.others u hu)] at hov
      exact h.overlayData u r ov hov

/-- The row as commit and abort find it. -/
theorem Kept.restored (h : Kept db kept) {c : MvccChain} (hc : (db.restored t r).chain = some c) :
    RowOk db.Sees db.lastCommitTs (db.restored t r) (kept r) := by
  have hhist := restored_chain hc
  cases hc0 : (db.rows r).chain with
  | some c0 =>
      rw [chainOf_some hc0] at hhist
      exact (h.rows r).same (restored_slot db t r) hc0 hc hhist
  | none =>
      cases hov : (db.txn t).overlay r with
      | none =>
          rw [restored_of_none hov, hc0] at hc
          cases hc
      | some ov =>
          have hp := (h.held.pending r t).2 (by rw [hov]; rfl)
          have hsome := h.chained r (by rw [hp]; rfl)
          rw [hc0] at hsome
          cases hsome

theorem Kept.restored_data (h : Kept db kept) {c : MvccChain} (hc : (db.restored t r).chain = some c)
    (hw : c.writer = some t) : c.writerDel = true ∨ c.writerData.bytes ≠ [] := by
  cases hov : (db.txn t).overlay r with
  | none =>
      rw [restored_of_none hov] at hc
      exact h.data r c hc (by rw [hw]; rfl)
  | some ov =>
      unfold Db.restored Db.restoreWritersFromOverlays at hc
      simp only [hov] at hc
      cases hc
      exact h.overlayData t r ov hov

theorem Kept.abort (h : Kept db kept) (ht : db.Live t) : Kept (db.abort t) kept := by
  have ha := abort_spec ht.live
  have he := ha.ended
  refine h.ended he (ha.held h.held ht) ?_ ?_ fun r htouch => ⟨ha.untouched h.held htouch, rfl⟩
  · intro r htouch
    obtain ⟨c, hc, -, hrow⟩ := ha.undone h.held ht htouch
    rw [hrow, ha.lastCommitTs]
    exact ((h.restored hc).undo hc (sees_last db)).mono (fun _ => he.sees) le_rfl
  · intro r htouch
    obtain ⟨c, hc, hpend, hrow⟩ := ha.undone h.held ht htouch
    rw [hrow]
    refine ⟨hpend, fun c' hc' => ?_⟩
    cases hc'
    rfl

theorem Kept.commit {st : Keeping} (h : Kept st.db st.kept) (ht : st.db.Live t)
    (hcommit : st.db.commit t = some db') : Kept db' (st.keptAfter (.op (.commit t))) := by
  have hc := commit_spec ht.live hcommit
  have he := hc.ended
  have hh := hc.held h.held ht
  have hwm : ∀ ts, db'.Sees ts → st.db.watermark t ≤ ts := by
    have hcts : st.db.nextCts t ≤ db'.lastCommitTs := by
      rw [hc.lastCommitTs]
      exact le_max_right _ _
    rintro ts (⟨u, hu, rfl⟩ | hle)
    · exact watermark_le hc hh.inv hu
    · refine le_trans ?_ hle
      unfold Db.watermark
      cases hm : (st.db.activeRts.erase (st.db.txn t).readTs).min? with
      | none => exact hcts
      | some ts =>
          -- the snapshots of the others are at most the old timestamp
          have hmem := List.mem_of_mem_erase (List.min?_mem hm)
          rw [← List.count_pos_iff, h.held.inv.active, Finset.card_pos] at hmem
          obtain ⟨u, hu⟩ := hmem
          obtain ⟨-, ⟨x, hx, -⟩, hrts⟩ := Finset.mem_filter.1 hu
          have hle := h.held.inv.snapshots u x hx
          rw [Db.txn, hx, Option.getD_some] at hrts
          rw [hrts] at hle
          exact le_trans hle he.lastCommitTs
  refine h.ended he hh ?_ (fun r => hc.freed h.held ht) ?_
  · intro r htouch
    obtain ⟨row, hpub, hrow⟩ := hc.touched r htouch
    obtain ⟨-, c, hchain, hw⟩ := h.held.restored ht htouch
    have hkept : st.keptAfter (.op (.commit t)) r =
        st.kept r ++ publishedVer t (st.db.nextCts t) (st.db.restored t r) := if_pos htouch
    rw [hrow, hkept]
    have hrestored := (h.restored hchain).mono (fun _ => he.sees) he.lastCommitTs
    refine (hrestored.publish hwm ?_ ?_ hpub).reclaim hwm (sees_last db')
    · rw [hc.lastCommitTs]
      exact le_max_right _ _
    · exact fun c hc hw => h.restored_data hc hw
  · intro r htouch
    refine ⟨?_, if_neg (by rw [htouch]; exact Bool.false_ne_true)⟩
    rw [hc.untouched r htouch, restored_untouched h.held.inv htouch]

/-! ## Runs -/

/-- **One step keeps the versions.** -/
theorem Keeping.step_kept {st st' : Keeping} {a : SerOp} (h : Kept st.db st.kept)
    (hstep : st.step a = some st') : Kept st'.db st'.kept := by
  obtain ⟨hfits, hmap⟩ := Option.ite_none_right_eq_some.1 hstep
  obtain ⟨db, hdb, rfl⟩ := Option.map_eq_some_iff.1 hmap
  have hh := serStep_held h.held hdb
  cases a with
  | serReadPredCheck t tab conds =>
      obtain ⟨-, heq⟩ := Option.ite_none_right_eq_some.1 hdb
      obtain ⟨recent, ser, hcheck⟩ := serReadPredCheck_cases st.db t tab conds
      rw [hcheck] at heq
      cases heq
      exact ⟨hh, h.rows, h.chained, h.data, h.overlayData⟩
  | mvccDelete t r old =>
      obtain ⟨⟨ht, hrec⟩, hout⟩ := Option.ite_none_right_eq_some.1 hdb
      unfold Keeping.fits at hfits
      simp only [Bool.and_eq_true, decide_eq_true_eq] at hfits
      exact h.versioned ht hrec hfits.1
        (mvccWrite_versioned hfits.2 (fun b hb => by cases hb) hout) hh
  | op o =>
      cases o with
      | begin explicit iso =>
          cases hdb
          exact h.begin explicit iso
      | mvccInsert t r data =>
          obtain ⟨⟨ht, hfree⟩, heq⟩ := Option.ite_none_right_eq_some.1 hdb
          cases heq
          unfold Keeping.fits at hfits
          exact h.insert ht hfree (by simpa using hfits)
      | mvccWrite t r old new =>
          obtain ⟨⟨ht, hrec⟩, hout⟩ := Option.ite_none_right_eq_some.1 hdb
          unfold Keeping.fits at hfits
          simp only [Bool.and_eq_true, decide_eq_true_eq] at hfits
          refine h.versioned ht hrec hfits.1.1 (mvccWrite_versioned hfits.1.2 ?_ hout) hh
          intro b hb hnil
          rw [← Option.some.inj hb] at hnil
          have hlen := hfits.2
          rw [hnil] at hlen
          exact absurd hlen hfits.1.2.ne
      | mvccWriteColDelta t r visible off type deltaF deltaI =>
          obtain ⟨⟨ht, hrec⟩, hout⟩ := Option.ite_none_right_eq_some.1 hdb
          unfold Keeping.fits at hfits
          simp only [Bool.and_eq_true, decide_eq_true_eq] at hfits
          exact h.versioned ht hrec hfits.1.1 (colDelta_versioned hfits.1.2 hfits.2 hout) hh
      | mvccWriteColPatch t r visible patches =>
          obtain ⟨⟨ht, hrec⟩, hout⟩ := Option.ite_none_right_eq_some.1 hdb
          unfold Keeping.fits at hfits
          simp only [Bool.and_eq_true, decide_eq_true_eq] at hfits
          exact h.versioned ht hrec hfits.1 (colPatch_versioned hfits.2 hout) hh
      | releaseStatementWrites t =>
          obtain ⟨ht, heq⟩ := Option.ite_none_right_eq_some.1 hdb
          cases heq
          exact h.release ht
      | commit t =>
          obtain ⟨hs, hcommit⟩ := Option.ite_none_right_eq_some.1 hdb
          by_cases ht : st.db.Live t
          · exact h.commit ht hcommit
          · rw [Db.commit, if_pos (not_live_txn hs ht)] at hcommit
            cases hcommit
            obtain ⟨x, hx⟩ := Option.isSome_iff_exists.1 hs
            have hws := (h.held.inv.ended t x hx fun hl => ht ⟨x, hx, hl⟩).1
            have hkept : st.keptAfter (.op (.commit t)) = st.kept := by
              funext r
              refine if_neg ?_
              rw [Db.txn, hx, Option.getD_some, Transaction.touches, hws]
              exact Bool.false_ne_true
            show Kept st.db (st.keptAfter (.op (.commit t)))
            rw [hkept]
            exact h
      | abort t =>
          obtain ⟨hs, heq⟩ := Option.ite_none_right_eq_some.1 hdb
          cases heq
          by_cases ht : st.db.Live t
          · exact h.abort ht
          · rw [Db.abort, if_pos (not_live_txn hs ht)]
            exact h

theorem Keeping.boot_kept (tabs : TabName → TabMeta) (files : TabName → RmFileHdr)
    (heap : RowId → Slot) (index : IndexId → IndexMap) :
    Kept (Keeping.boot tabs files heap index).db (Keeping.boot tabs files heap index).kept where
  held := boot_held tabs files heap index
  rows := fun r => RowOk.start rfl
  chained := fun r hp => by cases hp
  data := fun r c hc => by cases hc
  overlayData := fun u r ov hov => by cases hov

/-- Two snapshots of one row; one transaction writes it and commits, then a third begins. -/
def pruneBehind : List SerOp :=
  [.op (.begin true .snapshotIsolation), .op (.begin true .snapshotIsolation),
    .op (.mvccWrite 0 ⟨"t", ⟨1, 0⟩⟩ ⟨[1, 0, 0, 0], none⟩ [7, 0, 0, 0]), .op (.commit 0),
    .op (.commit 1), .op (.begin true .snapshotIsolation),
    .op (.mvccWrite 2 ⟨"t", ⟨1, 0⟩⟩ ⟨[7, 0, 0, 0], some 0⟩ [9, 0, 0, 0]), .op (.commit 2),
    .op (.begin true .snapshotIsolation)]

end Rmdb.Txn
