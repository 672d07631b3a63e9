import Rmdb.Mvcc.Conflict

/-!
# Refused writes

The write routines name their transaction in the chain before their last checks, and append the write
record at the end.  A call that fails in between leaves a row that `abort` does not know of: a delta
outside the record, a list of patches of which one cannot be applied (`run_refusalUndone_iff`).
-/

namespace Rmdb.Txn

open Rmdb.Index (Rid)
open Rmdb.Lib (Along along_congr)

variable {db db' : Db} {t : TxnId} {r : RowId}

/-! ## Patches that can be applied -/

namespace MvccColPatch

variable (p : MvccColPatch)

/-- Can the patch be applied to the bytes that the transaction reads? -/
def fitsVisible (m : TabMeta) : Bool :=
  decide (p.offset + p.len ≤ m.recordSize) &&
    (!p.isArith || (m.findCol p.rhsCol).any fun rcol =>
      decide (p.type = .float ∧ rcol.type = .float ∧ p.len = 4 ∧ rcol.len = 4) ||
        decide (p.type = .int ∧ rcol.type = .int ∧ p.len = 4 ∧ rcol.len = 4))

/-- Can the patch be put on top of a newer version? -/
def fitsRebase (len : Nat) : Bool :=
  decide (p.offset + p.len ≤ len) &&
    (!p.isArith || decide (p.type = .int ∧ p.len = 4) || decide (p.type = .float ∧ p.len = 4))

/-- Can the patch be applied, on top of the newer version if there is one? -/
def fits (m : TabMeta) : Option MvccVer → Bool
  | none => p.fitsVisible m
  | some _ => p.fitsRebase m.recordSize

theorem applyFromVisible_isSome (visible dest : Bytes) (m : TabMeta) :
    (p.applyFromVisible visible dest m.recordSize m).isSome = p.fitsVisible m := by
  unfold applyFromVisible fitsVisible
  by_cases hlen : p.offset + p.len > m.recordSize
  · rw [if_pos hlen, decide_eq_false (by omega), Bool.false_and]
    rfl
  rw [if_neg hlen, decide_eq_true (by omega), Bool.true_and]
  cases harith : p.isArith with
  | false => rfl
  | true =>
      simp only [Bool.not_true, Bool.false_eq_true, if_false, Bool.false_or]
      cases m.findCol p.rhsCol with
      | none => rfl
      | some rcol =>
          simp only [Option.any_some]
          by_cases hf : p.type = .float ∧ rcol.type = .float ∧ p.len = 4 ∧ rcol.len = 4
          · rw [if_pos hf, decide_eq_true hf]
            rfl
          · rw [if_neg hf, decide_eq_false hf, Bool.false_or]
            split
            · rename_i hi
              exact (decide_eq_true hi).symm
            · rename_i hi
              exact (decide_eq_false hi).symm

theorem applyRebase_isSome (visible latest dest : Bytes) (len : Nat) :
    (p.applyRebase visible latest dest len).isSome = p.fitsRebase len := by
  unfold applyRebase fitsRebase
  dsimp only
  by_cases hlen : p.offset + p.len > len
  · rw [if_pos hlen, decide_eq_false (by omega), Bool.false_and]
    rfl
  rw [if_neg hlen, decide_eq_true (by omega), Bool.true_and]
  cases harith : p.isArith with
  | false =>
      simp only [Bool.not_false, if_true, Bool.true_or]
      split
      · rfl
      · split <;> rfl
  | true =>
      simp only [Bool.not_true, Bool.false_eq_true, if_false, Bool.false_or]
      by_cases hi : p.type = .int ∧ p.len = 4
      · rw [if_pos hi, decide_eq_true hi]
        rfl
      · rw [if_neg hi, decide_eq_false hi, Bool.false_or]
        split
        · rename_i hf
          exact (decide_eq_true hf).symm
        · rename_i hf
          exact (decide_eq_false hf).symm

end MvccColPatch

/-- A list of patches goes through when each of them can be applied. -/
theorem applyPatches_snd {f : MvccColPatch → Bytes → Option Bytes} {fits : MvccColPatch → Bool}
    (hf : ∀ p d, (f p d).isSome = fits p) :
    ∀ (ps : List MvccColPatch) (d : Bytes), (applyPatches f ps d).2 = ps.all fits := by
  intro ps
  induction ps with
  | nil => exact fun d => rfl
  | cons p ps ih =>
      intro d
      have hp := hf p d
      rw [applyPatches, List.all_cons, ← hp]
      cases f p d with
      | none => rfl
      | some d' => exact ih d'

/-! ## Calls -/

/-- A call of `mvcc_write`, `mvcc_write_col_delta` or `mvcc_write_col_patch`. -/
inductive WriteCall where
  | update (call : UpdateCall)
  | delete (old : Image)

namespace WriteCall

def run (db : Db) (t : TxnId) (r : RowId) : WriteCall → WriteOutcome
  | update call => call.run db t r
  | delete old => db.mvccWrite t r old none

end WriteCall

/-- Is the version one that patches are not put on? -/
def Db.spoiled (db : Db) (r : RowId) (last : MvccVer) : Bool :=
  last.isDeleted || decide (last.data.bytes.length ≠ (db.tabs r.tab).recordSize)

/-- Does the call fail after it has named its transaction in the chain?  A delta does when its column
lies outside the record or is no number, a list of patches when one of them cannot be applied. -/
def WriteCall.halfWay (db : Db) (t : TxnId) (r : RowId) : WriteCall → Bool
  | update (.colDelta _ off type _ _) => !db.held t r && UpdateCall.misfits db r off type
  | update (.colPatch _ patches) =>
      !db.held t r && !(db.unseen t r).any (db.spoiled r) &&
        !patches.all fun p => p.fits (db.tabs r.tab) (db.unseen t r)
  | _ => false

/-- How a call leaves its row: only when it fails half way (`h`) does it name `t` in the chain without a
write record. -/
inductive Left (db : Db) (t : TxnId) (r : RowId) (h : Bool) : WriteOutcome → Prop where
  | same (whole : h = false) : Left db t r h (.refused db)
  | touched {db' : Db} (whole : h = false)
      (hw : RowWrite db db' t r ((db.rows r).withChain (db.chainOf r)) [] true) :
      Left db t r h (.refused db')
  | stranded {db' : Db} {c : MvccChain} (half : h = true)
      (hw : RowWrite db db' t r ((db.rows r).withChain c) [] true) (free : ¬ db.held t r)
      (hwriter : c.writer = some t) : Left db t r h (.refused db')
  | written {db' : Db} {c : MvccChain} {w : WriteRecord} {data : Image} (whole : h = false)
      (hw : RowWrite db db' t r ((db.rows r).withChain c) (db.newRecord t r w) true)
      (free : ¬ db.held t r) (hwriter : c.writer = some t) (hrow : w.row = r) :
      Left db t r h (.written db' data)
  | nullRead (whole : h = false) : Left db t r h .nullRead

theorem mvccWrite_left (db : Db) (t : TxnId) (r : RowId) (old : Image) (new : Option Bytes) :
    Left db t r false (db.mvccWrite t r old new) := by
  have hheld := touchChain_held db t r
  have hnewer := (touchChain_write db t r).newerVer (db.chainOf r)
  simp only [Db.mvccWrite, hheld, hnewer]
  split
  · exact .touched rfl (touchChain_write db t r)
  · rename_i hfree
    split
    · exact .written rfl (putVersion_write db t r old _ _) hfree rfl rfl
    · split
      · exact .touched rfl (touchChain_write db t r)
      · split
        · exact .nullRead rfl
        · split
          · exact .touched rfl (touchChain_write db t r)
          · exact .written rfl (putVersion_write db t r old _ _) hfree rfl rfl

theorem colDelta_left (db : Db) (t : TxnId) (r : RowId) (visible : Image) (off : Nat) (type : ColType)
    (deltaF deltaI : BitVec 32) :
    Left db t r ((WriteCall.update (.colDelta visible off type deltaF deltaI)).halfWay db t r)
      (db.mvccWriteColDelta t r visible off type deltaF deltaI) := by
  have hb := (touchChain_write db t r).withBase (db.chainOf r) visible
  have hf := (touchChain_write db t r).firstTouch (db.chainOf r)
  simp only [Db.mvccWriteColDelta, touchChain_held, hb, hf]
  by_cases hheld : db.held t r
  · rw [if_pos hheld]
    exact .touched (by simp [WriteCall.halfWay, hheld]) (touchChain_write db t r)
  · rw [if_neg hheld]
    have hmisfit : (type = .string ∨ off + 4 > (db.tabs r.tab).recordSize) ↔
        UpdateCall.misfits db r off type = true := by
      simp [UpdateCall.misfits]
    split
    · rename_i hbad
      refine .stranded ?_ (touchChain_setChain db t r _) hheld rfl
      simp [WriteCall.halfWay, hheld, hmisfit.1 hbad]
    · rename_i hfit
      refine .written ?_ (touchChain_written db t r visible _ true) hheld rfl rfl
      rw [hmisfit, Bool.not_eq_true] at hfit
      simp [WriteCall.halfWay, hfit]

theorem colPatch_left (db : Db) (t : TxnId) (r : RowId) (visible : Image)
    (patches : List MvccColPatch) :
    Left db t r ((WriteCall.update (.colPatch visible patches)).halfWay db t r)
      (db.mvccWriteColPatch t r visible patches) := by
  have hb := (touchChain_write db t r).withBase (db.chainOf r) visible
  have hf := (touchChain_write db t r).firstTouch (db.chainOf r)
  have hn := touchChain_newer db t r visible
  rw [hb] at hn
  simp only [Db.mvccWriteColPatch, touchChain_held, hb, hf, hn]
  by_cases hempty : patches.isEmpty
  · rw [if_pos hempty]
    refine .same ?_
    rw [List.isEmpty_iff.1 hempty]
    simp [WriteCall.halfWay]
  rw [if_neg hempty]
  by_cases hheld : db.held t r
  · rw [if_pos hheld]
    exact .touched (by simp [WriteCall.halfWay, hheld]) (touchChain_write db t r)
  rw [if_neg hheld]
  have hbase : (db.unseen t r).isSome →
      db.withBase t r (db.chainOf r) visible = db.chainOf r := by
    intro h
    unfold Db.unseen at h
    split at h
    · cases h
    · exact withBase_of_newer h visible
  have hhalf : (WriteCall.update (.colPatch visible patches)).halfWay db t r =
      (!(db.unseen t r).any (db.spoiled r) &&
        !patches.all fun p => p.fits (db.tabs r.tab) (db.unseen t r)) := by
    simp [WriteCall.halfWay, hheld]
  have hver : (if (db.chainOf r).writer = some t then none else db.newerVer t (db.chainOf r)) =
      db.unseen t r := rfl
  have hspoiled : ∀ newer : Option MvccVer, newer.any (fun last => last.isDeleted ||
      decide (last.data.bytes.length ≠ (db.tabs r.tab).recordSize)) = newer.any (db.spoiled r) :=
    fun _ => rfl
  rw [hhalf, hver, hspoiled]
  generalize db.unseen t r = newer at hbase ⊢
  cases hbad : newer.any (db.spoiled r) with
  | true =>
      rw [if_pos rfl]
      have hsome : newer.isSome := by
        cases newer with
        | none => cases hbad
        | some v => rfl
      rw [hbase hsome]
      exact .touched rfl (touchChain_setChain db t r _)
  | false =>
      rw [if_neg Bool.false_ne_true, Bool.not_false, Bool.true_and]
      generalize hout : applyPatches _ patches
        (Db.writeBase t (db.chainOf r) visible.bytes newer (db.tabs r.tab).recordSize) = out
      have hsnd : out.2 = patches.all fun p => p.fits (db.tabs r.tab) newer := by
        rw [← hout]
        refine applyPatches_snd (fun p d => ?_) patches _
        cases newer with
        | none => exact p.applyFromVisible_isSome _ _ _
        | some last => exact p.applyRebase_isSome _ _ _ _
      rw [← hsnd]
      obtain ⟨dest, ok⟩ := out
      cases ok with
      | true => exact .written rfl (touchChain_written db t r visible _ _) hheld rfl rfl
      | false => exact .stranded rfl (touchChain_setChain db t r _) hheld rfl

theorem WriteCall.left (db : Db) (t : TxnId) (r : RowId) (call : WriteCall) :
    Left db t r (call.halfWay db t r) (call.run db t r) := by
  cases call with
  | delete old => exact mvccWrite_left db t r old none
  | update call =>
      cases call with
      | write old new => exact mvccWrite_left db t r old (some new)
      | colDelta visible off type deltaF deltaI => exact colDelta_left db t r visible off type deltaF deltaI
      | colPatch visible patches => exact colPatch_left db t r visible patches

/-! ## Written rows are recorded -/

/-- Whoever is named in a chain or as a pending writer has a write record of the row. -/
structure Recorded (db : Db) : Prop where
  held : Held db
  recorded : ∀ u r, db.Owns u r → db.Live u ∧ (db.txn u).touches r = true

/-- A write of one record whose new owner, if any, has a write record. -/
theorem RowWrite.recorded {c : MvccChain} {s : Slot} {ws : List WriteRecord}
    (hw : RowWrite db db' t r { db.rows r with slot := s, chain := some c } ws true)
    (h : Recorded db) (ht : db.Live t) (hh : Held db')
    (hown : ∀ u, c.writer = some u → db.Owns u r ∨
      u = t ∧ ((db.txn t).touches r = true ∨ ∃ w ∈ ws, w.row = r)) : Recorded db' := by
  have hlive := hw.live_iff (Txn.live_iff.1 ht).1
  have hold : ∀ u r', db.Owns u r' → db'.Live u ∧ (db'.txn u).touches r' = true := by
    intro u r' ho
    obtain ⟨hl, htouch⟩ := h.recorded u r' ho
    exact ⟨(hlive u).2 hl, RowWrite.touches_of hw (.inl htouch)⟩
  refine ⟨hh, fun u r' ho => ?_⟩
  rcases RowWrite.owns hw ho with ho | ⟨rfl, hu⟩
  · exact hold u r' ho
  · rcases hown u hu with ho | ⟨rfl, hrec⟩
    · exact hold u r' ho
    · exact ⟨(hlive u).2 ht, RowWrite.touches_of hw (hrec.imp_right fun hw => ⟨rfl, hw⟩)⟩

/-- A call that does not fail half way, or fails on a row with a write record. -/
theorem Left.recorded {half : Bool} {out : WriteOutcome} (h : Left db t r half out)
    (hdb : out.db? = some db') (hrec : Recorded db) (ht : db.Live t) (hh : Held db')
    (hclean : half = true → (db.txn t).touches r = true) : Recorded db' := by
  cases h with
  | same whole =>
      cases hdb
      exact hrec
  | touched whole hw =>
      cases hdb
      exact RowWrite.recorded hw hrec ht hh fun u hu => .inl (owns_of_writer hu)
  | stranded hhalf hw free hwriter =>
      cases hdb
      refine RowWrite.recorded hw hrec ht hh fun u hu => .inr ?_
      rw [hwriter] at hu
      exact ⟨(Option.some.inj hu).symm, .inl (hclean hhalf)⟩
  | @written _ c w _ whole hw free hwriter hrow =>
      cases hdb
      refine RowWrite.recorded hw hrec ht hh fun u hu => .inr ?_
      rw [hwriter] at hu
      exact ⟨(Option.some.inj hu).symm, (touched_or_record hrec.held.inv
        (fun ho => (hrec.recorded t r ho).2) w).imp_right fun hmem => ⟨w, hmem, hrow⟩⟩
  | nullRead whole => cases hdb

theorem insert_recorded (h : Recorded db) (ht : db.Live t) (hfree : (db.rows r).slot.isRecord = false)
    (data : Bytes) : Recorded ((db.mvccInsert t r data).fillSlot r ⟨data, some t⟩) := by
  have h1 := mvccInsert_write db t r data
  have h2 := h1.trans (RowWrite.fillSlot _ t r ⟨data, some t⟩)
  rw [h1.row_self, List.append_nil, Bool.or_false] at h2
  refine RowWrite.recorded h2 h ht (insert_held h.held ht hfree data) ?_
  intro u hu
  exact .inr ⟨(Option.some.inj hu).symm, .inr ⟨_, List.mem_singleton_self _, rfl⟩⟩

/-- Nothing changes for the rows, and transactions only begin. -/
theorem begin_recorded (h : Recorded db) (explicit : Bool) (iso : IsolationLevel) :
    Recorded (db.begin explicit iso) := by
  refine ⟨begin_held h.held explicit iso, fun u r ho => ?_⟩
  obtain ⟨hl, htouch⟩ := h.recorded u r ho
  have hne : u ≠ db.nextTxnId := by
    rintro rfl
    obtain ⟨x, hx, -⟩ := hl
    rw [h.held.inv.fresh _ le_rfl] at hx
    cases hx
  refine ⟨?_, ?_⟩
  · unfold Db.Live
    rw [begin_txns_ne hne]
    exact hl
  · rw [Db.txn_congr (begin_txns_ne hne)]
    exact htouch

theorem release_recorded (h : Recorded db) (ht : db.Live t) :
    Recorded (db.releaseStatementWrites t) := by
  refine ⟨release_held h.held ht, fun u r ho => ?_⟩
  obtain ⟨hl, htouch⟩ := h.recorded u r (release_owns ho)
  rw [release_live_iff (live_iff.1 ht).1, release_proj (fun x => x.touches r) (fun _ _ => rfl)]
  exact ⟨hl, htouch⟩

theorem Ended.recorded (he : Ended db db' t) (h : Recorded db) (hh : Held db')
    (howns : ∀ u r, db'.Owns u r → (db.txn t).touches r = false ∧ db.Owns u r) : Recorded db' := by
  refine ⟨hh, fun u r ho => ?_⟩
  obtain ⟨hnot, hold⟩ := howns u r ho
  obtain ⟨hl, htouch⟩ := h.recorded u r hold
  have hne : u ≠ t := by
    rintro rfl
    rw [hnot] at htouch
    cases htouch
  rw [he.live_iff hne, Db.txn_congr (he.others u hne)]
  exact ⟨hl, htouch⟩

/-! ## What abort leaves -/

/-- What is left of a refused call of `t` once `t` has been aborted: nobody is named `t`, and whoever was
kept off the row by nobody but `t` can write it. -/
structure Traceless (db db' : Db) (t : TxnId) (r : RowId) : Prop where
  unnamed : ∀ r', ¬ (db'.abort t).Owns t r'
  writable : ∀ u, u ≠ t → (∀ v, db.Owns v r → v = t ∨ v = u) → (db'.abort t).held u r = false

/-- A row is kept from a transaction by another one that owns it. -/
theorem owner_of_held {u : TxnId} (h : db.held u r = true) : ∃ v, v ≠ u ∧ db.Owns v r := by
  simp only [Db.held, Db.heldByOther, Bool.or_eq_true, Bool.and_eq_true, decide_eq_true_eq] at h
  rcases h with ⟨hsome, hne⟩ | ⟨hsome, hne⟩
  · obtain ⟨v, hv⟩ := Option.isSome_iff_exists.1 hsome
    exact ⟨v, fun heq => hne (heq ▸ hv), .inr hv⟩
  · obtain ⟨v, hv⟩ := Option.isSome_iff_exists.1 hsome
    exact ⟨v, fun heq => hne (heq ▸ hv), owns_of_writer hv⟩

/-- A call gives its row to nobody but its transaction. -/
theorem Left.owns {half : Bool} {out : WriteOutcome} (h : Left db t r half out)
    (hdb : out.db? = some db') {u : TxnId} (ho : db'.Owns u r) : u = t ∨ db.Owns u r := by
  have hwrite : ∀ {c : MvccChain} {ws : List WriteRecord},
      RowWrite db db' t r ((db.rows r).withChain c) ws true →
        (∀ v, c.writer = some v → v = t ∨ db.Owns v r) → u = t ∨ db.Owns u r := by
    intro c ws hw hv
    rcases RowWrite.owns hw ho with hold | ⟨-, hu⟩
    · exact .inr hold
    · exact hv u hu
  cases h with
  | same whole =>
      cases hdb
      exact .inr ho
  | touched whole hw =>
      cases hdb
      exact hwrite hw fun v hv => .inr (owns_of_writer hv)
  | stranded half hw free hwriter =>
      cases hdb
      refine hwrite hw fun v hv => .inl ?_
      rw [hwriter] at hv
      exact (Option.some.inj hv).symm
  | written whole hw free hwriter hrow =>
      cases hdb
      refine hwrite hw fun v hv => .inl ?_
      rw [hwriter] at hv
      exact (Option.some.inj hv).symm
  | nullRead whole => cases hdb

theorem RowWrite.live {row : Row} {ws : List WriteRecord} {mark : Bool}
    (hw : RowWrite db db' t r row ws mark) (ht : db.Live t) : db'.Live t :=
  (hw.live_iff (Txn.live_iff.1 ht).1 t).2 ht

theorem Left.live {half : Bool} {out : WriteOutcome} (h : Left db t r half out)
    (hdb : out.db? = some db') (ht : db.Live t) : db'.Live t := by
  cases h with
  | same whole =>
      cases hdb
      exact ht
  | touched whole hw =>
      cases hdb
      exact hw.live ht
  | stranded half hw free hwriter =>
      cases hdb
      exact hw.live ht
  | written whole hw free hwriter hrow =>
      cases hdb
      exact hw.live ht
  | nullRead whole => cases hdb

/-- Abort knows of every row that is recorded. -/
theorem Recorded.traceless (h : Recorded db') (ht : db'.Live t)
    (howns : ∀ u, db'.Owns u r → u = t ∨ db.Owns u r) : Traceless db db' t r := by
  have ha := abort_spec ht.live
  have hunnamed : ∀ r', ¬ (db'.abort t).Owns t r' := by
    intro r' ho
    obtain ⟨hnot, hold⟩ := ha.owns h.held ht ho
    rw [(h.recorded t r' hold).2] at hnot
    cases hnot
  refine ⟨hunnamed, fun u hu hfree => ?_⟩
  by_contra hheld
  rw [Bool.not_eq_false] at hheld
  obtain ⟨v, hne, ho⟩ := owner_of_held hheld
  have hvt : v ≠ t := by
    rintro rfl
    exact hunnamed r ho
  rcases howns v (ha.owns h.held ht ho).2 with rfl | hold
  · exact hvt rfl
  · rcases hfree v hold with rfl | rfl
    · exact hvt rfl
    · exact hne rfl

/-- A row without a write record stays with the aborted transaction. -/
theorem not_traceless (hh : Held db') (ht : db'.Live t) {r' : RowId} (ho : db'.Owns t r')
    (hnot : (db'.txn t).touches r' = false) : ¬ Traceless db db' t r := by
  intro h
  refine h.unnamed r' ?_
  unfold Db.Owns
  rw [(abort_spec ht.live).untouched hh hnot]
  exact ho

/-! ## Runs -/

/-- The call of one of the three routines that an operation is. -/
def SerOp.call? : SerOp → Option (TxnId × RowId × WriteCall)
  | .op (.mvccWrite t r old new) => some (t, r, .update (.write old new))
  | .op (.mvccWriteColDelta t r visible off type deltaF deltaI) =>
      some (t, r, .update (.colDelta visible off type deltaF deltaI))
  | .op (.mvccWriteColPatch t r visible patches) => some (t, r, .update (.colPatch visible patches))
  | .mvccDelete t r old => some (t, r, .delete old)
  | _ => none

theorem serStep_call {a : SerOp} {call : WriteCall} (h : a.call? = some (t, r, call)) :
    serStep db a =
      if db.Live t ∧ (db.rows r).slot.isRecord = true then (call.run db t r).db? else none := by
  cases a with
  | op o => cases o <;> cases h <;> rfl
  | mvccDelete t r old =>
      cases h
      rfl
  | serReadPredCheck t tab conds => cases h

/-- If the operation is a call that returns false, nothing is left of it once its transaction has been
aborted. -/
def RefusalUndone (db : Db) (a : SerOp) : Prop :=
  ∀ t r call db', a.call? = some (t, r, call) → db.Live t → (db.rows r).slot.isRecord = true →
    call.run db t r = .refused db' → Traceless db db' t r

/-- If the operation is a call that fails half way, its transaction has written the row before. -/
def WrittenBefore (db : Db) (a : SerOp) : Prop :=
  ∀ t r call, a.call? = some (t, r, call) → db.Live t → (db.rows r).slot.isRecord = true →
    call.halfWay db t r = true → (db.txn t).touches r = true

theorem call_recorded {a : SerOp} {call : WriteCall} (hcall : a.call? = some (t, r, call))
    (h : Recorded db) (hbefore : WrittenBefore db a) (hstep : serStep db a = some db') :
    Recorded db' := by
  have hh := serStep_held h.held hstep
  rw [serStep_call hcall] at hstep
  obtain ⟨⟨ht, hrec⟩, hdb⟩ := Option.ite_none_right_eq_some.1 hstep
  exact (call.left db t r).recorded hdb h ht hh (hbefore t r call hcall ht hrec)

/-- **One step keeps the records.** -/
theorem serStep_recorded {a : SerOp} (h : Recorded db) (hbefore : WrittenBefore db a)
    (hstep : serStep db a = some db') : Recorded db' := by
  have hh := serStep_held h.held hstep
  cases a with
  | serReadPredCheck t tab conds =>
      obtain ⟨-, heq⟩ := Option.ite_none_right_eq_some.1 hstep
      obtain ⟨recent, ser, hcheck⟩ := serReadPredCheck_cases db t tab conds
      rw [hcheck] at heq
      cases heq
      exact ⟨hh, h.recorded⟩
  | mvccDelete t r old => exact call_recorded rfl h hbefore hstep
  | op o =>
      cases o with
      | begin explicit iso =>
          cases hstep
          exact begin_recorded h explicit iso
      | mvccInsert t r data =>
          obtain ⟨⟨ht, hfree⟩, heq⟩ := Option.ite_none_right_eq_some.1 hstep
          cases heq
          exact insert_recorded h ht hfree data
      | mvccWrite t r old new => exact call_recorded rfl h hbefore hstep
      | mvccWriteColDelta t r visible off type deltaF deltaI =>
          exact call_recorded rfl h hbefore hstep
      | mvccWriteColPatch t r visible patches => exact call_recorded rfl h hbefore hstep
      | releaseStatementWrites t =>
          obtain ⟨ht, heq⟩ := Option.ite_none_right_eq_some.1 hstep
          cases heq
          exact release_recorded h ht
      | commit t =>
          obtain ⟨hs, hcommit⟩ := Option.ite_none_right_eq_some.1 hstep
          by_cases ht : db.Live t
          · have hc := commit_spec ht.live hcommit
            exact hc.ended.recorded h hh fun u r => hc.owns h.held ht
          · rw [Db.commit, if_pos (not_live_txn hs ht)] at hcommit
            cases hcommit
            exact h
      | abort t =>
          obtain ⟨hs, heq⟩ := Option.ite_none_right_eq_some.1 hstep
          cases heq
          by_cases ht : db.Live t
          · have ha := abort_spec ht.live
            exact ha.ended.recorded h hh fun u r => ha.owns h.held ht
          · rw [Db.abort, if_pos (not_live_txn hs ht)]
            exact h

theorem refusalUndone_iff {a : SerOp} (h : Recorded db) : RefusalUndone db a ↔ WrittenBefore db a := by
  constructor
  · intro hundone t r call hcall ht hrec hhalf
    have hleft := call.left db t r
    rw [hhalf] at hleft
    by_contra hnot
    rw [Bool.not_eq_true] at hnot
    generalize hout : call.run db t r = out at hleft
    cases hleft with
    | same whole => cases whole
    | touched whole hw => cases whole
    | @stranded db' c half hw free hwriter =>
        have hstep : serStep db a = some db' := by
          rw [serStep_call hcall, if_pos ⟨ht, hrec⟩, hout]
          rfl
        have ho : db'.Owns t r := .inl ⟨c, by rw [hw.row_self]; rfl, hwriter⟩
        rw [← hw.touches_eq] at hnot
        exact not_traceless (serStep_held h.held hstep) (hw.live ht) ho hnot
          (hundone t r call db' hcall ht hrec hout)
    | written whole hw free hwriter hrow => cases whole
    | nullRead whole => cases whole
  · intro hbefore t r call db' hcall ht hrec hout
    have hleft := call.left db t r
    have hdb : (call.run db t r).db? = some db' := by
      rw [hout]
      rfl
    have hstep : serStep db a = some db' := by
      rw [serStep_call hcall, if_pos ⟨ht, hrec⟩, hdb]
    exact (serStep_recorded h hbefore hstep).traceless (hleft.live hdb ht) fun u => hleft.owns hdb

theorem boot_recorded (tabs : TabName → TabMeta) (files : TabName → RmFileHdr) (heap : RowId → Slot)
    (index : IndexId → IndexMap) : Recorded (Db.boot tabs files heap index) where
  held := boot_held tabs files heap index
  recorded := by
    rintro u r (⟨c, hc, -⟩ | hp)
    · cases hc
    · cases hp

/-- **Refused writes.**  On a run every refused call is undone by an abort exactly when every call of it
that fails half way is one on a row that its transaction has written before. -/
theorem run_refusalUndone_iff (tabs : TabName → TabMeta) (files : TabName → RmFileHdr) (heap : RowId → Slot)
    (index : IndexId → IndexMap) (ops : List SerOp) :
    Along serStep RefusalUndone (Db.boot tabs files heap index) ops ↔
      Along serStep WrittenBefore (Db.boot tabs files heap index) ops :=
  along_congr (fun _ _ => refusalUndone_iff) (fun _ _ _ h hb hs => serStep_recorded h hb hs) ops _
    (boot_recorded tabs files heap index)

/-- A table with an `INT` column and a `FLOAT` column and one record. -/
def twoColumns : Db :=
  Db.boot (fun _ => ⟨[⟨"a", .int, 4, 0⟩, ⟨"b", .float, 4, 4⟩], [], by decide, by decide⟩)
    (fun _ => ⟨2, 8⟩)
    (fun r => ⟨decide (r.rid.slotNo = 0), ⟨[1, 0, 0, 0, 0, 0, 0, 0], none⟩⟩) (fun _ => [])

/-- `UPDATE t SET b = 0, a = b + 1` fails at the second patch, whose right-hand column is no `INT`; the
row stays with the aborted transaction. -/
theorem not_refusalUndone_patch : ¬ Along serStep RefusalUndone twoColumns
    [.op (.begin true .snapshotIsolation),
      .op (.mvccWriteColPatch 0 ⟨"t", ⟨1, 0⟩⟩ ⟨[1, 0, 0, 0, 0, 0, 0, 0], none⟩
        [{ offset := 4, len := 4, type := .float, isArith := false, absValue := [0, 0, 0, 0] },
          { offset := 0, len := 4, type := .int, isArith := true, rhsCol := "b", arithRhsI := 1 }])] := by
  rintro ⟨-, h⟩
  have hrec : Recorded (twoColumns.begin true .snapshotIsolation) :=
    begin_recorded (boot_recorded _ _ _ _) true .snapshotIsolation
  have htouch := (refusalUndone_iff hrec).1 (h _ rfl).1 0 ⟨"t", ⟨1, 0⟩⟩ (.update (.colPatch
    ⟨[1, 0, 0, 0, 0, 0, 0, 0], none⟩
    [{ offset := 4, len := 4, type := .float, isArith := false, absValue := [0, 0, 0, 0] },
      { offset := 0, len := 4, type := .int, isArith := true, rhsCol := "b", arithRhsI := 1 }]))
    rfl (begin_live _ _ _) (by decide +kernel) (by decide +kernel)
  revert htouch
  decide +kernel

end Rmdb.Txn
