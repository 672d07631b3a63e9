import Rmdb.Txn.Words
import Rmdb.Row.Exec

/-!
# The image an update writes

`Db.assigned` is the record that the SET clauses make of a row, in each of the three write routines:
from the bytes the transaction reads, from its own uncommitted version, or on top of a version that it
does not see.  Every update that goes through writes it (`chooseWrite_written`).
-/

namespace Rmdb.Txn

open Rmdb.Index (Rid)

variable {db db' : Db} {t : TxnId} {r : RowId} {visible new : Image} {d : ColArithDelta}
variable {sets : List SetClause}

/-- A column delta on a word of the record is refused to a held row only. -/
theorem colDelta_cases (t : TxnId) (visible : Image) (hok : d.Ok (db.tabs r.tab)) :
    (db.held t r = true ∧ db.colDelta t r visible d = .refused (db.touchChain t r)) ∨
    ∃ db1 img, db.held t r = false ∧ db.colDelta t r visible d = .written db1 img ∧
      RowWrite db db1 t r ((db.rows r).withChain (db.writtenChain t r visible false img true))
        (db.newRecord t r ⟨.updateTuple, r, visible⟩) true ∧
      img.bytes = d.apply (Db.writeBase t (db.chainOf r) visible.bytes (db.unseen t r)
        (db.tabs r.tab).recordSize) := by
  have hb := (touchChain_write db t r).withBase (db.chainOf r) visible
  have hf := (touchChain_write db t r).firstTouch (db.chainOf r)
  have hn := touchChain_newer db t r visible
  rw [hb] at hn
  simp only [Db.colDelta, Db.mvccWriteColDelta, touchChain_held, hb, hf, hn]
  cases hheld : db.held t r with
  | true => exact .inl ⟨rfl, rfl⟩
  | false =>
      rw [if_neg Bool.false_ne_true, if_neg (not_or.2 ⟨hok.1, by have := hok.2; omega⟩)]
      exact .inr ⟨_, _, rfl, rfl, touchChain_written db t r visible _ _, rfl⟩

/-- The patches of a statement on the bytes the routine starts from. -/
def Db.patched (db : Db) (t : TxnId) (r : RowId) (visible : Bytes) (patches : List MvccColPatch) :
    Bytes × Bool :=
  let m := db.tabs r.tab
  applyPatches (fun p dest =>
    match db.unseen t r with
    | none => p.applyFromVisible visible dest m.recordSize m
    | some last => p.applyRebase visible last.data.bytes dest m.recordSize) patches
    (Db.writeBase t (db.chainOf r) visible (db.unseen t r) m.recordSize)

/-- The record that the clauses make of a row. -/
def Db.assigned (db : Db) (t : TxnId) (r : RowId) (visible : Bytes) (sets : List SetClause) :
    Option Bytes :=
  let m := db.tabs r.tab
  let patches := buildColPatches m sets
  match statementDelta m visible sets with
  | some d =>
      some (d.apply (Db.writeBase t (db.chainOf r) visible (db.unseen t r) m.recordSize))
  | none =>
      if sets.length > 1 ∧ patches ≠ [] then
        if (db.patched t r visible patches).2 then some (db.patched t r visible patches).1 else none
      else
        let n := applySets m sets visible visible
        match if (db.chainOf r).writer = none then db.newerVer t (db.chainOf r) else none with
        | none => some n
        | some last => rebaseWriteDelta m visible n last.data.bytes m.recordSize

theorem colPatch_written {patches : List MvccColPatch}
    (h : db.mvccWriteColPatch t r visible patches = .written db' new) :
    db.patched t r visible.bytes patches = (new.bytes, true) := by
  have hb := (touchChain_write db t r).withBase (db.chainOf r) visible
  have hn := touchChain_newer db t r visible
  rw [hb] at hn
  have hver : (if (db.chainOf r).writer = some t then none else db.newerVer t (db.chainOf r)) =
      db.unseen t r := rfl
  simp only [Db.mvccWriteColPatch, touchChain_held, hb, hn, hver] at h
  generalize hout : applyPatches _ patches (Db.writeBase t (db.chainOf r) visible.bytes (db.unseen t r)
    (db.tabs r.tab).recordSize) = out at h
  have hpatched : db.patched t r visible.bytes patches = out := hout
  rw [hpatched]
  split at h
  · cases h
  split at h
  · cases h
  split at h
  · cases h
  split at h
  · rename_i hok
    cases h
    exact Prod.ext rfl hok
  · cases h

theorem mvccWrite_written {n : Bytes} (h : db.mvccWrite t r visible (some n) = .written db' new) :
    (match if (db.chainOf r).writer = none then db.newerVer t (db.chainOf r) else none with
      | none => some n
      | some last => rebaseWriteDelta (db.tabs r.tab) visible.bytes n last.data.bytes
          (db.tabs r.tab).recordSize) = some new.bytes ∧
      ∀ last, (if (db.chainOf r).writer = none then db.newerVer t (db.chainOf r) else none) = some last →
        last.data.bytes.length = (db.tabs r.tab).recordSize := by
  have hnewer := (touchChain_write db t r).newerVer (db.chainOf r)
  simp only [Db.mvccWrite, touchChain_held, hnewer] at h
  split at h
  · cases h
  split at h
  · rename_i hnone
    cases h
    rw [hnone]
    exact ⟨rfl, fun _ h => by cases h⟩
  · rename_i last hlast
    rw [hlast]
    split at h
    · cases h
    · rename_i hgood
      split at h
      · cases h
      · rename_i b hb
        cases h
        refine ⟨hb, fun last' h => ?_⟩
        cases h
        rw [not_or, not_not] at hgood
        exact hgood.2

theorem patchOrWrite_written (h : db.patchOrWrite t r visible sets = .written db' new)
    (hd : statementDelta (db.tabs r.tab) visible.bytes sets = none) :
    db.assigned t r visible.bytes sets = some new.bytes := by
  unfold Db.patchOrWrite at h
  unfold Db.assigned
  dsimp only at h ⊢
  rw [hd]
  split at h
  · rename_i hpatch
    rw [if_pos hpatch, colPatch_written h]
    rfl
  · rename_i hpatch
    rw [if_neg hpatch]
    exact (mvccWrite_written h).1

/-- An update that goes through has taken the column-delta routine, or one of the others. -/
theorem chooseWrite_cases (h : db.chooseWrite t r visible sets = .written db' new) :
    (∃ d, statementDelta (db.tabs r.tab) visible.bytes sets = some d ∧ new.bytes = d.apply
        (Db.writeBase t (db.chainOf r) visible.bytes (db.unseen t r) (db.tabs r.tab).recordSize)) ∨
      statementDelta (db.tabs r.tab) visible.bytes sets = none ∧
        db.patchOrWrite t r visible sets = .written db' new := by
  have hdelta : ∀ d : ColArithDelta, d.Ok (db.tabs r.tab) →
      db.colDelta t r visible d = .written db' new → new.bytes = d.apply
        (Db.writeBase t (db.chainOf r) visible.bytes (db.unseen t r) (db.tabs r.tab).recordSize) := by
    intro d hok hout
    rcases colDelta_cases t visible hok with ⟨-, href⟩ | ⟨db1, img, -, hout', -, hval⟩
    · rw [hout] at href
      cases href
    · rw [hout] at hout'
      cases hout'
      exact hval
  have hwrote := chooseWrite_wrote db t r visible sets
  rw [h] at hwrote
  unfold Db.chooseWrite at h
  dsimp only at h
  cases hdet : detectColArithDelta (db.tabs r.tab) sets with
  | some d =>
    have hstmt : statementDelta (db.tabs r.tab) visible.bytes sets = some d := by
      unfold statementDelta
      rw [hdet]
    rw [hdet] at h
    exact .inl ⟨d, hstmt, hdelta d (detectColArithDelta_ok hdet) h⟩
  | none =>
    have hstmt : statementDelta (db.tabs r.tab) visible.bytes sets =
        absColDelta visible.bytes (buildColPatches (db.tabs r.tab) sets) := by
      unfold statementDelta
      rw [hdet]
    rw [hdet] at h
    rw [hstmt]
    cases habs : absColDelta visible.bytes (buildColPatches (db.tabs r.tab) sets) with
    | none =>
      rw [habs] at h
      exact .inr ⟨rfl, h⟩
    | some d =>
      rw [habs] at h
      dsimp only at h
      split at h
      · -- the second attempt finds the row held again
        rename_i db1 href
        obtain ⟨hheld, -⟩ := colDelta_refused (absColDelta_ok habs) href
        cases hwrote with
        | written hw free origin value => exact absurd hheld free
      · exact .inl ⟨d, rfl, hdelta d (absColDelta_ok habs) h⟩

/-- **The image of an update.** -/
theorem chooseWrite_written (h : db.chooseWrite t r visible sets = .written db' new) :
    ¬ db.held t r ∧
      RowWrite db db' t r ((db.rows r).withChain (db.writtenChain t r visible false new
        ((db.chainOf r).holdWriterToCommit || takesDelta (db.tabs r.tab) sets)))
        (db.newRecord t r ⟨.updateTuple, r, visible⟩) true ∧
      db.assigned t r visible.bytes sets = some new.bytes := by
  have hwrote := chooseWrite_wrote db t r visible sets
  rw [h] at hwrote
  cases hwrote with
  | written hw free origin value =>
  refine ⟨free, hw, ?_⟩
  rcases chooseWrite_cases h with ⟨d, hd, hval⟩ | ⟨hd, hout⟩
  · unfold Db.assigned
    dsimp only
    rw [hd, hval]
  · exact patchOrWrite_written hout hd

/-! ## Sizes -/

theorem readRec_length (b : Bytes) (len : Nat) : (readRec b len).length = len := by
  unfold readRec
  rw [List.length_take, List.length_append, List.length_replicate]
  omega

theorem writeBase_length {c : MvccChain} {b : Bytes} {newer : Option MvccVer} {len : Nat}
    (hown : c.writer = some t → c.writerData.bytes ≠ [] → c.writerData.bytes.length = len) :
    (Db.writeBase t c b newer len).length = len := by
  unfold Db.writeBase
  split
  · rename_i h
    exact hown h.1 h.2
  · exact readRec_length _ _

theorem ColArithDelta.apply_length {m : TabMeta} (hok : d.Ok m) {b : Bytes}
    (hb : b.length = m.recordSize) : (d.apply b).length = m.recordSize := by
  unfold ColArithDelta.apply
  rw [putWord_length (by have := hok.2; omega), hb]

theorem MvccColPatch.applyAbs_length (p : MvccColPatch) {dest : Bytes} {len : Nat}
    (hfit : p.offset + p.len ≤ len) (hdest : dest.length = len) : (p.applyAbs dest).length = len := by
  unfold MvccColPatch.applyAbs
  split
  · rename_i habs
    rw [putBytes_length ?_, hdest]
    rw [List.length_take, hdest]
    omega
  · exact hdest

theorem MvccColPatch.applyFromVisible_length {p : MvccColPatch} {b dest out : Bytes} {len : Nat}
    {m : TabMeta} (hdest : dest.length = len) (h : p.applyFromVisible b dest len m = some out) :
    out.length = len := by
  unfold MvccColPatch.applyFromVisible at h
  obtain ⟨hfit, h⟩ := Option.ite_none_left_eq_some.1 h
  have hword : p.len = 4 → ∀ w, (putWord dest p.offset w).length = len := by
    intro h4 w
    rw [putWord_length (by omega), hdest]
  split at h
  · cases h
    exact p.applyAbs_length (by omega) hdest
  · split at h
    · cases h
    · split at h
      · rename_i hty
        cases h
        exact hword hty.2.2.1 _
      · obtain ⟨hty, h⟩ := Option.ite_none_right_eq_some.1 h
        cases h
        exact hword hty.2.2.1 _

theorem MvccColPatch.applyRebase_length {p : MvccColPatch} {b latest dest out : Bytes} {len : Nat}
    (hdest : dest.length = len) (h : p.applyRebase b latest dest len = some out) :
    out.length = len := by
  unfold MvccColPatch.applyRebase at h
  obtain ⟨hfit, h⟩ := Option.ite_none_left_eq_some.1 h
  have hword : p.len = 4 → ∀ w, (putWord dest p.offset w).length = len := by
    intro h4 w
    rw [putWord_length (by omega), hdest]
  split at h
  · split at h
    · rename_i hty
      cases h
      exact hword hty.2.1 _
    · split at h
      · rename_i hty
        cases h
        exact hword hty.2.1 _
      · cases h
        exact p.applyAbs_length (by omega) hdest
  · split at h
    · rename_i hty
      cases h
      exact hword hty.2 _
    · obtain ⟨hty, h⟩ := Option.ite_none_right_eq_some.1 h
      cases h
      exact hword hty.2 _

theorem applyPatches_length {f : MvccColPatch → Bytes → Option Bytes} {len : Nat}
    (hf : ∀ p dest out, dest.length = len → f p dest = some out → out.length = len) :
    ∀ (ps : List MvccColPatch) (dest : Bytes), dest.length = len →
      (applyPatches f ps dest).1.length = len := by
  intro ps
  induction ps with
  | nil => exact fun dest h => h
  | cons p ps ih =>
      intro dest h
      unfold applyPatches
      split
      · exact h
      · rename_i out hout
        exact ih out (hf p dest out h hout)

/-- What `do_analyze` has checked of a clause: it does arithmetic on numbers only. -/
def SetClause.checked (m : TabMeta) (s : SetClause) : Bool :=
  !s.isArith || (m.findCol s.lhs).all fun c => decide (c.type ≠ .string) && decide (c.len = 4)

theorem applySetValue_length {m : TabMeta} {s : SetClause} (hs : s.checked m = true) {c : ColMeta}
    (hc : m.findCol s.lhs = some c) (base : Bytes) {dest : Bytes} (hdest : dest.length = m.recordSize) :
    (applySetValue m base dest s c).length = m.recordSize := by
  have hfit := m.fits (TabMeta.findCol_mem hc)
  unfold SetClause.checked at hs
  unfold applySetValue
  cases harith : s.isArith with
  | false =>
      rw [Bool.not_false, if_pos rfl, putBytes_length ?_, hdest]
      rw [readRec_length, hdest]
      exact hfit
  | true =>
      rw [harith, hc] at hs
      have hlen : c.len = 4 := by
        simp only [Bool.not_true, Bool.false_or, Option.all_some, Bool.and_eq_true,
          decide_eq_true_eq] at hs
        exact hs.2
      have hword : ∀ w, (putWord dest c.offset w).length = m.recordSize := by
        intro w
        rw [putWord_length (by omega), hdest]
      rw [Bool.not_true, if_neg Bool.false_ne_true]
      split
      · exact hdest
      · split <;> exact hword _

theorem applySets_length {m : TabMeta} (hsets : sets.all (SetClause.checked m) = true) (base : Bytes) :
    ∀ {dest : Bytes}, dest.length = m.recordSize → (applySets m sets base dest).length = m.recordSize := by
  unfold applySets
  induction sets with
  | nil => exact fun h => h
  | cons s sets ih =>
      intro dest hdest
      rw [List.all_cons, Bool.and_eq_true] at hsets
      rw [List.foldl_cons]
      refine ih hsets.2 ?_
      split
      · exact hdest
      · rename_i c hc
        exact applySetValue_length hsets.1 hc base hdest

theorem rebaseWriteDelta_length {m : TabMeta} {o n latest out : Bytes} {len : Nat}
    (hn : n.length = len) (hlatest : latest.length = len)
    (h : rebaseWriteDelta m o n latest len = some out) : out.length = len := by
  unfold rebaseWriteDelta at h
  obtain ⟨-, h⟩ := Option.ite_none_left_eq_some.1 h
  obtain ⟨-, h⟩ := Option.ite_none_left_eq_some.1 h
  rw [← Option.some.inj h]
  have hcols : ∀ (cs : List ColMeta) (dest : Bytes), (∀ c ∈ cs, c.offset + c.len ≤ len) →
      dest.length = len → (cs.foldl (fun out c =>
        if c.type = .int ∧ c.len = 4 then putWord out c.offset
          (rebaseInt (getWord o c.offset) (getWord n c.offset) (getWord latest c.offset))
        else if c.type = .float ∧ c.len = 4 then putWord out c.offset
          (rebaseFloat (getWord o c.offset) (getWord n c.offset) (getWord latest c.offset))
        else putBytes out c.offset (getBytes n c.offset c.len)) dest).length = len := by
    intro cs
    induction cs with
    | nil => exact fun dest _ h => h
    | cons c cs ih =>
        intro dest hfit hdest
        have hc := hfit c List.mem_cons_self
        rw [List.foldl_cons]
        refine ih _ (fun c hc => hfit c (List.mem_cons_of_mem _ hc)) ?_
        split
        · rename_i hty
          rw [putWord_length (by omega), hdest]
        · split
          · rename_i hty
            rw [putWord_length (by omega), hdest]
          · rw [putBytes_length ?_, hdest]
            rw [getBytes_length (by omega), hdest]
            exact hc
  refine hcols _ latest (fun c hc => ?_) hlatest
  have hfilter := (List.mem_filter.1 hc).2
  rw [Bool.and_eq_true, decide_eq_true_eq] at hfilter
  exact hfilter.1

/-- An update writes a record of the size of the table. -/
theorem chooseWrite_length (hsets : sets.all (SetClause.checked (db.tabs r.tab)) = true)
    (hvisible : visible.bytes.length = (db.tabs r.tab).recordSize)
    (hown : (db.chainOf r).writer = some t → (db.chainOf r).writerData.bytes ≠ [] →
      (db.chainOf r).writerData.bytes.length = (db.tabs r.tab).recordSize)
    (h : db.chooseWrite t r visible sets = .written db' new) :
    new.bytes.length = (db.tabs r.tab).recordSize := by
  have hbase : (Db.writeBase t (db.chainOf r) visible.bytes (db.unseen t r)
      (db.tabs r.tab).recordSize).length = (db.tabs r.tab).recordSize := writeBase_length hown
  rcases chooseWrite_cases h with ⟨d, hd, hval⟩ | ⟨-, hout⟩
  · rw [hval]
    exact ColArithDelta.apply_length (statementDelta_ok hd) hbase
  unfold Db.patchOrWrite at hout
  dsimp only at hout
  split at hout
  · have hpatched := colPatch_written hout
    have hlen : (db.patched t r visible.bytes (buildColPatches (db.tabs r.tab) sets)).1.length =
        (db.tabs r.tab).recordSize := by
      unfold Db.patched
      refine applyPatches_length (fun p dest out hdest hout => ?_) _ _ hbase
      cases hu : db.unseen t r with
      | none =>
          rw [hu] at hout
          exact MvccColPatch.applyFromVisible_length hdest hout
      | some last =>
          rw [hu] at hout
          exact MvccColPatch.applyRebase_length hdest hout
    rwa [hpatched] at hlen
  · have hn := applySets_length hsets visible.bytes hvisible
    obtain ⟨heq, hlast⟩ := mvccWrite_written hout
    cases hnewer : (if (db.chainOf r).writer = none then db.newerVer t (db.chainOf r) else none) with
    | none =>
        rw [hnewer] at heq
        rw [← Option.some.inj heq]
        exact hn
    | some last =>
        rw [hnewer] at heq
        exact rebaseWriteDelta_length hn (hlast last hnewer) heq

end Rmdb.Txn
