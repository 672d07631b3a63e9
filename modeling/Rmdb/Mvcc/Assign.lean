import Rmdb.Mvcc.Increment
import Rmdb.Mvcc.Settled

/-!
# Assignments of literals

`UPDATE .. SET c1 = v1, .., cn = vn` on `INT` columns.  A literal reaches the row as the difference to the
value that the transaction reads, on top of the newest committed version: it arrives as it stands unless
that version has another value in the column (`Db.AssignsLiterals`).
-/

namespace Rmdb.Txn

open Rmdb.Index (Rid)
open Rmdb.Lib (run)

variable {db db1 db2 db3 : Db} {t : TxnId} {r : RowId} {m : TabMeta}

/-! ## Words written one after another -/

/-- Write the words at their offsets, the last one on top. -/
def writeWords (ws : List (Nat × BitVec 32)) (b : Bytes) : Bytes :=
  ws.foldl (fun b w => putWord b w.1 w.2) b

theorem writeWords_append (ws ws' : List (Nat × BitVec 32)) (b : Bytes) :
    writeWords (ws ++ ws') b = writeWords ws' (writeWords ws b) := List.foldl_append

theorem writeWords_length {ws : List (Nat × BitVec 32)} {b : Bytes}
    (hfit : ∀ w ∈ ws, w.1 + 4 ≤ b.length) : (writeWords ws b).length = b.length := by
  induction ws generalizing b with
  | nil => rfl
  | cons w ws ih =>
      have hw := putWord_length (hfit w List.mem_cons_self) w.2
      show (writeWords ws (putWord b w.1 w.2)).length = b.length
      rw [ih (by rw [hw]; exact fun w' hw' => hfit w' (List.mem_cons_of_mem _ hw')), hw]

/-- Words that are written at the same place or apart are all there at the end exactly when those at the
same place agree. -/
theorem writeWords_iff {ws : List (Nat × BitVec 32)} {b : Bytes} (hfit : ∀ w ∈ ws, w.1 + 4 ≤ b.length)
    (hapart : ∀ w ∈ ws, ∀ w' ∈ ws, w.1 = w'.1 ∨ w.1 + 4 ≤ w'.1 ∨ w'.1 + 4 ≤ w.1) :
    (∀ w ∈ ws, getWord (writeWords ws b) w.1 = w.2) ↔ ∀ w ∈ ws, ∀ w' ∈ ws, w.1 = w'.1 → w.2 = w'.2 := by
  constructor
  · intro hall w hw w' hw' heq
    rw [← hall w hw, ← hall w' hw', heq]
  · -- the last word is there, and the others are below it
    induction ws using List.reverseRecOn with
    | nil => exact fun _ w hw => absurd hw List.not_mem_nil
    | append_singleton ws w ih =>
        intro hagree w' hw'
        have hlen : (writeWords ws b).length = b.length :=
          writeWords_length fun v hv => hfit v (List.mem_append_left _ hv)
        have hlast : w ∈ ws ++ [w] := List.mem_append_right _ (List.mem_singleton_self w)
        have hw : w.1 + 4 ≤ (writeWords ws b).length := by
          rw [hlen]
          exact hfit w hlast
        rw [writeWords_append]
        show getWord (putWord (writeWords ws b) w.1 w.2) w'.1 = w'.2
        rcases hapart w' hw' w hlast with heq | hne
        · rw [heq, getWord_putWord hw, hagree w' hw' w hlast heq]
        · rw [getWord_putWord_of_apart hw w.2 hne]
          rcases List.mem_append.1 hw' with hw' | hw'
          · exact ih (fun v hv => hfit v (List.mem_append_left _ hv))
              (fun v hv v' hv' => hapart v (List.mem_append_left _ hv) v' (List.mem_append_left _ hv'))
              (fun v hv v' hv' => hagree v (List.mem_append_left _ hv) v' (List.mem_append_left _ hv')) w' hw'
          · rw [List.mem_singleton.1 hw'] at hne
            omega

theorem getWord_readRec {b : Bytes} {off len : Nat} (h : off + 4 ≤ len) :
    getWord (readRec b len) off = getWord b off := by
  have hbyte : ∀ i < len, (readRec b len).getD i 0 = b.getD i 0 := by
    intro i hi
    unfold readRec
    rw [List.getD_eq_getElem?_getD, List.getElem?_take_of_lt hi, List.getD_eq_getElem?_getD]
    rcases Nat.lt_or_ge i b.length with hlt | hge
    · rw [List.getElem?_append_left hlt]
    · rw [List.getElem?_append_right hge, List.getElem?_replicate, if_pos (by omega),
        List.getElem?_eq_none hge]
      rfl
  unfold getWord
  rw [hbyte off (by omega), hbyte (off + 1) (by omega), hbyte (off + 2) (by omega),
    hbyte (off + 3) (by omega)]

theorem putWord_getWord_wordBytes (w : BitVec 32) : getWord (wordBytes w) 0 = w := by
  have h := getWord_wordBytes w []
  rwa [List.append_nil] at h

/-! ## The clauses -/

/-- `SET c = v`, with the literal as `init_raw` writes it. -/
def assignClause (a : ColMeta × BitVec 32) : SetClause := { lhs := a.1.name, raw := wordBytes a.2 }

/-- The column is an `INT` column of the table, found under its name. -/
structure IntColumn (m : TabMeta) (c : ColMeta) : Prop where
  found : m.findCol c.name = some c
  type : c.type = .int
  len : c.len = 4

theorem IntColumn.fits {c : ColMeta} (h : IntColumn m c) : c.offset + 4 ≤ m.recordSize := by
  have hfit := m.fits (TabMeta.findCol_mem h.found)
  rw [h.len] at hfit
  exact hfit

theorem IntColumn.apart {c d : ColMeta} (hc : IntColumn m c) (hd : IntColumn m d) :
    c = d ∨ c.offset + 4 ≤ d.offset ∨ d.offset + 4 ≤ c.offset := by
  by_cases hne : c = d
  · exact .inl hne
  · right
    have := m.layout.apart c (TabMeta.findCol_mem hc.found) d (TabMeta.findCol_mem hd.found) hne
    rwa [hc.len, hd.len] at this

/-- Different columns lie at different places. -/
theorem IntColumn.offset_inj {c d : ColMeta} (hc : IntColumn m c) (hd : IntColumn m d)
    (h : c.offset = d.offset) : c = d := by
  rcases hc.apart hd with heq | hlt | hlt
  · exact heq
  · omega
  · omega

/-- The patch of a clause. -/
def assignPatch (a : ColMeta × BitVec 32) : MvccColPatch :=
  { offset := a.1.offset, len := 4, type := .int, isArith := false, absValue := wordBytes a.2 }

theorem readRec_wordBytes (w : BitVec 32) : readRec (wordBytes w) 4 = wordBytes w := rfl

theorem buildColPatches_assign {as : List (ColMeta × BitVec 32)} (h : ∀ a ∈ as, IntColumn m a.1) :
    buildColPatches m (as.map assignClause) = as.map assignPatch := by
  unfold buildColPatches
  induction as with
  | nil => rfl
  | cons a as ih =>
      have ha := h a List.mem_cons_self
      have hcol : m.findCol (assignClause a).lhs = some a.1 := ha.found
      rw [List.map_cons, List.map_cons, List.filterMap_cons, hcol,
        ih fun a' ha' => h a' (List.mem_cons_of_mem _ ha')]
      simp [assignClause, assignPatch, ha.len, ha.type, readRec_wordBytes]

theorem statementDelta_assign {a : ColMeta × BitVec 32} (ha : IntColumn m a.1) (visible : Bytes) :
    statementDelta m visible [assignClause a] =
      some ⟨a.1.offset, .int, 0, a.2 - getWord visible a.1.offset⟩ := by
  have hpatch : buildColPatches m [assignClause a] = [assignPatch a] :=
    (buildColPatches_assign fun b hb => by rw [List.mem_singleton.1 hb]; exact ha :
      buildColPatches m ([a].map assignClause) = [a].map assignPatch)
  have hdetect : detectColArithDelta m [assignClause a] = none := rfl
  unfold statementDelta
  rw [hdetect, hpatch]
  show some (ColArithDelta.mk a.1.offset .int 0
    (getWord (wordBytes a.2) 0 - getWord visible a.1.offset)) = _
  rw [putWord_getWord_wordBytes]

/-! ## The record that is assigned -/

/-- The word that the update leaves at a clause: the literal, or the difference on top of a version that
`t` does not see. -/
def Db.assignWord (db : Db) (t : TxnId) (r : RowId) (visible : Bytes) (a : ColMeta × BitVec 32) :
    Nat × BitVec 32 :=
  (a.1.offset,
    match db.unseen t r with
    | none => a.2
    | some last => rebaseInt (getWord visible a.1.offset) a.2 (getWord last.data.bytes a.1.offset))

/-- One patch, in either routine. -/
theorem assignPatch_apply {a : ColMeta × BitVec 32} (ha : IntColumn (db.tabs r.tab) a.1)
    (visible dest : Bytes) :
    (match db.unseen t r with
      | none => (assignPatch a).applyFromVisible visible dest (db.tabs r.tab).recordSize (db.tabs r.tab)
      | some last =>
          (assignPatch a).applyRebase visible last.data.bytes dest (db.tabs r.tab).recordSize) =
      some (putWord dest (db.assignWord t r visible a).1 (db.assignWord t r visible a).2) := by
  have hfit : ¬ (assignPatch a).offset + (assignPatch a).len > (db.tabs r.tab).recordSize :=
    Nat.not_lt.2 ha.fits
  unfold Db.assignWord
  cases db.unseen t r with
  | none =>
      dsimp only
      unfold MvccColPatch.applyFromVisible
      rw [if_neg hfit]
      rfl
  | some last =>
      dsimp only
      unfold MvccColPatch.applyRebase
      dsimp only
      rw [if_neg hfit]
      show some (putWord dest a.1.offset (rebaseInt (getWord visible a.1.offset)
        (getWord (wordBytes a.2) 0) (getWord last.data.bytes a.1.offset))) = _
      rw [putWord_getWord_wordBytes]

theorem applyPatches_assign {f : MvccColPatch → Bytes → Option Bytes}
    {word : ColMeta × BitVec 32 → Nat × BitVec 32} {as : List (ColMeta × BitVec 32)}
    (h : ∀ a ∈ as, ∀ dest, f (assignPatch a) dest = some (putWord dest (word a).1 (word a).2))
    (dest : Bytes) :
    applyPatches f (as.map assignPatch) dest = (writeWords (as.map word) dest, true) := by
  induction as generalizing dest with
  | nil => rfl
  | cons a as ih =>
      rw [List.map_cons, applyPatches, h a List.mem_cons_self]
      exact ih (fun a' ha' => h a' (List.mem_cons_of_mem _ ha')) _

theorem patched_assign {as : List (ColMeta × BitVec 32)} (h : ∀ a ∈ as, IntColumn (db.tabs r.tab) a.1)
    (visible : Bytes) :
    db.patched t r visible (as.map assignPatch) =
      (writeWords (as.map (db.assignWord t r visible))
        (Db.writeBase t (db.chainOf r) visible (db.unseen t r) (db.tabs r.tab).recordSize), true) := by
  unfold Db.patched
  exact applyPatches_assign (fun a ha dest => assignPatch_apply (h a ha) visible dest) _

/-- The word that the column delta starts from. -/
theorem writeBase_word {visible : Image} (hI : Inv db) (hread : db.mvccRead t r = some visible)
    (hov : (db.txn t).overlay r = none) {off : Nat} (hfit : off + 4 ≤ (db.tabs r.tab).recordSize) :
    getWord (Db.writeBase t (db.chainOf r) visible.bytes (db.unseen t r) (db.tabs r.tab).recordSize) off =
      match db.unseen t r with
      | none => getWord visible.bytes off
      | some last => getWord last.data.bytes off := by
  unfold Db.writeBase
  split
  · rename_i hown
    obtain ⟨c, hc⟩ := chain_of_writer hown.1
    have hnone : db.unseen t r = none := by
      unfold Db.unseen
      rw [if_pos hown.1]
    rw [hnone]
    dsimp only
    rw [chainOf_some hc] at hown ⊢
    unfold Db.mvccRead at hread
    rw [hI.chains.any (by rw [hc]; rfl), Bool.not_true, if_neg Bool.false_ne_true, hov] at hread
    dsimp only at hread
    rw [hc] at hread
    dsimp only at hread
    rw [Db.chainRead, if_pos hown.1] at hread
    split at hread
    · cases hread
    · cases hread
      rfl
  · rw [getWord_readRec hfit]
    cases db.unseen t r with
    | none => rfl
    | some last => rfl

theorem not_shadowed_overlay {sets : List SetClause} (h : ¬ db.shadowed t r sets)
    (hdelta : takesDelta (db.tabs r.tab) sets = true) : (db.txn t).overlay r = none := by
  unfold Db.shadowed at h
  rw [not_and_or, Bool.not_eq_true, Option.isSome_eq_false_iff, Option.isNone_iff_eq_none] at h
  exact h.resolve_right fun hn => hn (.inr (.inl hdelta))

/-- **The record that literals make.** -/
theorem assigned_assign {as : List (ColMeta × BitVec 32)} {visible : Image} (hI : Inv db)
    (hread : db.mvccRead t r = some visible) (h : ∀ a ∈ as, IntColumn (db.tabs r.tab) a.1) (hne : as ≠ [])
    (hshadow : ¬ db.shadowed t r (as.map assignClause)) :
    db.assigned t r visible.bytes (as.map assignClause) =
      some (writeWords (as.map (db.assignWord t r visible.bytes))
        (Db.writeBase t (db.chainOf r) visible.bytes (db.unseen t r) (db.tabs r.tab).recordSize)) := by
  cases as with
  | nil => exact absurd rfl hne
  | cons a as =>
  have ha := h a List.mem_cons_self
  cases as with
  | nil =>
      have hdelta := statementDelta_assign ha visible.bytes
      have hov := not_shadowed_overlay hshadow (by
        rw [List.map_singleton, takesDelta_eq _ visible.bytes, hdelta]
        rfl)
      have hword := writeBase_word hI hread hov ha.fits
      unfold Db.assigned
      dsimp only
      rw [List.map_singleton, hdelta, List.map_singleton]
      dsimp only [ColArithDelta.apply]
      rw [if_neg (by decide), hword]
      show some (putWord _ a.1.offset _) = some (putWord _ a.1.offset _)
      unfold Db.assignWord
      cases db.unseen t r with
      | none =>
          dsimp only
          rw [add_sub_cancel]
      | some last => rfl
  | cons a' as =>
      have hnone : statementDelta (db.tabs r.tab) visible.bytes ((a :: a' :: as).map assignClause) = none := by
        unfold statementDelta
        rw [buildColPatches_assign h]
        rfl
      unfold Db.assigned
      dsimp only
      rw [hnone, buildColPatches_assign h, patched_assign h]
      dsimp only
      rw [if_pos ⟨by simp, by simp⟩, if_pos rfl]

/-! ## The row after the commit -/

/-- In `db2` the transaction reads the literals, and the version and the heap record that its commit
leaves in `db3` hold them. -/
def LiteralsStored (db2 db3 : Db) (t : TxnId) (r : RowId) (as : List (ColMeta × BitVec 32)) : Prop :=
  ∀ a ∈ as, (∃ img, db2.mvccRead t r = some img ∧ getWord img.bytes a.1.offset = a.2) ∧
    ∃ b, db3.Stored r b ∧ getWord b a.1.offset = a.2

/-- The clauses of one column agree, and a version that `t` does not see has in the columns what `t` reads.
Under an overlay that stays in place, the overlay has the literals already. -/
def Db.AssignsLiterals (db : Db) (t : TxnId) (r : RowId) (as : List (ColMeta × BitVec 32)) : Prop :=
  ∀ visible ∈ db.mvccRead t r,
    if db.shadowed t r (as.map assignClause) then ∀ a ∈ as, getWord visible.bytes a.1.offset = a.2
    else (∀ a ∈ as, ∀ b ∈ as, a.1 = b.1 → a.2 = b.2) ∧
      ∀ last ∈ db.unseen t r, ∀ a ∈ as,
        getWord last.data.bytes a.1.offset = getWord visible.bytes a.1.offset

instance (db : Db) (t : TxnId) (r : RowId) (as : List (ColMeta × BitVec 32)) :
    Decidable (db.AssignsLiterals t r as) := by
  unfold Db.AssignsLiterals
  infer_instance

/-- The literal arrives exactly when the newest version agrees with the snapshot. -/
theorem assignWord_eq_iff {visible : Bytes} {a : ColMeta × BitVec 32} :
    (db.assignWord t r visible a).2 = a.2 ↔
      ∀ last ∈ db.unseen t r, getWord last.data.bytes a.1.offset = getWord visible a.1.offset := by
  unfold Db.assignWord
  cases db.unseen t r with
  | none => simp
  | some last =>
      simp only [Option.mem_some_iff, forall_eq', rebaseInt]
      constructor
      · intro h
        rw [add_sub, sub_eq_iff_eq_add, add_comm] at h
        exact add_left_cancel h
      · intro h
        rw [h, add_sub_cancel]

/-- The literals are in the record exactly when they agree and each arrives. -/
theorem literals_iff {as : List (ColMeta × BitVec 32)} {visible base : Bytes}
    (h : ∀ a ∈ as, IntColumn (db.tabs r.tab) a.1) (hbase : base.length = (db.tabs r.tab).recordSize) :
    (∀ a ∈ as, getWord (writeWords (as.map (db.assignWord t r visible)) base) a.1.offset = a.2) ↔
      (∀ a ∈ as, ∀ b ∈ as, a.1 = b.1 → a.2 = b.2) ∧
        ∀ last ∈ db.unseen t r, ∀ a ∈ as,
          getWord last.data.bytes a.1.offset = getWord visible a.1.offset := by
  -- clauses of one column leave one word
  have hwords : (∀ a ∈ as, ∀ b ∈ as, a.1 = b.1 → a.2 = b.2) →
      ∀ a ∈ as, getWord (writeWords (as.map (db.assignWord t r visible)) base) a.1.offset =
        (db.assignWord t r visible a).2 := by
    intro hagree a ha
    have hfit : ∀ w ∈ as.map (db.assignWord t r visible), w.1 + 4 ≤ base.length := by
      intro w hw
      obtain ⟨b, hb, rfl⟩ := List.mem_map.1 hw
      rw [hbase]
      exact (h b hb).fits
    have hapart : ∀ w ∈ as.map (db.assignWord t r visible), ∀ w' ∈ as.map (db.assignWord t r visible),
        w.1 = w'.1 ∨ w.1 + 4 ≤ w'.1 ∨ w'.1 + 4 ≤ w.1 := by
      intro w hw w' hw'
      obtain ⟨b, hb, rfl⟩ := List.mem_map.1 hw
      obtain ⟨b', hb', rfl⟩ := List.mem_map.1 hw'
      exact ((h b hb).apart (h b' hb')).imp_left fun heq => congrArg ColMeta.offset heq
    have hsame : ∀ w ∈ as.map (db.assignWord t r visible), ∀ w' ∈ as.map (db.assignWord t r visible),
        w.1 = w'.1 → w.2 = w'.2 := by
      intro w hw w' hw' heq
      obtain ⟨b, hb, rfl⟩ := List.mem_map.1 hw
      obtain ⟨b', hb', rfl⟩ := List.mem_map.1 hw'
      have hcol := (h b hb).offset_inj (h b' hb') heq
      rw [Prod.ext hcol (hagree b hb b' hb' hcol)]
    exact (writeWords_iff hfit hapart).2 hsame (db.assignWord t r visible a) (List.mem_map_of_mem ha)
  constructor
  · intro hall
    have hagree : ∀ a ∈ as, ∀ b ∈ as, a.1 = b.1 → a.2 = b.2 := by
      intro a ha b hb heq
      rw [← hall a ha, ← hall b hb, heq]
    refine ⟨hagree, fun last hlast a ha => ?_⟩
    exact assignWord_eq_iff.1 ((hwords hagree a ha).symm.trans (hall a ha)) last hlast
  · rintro ⟨hagree, hlast⟩ a ha
    rw [hwords hagree a ha]
    exact assignWord_eq_iff.2 fun last hl => hlast last hl a ha

/-- **Assignments of literals.**  On a run the transaction reads and commits the literals exactly when they
agree and no other transaction has committed another value to their columns. -/
theorem run_literalsStored_iff {tabs : TabName → TabMeta} {files : TabName → RmFileHdr}
    {heap : RowId → Slot} {index : IndexId → IndexMap} {as : List (ColMeta × BitVec 32)}
    (hheap : ∀ r, (heap r).isRecord = true → (heap r).data.bytes.length = (tabs r.tab).recordSize)
    (h : UpdateRun (Db.boot tabs files heap index) t r (as.map assignClause) db db1 db2 db3)
    (hcols : ∀ a ∈ as, IntColumn (db.tabs r.tab) a.1) :
    LiteralsStored db2 db3 t r as ↔ db.AssignsLiterals t r as := by
  have hn := h.neat hheap
  have ht := (h.next hn).2.1
  obtain ⟨visible, new, img, hread, hassigned, himg, hread2, hstored⟩ := h.stored hheap
  have hstored_iff : LiteralsStored db2 db3 t r as ↔ ∀ a ∈ as, getWord img.bytes a.1.offset = a.2 := by
    constructor
    · intro hall a ha
      obtain ⟨⟨img', himg', hword⟩, -⟩ := hall a ha
      rw [hread2] at himg'
      cases himg'
      exact hword
    · intro hall a ha
      exact ⟨⟨img, hread2, hall a ha⟩, img.bytes, hstored, hall a ha⟩
  have hcond : db.AssignsLiterals t r as ↔
      if db.shadowed t r (as.map assignClause) then ∀ a ∈ as, getWord visible.bytes a.1.offset = a.2
      else (∀ a ∈ as, ∀ b ∈ as, a.1 = b.1 → a.2 = b.2) ∧
        ∀ last ∈ db.unseen t r, ∀ a ∈ as,
          getWord last.data.bytes a.1.offset = getWord visible.bytes a.1.offset := by
    unfold Db.AssignsLiterals
    rw [hread]
    simp only [Option.mem_some_iff, forall_eq']
  rw [hstored_iff, hcond, himg]
  split
  · rfl
  · rename_i hshadow
    rcases eq_or_ne as [] with rfl | hne
    · simp
    · rw [assigned_assign hn.held.inv hread hcols hne hshadow] at hassigned
      rw [← Option.some.inj hassigned]
      exact literals_iff hcols (writeBase_length (hn.writerData_length ht))

theorem twoInts_layout : ColsAt 0 [⟨"a", .int, 4, 0⟩, ⟨"b", .int, 4, 4⟩] := by decide

theorem twoInts_indexed : ∀ ix ∈ ([] : List (List ColMeta)), ∀ c ∈ ix, c ∈ ([⟨"a", .int, 4, 0⟩, ⟨"b", .int, 4, 4⟩] : List ColMeta) := by
  decide

/-- A table with the `INT` columns `a` and `b` and the record 1, 1. -/
def twoInts : Db :=
  Db.boot (fun _ => ⟨[⟨"a", .int, 4, 0⟩, ⟨"b", .int, 4, 4⟩], [], twoInts_layout, twoInts_indexed⟩)
    (fun _ => ⟨2, 8⟩)
    (fun r => ⟨decide (r.rid.slotNo = 0), ⟨[1, 0, 0, 0, 1, 0, 0, 0], none⟩⟩) (fun _ => [])

/-- Transaction 1 commits its literal to the row; then transaction 0, which has begun before, runs
`UPDATE t SET a = 7` and commits. -/
def setOvertaken (other : ColMeta × BitVec 32) : Option (Db × Db × Db × Db) := do
  let db ← run execStep twoInts
    [.begin true .snapshotIsolation, .begin true .snapshotIsolation,
      .update 1 "t" [assignClause other] ⟨1, 0⟩, .endStmt 1, .commit 1]
  let db1 ← execStep db (.update 0 "t" ([(⟨"a", .int, 4, 0⟩, 7)].map assignClause) ⟨1, 0⟩)
  let db2 ← run execStep db1 [.endStmt 0]
  let db3 ← execStep db2 (.commit 0)
  some (db, db1, db2, db3)

theorem setOvertaken_run {other : ColMeta × BitVec 32}
    (h : setOvertaken other = some (db, db1, db2, db3)) :
    UpdateRun twoInts 0 ⟨"t", ⟨1, 0⟩⟩ ([(⟨"a", .int, 4, 0⟩, 7)].map assignClause) db db1 db2 db3 := by
  unfold setOvertaken at h
  obtain ⟨dba, hbefore, h⟩ := Option.bind_eq_some_iff.1 h
  obtain ⟨dbb, hupdate, h⟩ := Option.bind_eq_some_iff.1 h
  obtain ⟨dbc, hrest, h⟩ := Option.bind_eq_some_iff.1 h
  obtain ⟨dbd, hcommit, h⟩ := Option.bind_eq_some_iff.1 h
  cases h
  refine ⟨⟨_, hbefore⟩, hupdate, ⟨_, ?_, List.mem_singleton_self _, hrest⟩, hcommit⟩
  intro a ha
  rw [List.mem_singleton.1 ha]
  exact id

/-- The other transaction has written the other column. -/
theorem run_literalsStored_apart : ∃ db db1 db2 db3,
    UpdateRun twoInts 0 ⟨"t", ⟨1, 0⟩⟩ ([(⟨"a", .int, 4, 0⟩, 7)].map assignClause) db db1 db2 db3 ∧
      LiteralsStored db2 db3 0 ⟨"t", ⟨1, 0⟩⟩ [(⟨"a", .int, 4, 0⟩, 7)] := by
  obtain ⟨⟨db, db1, db2, db3⟩, h⟩ := Option.isSome_iff_exists.1
    (by decide +kernel : (setOvertaken (⟨"b", .int, 4, 4⟩, 5)).isSome = true)
  have hrun := setOvertaken_run h
  refine ⟨db, db1, db2, db3, hrun, (run_literalsStored_iff (fun _ _ => rfl) hrun ?_).2 ?_⟩
  · have hcol : ((setOvertaken (⟨"b", .int, 4, 4⟩, 5)).any fun dbs =>
        decide ((dbs.1.tabs "t").findCol "a" = some ⟨"a", .int, 4, 0⟩)) = true := by decide +kernel
    rw [h] at hcol
    intro a ha
    rw [List.mem_singleton.1 ha]
    exact ⟨of_decide_eq_true hcol, rfl, rfl⟩
  · have hk : ((setOvertaken (⟨"b", .int, 4, 4⟩, 5)).any fun dbs =>
        decide (dbs.1.AssignsLiterals 0 ⟨"t", ⟨1, 0⟩⟩ [(⟨"a", .int, 4, 0⟩, 7)])) = true := by decide +kernel
    rw [h] at hk
    exact of_decide_eq_true hk

/-- It has written 5 to the column: the row ends with 5 + (7 - 1). -/
theorem not_literalsStored_overtaken : ∃ db db1 db2 db3,
    UpdateRun twoInts 0 ⟨"t", ⟨1, 0⟩⟩ ([(⟨"a", .int, 4, 0⟩, 7)].map assignClause) db db1 db2 db3 ∧
      db3.version ⟨"t", ⟨1, 0⟩⟩ = some [11, 0, 0, 0, 1, 0, 0, 0] ∧
      ¬ LiteralsStored db2 db3 0 ⟨"t", ⟨1, 0⟩⟩ [(⟨"a", .int, 4, 0⟩, 7)] := by
  obtain ⟨⟨db, db1, db2, db3⟩, h⟩ := Option.isSome_iff_exists.1
    (by decide +kernel : (setOvertaken (⟨"a", .int, 4, 0⟩, 5)).isSome = true)
  have hversion : ((setOvertaken (⟨"a", .int, 4, 0⟩, 5)).any fun dbs =>
      decide (dbs.2.2.2.version ⟨"t", ⟨1, 0⟩⟩ = some [11, 0, 0, 0, 1, 0, 0, 0])) = true := by decide +kernel
  rw [h] at hversion
  have hversion : db3.version ⟨"t", ⟨1, 0⟩⟩ = some [11, 0, 0, 0, 1, 0, 0, 0] := of_decide_eq_true hversion
  refine ⟨db, db1, db2, db3, setOvertaken_run h, hversion, ?_⟩
  intro hall
  obtain ⟨-, b, hst, hword⟩ := hall _ List.mem_cons_self
  rw [hst.version] at hversion
  cases hversion
  revert hword
  decide

end Rmdb.Txn
