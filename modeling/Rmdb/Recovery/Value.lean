import Rmdb.Lib.Run
import Rmdb.Recovery.Replay

/-!
# Undo and redo on the value of one row

`applyRec l v` is the value of a row after the operation that logged `l`, when its
before-image is `v`.  Undoing a chain of operations from any value, and redoing one, is
described byte by byte: a range patch fixes the bytes of its ranges and nothing else.
-/

namespace Rmdb.Recovery

open Rmdb.Txn
open Rmdb.Lib (run run_nil run_cons run_append)

abbrev Range := Nat × Bytes × Bytes

/-- A range of the record `b`: inside it, and with its bytes as the old ones. -/
def RangeOk (b : Bytes) (rg : Range) : Prop :=
  rg.2.2.length = rg.2.1.length ∧ rg.1 + rg.2.1.length ≤ b.length ∧
    getBytes b rg.1 rg.2.1.length = rg.2.1

instance (b : Bytes) (rg : Range) : Decidable (RangeOk b rg) := inferInstanceAs (Decidable (_ ∧ _))

/-- The value after `l`; `none` when `v` is not its before-image. -/
def applyRec (l : LogRecord) (v : Option Bytes) : Option (Option Bytes) :=
  match l, v with
  | .insert _ _ value, none => some (some value)
  | .delete _ _ old, some b => if b = old then some none else none
  | .update _ _ old new, some b => if b = old then some (some new) else none
  | .updateDelta _ _ ranges, some b =>
      if ∀ rg ∈ ranges, RangeOk b rg then some (some (patchNew b ranges)) else none
  | _, _ => none

/-- The operations one after another, each on its before-image. -/
def chain (v : Option Bytes) (ops : List LogRecord) : Option (Option Bytes) :=
  run (fun v l => applyRec l v) v ops

/-- Is byte `i` in one of the ranges? -/
def InRanges (ranges : List Range) (i : Nat) : Prop :=
  ∃ rg ∈ ranges, rg.1 ≤ i ∧ i < rg.1 + rg.2.1.length

/-- The bytes a record patches. -/
def patched (l : LogRecord) (i : Nat) : Prop :=
  match l with
  | .updateDelta _ _ ranges => InRanges ranges i
  | _ => False

def Patched (ops : List LogRecord) (i : Nat) : Prop := ∃ l ∈ ops, patched l i

theorem patched_cons {l : LogRecord} {ops : List LogRecord} {i : Nat} :
    Patched (l :: ops) i ↔ patched l i ∨ Patched ops i := by
  simp [Patched]

/-! ## Patches -/

theorem patchRange_length (b : Bytes) (off : Nat) (v : Bytes) :
    (patchRange b off v).length = b.length := by
  unfold patchRange
  split
  · rfl
  · exact putBytes_length (by omega)

theorem patchNew_length (ranges : List Range) : ∀ b, (patchNew b ranges).length = b.length := by
  induction ranges with
  | nil => exact fun _ => rfl
  | cons rg ranges ih => exact fun b => (ih _).trans (patchRange_length _ _ _)

theorem patchRange_getElem? {b v : Bytes} {off : Nat} (h : off + v.length ≤ b.length) (i : Nat) :
    (patchRange b off v)[i]? = if off ≤ i ∧ i < off + v.length then v[i - off]? else b[i]? := by
  unfold patchRange
  rw [if_neg (by omega), putBytes_getElem? h]

theorem RangeOk.getElem? {b : Bytes} {rg : Range} (h : RangeOk b rg) {i : Nat}
    (hi : rg.1 ≤ i ∧ i < rg.1 + rg.2.1.length) : rg.2.1[i - rg.1]? = b[i]? := by
  rw [← h.2.2, getBytes, List.getElem?_take_of_lt (by omega), List.getElem?_drop]
  congr 1
  omega

theorem RangeOk.congr {b b' : Bytes} {rg : Range} (h : RangeOk b rg) (hlen : b'.length = b.length) :
    rg.1 + rg.2.1.length ≤ b'.length ∧ rg.1 + rg.2.2.length ≤ b'.length := by
  obtain ⟨h1, h2, -⟩ := h
  omega

/-- The old bytes put back into a record of the same size. -/
theorem patchOld_getElem? {b : Bytes} {i : Nat} : ∀ (ranges : List Range) (b' : Bytes),
    (∀ rg ∈ ranges, RangeOk b rg) → b'.length = b.length →
    (InRanges ranges i → (patchOld b' ranges)[i]? = b[i]?) ∧
      (¬ InRanges ranges i → (patchOld b' ranges)[i]? = b'[i]?) ∧
      ((patchOld b' ranges).length = b.length) ∧
      (b'[i]? = b[i]? → (patchOld b' ranges)[i]? = b[i]?) := by
  intro ranges
  induction ranges with
  | nil =>
      intro b' _ hlen
      refine ⟨?_, fun _ => rfl, hlen, id⟩
      rintro ⟨rg, hrg, -⟩
      cases hrg
  | cons rg ranges ih =>
      intro b' hok hlen
      have hrg := hok rg List.mem_cons_self
      have hstep := patchRange_getElem? (hrg.congr hlen).1 i
      have hlen' : (patchRange b' rg.1 rg.2.1).length = b.length :=
        (patchRange_length _ _ _).trans hlen
      obtain ⟨hin, hout, hl, hkeep⟩ := ih (patchRange b' rg.1 rg.2.1)
        (fun rg' h' => hok rg' (List.mem_cons_of_mem _ h')) hlen'
      have heq : patchOld b' (rg :: ranges) = patchOld (patchRange b' rg.1 rg.2.1) ranges := rfl
      rw [heq]
      have hself : rg.1 ≤ i ∧ i < rg.1 + rg.2.1.length → (patchRange b' rg.1 rg.2.1)[i]? = b[i]? := by
        intro hi
        rw [hstep, if_pos hi]
        exact hrg.getElem? hi
      refine ⟨?_, ?_, hl, ?_⟩
      · rintro ⟨rg', hmem, hi⟩
        rcases List.mem_cons.1 hmem with rfl | hmem
        · exact hkeep (hself hi)
        · exact hin ⟨rg', hmem, hi⟩
      · intro hnot
        have h1 : ¬ InRanges ranges i := fun ⟨rg', hmem, hi⟩ =>
          hnot ⟨rg', List.mem_cons_of_mem _ hmem, hi⟩
        have h2 : ¬ (rg.1 ≤ i ∧ i < rg.1 + rg.2.1.length) := fun hi =>
          hnot ⟨rg, List.mem_cons_self, hi⟩
        rw [hout h1, hstep, if_neg h2]
      · intro hbi
        apply hkeep
        by_cases hi : rg.1 ≤ i ∧ i < rg.1 + rg.2.1.length
        · exact hself hi
        · rw [hstep, if_neg hi, hbi]

/-- New bytes are the same in records of one size, and outside the ranges nothing changes. -/
theorem patchNew_getElem? {b : Bytes} {i : Nat} : ∀ (ranges : List Range) (a d : Bytes),
    (∀ rg ∈ ranges, RangeOk b rg) → a.length = b.length → d.length = b.length →
    (InRanges ranges i ∨ a[i]? = d[i]? → (patchNew a ranges)[i]? = (patchNew d ranges)[i]?) ∧
      (¬ InRanges ranges i → (patchNew a ranges)[i]? = a[i]?) := by
  intro ranges
  induction ranges with
  | nil =>
      intro a d _ _ _
      refine ⟨?_, fun _ => rfl⟩
      rintro (⟨rg, hrg, -⟩ | h)
      · cases hrg
      · exact h
  | cons rg ranges ih =>
      intro a d hok ha hd
      have hrg := hok rg List.mem_cons_self
      have hsa := patchRange_getElem? (hrg.congr ha).2 i
      have hsd := patchRange_getElem? (hrg.congr hd).2 i
      obtain ⟨hsame, hout⟩ := ih (patchRange a rg.1 rg.2.2) (patchRange d rg.1 rg.2.2)
        (fun rg' h' => hok rg' (List.mem_cons_of_mem _ h'))
        ((patchRange_length _ _ _).trans ha) ((patchRange_length _ _ _).trans hd)
      have hea : patchNew a (rg :: ranges) = patchNew (patchRange a rg.1 rg.2.2) ranges := rfl
      have hed : patchNew d (rg :: ranges) = patchNew (patchRange d rg.1 rg.2.2) ranges := rfl
      rw [hea, hed]
      have hself : rg.1 ≤ i ∧ i < rg.1 + rg.2.1.length ∨ a[i]? = d[i]? →
          (patchRange a rg.1 rg.2.2)[i]? = (patchRange d rg.1 rg.2.2)[i]? := by
        intro h
        rw [hsa, hsd]
        split
        · rfl
        · rename_i hni
          rw [hrg.1] at hni
          exact h.resolve_left hni
      refine ⟨?_, ?_⟩
      · rintro (⟨rg', hmem, hi⟩ | heq)
        · rcases List.mem_cons.1 hmem with rfl | hmem
          · exact hsame (.inr (hself (.inl hi)))
          · exact hsame (.inl ⟨rg', hmem, hi⟩)
        · exact hsame (.inr (hself (.inr heq)))
      · intro hnot
        have h1 : ¬ InRanges ranges i := fun ⟨rg', hmem, hi⟩ =>
          hnot ⟨rg', List.mem_cons_of_mem _ hmem, hi⟩
        have h2 : ¬ (rg.1 ≤ i ∧ i < rg.1 + rg.2.2.length) := by
          rw [hrg.1]
          exact fun hi => hnot ⟨rg, List.mem_cons_self, hi⟩
        rw [hout h1, hsa, if_neg h2]

/-! ## One operation -/

theorem redoVal_applyRec {l : LogRecord} {v w : Option Bytes} (h : applyRec l v = some w) :
    redoVal l v = w := by
  unfold applyRec at h
  split at h
  · cases h
    rfl
  · obtain ⟨-, h⟩ := Option.ite_none_right_eq_some.1 h
    cases h
    rfl
  · obtain ⟨-, h⟩ := Option.ite_none_right_eq_some.1 h
    cases h
    rfl
  · obtain ⟨-, h⟩ := Option.ite_none_right_eq_some.1 h
    cases h
    rfl
  · cases h

theorem undoVal_applyRec {l : LogRecord} {v w : Option Bytes} (h : applyRec l v = some w) :
    undoVal l w = v := by
  unfold applyRec at h
  split at h
  · cases h
    rfl
  · obtain ⟨heq, h⟩ := Option.ite_none_right_eq_some.1 h
    cases h
    rw [heq]
    rfl
  · obtain ⟨heq, h⟩ := Option.ite_none_right_eq_some.1 h
    cases h
    rw [heq]
    rfl
  · rename_i t r ranges b
    obtain ⟨hok, h⟩ := Option.ite_none_right_eq_some.1 h
    cases h
    have hlen := patchNew_length ranges b
    have hbytes : patchOld (patchNew b ranges) ranges = b := by
      apply List.ext_getElem?
      intro i
      obtain ⟨hin, hout, -, -⟩ := patchOld_getElem? (i := i) ranges (patchNew b ranges) hok hlen
      by_cases hi : InRanges ranges i
      · exact hin hi
      · rw [hout hi]
        exact (patchNew_getElem? ranges b b hok rfl rfl).2 hi
    show some (patchOld (patchNew b ranges) ranges) = some b
    rw [hbytes]
  · cases h

/-- The operations and their before-images. -/
theorem applyRec_cases {l : LogRecord} {v w : Option Bytes} (h : applyRec l v = some w) :
    (∃ t r value, l = .insert t r value ∧ v = none ∧ w = some value) ∨
    (∃ t r b, l = .delete t r b ∧ v = some b ∧ w = none) ∨
    (∃ t r b new, l = .update t r b new ∧ v = some b ∧ w = some new) ∨
    ∃ t r ranges b, l = .updateDelta t r ranges ∧ v = some b ∧ (∀ rg ∈ ranges, RangeOk b rg) ∧
      w = some (patchNew b ranges) := by
  unfold applyRec at h
  split at h
  · cases h
    exact .inl ⟨_, _, _, rfl, rfl, rfl⟩
  · obtain ⟨heq, h⟩ := Option.ite_none_right_eq_some.1 h
    cases h
    exact .inr (.inl ⟨_, _, _, rfl, congrArg some heq, rfl⟩)
  · obtain ⟨heq, h⟩ := Option.ite_none_right_eq_some.1 h
    cases h
    exact .inr (.inr (.inl ⟨_, _, _, _, rfl, congrArg some heq, rfl⟩))
  · obtain ⟨hok, h⟩ := Option.ite_none_right_eq_some.1 h
    cases h
    exact .inr (.inr (.inr ⟨_, _, _, _, rfl, rfl, hok, rfl⟩))
  · cases h

/-! ## Undoing a chain of operations -/

/-- The operation fixes the whole row whatever it was before. -/
def isReset : LogRecord → Bool
  | .insert _ _ _ | .update _ _ _ _ => true
  | _ => false

def isDelete : LogRecord → Bool
  | .delete _ _ _ => true
  | _ => false

/-- The operations undone from the last to the first. -/
def undoAll (ops : List LogRecord) (v : Option Bytes) : Option Bytes := ops.foldr undoVal v

theorem undoAll_eq (ops : List LogRecord) (v : Option Bytes) :
    ops.reverse.foldl (fun v l => undoVal l v) v = undoAll ops v := List.foldl_reverse

variable {u v w x : Option Bytes} {l : LogRecord} {ops : List LogRecord}

theorem chain_cons (h : chain v (l :: ops) = some w) :
    ∃ v1, applyRec l v = some v1 ∧ chain v1 ops = some w :=
  Option.bind_eq_some_iff.1 h

/-- Without inserts and full updates a missing row has no operations. -/
theorem chain_none (h : chain none ops = some w) (hno : ∀ l ∈ ops, isReset l = false) : ops = [] := by
  cases ops with
  | nil => rfl
  | cons l ops =>
      obtain ⟨v1, hl, -⟩ := chain_cons h
      have hreset := hno l List.mem_cons_self
      rcases applyRec_cases hl with ⟨t, r, value, rfl, -⟩ | ⟨t, r, b, -, hv, -⟩ |
        ⟨t, r, b, new, -, hv, -⟩ | ⟨t, r, ranges, b, -, hv, -⟩
      · cases hreset
      · cases hv
      · cases hv
      · cases hv

/-- An insert or a full update among them: undoing gives the first value from any value. -/
theorem undoAll_reset (x : Option Bytes) : ∀ (ops : List LogRecord) (u : Option Bytes),
    chain u ops = some w → (∃ l ∈ ops, isReset l = true) → undoAll ops x = u := by
  intro ops
  induction ops with
  | nil =>
      rintro u - ⟨l, hl, -⟩
      cases hl
  | cons l ops ih =>
      intro u h hres
      obtain ⟨u1, hl, hrest⟩ := chain_cons h
      show undoVal l (undoAll ops x) = u
      by_cases hlater : ∃ l ∈ ops, isReset l = true
      · rw [ih u1 hrest hlater]
        exact undoVal_applyRec hl
      · have hself : isReset l = true := by
          obtain ⟨l', hmem, hl'⟩ := hres
          rcases List.mem_cons.1 hmem with rfl | hmem
          · exact hl'
          · exact absurd ⟨l', hmem, hl'⟩ hlater
        rcases applyRec_cases hl with ⟨t, r, value, rfl, rfl, -⟩ | ⟨t, r, b, rfl, -⟩ |
          ⟨t, r, b, new, rfl, rfl, -⟩ | ⟨t, r, ranges, b, rfl, -⟩
        · rfl
        · cases hself
        · rfl
        · cases hself

/-- A delete among them: undoing from a missing row gives the first value. -/
theorem undoAll_missing : ∀ (ops : List LogRecord) (u : Option Bytes), chain u ops = some w →
    (∀ l ∈ ops, isReset l = false) → (∃ l ∈ ops, isDelete l = true) → undoAll ops none = u := by
  intro ops
  induction ops with
  | nil =>
      rintro u - - ⟨l, hl, -⟩
      cases hl
  | cons l ops ih =>
      intro u h hno hdel
      obtain ⟨u1, hl, hrest⟩ := chain_cons h
      have hno' := fun l' hl' => hno l' (List.mem_cons_of_mem _ hl')
      show undoVal l (undoAll ops none) = u
      by_cases hlater : ∃ l ∈ ops, isDelete l = true
      · rw [ih u1 hrest hno' hlater]
        exact undoVal_applyRec hl
      · have hself : isDelete l = true := by
          obtain ⟨l', hmem, hl'⟩ := hdel
          rcases List.mem_cons.1 hmem with rfl | hmem
          · exact hl'
          · exact absurd ⟨l', hmem, hl'⟩ hlater
        rcases applyRec_cases hl with ⟨t, r, value, rfl, -⟩ | ⟨t, r, b, rfl, rfl, rfl⟩ |
          ⟨t, r, b, new, rfl, -⟩ | ⟨t, r, ranges, b, rfl, -⟩
        · cases hself
        · rw [chain_none hrest hno']
          rfl
        · cases hself
        · cases hself

/-- Range patches only: a missing row stays missing. -/
theorem undoAll_patches : ∀ (ops : List LogRecord) (u : Option Bytes), chain u ops = some w →
    (∀ l ∈ ops, isReset l = false ∧ isDelete l = false) → undoAll ops none = none := by
  intro ops
  induction ops with
  | nil => exact fun _ _ _ => rfl
  | cons l ops ih =>
      intro u h hno
      obtain ⟨u1, hl, hrest⟩ := chain_cons h
      obtain ⟨h1, h2⟩ := hno l List.mem_cons_self
      show undoVal l (undoAll ops none) = none
      rw [ih u1 hrest fun l' hl' => hno l' (List.mem_cons_of_mem _ hl')]
      rcases applyRec_cases hl with ⟨t, r, value, rfl, -⟩ | ⟨t, r, b, rfl, -⟩ |
        ⟨t, r, b, new, rfl, -⟩ | ⟨t, r, ranges, b, rfl, -⟩
      · cases h1
      · cases h2
      · cases h1
      · rfl

/-- Undoing patches, and possibly a delete at the end, on a record: patched bytes are those of
the first value, the others stay. -/
theorem undoAll_some {a : Bytes} : ∀ (ops : List LogRecord) (b : Bytes),
    chain (some b) ops = some w → (∀ l ∈ ops, isReset l = false) → a.length = b.length →
    ∃ a', undoAll ops (some a) = some a' ∧ a'.length = b.length ∧
      ∀ i, (Patched ops i → a'[i]? = b[i]?) ∧ (¬ Patched ops i → a'[i]? = a[i]?) := by
  intro ops
  induction ops with
  | nil =>
      intro b _ _ hlen
      refine ⟨a, rfl, hlen, fun i => ⟨?_, fun _ => rfl⟩⟩
      rintro ⟨l, hl, -⟩
      cases hl
  | cons l ops ih =>
      intro b h hno hlen
      obtain ⟨u1, hl, hrest⟩ := chain_cons h
      have hreset := hno l List.mem_cons_self
      have hno' := fun l' hl' => hno l' (List.mem_cons_of_mem _ hl')
      have hfold : undoAll (l :: ops) (some a) = undoVal l (undoAll ops (some a)) := rfl
      rcases applyRec_cases hl with ⟨t, r, value, rfl, -⟩ | ⟨t, r, b', rfl, -, rfl⟩ |
        ⟨t, r, b', new, rfl, -⟩ | ⟨t, r, ranges, b', rfl, hb, hok, rfl⟩
      · cases hreset
      · -- after a delete there is nothing left to undo
        rw [hfold, chain_none hrest hno']
        refine ⟨a, rfl, hlen, fun i => ⟨?_, fun _ => rfl⟩⟩
        rintro ⟨l, hl, hp⟩
        rw [List.mem_singleton.1 hl] at hp
        exact hp.elim
      · cases hreset
      · cases hb
        have hlen1 := patchNew_length ranges b
        obtain ⟨a1, ha1, hl1, hbytes⟩ := ih (patchNew b ranges) hrest hno' (hlen.trans hlen1.symm)
        have ha1len : a1.length = b.length := hl1.trans hlen1
        refine ⟨patchOld a1 ranges, by rw [hfold, ha1]; rfl,
          (patchOld_getElem? (i := 0) ranges a1 hok ha1len).2.2.1, fun i => ?_⟩
        obtain ⟨hin, hout, -, hkeep⟩ := patchOld_getElem? (i := i) ranges a1 hok ha1len
        obtain ⟨hp, hnp⟩ := hbytes i
        have hnew := (patchNew_getElem? (i := i) ranges b b hok rfl rfl).2
        rw [patched_cons]
        refine ⟨?_, ?_⟩
        · intro hpatched
          by_cases hi : InRanges ranges i
          · exact hin hi
          · rw [hout hi, hp (hpatched.resolve_left hi)]
            exact hnew hi
        · intro hnot
          rw [not_or] at hnot
          rw [hout hnot.1, hnp hnot.2]

/-! ## Rows that agree outside some bytes -/

/-- Both rows are missing, or they have one size and the same bytes outside `S`. -/
def Agree (S : Nat → Prop) : Option Bytes → Option Bytes → Prop
  | none, none => True
  | some a, some b => a.length = b.length ∧ ∀ i, ¬ S i → a[i]? = b[i]?
  | _, _ => False

theorem Agree.refl (S : Nat → Prop) (v : Option Bytes) : Agree S v v := by
  cases v with
  | none => trivial
  | some b => exact ⟨rfl, fun _ _ => rfl⟩

theorem Agree.mono {S T : Nat → Prop} (h : Agree S v w) (hST : ∀ i, S i → T i) : Agree T v w := by
  cases v with
  | none =>
      cases w with
      | none => trivial
      | some b => exact h.elim
  | some a =>
      cases w with
      | none => exact h.elim
      | some b => exact ⟨h.1, fun i hi => h.2 i fun hs => hi (hST i hs)⟩

theorem Agree.eq (h : Agree (fun _ => False) v w) : v = w := by
  cases v with
  | none =>
      cases w with
      | none => rfl
      | some b => exact h.elim
  | some a =>
      cases w with
      | none => exact h.elim
      | some b =>
          congr 1
          exact List.ext_getElem? fun i => h.2 i id

/-- `x` is like `v0` outside `T`, or it is missing where `D` allows that. -/
def Near (T : Nat → Prop) (D : Prop) (v0 x : Option Bytes) : Prop := Agree T x v0 ∨ (D ∧ x = none)

/-- Undoing a loser whose first value is like `v0` keeps a row near `v0`. -/
theorem undoAll_near {S T : Nat → Prop} {D : Prop} {v0 : Option Bytes} (hx : Near T D v0 x)
    (hu : Agree S u v0) (hST : ∀ i, S i → T i) (hc : chain u ops = some w) :
    Near T D v0 (undoAll ops x) := by
  by_cases hres : ∃ l ∈ ops, isReset l = true
  · rw [undoAll_reset x ops u hc hres]
    exact .inl (hu.mono hST)
  have hno : ∀ l ∈ ops, isReset l = false := fun l hl => by
    simpa using fun h => hres ⟨l, hl, h⟩
  rcases hx with hx | ⟨hD, rfl⟩
  · cases x with
    | none =>
        cases v0 with
        | some b => exact hx.elim
        | none =>
            cases u with
            | some b => exact hu.elim
            | none =>
                rw [chain_none hc hno]
                exact .inl trivial
    | some a =>
        cases v0 with
        | none => exact hx.elim
        | some b0 =>
            cases u with
            | none => exact hu.elim
            | some b =>
                obtain ⟨a', ha', hlen, hbytes⟩ := undoAll_some ops b hc hno (hx.1.trans hu.1.symm)
                rw [ha']
                refine .inl ⟨hlen.trans hu.1, fun i hi => ?_⟩
                by_cases hp : Patched ops i
                · rw [(hbytes i).1 hp]
                  exact hu.2 i fun hs => hi (hST i hs)
                · rw [(hbytes i).2 hp]
                  exact hx.2 i hi
  · by_cases hdel : ∃ l ∈ ops, isDelete l = true
    · rw [undoAll_missing ops u hc hno hdel]
      exact .inl (hu.mono hST)
    · have hno' : ∀ l ∈ ops, isReset l = false ∧ isDelete l = false := fun l hl =>
        ⟨hno l hl, by simpa using fun h => hdel ⟨l, hl, h⟩⟩
      rw [undoAll_patches ops u hc hno']
      exact .inr ⟨hD, rfl⟩

/-- Undoing the loser whose value the row holds brings the row back to `v0`. -/
theorem undoAll_own {S : Nat → Prop} {v0 : Option Bytes} (hu : Agree S u v0)
    (hc : chain u ops = some w)
    (hx : (∃ l ∈ ops, isReset l = true) ∨
      Near (fun i => S i ∨ Patched ops i) (∃ l ∈ ops, isDelete l = true) v0 x) :
    Agree S (undoAll ops x) v0 := by
  by_cases hres : ∃ l ∈ ops, isReset l = true
  · rw [undoAll_reset x ops u hc hres]
    exact hu
  have hno : ∀ l ∈ ops, isReset l = false := fun l hl => by
    simpa using fun h => hres ⟨l, hl, h⟩
  rcases hx.resolve_left hres with hx | ⟨hdel, rfl⟩
  · cases x with
    | none =>
        cases v0 with
        | some b => exact hx.elim
        | none =>
            cases u with
            | some b => exact hu.elim
            | none =>
                rw [chain_none hc hno]
                trivial
    | some a =>
        cases v0 with
        | none => exact hx.elim
        | some b0 =>
            cases u with
            | none => exact hu.elim
            | some b =>
                obtain ⟨a', ha', hlen, hbytes⟩ := undoAll_some ops b hc hno (hx.1.trans hu.1.symm)
                rw [ha']
                refine ⟨hlen.trans hu.1, fun i hi => ?_⟩
                by_cases hp : Patched ops i
                · rw [(hbytes i).1 hp]
                  exact hu.2 i hi
                · rw [(hbytes i).2 hp]
                  exact hx.2 i fun h => h.elim hi hp
  · rw [undoAll_missing ops u hc hno hdel]
    exact hu

/-- A loser's value before its last operations. -/
theorem chain_near {S : Nat → Prop} {v0 y : Option Bytes} {more : List LogRecord} (hu : Agree S u v0)
    (hc : chain u ops = some y) (hno : ∀ l ∈ ops ++ more, isReset l = false) :
    Near (fun i => S i ∨ Patched (ops ++ more) i) (∃ l ∈ ops ++ more, isDelete l = true) v0 y := by
  induction ops generalizing u S with
  | nil =>
      cases hc
      exact .inl (hu.mono fun i hi => .inl hi)
  | cons l ops ih =>
      obtain ⟨u1, hl, hrest⟩ := chain_cons hc
      have hreset := hno l List.mem_cons_self
      have hno' : ∀ l ∈ ops ++ more, isReset l = false := fun l' hl' =>
        hno l' (List.mem_cons_of_mem _ hl')
      rcases applyRec_cases hl with ⟨t, r, value, rfl, -⟩ | ⟨t, r, b, rfl, -, rfl⟩ |
        ⟨t, r, b, new, rfl, -⟩ | ⟨t, r, ranges, b, rfl, rfl, hok, rfl⟩
      · cases hreset
      · have hnil : ops = [] := chain_none hrest fun l' hl' => hno' l' (List.mem_append_left _ hl')
        subst hnil
        cases hrest
        exact .inr ⟨⟨_, List.mem_cons_self, rfl⟩, rfl⟩
      · cases hreset
      · cases v0 with
        | none => exact hu.elim
        | some b0 =>
            have hu1 : Agree (fun i => S i ∨ InRanges ranges i) (some (patchNew b ranges)) (some b0) := by
              refine ⟨(patchNew_length ranges b).trans hu.1, fun i hi => ?_⟩
              rw [not_or] at hi
              rw [(patchNew_getElem? ranges b b hok rfl rfl).2 hi.2]
              exact hu.2 i hi.1
            refine (ih hu1 hrest hno').imp (fun h => h.mono ?_) fun ⟨⟨l', hl', hd⟩, hy⟩ =>
              ⟨⟨l', List.mem_cons_of_mem _ hl', hd⟩, hy⟩
            rintro i ((hi | hi) | hi)
            · exact .inl hi
            · exact .inr (patched_cons.2 (.inl hi))
            · exact .inr (patched_cons.2 (.inr hi))

/-! ## Redoing a chain of operations -/

def redoAll (ops : List LogRecord) (v : Option Bytes) : Option Bytes :=
  ops.foldl (fun v l => redoVal l v) v

/-- Is it a range patch? -/
def isPatch : LogRecord → Bool
  | .updateDelta _ _ _ => true
  | _ => false

theorem redoAll_chain : ∀ (ops : List LogRecord) (v : Option Bytes), chain v ops = some w →
    redoAll ops v = w := by
  intro ops
  induction ops with
  | nil =>
      intro v h
      cases h
      rfl
  | cons l ops ih =>
      intro v h
      obtain ⟨v1, hl, hrest⟩ := chain_cons h
      show redoAll ops (redoVal l v) = w
      rw [redoVal_applyRec hl]
      exact ih v1 hrest

/-- With an operation that is not a patch, redo gives the last value from any value. -/
theorem redoAll_any : ∀ (ops : List LogRecord) (v x : Option Bytes), chain v ops = some w →
    (∃ l ∈ ops, isPatch l = false) → redoAll ops x = w := by
  intro ops
  induction ops with
  | nil =>
      rintro v x - ⟨l, hl, -⟩
      cases hl
  | cons l ops ih =>
      intro v x h hnp
      obtain ⟨v1, hl, hrest⟩ := chain_cons h
      show redoAll ops (redoVal l x) = w
      by_cases hlater : ∃ l ∈ ops, isPatch l = false
      · exact ih v1 _ hrest hlater
      · have hself : isPatch l = false := by
          obtain ⟨l', hmem, hl'⟩ := hnp
          rcases List.mem_cons.1 hmem with rfl | hmem
          · exact hl'
          · exact absurd ⟨l', hmem, hl'⟩ hlater
        have hx : redoVal l x = v1 := by
          rcases applyRec_cases hl with ⟨t, r, value, rfl, -, rfl⟩ | ⟨t, r, b, rfl, -, rfl⟩ |
            ⟨t, r, b, new, rfl, -, rfl⟩ | ⟨t, r, ranges, b, rfl, -⟩
          · rfl
          · rfl
          · rfl
          · cases hself
        rw [hx]
        exact redoAll_chain ops v1 hrest

/-- With patches only, redo needs the right bytes outside the patched ones. -/
theorem redoAll_patches {T : Nat → Prop} : ∀ (ops : List LogRecord) (v x : Option Bytes),
    chain v ops = some w → (∀ l ∈ ops, isPatch l = true) → Agree T x v →
    Agree (fun i => T i ∧ ¬ Patched ops i) (redoAll ops x) w := by
  intro ops
  induction ops generalizing T with
  | nil =>
      intro v x h _ hx
      cases h
      refine hx.mono fun i hi => ⟨hi, ?_⟩
      rintro ⟨l, hl, -⟩
      cases hl
  | cons l ops ih =>
      intro v x h hp hx
      obtain ⟨v1, hl, hrest⟩ := chain_cons h
      have hpl := hp l List.mem_cons_self
      show Agree _ (redoAll ops (redoVal l x)) w
      rcases applyRec_cases hl with ⟨t, r, value, rfl, -⟩ | ⟨t, r, b, rfl, -⟩ |
        ⟨t, r, b, new, rfl, -⟩ | ⟨t, r, ranges, b, rfl, rfl, hok, rfl⟩
      · cases hpl
      · cases hpl
      · cases hpl
      · cases x with
        | none => exact hx.elim
        | some a =>
            have hx1 : Agree (fun i => T i ∧ ¬ InRanges ranges i)
                (redoVal (.updateDelta t r ranges) (some a)) (some (patchNew b ranges)) := by
              refine ⟨?_, fun i hi => ?_⟩
              · rw [patchNew_length, patchNew_length]
                exact hx.1
              · refine (patchNew_getElem? ranges a b hok hx.1 rfl).1 ?_
                by_cases hin : InRanges ranges i
                · exact .inl hin
                · exact .inr (hx.2 i fun hT => hi ⟨hT, hin⟩)
            refine (ih _ _ hrest (fun l' hl' => hp l' (List.mem_cons_of_mem _ hl')) hx1).mono ?_
            rintro i ⟨⟨hT, hnr⟩, hnp⟩
            exact ⟨hT, fun h => (patched_cons.1 h).elim hnr hnp⟩

/-- Patches change patched bytes only. -/
theorem chain_patches {S : Nat → Prop} (hp : isPatch l = true) (hS : ∀ i, patched l i → S i)
    {v0 : Option Bytes} (hv : Agree S v v0) (h : applyRec l v = some w) : Agree S w v0 := by
  rcases applyRec_cases h with ⟨t, r, value, rfl, -⟩ | ⟨t, r, b, rfl, -⟩ |
    ⟨t, r, b, new, rfl, -⟩ | ⟨t, r, ranges, b, rfl, rfl, hok, rfl⟩
  · cases hp
  · cases hp
  · cases hp
  · cases v0 with
    | none => exact hv.elim
    | some b0 =>
        refine ⟨(patchNew_length ranges b).trans hv.1, fun i hi => ?_⟩
        rw [(patchNew_getElem? ranges b b hok rfl rfl).2 fun hin => hi (hS i hin)]
        exact hv.2 i hi

end Rmdb.Recovery
