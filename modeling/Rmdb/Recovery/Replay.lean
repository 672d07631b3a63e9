import Rmdb.Txn.Manager
import Rmdb.Txn.Words

/-!
# Recovery over a list of log records

`RecoveryManager::analyze`, `undo_pass` and `redo` (src/recovery/log_recovery.cpp) once the log
has been read into records.  The heap is the records of all tables by row; `ensure_pages` only
adds empty pages.  A row of a table that is not open is skipped.
-/

namespace Rmdb.Recovery

open Rmdb.Txn

abbrev Heap := RowId → Option Bytes

/-! ## The records of the heap -/

def applyInsert (data : Bytes) : Option Bytes → Option Bytes := fun _ => some data
def applyUpdate (data : Bytes) : Option Bytes → Option Bytes := fun _ => some data
def applyDelete : Option Bytes → Option Bytes := fun _ => none

/-- `memcpy` of one range into the record; a range past its end is skipped. -/
def patchRange (b : Bytes) (off : Nat) (v : Bytes) : Bytes :=
  if off + v.length > b.length then b else putBytes b off v

/-- The old bytes of all ranges. -/
def patchOld (b : Bytes) (ranges : List (Nat × Bytes × Bytes)) : Bytes :=
  ranges.foldl (fun b rg => patchRange b rg.1 rg.2.1) b

/-- The new bytes of all ranges. -/
def patchNew (b : Bytes) (ranges : List (Nat × Bytes × Bytes)) : Bytes :=
  ranges.foldl (fun b rg => patchRange b rg.1 rg.2.2) b

/-- `redo_one` on the record of its row. -/
def redoVal : LogRecord → Option Bytes → Option Bytes
  | .insert _ _ value => applyInsert value
  | .delete _ _ _ => applyDelete
  | .update _ _ _ new => applyUpdate new
  | .updateDelta _ _ ranges => fun v => v.bind fun b => applyUpdate (patchNew b ranges) v
  | .begin _ | .commit _ | .abort _ | .ckpt => id

/-- One operation of `undo_pass` on the record of its row. -/
def undoVal : LogRecord → Option Bytes → Option Bytes
  | .insert _ _ _ => applyDelete
  | .delete _ _ old => fun v => if v.isSome then v else applyInsert old v
  | .update _ _ old _ => applyUpdate old
  | .updateDelta _ _ ranges => fun v => v.bind fun b => applyUpdate (patchOld b ranges) v
  | .begin _ | .commit _ | .abort _ | .ckpt => id

/-- The row and the transaction of an operation. -/
def op? : LogRecord → Option (TxnId × RowId)
  | .insert t r _ | .delete t r _ | .update t r _ _ | .updateDelta t r _ => some (t, r)
  | .begin _ | .commit _ | .abort _ | .ckpt => none

/-- Work on the row of `l`, if its table is open. -/
def onRow (known : TabName → Bool) (f : LogRecord → Option Bytes → Option Bytes) (heap : Heap)
    (l : LogRecord) : Heap :=
  match op? l with
  | none => heap
  | some (_, r) => if known r.tab then Function.update heap r (f l (heap r)) else heap

/-! ## The three passes -/

structure Analysis where
  committed : List TxnId
  uncommitted : TxnId → List LogRecord

/-- `handle_rec`. -/
def handleRec (a : Analysis) (l : LogRecord) : Analysis :=
  match l with
  | .commit t => ⟨a.committed.insert t, Function.update a.uncommitted t []⟩
  | .begin _ | .abort _ | .ckpt => a
  | .insert t _ _ | .delete t _ _ | .update t _ _ _ | .updateDelta t _ _ =>
      { a with uncommitted := Function.update a.uncommitted t (a.uncommitted t ++ [l]) }

def analyze (log : List LogRecord) : Analysis := log.foldl handleRec ⟨[], fun _ => []⟩

/-- `undo_pass` with the losers in the order `order`, each from its last operation back. -/
def undoPass (known : TabName → Bool) (a : Analysis) (order : List TxnId) (heap : Heap) : Heap :=
  order.foldl (fun heap t => (a.uncommitted t).reverse.foldl (onRow known undoVal) heap) heap

/-- `redo_one`: records of other transactions are skipped. -/
def redoOne (known : TabName → Bool) (a : Analysis) (heap : Heap) (l : LogRecord) : Heap :=
  match op? l with
  | none => heap
  | some (t, _) => if t ∈ a.committed then onRow known redoVal heap l else heap

/-- `redo`: the losers first, then the committed records in log order. -/
def redo (known : TabName → Bool) (a : Analysis) (order : List TxnId) (log : List LogRecord)
    (heap : Heap) : Heap :=
  let heap := undoPass known a order heap
  if a.committed = [] then heap else log.foldl (redoOne known a) heap

/-- Recovery of the heap from a log. -/
def recover (known : TabName → Bool) (order : List TxnId) (log : List LogRecord) (heap : Heap) :
    Heap :=
  redo known (analyze log) order log heap

/-! ## The passes seen by one row -/

/-- The operations of `t` on `r`. -/
def opsOf (log : List LogRecord) (t : TxnId) (r : RowId) : List LogRecord :=
  log.filter fun l => op? l = some (t, r)

/-- The operations of committed transactions on `r`. -/
def winnersOf (log : List LogRecord) (r : RowId) : List LogRecord :=
  log.filter fun l => (op? l).any fun p => decide (p.2 = r) && decide (.commit p.1 ∈ log)

theorem onRow_self {known : TabName → Bool} {f : LogRecord → Option Bytes → Option Bytes}
    {heap : Heap} {l : LogRecord} {r : RowId} (hr : known r.tab = true) :
    onRow known f heap l r =
      if (op? l).any (fun p => decide (p.2 = r)) then f l (heap r) else heap r := by
  unfold onRow
  cases h : op? l with
  | none => simp
  | some p =>
      obtain ⟨t, r'⟩ := p
      by_cases hrr : r' = r
      · subst hrr
        simp [hr]
      · dsimp only
        split
        · rw [Function.update_of_ne (Ne.symm hrr)]
          simp [hrr]
        · simp [hrr]

/-- A pass over operations, seen by one row. -/
theorem foldl_onRow {known : TabName → Bool} {f : LogRecord → Option Bytes → Option Bytes}
    {r : RowId} (hr : known r.tab = true) : ∀ (ls : List LogRecord) (heap : Heap),
    ls.foldl (onRow known f) heap r =
      (ls.filter fun l => (op? l).any fun p => decide (p.2 = r)).foldl (fun v l => f l v) (heap r) := by
  intro ls
  induction ls with
  | nil => exact fun _ => rfl
  | cons l ls ih =>
      intro heap
      rw [List.foldl_cons, ih, onRow_self hr, List.filter_cons]
      split <;> rfl

theorem foldl_redoOne {known : TabName → Bool} {a : Analysis} {r : RowId} (hr : known r.tab = true) :
    ∀ (ls : List LogRecord) (heap : Heap), ls.foldl (redoOne known a) heap r =
      (ls.filter fun l => (op? l).any fun p => decide (p.2 = r) && decide (p.1 ∈ a.committed)).foldl
        (fun v l => redoVal l v) (heap r) := by
  intro ls
  induction ls with
  | nil => exact fun _ => rfl
  | cons l ls ih =>
      intro heap
      rw [List.foldl_cons, ih, List.filter_cons]
      unfold redoOne
      cases h : op? l with
      | none => simp
      | some p =>
          obtain ⟨t, r'⟩ := p
          dsimp only
          by_cases ht : t ∈ a.committed
          · rw [if_pos ht, onRow_self hr, h]
            by_cases hrr : r' = r <;> simp [ht, hrr]
          · rw [if_neg ht]
            simp [ht]

/-! ## What the analysis finds -/

theorem analyze_concat (log : List LogRecord) (l : LogRecord) :
    analyze (log ++ [l]) = handleRec (analyze log) l := by
  unfold analyze
  rw [List.foldl_append]
  rfl

theorem handleRec_of_op {a : Analysis} {l : LogRecord} {t : TxnId} {r : RowId}
    (h : op? l = some (t, r)) : handleRec a l =
      { a with uncommitted := Function.update a.uncommitted t (a.uncommitted t ++ [l]) } := by
  cases l <;> cases h <;> rfl

theorem mem_committed (log : List LogRecord) (t : TxnId) :
    t ∈ (analyze log).committed ↔ .commit t ∈ log := by
  induction log using List.reverseRecOn with
  | nil => simp [analyze]
  | append_singleton log l ih =>
      rw [analyze_concat]
      cases l <;> simp [handleRec, ih, or_comm]

end Rmdb.Recovery
